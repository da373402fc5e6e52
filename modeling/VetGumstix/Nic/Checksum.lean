import VetGumstix.Framework.OnesComplement

/-! # The Checksum Routine

    `checksum` is the same C function in the driver (`smsc911x.c`) and in the
    client (`icmp.c`): it adds the 16-bit words of a buffer, as a little-endian
    host reads them, in 32 bits, adds the carries back in twice and returns the
    complement.

    * `checksum_verifies`: a buffer whose checksum was computed with a zeroed
      field, and then stored in it, verifies.
    * `internet_checksum`: up to 131074 bytes the routine computes the Internet
      checksum.
-/

namespace Nic

open Bytes OnesComplement

/-- The loop of `checksum`, with the odd byte at its end. -/
def checksumLoop : List Byte → BitVec 32 → BitVec 32
  | b0 :: b1 :: l, sum => checksumLoop l (sum + (b1 ++ b0).setWidth 32)
  | [b0], sum => sum + b0.setWidth 32
  | [], sum => sum

/-- `checksum(b, len)` on the bytes of the buffer. -/
def checksum (b : List Byte) : BitVec 16 :=
  let sum := checksumLoop b 0
  let sum := (sum >>> 16) + (sum &&& 0xFFFF)
  let sum := sum + (sum >>> 16)
  (~~~sum).setWidth 16

/-- A 16-bit field in memory. -/
def le16 (c : BitVec 16) : List Byte := [c.extractLsb' 0 8, c.extractLsb' 8 8]

/-! ### The value of the routine -/

theorem le_word_toNat (b0 b1 : Byte) :
    ((b1 ++ b0).setWidth 32).toNat = b0.toNat + 256 * b1.toNat := by
  have h0 := b0.isLt
  have h1 := b1.isLt
  rw [BitVec.toNat_setWidth, BitVec.toNat_append, ← Nat.shiftLeft_add_eq_or_of_lt h0,
    Nat.shiftLeft_eq]
  omega

theorem checksumLoop_toNat (l : List Byte) (sum : BitVec 32) (h : sum.toNat + leSum l < 2 ^ 32) :
    (checksumLoop l sum).toNat = sum.toNat + leSum l := by
  induction l, sum using checksumLoop.induct with
  | case1 b0 b1 l sum ih =>
    simp only [leSum] at h
    have hsum : (sum + (b1 ++ b0).setWidth 32).toNat =
        sum.toNat + (b0.toNat + 256 * b1.toNat) := by
      rw [BitVec.toNat_add, le_word_toNat]
      exact Nat.mod_eq_of_lt (by omega)
    rw [checksumLoop, ih (by omega), hsum, leSum]
    omega
  | case2 b0 sum =>
    simp only [leSum] at h
    have hb : (b0.setWidth 32).toNat = b0.toNat := by
      rw [BitVec.toNat_setWidth]
      exact Nat.mod_eq_of_lt (by omega)
    rw [checksumLoop, BitVec.toNat_add, hb, leSum]
    exact Nat.mod_eq_of_lt h
  | case3 sum => rfl

/-- The 32-bit sum does not overflow up to 65537 words. -/
theorem checksumLoop_zero {l : List Byte} (h : l.length ≤ 131074) :
    (checksumLoop l 0).toNat = leSum l ∧ leSum l < 2 ^ 32 := by
  have hle := leSum_le l
  have hlt : leSum l < 2 ^ 32 := by omega
  refine ⟨?_, hlt⟩
  rw [checksumLoop_toNat l 0 (by simpa using hlt)]
  simp

/-- The routine returns the complement of the folded sum. -/
theorem checksum_toNat {l : List Byte} (h : l.length ≤ 131074) :
    (checksum l).toNat = 65535 - fold (leSum l) := by
  obtain ⟨hsum, hlt⟩ := checksumLoop_zero h
  unfold checksum
  generalize checksumLoop l 0 = sum at hsum
  have hmask : (sum &&& 0xFFFF).toNat = leSum l % 65536 := by
    rw [BitVec.toNat_and, hsum]
    exact Nat.and_two_pow_sub_one_eq_mod (leSum l) 16
  have hfold : ((sum >>> 16) + (sum &&& 0xFFFF)).toNat = leSum l / 65536 + leSum l % 65536 := by
    rw [BitVec.toNat_add, hmask, BitVec.toNat_ushiftRight, hsum, Nat.shiftRight_eq_div_pow]
    exact Nat.mod_eq_of_lt (by omega)
  -- the second carry and the complement, in 16 bits
  have hcomplement : ∀ t : BitVec 32, ((~~~(t + (t >>> 16))).setWidth 16).toNat =
      65535 - (t.toNat + t.toNat / 65536) % 65536 := by
    intro t
    have ht := t.isLt
    simp only [BitVec.toNat_setWidth, BitVec.toNat_not, BitVec.toNat_add,
      BitVec.toNat_ushiftRight, Nat.shiftRight_eq_div_pow]
    omega
  rw [hcomplement, fold_halves hlt hfold]

/-- Storing the checksum, computed with a zeroed field at an even offset, into
    that field makes a buffer that verifies. -/
theorem checksum_verifies {p q : List Byte} (hp : p.length % 2 = 0)
    (h : (p ++ ([0, 0] ++ q)).length ≤ 131074) :
    Verifies (p ++ (le16 (checksum (p ++ ([0, 0] ++ q))) ++ q)) := by
  -- the field adds to the sum what it holds
  have hsum : ∀ f : List Byte, f.length = 2 →
      leSum (p ++ (f ++ q)) = leSum f + leSum (p ++ ([0, 0] ++ q)) := by
    intro f hf
    rw [leSum_append hp, leSum_append (by omega), leSum_append hp, leSum_append (by rfl)]
    have h0 : leSum [0, 0] = 0 := rfl
    omega
  have hfield : ∀ c : BitVec 16, leSum (le16 c) = c.toNat := by
    intro c
    have hc := c.isLt
    simp only [le16, leSum, BitVec.extractLsb'_toNat, Nat.shiftRight_eq_div_pow]
    omega
  rw [verifies_iff, hsum _ rfl, hfield, checksum_toNat h, Nat.add_comm]
  exact fold_add_complement _

/-- A buffer verifies when its checksum is zero. -/
theorem checksum_eq_zero_iff {l : List Byte} (h : l.length ≤ 131074) :
    checksum l = 0 ↔ Verifies l := by
  have hlt := fold_lt (leSum l)
  rw [verifies_iff, ← BitVec.toNat_inj, checksum_toNat h]
  show 65535 - fold (leSum l) = 0 ↔ _
  omega

/-! ### A checksum field -/

/-- Store `c` into the 16-bit field at offset `k`. -/
def putField (b : List Byte) (k : Nat) (c : BitVec 16) : List Byte :=
  b.take k ++ (le16 c ++ b.drop (k + 2))

/-- Zero the field at offset `k`, then store the checksum into it. -/
def storeChecksum (b : List Byte) (k : Nat) : List Byte :=
  putField b k (checksum (putField b k 0))

theorem putField_length {b : List Byte} {k : Nat} (hk : k + 2 ≤ b.length) (c : BitVec 16) :
    (putField b k c).length = b.length := by
  simp only [putField, le16, List.length_append, List.length_take, List.length_drop,
    List.length_cons, List.length_nil]
  omega

/-- **The Internet checksum.**  Up to 131074 bytes the 32-bit sum never
    overflows, and the two folds leave the complement of the one's complement
    sum of the words.  When the checksum has been stored into a field at an even
    offset, the checksum of the buffer is zero, and the one's complement sum of
    its words in network byte order is `0xffff`. -/
theorem internet_checksum (b : List Byte) (hlen : b.length ≤ 131074) :
    (∀ m, (checksumLoop (b.take m) 0).toNat = (leWords (b.take m)).sum) ∧
    (checksum b).toNat = 0xffff - onesSum (leWords b) ∧
    ∀ k, k % 2 = 0 → k + 2 ≤ b.length →
      checksum (storeChecksum b k) = 0 ∧ onesSum (beWords (storeChecksum b k)) = 0xffff := by
  refine ⟨fun m => ?_, ?_, fun k hk hfield => ?_⟩
  · have htake : (b.take m).length ≤ 131074 := by
      rw [List.length_take]
      omega
    rw [(checksumLoop_zero htake).1, leWords_sum]
  · rw [checksum_toNat hlen, onesSum_leWords]
  · have hzeroed : (putField b k 0).length ≤ 131074 := by rwa [putField_length hfield]
    have hstored : (storeChecksum b k).length ≤ 131074 := by
      rwa [storeChecksum, putField_length hfield]
    have hverifies : Verifies (storeChecksum b k) :=
      checksum_verifies (by rw [List.length_take]; omega) hzeroed
    exact ⟨(checksum_eq_zero_iff hstored).mpr hverifies, (verifies_iff_onesSum _).mp hverifies⟩

/-- A message of seven bytes with its checksum at offset 2. -/
theorem internet_checksum_seven :
    checksum (storeChecksum [8, 0, 0xff, 0xff, 1, 2, 3] 2) = 0 ∧
    onesSum (beWords (storeChecksum [8, 0, 0xff, 0xff, 1, 2, 3] 2)) = 0xffff :=
  (internet_checksum [8, 0, 0xff, 0xff, 1, 2, 3] (by decide)).2.2 2 (by decide) (by decide)

end Nic
