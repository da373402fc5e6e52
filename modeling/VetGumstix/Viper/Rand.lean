import VetGumstix.Framework.Bytes
import VetGumstix.Framework.Keystream
import VetGumstix.Viper.Attempts

/-! # The Random Bytes

    `random_byte` hands out a buffer of 128 bytes one by one and fills it again
    whenever its index comes back to a multiple of 128.  The buffer is the
    number of the refill, encrypted by an ARC4 context that is set up with a
    fixed key at the first refill and kept after that.

    * `random_byte_keystream`: the bytes are one ARC4 keystream, with the
      refill numbers added in.
    * `nonce_keystream`: the nonces of `generate_nonce` are taken from it.
-/

namespace Viper

open Bytes

/-! ## Section 1: ARC4 -/

/-- `arc4_context`.  The indices are only ever set to an `unsigned char`. -/
structure Arc4Context where
  m : Vector Word 256
  x : Byte
  y : Byte

/-- `(unsigned char)` of an `int`. -/
def uchar (i : Word) : Byte := i.setWidth 8

/-- `m[j]` -/
def entry (m : Vector Word 256) (j : Byte) : Word := m.get ⟨j.toNat, j.isLt⟩

/-- `m[j] = a` -/
def setEntry (m : Vector Word 256) (j : Byte) (a : Word) : Vector Word 256 :=
  m.set j.toNat a j.isLt

/-- A round of the key schedule, on `m`, `j` and `k`. -/
def setupRound (key : List Byte) : Vector Word 256 × Byte × Nat → Byte →
    Vector Word 256 × Byte × Nat
  | (m, j, k), i =>
    let a := entry m i
    let j := uchar (j.setWidth 32 + a + (key.getD k 0).setWidth 32)
    let m := setEntry m i (entry m j)
    let m := setEntry m j a
    (m, j, if key.length ≤ k + 1 then 0 else k + 1)

/-- `arc4_setup(ctx, key, keylen)`; nothing of the old context is read. -/
def arc4Setup (key : List Byte) : Arc4Context :=
  let m : Vector Word 256 := Vector.ofFn fun i => BitVec.ofNat 32 i
  let (m, _, _) := ((List.range 256).map (BitVec.ofNat 8)).foldl (setupRound key) (m, 0, 0)
  { m := m, x := 0, y := 0 }

/-- A round of `arc4_crypt`: the new context, and the byte it adds to `buf[i]`. -/
def arc4Next (ctx : Arc4Context) : Arc4Context × Byte :=
  let x := ctx.x + 1
  let a := entry ctx.m x
  let y := uchar (ctx.y.setWidth 32 + a)
  let b := entry ctx.m y
  let m := setEntry ctx.m x b
  let m := setEntry m y a
  ({ m := m, x := x, y := y }, uchar (entry m (uchar (a + b))))

/-- `arc4_crypt(ctx, buf, buflen)` on the first `buflen` bytes. -/
def arc4Crypt (ctx : Arc4Context) (buf : List Byte) : Arc4Context × List Byte :=
  Keystream.crypt arc4Next (fun b k => b ^^^ k) ctx buf

/-! ## Section 2: `random_byte` -/

def randomBufferSize : Nat := 128

/-- The globals of `rand.c`. -/
structure RandState where
  randomBuffer : List Byte
  randomIndex  : BitVec 32
  refillNo     : BitVec 64
  randkey      : List Byte
  arc4Ctx      : Arc4Context

/-- `refillNo` in memory, on a little-endian host. -/
def le64 (w : BitVec 64) : List Byte := (List.range 8).map fun i => w.extractLsb' (8 * i) 8

/-- `buffer` after `memset` and `memcpy`. -/
def header (refillNo : BitVec 64) : List Byte :=
  le64 refillNo ++ List.replicate (randomBufferSize - 8) 0

/-- The branch of `arc4GetRandom` on `refillNo`: the first refill sets up the
    context. -/
def rekey (s : RandState) : RandState :=
  if s.refillNo = 0 then
    let randkey := List.replicate randomBufferSize 0x0a
    { s with randkey := randkey, arc4Ctx := arc4Setup randkey }
  else s

/-- `arc4GetRandom(buffer, numBytes)`: the new globals, and the contents of
    `buffer`, which are overwritten as a whole. -/
def arc4GetRandom (s : RandState) (numBytes : Nat) : RandState × List Byte :=
  let s := rekey s
  let buffer := header s.refillNo
  let (ctx, out) := arc4Crypt s.arc4Ctx (buffer.take numBytes)
  ({ s with arc4Ctx := ctx, refillNo := s.refillNo + 1 }, out ++ buffer.drop numBytes)

def randomByte (s : RandState) : RandState × Byte :=
  let s :=
    if s.randomIndex % 128 = 0 then
      let (s, buffer) := arc4GetRandom s randomBufferSize
      { s with randomBuffer := buffer }
    else s
  ({ s with randomIndex := s.randomIndex + 1 },
    s.randomBuffer.getD (s.randomIndex % 128).toNat 0)

/-- The globals when the program starts. -/
def randInit : RandState where
  randomBuffer := List.replicate randomBufferSize 0
  randomIndex := 0
  refillNo := 0
  randkey := List.replicate randomBufferSize 0
  arc4Ctx := { m := Vector.replicate 256 0, x := 0, y := 0 }

/-- What the `n`-th call of `random_byte` returns. -/
def randomBytes (n : Nat) : Byte := Keystream.stream randomByte randInit n

/-! ## Section 3: One keystream -/

/-- The context `arc4_setup` makes of the fixed key. -/
def freshContext : Arc4Context := arc4Setup (List.replicate 128 0x0a)

/-- The byte added to call `n`: byte `n % 128` of the number of the refill. -/
def refillByte (n : Nat) : Byte :=
  if n % 128 < 8 then (BitVec.ofNat 64 (n / 128)).extractLsb' (8 * (n % 128)) 8 else 0

/-- Byte `n` of the keystream, with that byte added. -/
def streamByte (n : Nat) : Byte := Keystream.stream arc4Next freshContext n ^^^ refillByte n

theorem header_length (w : BitVec 64) : (header w).length = 128 := by
  simp [header, le64, randomBufferSize]

theorem header_getElem? (q : Nat) {r : Nat} (hr : r < 128) :
    (header (BitVec.ofNat 64 q))[r]? = some (refillByte (128 * q + r)) := by
  have hmod : (128 * q + r) % 128 = r := by omega
  have hdiv : (128 * q + r) / 128 = q := by omega
  unfold header le64 refillByte
  rw [hmod, hdiv]
  split
  · next h => rw [List.getElem?_append_left (by simpa using h)]; simp [h]
  · next h =>
    rw [List.getElem?_append_right (by simpa using h), List.getElem?_replicate, if_pos]
    simp only [List.length_map, List.length_range, randomBufferSize]
    omega

/-- The buffer filled by refill `q`. -/
def block (q : Nat) : List Byte :=
  (arc4Crypt (Keystream.after arc4Next freshContext (128 * q)) (header (BitVec.ofNat 64 q))).2

/-- A byte of the buffer is a byte of the keystream and one of the header. -/
theorem block_getElem? (q : Nat) {r : Nat} (hr : r < 128) :
    (block q)[r]? = some (refillByte (128 * q + r) ^^^
      Keystream.stream arc4Next freshContext (128 * q + r)) := by
  unfold block arc4Crypt
  rw [Keystream.crypt_getElem?, header_getElem? q hr, Keystream.stream_add]
  rfl

/-- The context is set up at the first refill, and kept at the others. -/
theorem rekey_ctx {s : RandState} {q : Nat} (hq : q < 2 ^ 64)
    (hno : s.refillNo = BitVec.ofNat 64 q)
    (hctx : 0 < q → s.arc4Ctx = Keystream.after arc4Next freshContext (128 * q)) :
    (rekey s).arc4Ctx = Keystream.after arc4Next freshContext (128 * q) := by
  have hzero : s.refillNo = 0 ↔ q = 0 := by
    rw [hno, ← BitVec.toNat_inj, BitVec.toNat_ofNat, Nat.mod_eq_of_lt hq]
    rfl
  unfold rekey
  split
  · next h =>
    rw [hzero.mp h, Nat.mul_zero, Keystream.after_zero, freshContext, randomBufferSize]
  · next h => exact hctx (Nat.pos_of_ne_zero (mt hzero.mpr h))

theorem rekey_refillNo (s : RandState) : (rekey s).refillNo = s.refillNo := by
  unfold rekey
  split <;> rfl

theorem rekey_randomIndex (s : RandState) : (rekey s).randomIndex = s.randomIndex := by
  unfold rekey
  split <;> rfl

/-- What holds after `n` calls: `(n + 127) / 128` refills were made. -/
structure RandInv (n : Nat) (s : RandState) : Prop where
  index  : s.randomIndex = BitVec.ofNat 32 n
  refill : s.refillNo = BitVec.ofNat 64 ((n + 127) / 128)
  ctx    : 0 < n → s.arc4Ctx = Keystream.after arc4Next freshContext (128 * ((n + 127) / 128))
  buffer : 0 < n → s.randomBuffer = block ((n - 1) / 128)

/-- The first half of `random_byte`: a refill when the index is a multiple of
    the buffer's size. -/
def refilled (s : RandState) : RandState :=
  if s.randomIndex % 128 = 0 then
    { (arc4GetRandom s randomBufferSize).1 with
      randomBuffer := (arc4GetRandom s randomBufferSize).2 }
  else s

theorem randomByte_eq (s : RandState) :
    randomByte s = ({ refilled s with randomIndex := (refilled s).randomIndex + 1 },
      (refilled s).randomBuffer.getD ((refilled s).randomIndex % 128).toNat 0) := rfl

/-- Refill `q` encrypts with the next 128 bytes of the keystream. -/
theorem arc4GetRandom_spec {s : RandState} {q : Nat} (hq : q < 2 ^ 64)
    (hno : s.refillNo = BitVec.ofNat 64 q)
    (hctx : 0 < q → s.arc4Ctx = Keystream.after arc4Next freshContext (128 * q)) :
    (arc4GetRandom s randomBufferSize).2 = block q ∧
    (arc4GetRandom s randomBufferSize).1.arc4Ctx =
      Keystream.after arc4Next freshContext (128 * (q + 1)) ∧
    (arc4GetRandom s randomBufferSize).1.refillNo = BitVec.ofNat 64 (q + 1) ∧
    (arc4GetRandom s randomBufferSize).1.randomIndex = s.randomIndex := by
  have hlen := header_length (rekey s).refillNo
  have htake : (header (rekey s).refillNo).take randomBufferSize = header (rekey s).refillNo :=
    List.take_of_length_le (Nat.le_of_eq hlen)
  have hdrop : (header (rekey s).refillNo).drop randomBufferSize = [] :=
    List.drop_eq_nil_of_le (Nat.le_of_eq hlen)
  unfold arc4GetRandom
  simp only [htake, hdrop, List.append_nil]
  refine ⟨?_, ?_, ?_, rekey_randomIndex s⟩
  · rw [rekey_ctx hq hno hctx, rekey_refillNo, hno]
    rfl
  · show (arc4Crypt (rekey s).arc4Ctx (header (rekey s).refillNo)).1 = _
    unfold arc4Crypt
    rw [Keystream.crypt_state, hlen, rekey_ctx hq hno hctx, ← Keystream.after_add, Nat.mul_succ]
  · rw [rekey_refillNo, hno, BitVec.ofNat_add]
    rfl

/-- Before call `n` is answered, refills `0` to `n / 128` have been made. -/
theorem refilled_spec {n : Nat} (hn : n < 2 ^ 71) {s : RandState} (h : RandInv n s) :
    (refilled s).randomIndex = BitVec.ofNat 32 n ∧
    (refilled s).refillNo = BitVec.ofNat 64 (n / 128 + 1) ∧
    (refilled s).arc4Ctx = Keystream.after arc4Next freshContext (128 * (n / 128 + 1)) ∧
    (refilled s).randomBuffer = block (n / 128) := by
  have hindex : s.randomIndex % 128 = 0 ↔ n % 128 = 0 := by
    rw [h.index, ← BitVec.toNat_inj, BitVec.toNat_umod, BitVec.toNat_ofNat]
    show n % 2 ^ 32 % 128 = 0 ↔ _
    omega
  unfold refilled
  split
  · next hr =>
    have hmod := hindex.mp hr
    have hq : (n + 127) / 128 = n / 128 := by omega
    have hctx := h.ctx
    rw [hq] at hctx
    obtain ⟨hbuf, hctx', hno, hidx⟩ := arc4GetRandom_spec (q := n / 128) (by omega)
      (hq ▸ h.refill) fun hpos => hctx (by omega)
    exact ⟨hidx.trans h.index, hno, hctx', hbuf⟩
  · next hr =>
    have hmod := mt hindex.mpr hr
    have hq : (n + 127) / 128 = n / 128 + 1 := by omega
    have hbuf : (n - 1) / 128 = n / 128 := by omega
    have hpos : 0 < n := by omega
    exact ⟨h.index, hq ▸ h.refill, hq ▸ h.ctx hpos, hbuf ▸ h.buffer hpos⟩

/-- One call. -/
theorem RandInv.call {n : Nat} (hn : n < 2 ^ 71) {s : RandState} (h : RandInv n s) :
    RandInv (n + 1) (randomByte s).1 ∧ (randomByte s).2 = streamByte n := by
  obtain ⟨hidx, hno, hctx, hbuf⟩ := refilled_spec hn h
  have hq : (n + 1 + 127) / 128 = n / 128 + 1 := by omega
  have hread : ((refilled s).randomIndex % 128).toNat = n % 128 := by
    rw [hidx, BitVec.toNat_umod, BitVec.toNat_ofNat]
    show n % 2 ^ 32 % 128 = n % 128
    omega
  rw [randomByte_eq]
  refine ⟨⟨?_, ?_, fun _ => ?_, fun _ => hbuf⟩, ?_⟩
  · show (refilled s).randomIndex + 1 = _
    rw [hidx, BitVec.ofNat_add]
    rfl
  · rw [hq]
    exact hno
  · rw [hq]
    exact hctx
  · show (refilled s).randomBuffer.getD _ 0 = _
    rw [hread, hbuf, List.getD_eq_getElem?_getD, block_getElem? _ (by omega), Nat.div_add_mod,
      BitVec.xor_comm, streamByte]
    rfl

theorem randInv_after {n : Nat} (hn : n ≤ 2 ^ 71) :
    RandInv n (Keystream.after randomByte randInit n) := by
  induction n with
  | zero => exact ⟨rfl, rfl, fun h => (Nat.lt_irrefl 0 h).elim, fun h => (Nat.lt_irrefl 0 h).elim⟩
  | succ n ih =>
    rw [Keystream.after_succ]
    exact ((ih (by omega)).call (by omega)).1

/-- The `n`-th call of `random_byte`. -/
theorem randomBytes_eq {n : Nat} (hn : n < 2 ^ 71) : randomBytes n = streamByte n :=
  ((randInv_after (Nat.le_of_lt hn)).call hn).2

/-- **One keystream.**  The `n`-th call of `random_byte` returns byte `n` of an
    uninterrupted `arc4_crypt` of zeros, after `arc4_setup` with 128 key bytes
    `0x0a`, with the byte of the refill number added.  It holds until the 64-bit
    `refillNo` wraps. -/
theorem random_byte_keystream (n : Nat) (hn : n < 2 ^ 71) (len : Nat) (hlen : n < len) :
    ∃ k, (arc4Crypt (arc4Setup (List.replicate 128 0x0a)) (List.replicate len 0)).2[n]? = some k ∧
      randomBytes n = k ^^^
        if n % 128 < 8 then (BitVec.ofNat 64 (n / 128)).extractLsb' (8 * (n % 128)) 8 else 0 := by
  refine ⟨Keystream.stream arc4Next freshContext n, ?_, randomBytes_eq hn⟩
  unfold arc4Crypt
  rw [Keystream.crypt_getElem?, List.getElem?_replicate, if_pos hlen]
  simp [freshContext]

/-- Byte 1 of the third buffer. -/
theorem random_byte_257 :
    ∃ k, (arc4Crypt (arc4Setup (List.replicate 128 0x0a)) (List.replicate 300 0)).2[257]? = some k ∧
      randomBytes 257 = k ^^^
        if 257 % 128 < 8 then (BitVec.ofNat 64 (257 / 128)).extractLsb' (8 * (257 % 128)) 8
        else 0 :=
  random_byte_keystream 257 (by decide) 300 (by decide)

/-- The nonces that `generate_nonce` tries are made of the keystream: it stops
    long before `refillNo` wraps. -/
theorem nonce_keystream {buf : Buffer} {g : Regs} {k : Nat} {e : GenState}
    (he : (attemptEnds viperConfig buf randomBytes g)[k + 1]? = some e) :
    e.nonce = nonceOfBytes (streamByte (4 * k)) (streamByte (4 * k + 1)) (streamByte (4 * k + 2))
      (streamByte (4 * k + 3)) := by
  obtain ⟨n, h⟩ := exists_attemptRun viperConfig buf randomBytes g
  obtain ⟨hk, rfl⟩ := h.getElem_ends.mp he
  have hlimit : n ≤ max 1 100000 := h.limit
  have hnonce : (attemptEnd viperConfig buf randomBytes g (k + 1)).nonce = nonceAt randomBytes k :=
    h.nonce hk
  rw [hnonce, nonceAt, randomBytes_eq (by omega), randomBytes_eq (by omega),
    randomBytes_eq (by omega), randomBytes_eq (by omega)]

end Viper
