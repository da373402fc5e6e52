import Mathlib

/-! # Byte Memory

    Memory is a function from offsets to bytes.  `readBytes` and `writeBytes`
    move lists of bytes, as `memcpy` does; the lemmas say what a read finds
    behind a write to the same place, to a place apart, and how a read splits
    into shorter ones.

    A word of 32 bits is four bytes, the low one first.
-/

namespace Bytes

abbrev Byte := BitVec 8

abbrev ByteMem := Nat → Byte

/-! ## Section 1: Reading and writing -/

/-- The `n` bytes from offset `a` on. -/
def readBytes (m : ByteMem) (a n : Nat) : List Byte := (List.range n).map fun i => m (a + i)

/-- Put the bytes of `l` at offset `a`. -/
def writeBytes (m : ByteMem) (a : Nat) (l : List Byte) : ByteMem :=
  fun k => if a ≤ k then l.getD (k - a) (m k) else m k

variable {m : ByteMem} {a b n k : Nat} {l : List Byte}

@[simp] theorem readBytes_length : (readBytes m a n).length = n := by simp [readBytes]

theorem readBytes_getElem? (h : k < n) : (readBytes m a n)[k]? = some (m (a + k)) := by
  simp [readBytes, h]

/-- A read splits at any place. -/
theorem readBytes_add (m : ByteMem) (a n k : Nat) :
    readBytes m a (n + k) = readBytes m a n ++ readBytes m (a + n) k := by
  simp only [readBytes, List.range_add, List.map_append, List.map_map]
  congr 1
  apply List.map_congr_left
  intro i _
  simp [Nat.add_assoc]

/-- Bytes may be put one by one. -/
theorem writeBytes_cons (m : ByteMem) (a : Nat) (x : Byte) (l : List Byte) :
    writeBytes m a (x :: l) = writeBytes (Function.update m a x) (a + 1) l := by
  funext k
  unfold writeBytes
  by_cases hk : k = a
  · subst hk
    simp
  · rw [Function.update_of_ne hk]
    by_cases hle : a ≤ k
    · have hlt : a + 1 ≤ k := by omega
      have hsub : k - a = (k - (a + 1)) + 1 := by omega
      rw [if_pos hle, if_pos hlt, hsub, List.getD_cons_succ]
    · rw [if_neg hle, if_neg (by omega)]

theorem readBytes_inner (m : ByteMem) (a : Nat) {i n k : Nat} (h : i + k ≤ n) :
    ((readBytes m a n).drop i).take k = readBytes m (a + i) k := by
  have hn : n = i + (k + (n - i - k)) := by omega
  rw [hn, readBytes_add, readBytes_add, List.drop_left' readBytes_length,
    List.take_left' readBytes_length]

theorem writeBytes_inside (h : k < l.length) : writeBytes m a l (a + k) = l.get ⟨k, h⟩ := by
  simp [writeBytes, List.getD, h]

theorem writeBytes_outside (h : k < a ∨ a + l.length ≤ k) : writeBytes m a l k = m k := by
  unfold writeBytes
  split
  · rename_i hle
    have hlen : l.length ≤ k - a := by omega
    simp [List.getD, hlen]
  · rfl

/-- A read of what was written. -/
theorem readBytes_writeBytes (h : l.length = n) : readBytes (writeBytes m a l) a n = l := by
  subst h
  apply List.ext_getElem
  · simp
  · intro i _ hi
    simp only [readBytes, List.getElem_map, List.getElem_range]
    exact writeBytes_inside hi

/-- A read apart from what was written. -/
theorem readBytes_writeBytes_apart (h : b + n ≤ a ∨ a + l.length ≤ b) :
    readBytes (writeBytes m a l) b n = readBytes m b n := by
  apply List.map_congr_left
  intro i hi
  have hlt := List.mem_range.mp hi
  exact writeBytes_outside (by omega)

/-- A read of a part of what was written. -/
theorem readBytes_writeBytes_part (l₁ l₂ l₃ : List Byte) (hl : l = l₁ ++ (l₂ ++ l₃))
    (hb : b = a + l₁.length) (hn : n = l₂.length) :
    readBytes (writeBytes m a l) b n = l₂ := by
  have hread : readBytes (writeBytes m a l) a l.length = l := readBytes_writeBytes rfl
  rw [show l.length = l₁.length + (l₂.length + l₃.length) by rw [hl]; simp, readBytes_add,
    readBytes_add] at hread
  nth_rewrite 4 [hl] at hread
  obtain ⟨-, hrest⟩ := List.append_inj hread (by simp)
  obtain ⟨hmid, -⟩ := List.append_inj hrest (by simp)
  rw [hb, hn]
  exact hmid

/-- Memory with `n` bytes at `a` and at `b` exchanged. -/
def exchanged (m : ByteMem) (a b n : Nat) : ByteMem :=
  writeBytes (writeBytes m a (readBytes m b n)) b (readBytes m a n)

theorem readBytes_exchanged_left (h : a + n ≤ b) :
    readBytes (exchanged m a b n) a n = readBytes m b n := by
  unfold exchanged
  rw [readBytes_writeBytes_apart (.inl h), readBytes_writeBytes readBytes_length]

theorem readBytes_exchanged_right : readBytes (exchanged m a b n) b n = readBytes m a n :=
  readBytes_writeBytes readBytes_length

theorem readBytes_exchanged_apart {c k : Nat} (ha : c + k ≤ a ∨ a + n ≤ c)
    (hb : c + k ≤ b ∨ b + n ≤ c) : readBytes (exchanged m a b n) c k = readBytes m c k := by
  unfold exchanged
  rw [readBytes_writeBytes_apart (by simpa using hb),
    readBytes_writeBytes_apart (by simpa using ha)]

/-! ## Section 2: Words -/

/-- The bytes of a word, the low one first. -/
def leBytes (w : BitVec 32) : List Byte :=
  [w.extractLsb' 0 8, w.extractLsb' 8 8, w.extractLsb' 16 8, w.extractLsb' 24 8]

def leWord (b0 b1 b2 b3 : Byte) : BitVec 32 := b3 ++ b2 ++ b1 ++ b0

def toBytes (ws : List (BitVec 32)) : List Byte := ws.flatMap leBytes

/-- The words of a list of bytes; bytes left over at the end are dropped. -/
def toWords : List Byte → List (BitVec 32)
  | b0 :: b1 :: b2 :: b3 :: l => leWord b0 b1 b2 b3 :: toWords l
  | _ => []

theorem leWord_extract (w : BitVec 32) :
    leWord (w.extractLsb' 0 8) (w.extractLsb' 8 8) (w.extractLsb' 16 8) (w.extractLsb' 24 8) =
      w := by
  apply BitVec.eq_of_getLsbD_eq
  intro i hi
  simp only [leWord, BitVec.getLsbD_append, BitVec.getLsbD_extractLsb']
  -- which of the four bytes bit `i` lies in
  by_cases h1 : i < 8
  · simp [h1]
  by_cases h2 : i < 16
  · have hb : i - 8 < 8 := by omega
    have hi' : 8 + (i - 8) = i := by omega
    simp [h1, hb, hi']
  by_cases h3 : i < 24
  · have hb : i - 8 - 8 < 8 := by omega
    have hb' : ¬ i - 8 < 8 := by omega
    have hi' : 16 + (i - 8 - 8) = i := by omega
    simp [h1, hb', hb, hi']
  · have hb : i - 8 - 8 - 8 < 8 := by omega
    have hb' : ¬ i - 8 - 8 < 8 := by omega
    have hb'' : ¬ i - 8 < 8 := by omega
    have hi' : 24 + (i - 8 - 8 - 8) = i := by omega
    simp [h1, hb'', hb', hb, hi']

@[simp] theorem toBytes_length (ws : List (BitVec 32)) : (toBytes ws).length = 4 * ws.length := by
  induction ws with
  | nil => rfl
  | cons w ws ih =>
    rw [toBytes, List.flatMap_cons, List.length_append, ← toBytes, ih, List.length_cons]
    simp [leBytes]
    omega

theorem toWords_length {n : Nat} {l : List Byte} (h : l.length = 4 * n) :
    (toWords l).length = n := by
  induction n generalizing l with
  | zero =>
    rw [List.length_eq_zero_iff.mp h]
    rfl
  | succ n ih =>
    match l, h with
    | b0 :: b1 :: b2 :: b3 :: l, h =>
      simp only [List.length_cons] at h
      simp only [toWords, List.length_cons]
      rw [ih (by omega)]

/-- Words survive the way through bytes. -/
theorem toWords_toBytes (ws : List (BitVec 32)) : toWords (toBytes ws) = ws := by
  induction ws with
  | nil => rfl
  | cons w ws ih =>
    rw [toBytes, List.flatMap_cons, ← toBytes]
    show leWord _ _ _ _ :: toWords (toBytes ws) = _
    rw [ih, leWord_extract]

theorem leBytes_leWord (b0 b1 b2 b3 : Byte) : leBytes (leWord b0 b1 b2 b3) = [b0, b1, b2, b3] := by
  have hbyte : ∀ (b : Byte) (k : Nat),
      (∀ i < 8, (leWord b0 b1 b2 b3).getLsbD (k + i) = b.getLsbD i) →
      (leWord b0 b1 b2 b3).extractLsb' k 8 = b := by
    intro b k h
    apply BitVec.eq_of_getLsbD_eq
    intro i hi
    simp [hi, h i hi]
  unfold leBytes
  rw [hbyte b0 0, hbyte b1 8, hbyte b2 16, hbyte b3 24]
  all_goals
    intro i hi
    simp only [leWord, BitVec.getLsbD_append]
    repeat' split
    all_goals first | omega | (congr 1; omega)

/-- A word is the sum of its bytes, each moved up to its place. -/
theorem leWord_eq_xor (b0 b1 b2 b3 : Byte) :
    leWord b0 b1 b2 b3 = b0.setWidth 32 ^^^ b1.setWidth 32 <<< 8 ^^^ b2.setWidth 32 <<< 16 ^^^
      b3.setWidth 32 <<< 24 := by
  have hout : ∀ (b : Byte) (k : Nat), 8 ≤ k → b.getLsbD k = false :=
    fun b k hk => b.getLsbD_of_ge k hk
  apply BitVec.eq_of_getLsbD_eq
  intro i hi
  simp only [leWord, BitVec.getLsbD_append, BitVec.getLsbD_xor, BitVec.getLsbD_shiftLeft,
    BitVec.getLsbD_setWidth, Nat.sub_sub, hi, decide_true, Bool.true_and]
  -- the byte bit `i` lies in, with all the others out of reach
  by_cases h1 : i < 8
  · have h2 : i < 16 := by omega
    have h3 : i < 24 := by omega
    simp [h1, h2, h3]
  by_cases h2 : i < 16
  · have h3 : i < 24 := by omega
    have hin : i - 8 < 8 := by omega
    simp [h1, h2, h3, hin, hout b0 i (by omega)]
    omega
  by_cases h3 : i < 24
  · have hin : i - 16 < 8 := by omega
    have hpast : ¬ i - 8 < 8 := by omega
    simp [h1, h2, h3, hin, hpast, hout b0 i (by omega), hout b1 (i - 8) (by omega)]
    omega
  · have hpast : ¬ i - 8 < 8 := by omega
    have hpast' : ¬ i - 16 < 8 := by omega
    simp [h1, h2, h3, hpast, hpast', hout b0 i (by omega), hout b1 (i - 8) (by omega),
      hout b2 (i - 16) (by omega)]
    omega

/-- Bytes survive the way through words when they make up whole words. -/
theorem toBytes_toWords {n : Nat} {l : List Byte} (h : l.length = 4 * n) :
    toBytes (toWords l) = l := by
  induction n generalizing l with
  | zero =>
    rw [List.length_eq_zero_iff.mp h]
    rfl
  | succ n ih =>
    match l, h with
    | b0 :: b1 :: b2 :: b3 :: l, h =>
      simp only [List.length_cons] at h
      rw [toWords, toBytes, List.flatMap_cons, ← toBytes, ih (by omega), leBytes_leWord]
      rfl

theorem toBytes_append (ws vs : List (BitVec 32)) :
    toBytes (ws ++ vs) = toBytes ws ++ toBytes vs := List.flatMap_append

end Bytes
