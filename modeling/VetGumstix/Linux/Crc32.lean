import VetGumstix.Framework.Bytes
import VetGumstix.Framework.ShiftRegister

/-! # The Kernel's CRC-32

    `lib/crc32.c` computes the little-endian CRC in one of six ways, chosen
    when the kernel is configured: bit by bit, by tables of 2, 4 or 8 bits, and
    by slices of 4 or 8 bytes.  The tables come from `lib/gen_crc32table.c`,
    which computes a few entries and combines them to all others.

    `crc32Le_bitwise`: the six ways agree, for every polynomial, seed and
    buffer, wherever the buffer starts.
-/

namespace Linux

open Bytes ShiftRegister

abbrev Word := BitVec 32

/-! ## Section 1: The tables -/

/-- `CRC_LE_BITS`: the bits taken at a time. -/
inductive CrcLeBits where
  | one
  | two
  | four
  | eight
  | thirtyTwo
  | sixtyFour

/-- An index of a table has so many bits. -/
def CrcLeBits.indexBits : CrcLeBits → Nat
  | .one  => 1
  | .two  => 2
  | .four => 4
  | _     => 8

/-- `LE_TABLE_SIZE` -/
def CrcLeBits.tableSize (b : CrcLeBits) : Nat := 1 <<< b.indexBits

/-- `LE_TABLE_ROWS` -/
def CrcLeBits.tableRows : CrcLeBits → Nat
  | .thirtyTwo => 4
  | .sixtyFour => 8
  | _          => 1

/-- `tab[row][entry]` -/
abbrev Table := Nat → Nat → Word

/-- `(crc >> 1) ^ ((crc & 1) ? polynomial : 0)` -/
def crcBit (polynomial crc : Word) : Word :=
  (crc >>> 1) ^^^ (if crc &&& 1 ≠ 0 then polynomial else 0)

/-- `for (j = 0; j < LE_TABLE_SIZE; j += 2 * i) tab[0][i + j] = crc ^ tab[0][j]` -/
def fillEntries (size i : Nat) (crc : Word) (row : Nat → Word) : Nat → Word :=
  (List.range' 0 ((size + 2 * i - 1) / (2 * i)) (2 * i)).foldl
    (fun row j => Function.update row (i + j) (crc ^^^ row j)) row

/-- The loop `for (i = LE_TABLE_SIZE >> 1; i; i >>= 1)` over the first row. -/
def fillRow (polynomial : Word) (size i : Nat) (crc : Word) (row : Nat → Word) : Nat → Word :=
  if _h : i = 0 then row
  else fillRow polynomial size (i >>> 1) (crcBit polynomial crc)
    (fillEntries size i (crcBit polynomial crc) row)
termination_by i
decreasing_by
  rw [Nat.shiftRight_eq_div_pow]
  omega

/-- Entry `i` of the row `j` from the first row and the entry before it. -/
def fillColumnStep (i : Nat) (s : Word × Table) (j : Nat) : Word × Table :=
  let crc := s.2 0 (s.1 &&& 0xff).toNat ^^^ (s.1 >>> 8)
  (crc, Function.update s.2 j (Function.update (s.2 j) i crc))

/-- Entry `i` of the rows after the first. -/
def fillColumn (rows : Nat) (tab : Table) (i : Nat) : Table :=
  ((List.range' 1 (rows - 1)).foldl (fillColumnStep i) (tab 0 i, tab)).2

/-- `crc32init_le_generic`, on a table of zeros. -/
def crc32initLeGeneric (b : CrcLeBits) (polynomial : Word) : Table :=
  let tab : Table := fun _ _ => 0
  let tab := Function.update tab 0
    (fillRow polynomial b.tableSize (b.tableSize >>> 1) 1 (Function.update (tab 0) 0 0))
  (List.range b.tableSize).foldl (fillColumn b.tableRows) tab

/-! ## Section 2: The functions -/

/-- `DO_CRC` -/
def doCrc (tab : Table) (crc : Word) (x : Byte) : Word :=
  tab 0 ((crc ^^^ x.setWidth 32) &&& 255).toNat ^^^ (crc >>> 8)

/-- The bytes of `q`, each through its row, the low byte through the highest. -/
def doSlice (tab : Table) (row : Nat) (q : Word) : Word :=
  tab (row + 3) (q &&& 255).toNat ^^^ tab (row + 2) ((q >>> 8) &&& 255).toNat ^^^
    tab (row + 1) ((q >>> 16) &&& 255).toNat ^^^ tab row ((q >>> 24) &&& 255).toNat

/-- `DO_CRC4` -/
def doCrc4 (tab : Table) (q : Word) : Word := doSlice tab 0 q

/-- `DO_CRC8` -/
def doCrc8 (tab : Table) (q : Word) : Word := doSlice tab 4 q

/-- A word of memory, on a little-endian machine. -/
def loadWord (mem : ByteMem) (a : Nat) : Word :=
  leWord (mem a) (mem (a + 1)) (mem (a + 2)) (mem (a + 3))

/-- The bytes in front of the first word boundary: the crc, and where and how
    much is left. -/
def alignLoop (tab : Table) (mem : ByteMem) : Nat → Nat → Word → Word × Nat × Nat
  | 0, buf, crc => (crc, buf, 0)
  | len + 1, buf, crc =>
    if buf % 4 ≠ 0 then alignLoop tab mem len (buf + 1) (doCrc tab crc (mem buf))
    else (crc, buf, len + 1)

/-- The loop over `len` words. -/
def wordLoop (tab : Table) (mem : ByteMem) : Nat → Nat → Word → Word
  | 0, _, crc => crc
  | len + 1, b, crc => wordLoop tab mem len (b + 4) (doCrc4 tab (crc ^^^ loadWord mem b))

/-- The loop over `len` pairs of words. -/
def pairLoop (tab : Table) (mem : ByteMem) : Nat → Nat → Word → Word
  | 0, _, crc => crc
  | len + 1, b, crc =>
    let crc := doCrc8 tab (crc ^^^ loadWord mem b)
    pairLoop tab mem len (b + 8) (crc ^^^ doCrc4 tab (loadWord mem (b + 4)))

/-- The last few bytes. -/
def byteLoop (tab : Table) (mem : ByteMem) : Nat → Nat → Word → Word
  | 0, _, crc => crc
  | len + 1, p, crc => byteLoop tab mem len (p + 1) (doCrc tab crc (mem p))

/-- `crc32_body` with slices of four bytes -/
def crc32Body4 (tab : Table) (crc : Word) (mem : ByteMem) (buf len : Nat) : Word :=
  let (crc, buf, len) := alignLoop tab mem len buf crc
  let crc := wordLoop tab mem (len / 4) buf crc
  byteLoop tab mem (len % 4) (buf + 4 * (len / 4)) crc

/-- `crc32_body` with slices of eight bytes -/
def crc32Body8 (tab : Table) (crc : Word) (mem : ByteMem) (buf len : Nat) : Word :=
  let (crc, buf, len) := alignLoop tab mem len buf crc
  let crc := pairLoop tab mem (len / 8) buf crc
  byteLoop tab mem (len % 8) (buf + 8 * (len / 8)) crc

/-- One byte of the loop without tables. -/
def crcByte1 (polynomial crc : Word) (x : Byte) : Word :=
  (List.range 8).foldl (fun crc _ => crcBit polynomial crc) (crc ^^^ x.setWidth 32)

/-- One byte by a table of 2 or of 4 bits, `8 / n` look-ups in a row. -/
def crcByteN (n : Nat) (tab : Table) (crc : Word) (x : Byte) : Word :=
  (List.range (8 / n)).foldl
    (fun crc _ => (crc >>> n) ^^^ tab 0 (crc &&& BitVec.ofNat 32 (2 ^ n - 1)).toNat)
    (crc ^^^ x.setWidth 32)

/-- The byte loops `while (len--)`. -/
def crcLoop (step : Word → Byte → Word) (mem : ByteMem) (p len : Nat) (crc : Word) : Word :=
  (readBytes mem p len).foldl step crc

/-- `crc32_le_generic` on a little-endian machine. -/
def crc32LeGeneric (b : CrcLeBits) (tab : Table) (polynomial crc : Word) (mem : ByteMem)
    (p len : Nat) : Word :=
  match b with
  | .one       => crcLoop (crcByte1 polynomial) mem p len crc
  | .two       => crcLoop (crcByteN 2 tab) mem p len crc
  | .four      => crcLoop (crcByteN 4 tab) mem p len crc
  | .eight     => crcLoop (crcByteN 8 tab) mem p len crc
  | .thirtyTwo => crc32Body4 tab crc mem p len
  | .sixtyFour => crc32Body8 tab crc mem p len

/-- `CRCPOLY_LE` -/
def crcPolyLe : Word := 0xedb88320

/-- `crc32_le` -/
def crc32Le (b : CrcLeBits) (crc : Word) (mem : ByteMem) (p len : Nat) : Word :=
  crc32LeGeneric b (crc32initLeGeneric b crcPolyLe) crcPolyLe crc mem p len

/-! ## Section 3: A table entry is the steps of its index -/

section Steps

variable {polynomial : Word}

theorem crcBit_eq (crc : Word) : crcBit polynomial crc = shift polynomial crc := by
  have hbit : (crc &&& 1 ≠ 0) ↔ crc.getLsbD 0 = true := by
    rw [ne_eq, show (1 : Word) = 1#32 from rfl, BitVec.and_one_eq_setWidth_ofBool_getLsbD]
    cases crc.getLsbD 0 <;> decide
  unfold crcBit shift
  by_cases hset : crc.getLsbD 0 = true
  · rw [if_pos (hbit.mpr hset), if_pos hset]
  · rw [if_neg (mt hbit.mp hset), if_neg hset]
    rfl

/-- The inner loop writes the odd multiples of `i` and reads the even ones. -/
theorem foldl_entries (i : Nat) (hi : 0 < i) (crc : Word) (row : Nat → Word) (n : Nat) :
    let filled := (List.range' 0 n (2 * i)).foldl
      (fun row j => Function.update row (i + j) (crc ^^^ row j)) row
    (∀ m < n, filled (i + 2 * i * m) = crc ^^^ row (2 * i * m)) ∧
      ∀ x, (∀ m < n, x ≠ i + 2 * i * m) → filled x = row x := by
  induction n with
  | zero => exact ⟨fun m hm => absurd hm (Nat.not_lt_zero m), fun x _ => rfl⟩
  | succ n ih =>
    obtain ⟨hodd, hrest⟩ := ih
    have heven : ∀ m < n, 2 * i * n ≠ i + 2 * i * m := by
      intro m hm heq
      have : i * (2 * n) = i * (1 + 2 * m) := by linarith
      have := Nat.eq_of_mul_eq_mul_left hi this
      omega
    have hapart : ∀ m < n, i + 2 * i * m ≠ i + 2 * i * n := by
      intro m hm heq
      have := Nat.eq_of_mul_eq_mul_left (by omega : 0 < 2 * i) (Nat.add_left_cancel heq)
      omega
    simp only [List.range'_concat, List.foldl_append, List.foldl_cons, List.foldl_nil,
      Nat.zero_add]
    refine ⟨?_, ?_⟩
    · intro m hm
      by_cases hlast : m = n
      · rw [hlast, Function.update_self, hrest _ heven]
      · have hlt : m < n := by omega
        rw [Function.update_of_ne (hapart m hlt)]
        exact hodd m hlt
    · intro x hx
      rw [Function.update_of_ne (hx n (Nat.lt_succ_self n))]
      exact hrest x fun m hm => hx m (Nat.lt_succ_of_lt hm)

/-- The multiples of `2 ^ m` are entered. -/
def Entered (polynomial : Word) (bits m : Nat) (row : Nat → Word) : Prop :=
  ∀ j < 2 ^ bits, 2 ^ m ∣ j → row j = shifts polynomial bits (BitVec.ofNat 32 j)

theorem fillEntries_entered {bits m : Nat} (hbits : bits ≤ 32) (hm : m < bits)
    {row : Nat → Word} (h : Entered polynomial bits (m + 1) row) :
    Entered polynomial bits m
      (fillEntries (2 ^ bits) (2 ^ m) (shifts polynomial (bits - m) 1#32) row) := by
  intro j hj hdvd
  have hpos : 0 < 2 ^ m := Nat.two_pow_pos m
  have hsize : 2 ^ bits = 2 * 2 ^ m * 2 ^ (bits - m - 1) := by
    rw [← Nat.pow_succ', ← Nat.pow_add]
    congr 1
    omega
  have hcount : (2 ^ bits + 2 * 2 ^ m - 1) / (2 * 2 ^ m) = 2 ^ (bits - m - 1) := by
    rw [hsize, Nat.add_sub_assoc (by omega), Nat.mul_add_div (by omega),
      Nat.div_eq_of_lt (by omega), Nat.add_zero]
  obtain ⟨hodd, hrest⟩ := foldl_entries (2 ^ m) hpos (shifts polynomial (bits - m) 1#32) row
    (2 ^ (bits - m - 1))
  unfold fillEntries
  rw [hcount]
  obtain ⟨k, rfl⟩ := hdvd
  -- an even multiple stays, an odd one is the sum of the even one below and the power
  obtain ⟨c, rfl | rfl⟩ := Nat.even_or_odd' k
  · rw [hrest]
    · exact h _ hj ⟨c, by rw [Nat.pow_succ]; ring⟩
    · intro m' _ heq
      have : 2 ^ m * (2 * c) = 2 ^ m * (1 + 2 * m') := by linarith
      have := Nat.eq_of_mul_eq_mul_left hpos this
      omega
  · have hc : c < 2 ^ (bits - m - 1) := by
      have hlt : 2 * 2 ^ m * c < 2 * 2 ^ m * 2 ^ (bits - m - 1) := by
        rw [← hsize]
        exact lt_of_le_of_lt (by linarith) hj
      exact Nat.lt_of_mul_lt_mul_left hlt
    have hindex : 2 ^ m * (2 * c + 1) = 2 ^ m + 2 * 2 ^ m * c := by ring
    have hbelow := h (2 * 2 ^ m * c) (by omega) ⟨c, by rw [Nat.pow_succ]; ring⟩
    have hsum := shifts_two_pow_add (p := polynomial) (k := bits - m) (j := 2 * 2 ^ m * c)
      (show m < 32 by omega) ⟨c, by rw [Nat.pow_succ]; ring⟩
    rw [Nat.add_sub_cancel' hm.le] at hsum
    rw [hindex, hodd c hc, hbelow, hsum]

theorem crcBit_shifts (n : Nat) (crc : Word) :
    crcBit polynomial (shifts polynomial n crc) = shifts polynomial (n + 1) crc := by
  rw [crcBit_eq, shifts_add, shifts, shifts]

theorem fillRow_pow (size m : Nat) (crc : Word) (row : Nat → Word) :
    fillRow polynomial size (2 ^ m) crc row =
      fillRow polynomial size (2 ^ m >>> 1) (crcBit polynomial crc)
        (fillEntries size (2 ^ m) (crcBit polynomial crc) row) := by
  have hne : 2 ^ m ≠ 0 := Nat.pos_iff_ne_zero.mp (Nat.two_pow_pos m)
  rw [fillRow, dif_neg hne]

theorem fillRow_entered {bits m : Nat} (hbits : bits ≤ 32) (hm : m < bits) {row : Nat → Word}
    (h : Entered polynomial bits (m + 1) row) :
    Entered polynomial bits 0
      (fillRow polynomial (2 ^ bits) (2 ^ m) (shifts polynomial (bits - m - 1) 1#32) row) := by
  have hstep : bits - m - 1 + 1 = bits - m := by omega
  have hentered := fillEntries_entered hbits hm h
  rw [fillRow_pow, crcBit_shifts, hstep]
  induction m generalizing row with
  | zero =>
    rw [show 2 ^ 0 >>> 1 = 0 from rfl, fillRow, dif_pos rfl]
    exact hentered
  | succ m ih =>
    have hhalf : 2 ^ (m + 1) >>> 1 = 2 ^ m := by
      rw [Nat.shiftRight_eq_div_pow, Nat.pow_succ, Nat.pow_one, Nat.mul_div_cancel _ (by omega)]
    have hnext : bits - m - 1 + 1 = bits - m := by omega
    have hlt : m < bits := by omega
    rw [hhalf, fillRow_pow, show bits - (m + 1) = bits - m - 1 by omega, crcBit_shifts, hnext]
    rw [show bits - (m + 1) = bits - m - 1 by omega] at hentered
    exact ih hlt hentered hnext (fillEntries_entered hbits hlt hentered)

/-- **The first row** holds the steps of every index. -/
theorem fillRow_isTable (polynomial : Word) {bits : Nat} (hbits : bits ≤ 32) (hpos : 0 < bits)
    {row : Nat → Word} (hzero : row 0 = 0) :
    IsTable polynomial bits bits
      (fillRow polynomial (2 ^ bits) (2 ^ bits >>> 1) 1 row) := by
  obtain ⟨m, rfl⟩ := Nat.exists_eq_succ_of_ne_zero hpos.ne'
  have hstart : Entered polynomial (m + 1) (m + 1) row := by
    intro j hj hdvd
    rw [Nat.eq_zero_of_dvd_of_lt hdvd hj, hzero]
    exact (shifts_zero (m + 1)).symm
  have hhalf : 2 ^ (m + 1) >>> 1 = 2 ^ m := by
    rw [Nat.shiftRight_eq_div_pow, Nat.pow_succ, Nat.pow_one, Nat.mul_div_cancel _ (by omega)]
  have hfilled := fillRow_entered hbits (Nat.lt_succ_self m) hstart
  rw [show m.succ - m - 1 = 0 by omega] at hfilled
  intro i hi
  rw [Nat.succ_eq_add_one, hhalf]
  exact hfilled i hi (one_dvd i)

/-! ## Section 4: The other rows -/

theorem and_ff (x : Word) : (x &&& 0xff).toNat = x.toNat % 2 ^ 8 := by
  have hmask : (0xff : Word).toNat = 2 ^ 8 - 1 := rfl
  rw [BitVec.toNat_and, hmask, Nat.and_two_pow_sub_one_eq_mod]

/-- The first row steps a word by eight. -/
theorem step_byte {row : Nat → Word} (h : IsTable polynomial 8 8 row) (crc : Word) :
    row (crc &&& 0xff).toNat ^^^ (crc >>> 8) = shifts polynomial 8 crc := by
  rw [and_ff, h.slice, BitVec.xor_comm]

/-- Entry `i` after the rows up to `n`. -/
structure Column (polynomial : Word) (tab : Table) (i n : Nat) (s : Word × Table) : Prop where
  crc    : s.1 = shifts polynomial (8 * (n + 1)) (BitVec.ofNat 32 i)
  filled : ∀ j ≤ n, s.2 j i = shifts polynomial (8 * (j + 1)) (BitVec.ofNat 32 i)
  first  : s.2 0 = tab 0
  others : ∀ j, ∀ k ≠ i, s.2 j k = tab j k

theorem fillColumnStep_column {tab : Table} (h : IsTable polynomial 8 8 (tab 0)) {i n : Nat}
    {s : Word × Table} (hs : Column polynomial tab i n s) :
    Column polynomial tab i (n + 1) (fillColumnStep i s (1 + n)) := by
  have hcrc : s.2 0 (s.1 &&& 0xff).toNat ^^^ (s.1 >>> 8) =
      shifts polynomial (8 * (n + 1 + 1)) (BitVec.ofNat 32 i) := by
    rw [hs.first, step_byte h, hs.crc, ← shifts_add]
    rfl
  simp only [fillColumnStep, hcrc, Nat.add_comm 1 n]
  refine ⟨rfl, ?_, ?_, ?_⟩ <;> dsimp only
  · intro j hj
    by_cases hlast : j = n + 1
    · rw [hlast, Function.update_self, Function.update_self]
    · rw [Function.update_of_ne hlast]
      exact hs.filled j (by omega)
  · rw [Function.update_of_ne (by omega)]
    exact hs.first
  · intro j k hk
    by_cases hlast : j = n + 1
    · rw [hlast, Function.update_self, Function.update_of_ne hk]
      exact hs.others (n + 1) k hk
    · rw [Function.update_of_ne hlast]
      exact hs.others j k hk

theorem fillColumn_column {tab : Table} (h : IsTable polynomial 8 8 (tab 0)) {i : Nat}
    (hi : i < 256) (n : Nat) :
    Column polynomial tab i n
      ((List.range' 1 n).foldl (fillColumnStep i) (tab 0 i, tab)) := by
  induction n with
  | zero =>
    have hentry : tab 0 i = shifts polynomial (8 * (0 + 1)) (BitVec.ofNat 32 i) := h i hi
    refine ⟨hentry, ?_, rfl, fun _ _ _ => rfl⟩
    intro j hj
    rw [Nat.le_zero.mp hj]
    exact hentry
  | succ n ih =>
    rw [List.range'_concat, List.foldl_append, Nat.one_mul]
    exact fillColumnStep_column h ih

/-- The rows hold the steps of the indices below `i`. -/
structure Rows (polynomial : Word) (rows : Nat) (row : Nat → Word) (i : Nat) (tab : Table) :
    Prop where
  first  : tab 0 = row
  filled : ∀ j < rows, ∀ k < i, tab j k = shifts polynomial (8 * (j + 1)) (BitVec.ofNat 32 k)

theorem fillColumn_rows {rows : Nat} {row : Nat → Word} (h : IsTable polynomial 8 8 row) {i : Nat}
    (hi : i < 256) {tab : Table} (ht : Rows polynomial rows row i tab) :
    Rows polynomial rows row (i + 1) (fillColumn rows tab i) := by
  have hcol := fillColumn_column (ht.first ▸ h) hi (rows - 1)
  refine ⟨hcol.first.trans ht.first, ?_⟩
  intro j hj k hk
  by_cases hlast : k = i
  · rw [hlast]
    exact hcol.filled j (by omega)
  · exact (hcol.others j k hlast).trans (ht.filled j hj k (by omega))

theorem fillColumns_rows (rows : Nat) {row : Nat → Word} (h : IsTable polynomial 8 8 row)
    {tab : Table} (hfirst : tab 0 = row) {n : Nat} (hn : n ≤ 256) :
    Rows polynomial rows row n ((List.range n).foldl (fillColumn rows) tab) := by
  induction n with
  | zero => exact ⟨hfirst, fun j _ k hk => absurd hk (Nat.not_lt_zero k)⟩
  | succ n ih =>
    rw [List.range_succ, List.foldl_append]
    exact fillColumn_rows h (by omega) (ih (by omega))

/-- What a table must hold for the variant that uses it. -/
def Sound (b : CrcLeBits) (polynomial : Word) (tab : Table) : Prop :=
  IsTable polynomial b.indexBits b.indexBits (tab 0) ∧
    ∀ j < b.tableRows, b.indexBits = 8 → IsTable polynomial 8 (8 * (j + 1)) (tab j)

theorem tableSize_eq (b : CrcLeBits) : b.tableSize = 2 ^ b.indexBits :=
  (Nat.shiftLeft_eq _ _).trans (Nat.one_mul _)

/-- **Every table the generator writes is sound.** -/
theorem crc32init_sound (b : CrcLeBits) (polynomial : Word) :
    Sound b polynomial (crc32initLeGeneric b polynomial) := by
  have hindex : 0 < b.indexBits ∧ b.indexBits ≤ 32 := by cases b <;> decide
  have hrow := fillRow_isTable polynomial hindex.2 hindex.1
    (Function.update_self 0 0 (fun _ => (0 : Word)))
  simp only [crc32initLeGeneric, tableSize_eq]
  by_cases height : b.indexBits = 8
  · rw [height] at hrow ⊢
    have hrows := fun tab => fillColumns_rows b.tableRows hrow
      (Function.update_self 0 _ tab) (show 2 ^ 8 ≤ 256 from le_rfl)
    refine ⟨?_, ?_⟩
    · rw [height, (hrows _).first]
      exact hrow
    · intro j hj _ k hk
      exact (hrows _).filled j hj k hk
  · have hone : b.tableRows = 1 := by cases b <;> first | rfl | exact absurd rfl height
    have hsame : ∀ (l : List Nat) (tab : Table), l.foldl (fillColumn 1) tab = tab := by
      intro l
      induction l with
      | nil => exact fun _ => rfl
      | cons i l ih => exact fun tab => ih tab
    simp only [hone, hsame]
    refine ⟨?_, fun _ _ h => absurd h height⟩
    rw [Function.update_self]
    exact hrow

/-! ## Section 5: The bytes of a buffer -/

/-- A byte fed in and stepped through. -/
def feed (polynomial crc : Word) (x : Byte) : Word :=
  shifts polynomial 8 (crc ^^^ x.setWidth 32)

/-- The bit loop is the steps. -/
theorem crcByte1_eq (crc : Word) (x : Byte) :
    crcByte1 polynomial crc x = feed polynomial crc x := by
  have hstep : crcBit polynomial = shift polynomial := funext crcBit_eq
  unfold crcByte1 feed
  rw [List.foldl_const, List.length_range, shifts_eq_iterate, hstep]

theorem crcByteN_eq {n : Nat} {tab : Table} (h : IsTable polynomial n n (tab 0)) (hn : n ∣ 8)
    (crc : Word) (x : Byte) : crcByteN n tab crc x = feed polynomial crc x := by
  have hle : n ≤ 8 := Nat.le_of_dvd (by decide) hn
  have hmask : ∀ y : Word, (y &&& BitVec.ofNat 32 (2 ^ n - 1)).toNat = y.toNat % 2 ^ n := by
    intro y
    have hlt : 2 ^ n - 1 < 2 ^ 32 :=
      lt_of_le_of_lt (Nat.sub_le _ _) (Nat.pow_lt_pow_right (by decide) (by omega))
    rw [BitVec.toNat_and, BitVec.toNat_ofNat, Nat.mod_eq_of_lt hlt, Nat.and_two_pow_sub_one_eq_mod]
  have hstep : (fun y : Word => (y >>> n) ^^^ tab 0 (y &&& BitVec.ofNat 32 (2 ^ n - 1)).toNat) =
      shifts polynomial n := by
    funext y
    rw [hmask, h.slice]
  unfold crcByteN feed
  rw [List.foldl_const, List.length_range, hstep, iterate_shifts, Nat.div_mul_cancel hn]

section Slices

variable {tab : Table}

theorem doCrc_eq (h : IsTable polynomial 8 8 (tab 0)) (crc : Word) (x : Byte) :
    doCrc tab crc x = feed polynomial crc x := by
  have hhigh : (crc ^^^ x.setWidth 32) >>> 8 = crc >>> 8 := by
    have hout : x.setWidth 32 >>> 8 = 0#32 := by
      apply BitVec.eq_of_toNat_eq
      rw [BitVec.toNat_ushiftRight, BitVec.toNat_setWidth, Nat.shiftRight_eq_div_pow]
      have := x.isLt
      exact Nat.div_eq_of_lt (lt_of_le_of_lt (Nat.mod_le _ _) this)
    rw [BitVec.ushiftRight_xor_distrib, hout, BitVec.xor_zero]
  unfold doCrc feed
  rw [show (255 : Word) = 0xff from rfl, and_ff, h.slice, hhigh, BitVec.xor_comm]

theorem peel_byte {j : Nat} (h : IsTable polynomial 8 (8 * (j + 1)) (tab j)) (q : Word) :
    shifts polynomial (8 * (j + 1)) q =
      shifts polynomial (8 * j) (q >>> 8) ^^^ tab j (q &&& 255).toNat := by
  rw [Nat.mul_succ, Nat.add_comm] at h ⊢
  rw [h.peel, show (255 : Word) = 0xff from rfl, and_ff]

/-- **Four look-ups** step a word through its four bytes and `row` more. -/
theorem doSlice_eq {row : Nat}
    (h : ∀ j < row + 4, IsTable polynomial 8 (8 * (j + 1)) (tab j)) (q : Word) :
    doSlice tab row q = shifts polynomial (8 * (row + 4)) q := by
  have h3 : shifts polynomial (8 * (row + 4)) q =
      shifts polynomial (8 * (row + 3)) (q >>> 8) ^^^ tab (row + 3) (q &&& 255).toNat :=
    peel_byte (h (row + 3) (by omega)) q
  have h2 : shifts polynomial (8 * (row + 3)) (q >>> 8) =
      shifts polynomial (8 * (row + 2)) (q >>> 16) ^^^ tab (row + 2) (q >>> 8 &&& 255).toNat := by
    rw [BitVec.shiftRight_add q 8 8]
    exact peel_byte (h (row + 2) (by omega)) (q >>> 8)
  have h1 : shifts polynomial (8 * (row + 2)) (q >>> 16) =
      shifts polynomial (8 * (row + 1)) (q >>> 24) ^^^ tab (row + 1) (q >>> 16 &&& 255).toNat := by
    rw [BitVec.shiftRight_add q 16 8]
    exact peel_byte (h (row + 1) (by omega)) (q >>> 16)
  have h0 : shifts polynomial (8 * (row + 1)) (q >>> 24) = tab row (q >>> 24 &&& 255).toNat := by
    -- nothing is left above the last byte
    have hout : q >>> 24 >>> 8 = 0#32 := by
      rw [← BitVec.shiftRight_add]
      exact BitVec.ushiftRight_eq_zero le_rfl
    rw [peel_byte (h row (by omega)) (q >>> 24), hout, shifts_zero, BitVec.zero_xor]
  unfold doSlice
  rw [h3, h2, h1, h0]
  ac_rfl

/-- The bytes of a word, one after the other, are the word. -/
theorem feed_word (crc : Word) (b0 b1 b2 b3 : Byte) :
    [b0, b1, b2, b3].foldl (feed polynomial) crc =
      shifts polynomial 32 (crc ^^^ leWord b0 b1 b2 b3) := by
  have hfits : ∀ (b : Byte) (m : Nat), m ≤ 24 → (b.setWidth 32).toNat * 2 ^ m < 2 ^ 32 := by
    intro b m hm
    have hb : (b.setWidth 32).toNat < 2 ^ 8 := by
      rw [BitVec.toNat_setWidth]
      exact lt_of_le_of_lt (Nat.mod_le _ _) b.isLt
    calc (b.setWidth 32).toNat * 2 ^ m < 2 ^ 8 * 2 ^ m :=
          Nat.mul_lt_mul_of_pos_right hb (Nat.two_pow_pos m)
      _ ≤ 2 ^ 8 * 2 ^ 24 := Nat.mul_le_mul_left _ (Nat.pow_le_pow_right (by decide) hm)
  simp only [List.foldl_cons, List.foldl_nil, feed]
  rw [shifts_feed_later (hfits b1 8 (by decide)), shifts_feed_later (hfits b2 16 (by decide)),
    shifts_feed_later (hfits b3 24 (by decide)), leWord_eq_xor]
  simp only [BitVec.xor_assoc]

theorem feed_readByte (mem : ByteMem) (a n : Nat) (crc : Word) :
    (readBytes mem a (n + 1)).foldl (feed polynomial) crc =
      (readBytes mem (a + 1) n).foldl (feed polynomial) (feed polynomial crc (mem a)) := by
  rw [Nat.add_comm, readBytes_add, List.foldl_append]
  rfl

theorem readBytes_word (mem : ByteMem) (a n : Nat) :
    readBytes mem a (4 + n) =
      [mem a, mem (a + 1), mem (a + 2), mem (a + 3)] ++ readBytes mem (a + 4) n :=
  readBytes_add mem a 4 n

theorem feed_loadWord (mem : ByteMem) (a n : Nat) (crc : Word) :
    (readBytes mem a (4 + n)).foldl (feed polynomial) crc =
      (readBytes mem (a + 4) n).foldl (feed polynomial)
        (shifts polynomial 32 (crc ^^^ loadWord mem a)) := by
  rw [readBytes_word, List.foldl_append, feed_word]
  rfl

/-- A byte at a time. -/
theorem byteLoop_eq (h : IsTable polynomial 8 8 (tab 0)) (mem : ByteMem) (len p : Nat)
    (crc : Word) :
    byteLoop tab mem len p crc = (readBytes mem p len).foldl (feed polynomial) crc := by
  induction len generalizing p crc with
  | zero => rfl
  | succ len ih =>
    rw [byteLoop, ih, doCrc_eq h, feed_readByte]

/-- A word at a time. -/
theorem wordLoop_eq (h : ∀ j < 4, IsTable polynomial 8 (8 * (j + 1)) (tab j)) (mem : ByteMem)
    (len b : Nat) (crc : Word) :
    wordLoop tab mem len b crc = (readBytes mem b (4 * len)).foldl (feed polynomial) crc := by
  induction len generalizing b crc with
  | zero => rfl
  | succ len ih =>
    rw [wordLoop, ih, Nat.mul_succ, Nat.add_comm (4 * len), feed_loadWord, doCrc4, doSlice_eq h]

/-- Two words at a time: the first goes through the bytes of the second too. -/
theorem pairLoop_eq (h : ∀ j < 8, IsTable polynomial 8 (8 * (j + 1)) (tab j)) (mem : ByteMem)
    (len b : Nat) (crc : Word) :
    pairLoop tab mem len b crc = (readBytes mem b (8 * len)).foldl (feed polynomial) crc := by
  have hlow : ∀ j < 0 + 4, IsTable polynomial 8 (8 * (j + 1)) (tab j) :=
    fun j hj => h j (by omega)
  induction len generalizing b crc with
  | zero => rfl
  | succ len ih =>
    have hlen : 8 * (len + 1) = 4 + (4 + 8 * len) := by ring
    rw [pairLoop, ih, hlen, feed_loadWord, feed_loadWord, doCrc8, doCrc4, doSlice_eq h,
      doSlice_eq hlow, shifts_xor 32 (shifts polynomial 32 _), ← shifts_add]

/-- The bytes in front leave the others to be fed. -/
theorem alignLoop_eq (h : IsTable polynomial 8 8 (tab 0)) (mem : ByteMem) (len buf : Nat)
    (crc : Word) :
    (readBytes mem buf len).foldl (feed polynomial) crc =
      (readBytes mem (alignLoop tab mem len buf crc).2.1
        (alignLoop tab mem len buf crc).2.2).foldl (feed polynomial)
        (alignLoop tab mem len buf crc).1 := by
  induction len generalizing buf crc with
  | zero => rfl
  | succ len ih =>
    rw [alignLoop]
    by_cases haligned : buf % 4 ≠ 0
    · rw [if_pos haligned, ← ih, doCrc_eq h, feed_readByte]
    · rw [if_neg haligned]

/-- A buffer in blocks of `k` bytes, and the bytes left over. -/
theorem feed_blocks (mem : ByteMem) (buf len k : Nat) (crc : Word) :
    (readBytes mem buf len).foldl (feed polynomial) crc =
      (readBytes mem (buf + k * (len / k)) (len % k)).foldl (feed polynomial)
        ((readBytes mem buf (k * (len / k))).foldl (feed polynomial) crc) := by
  rw [← List.foldl_append, ← readBytes_add, Nat.div_add_mod]

theorem crc32Body4_eq (h : ∀ j < 4, IsTable polynomial 8 (8 * (j + 1)) (tab j)) (crc : Word)
    (mem : ByteMem) (buf len : Nat) :
    crc32Body4 tab crc mem buf len = (readBytes mem buf len).foldl (feed polynomial) crc := by
  have hfirst : IsTable polynomial 8 8 (tab 0) := h 0 (by decide)
  rw [alignLoop_eq hfirst mem len buf crc, crc32Body4]
  obtain ⟨crc, buf, len⟩ := alignLoop tab mem len buf crc
  dsimp only
  rw [byteLoop_eq hfirst, wordLoop_eq h, feed_blocks mem buf len 4]

theorem crc32Body8_eq (h : ∀ j < 8, IsTable polynomial 8 (8 * (j + 1)) (tab j)) (crc : Word)
    (mem : ByteMem) (buf len : Nat) :
    crc32Body8 tab crc mem buf len = (readBytes mem buf len).foldl (feed polynomial) crc := by
  have hfirst : IsTable polynomial 8 8 (tab 0) := h 0 (by decide)
  rw [alignLoop_eq hfirst mem len buf crc, crc32Body8]
  obtain ⟨crc, buf, len⟩ := alignLoop tab mem len buf crc
  dsimp only
  rw [byteLoop_eq hfirst, pairLoop_eq h, feed_blocks mem buf len 8]

end Slices

/-- Whatever the variant, a buffer is fed in byte by byte. -/
theorem crc32LeGeneric_feed {b : CrcLeBits} {tab : Table} (h : Sound b polynomial tab) (crc : Word)
    (mem : ByteMem) (p len : Nat) :
    crc32LeGeneric b tab polynomial crc mem p len =
      (readBytes mem p len).foldl (feed polynomial) crc := by
  obtain ⟨hfirst, hrows⟩ := h
  cases b with
  | one =>
    have hstep : crcByte1 polynomial = feed polynomial := funext₂ crcByte1_eq
    rw [crc32LeGeneric, crcLoop, hstep]
  | two =>
    have hstep : crcByteN 2 tab = feed polynomial := funext₂ (crcByteN_eq hfirst (by decide))
    rw [crc32LeGeneric, crcLoop, hstep]
  | four =>
    have hstep : crcByteN 4 tab = feed polynomial := funext₂ (crcByteN_eq hfirst (by decide))
    rw [crc32LeGeneric, crcLoop, hstep]
  | eight =>
    have hstep : crcByteN 8 tab = feed polynomial := funext₂ (crcByteN_eq hfirst (by decide))
    rw [crc32LeGeneric, crcLoop, hstep]
  | thirtyTwo => exact crc32Body4_eq (fun j hj => hrows j hj rfl) crc mem p len
  | sixtyFour => exact crc32Body8_eq (fun j hj => hrows j hj rfl) crc mem p len

end Steps

/-- **The six ways agree.**  With the tables the generator writes, every variant
    computes what the loop over single bits computes, for every polynomial, seed
    and buffer. -/
theorem crc32Le_bitwise (b : CrcLeBits) (polynomial crc : Word) (mem : ByteMem) (p len : Nat) :
    crc32LeGeneric b (crc32initLeGeneric b polynomial) polynomial crc mem p len =
      (readBytes mem p len).foldl (crcByte1 polynomial) crc := by
  have hstep : crcByte1 polynomial = feed polynomial := funext₂ crcByte1_eq
  rw [crc32LeGeneric_feed (crc32init_sound b polynomial), hstep]

end Linux
