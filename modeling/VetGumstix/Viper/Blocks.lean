import Mathlib

/-! # The Checksum Blocks of the Viper Simulator

    `generate_nonce` and `checksum_simulator` (`code/app/viper/simulator.c`)
    each hold their own copy of eight straight-line blocks over a file of 32
    MIPS registers.  Every block loads two firmware words, mixes them into
    three data registers, and derives the next load offset and the next jump
    target from the last one.  Two wirings alternate: the even blocks xor the
    loaded words in, the odd blocks add them.

    This module models one block as a `Block` value (its wiring, its six
    operand registers and its successor address) together with the code both
    wirings share, and lists the operand tables of the two functions
    separately, as the source does.  The operands carry the proof that they
    are not the address registers `r5..r10`.
-/

namespace Viper

/-! ## Section 1: Words, registers and buffers -/

/-- `__u32`. -/
abbrev Word : Type := BitVec 32

/-- A MIPS register number (`MIPS_REG_NUM` is 32). -/
abbrev Reg : Type := Fin 32

-- Named, so that every register and block literal carries the same proof.
instance reg_neZero : NeZero 32 := ⟨by decide⟩

instance block_neZero : NeZero 8 := ⟨by decide⟩

/-- A register file such as `g_reg` or `g_reg_state`. -/
abbrev Regs : Type := Reg → Word

/-- `FW_SIZE/4`, the length of the buffers. -/
def fwWords : Nat := 3072 / 4

/-- A buffer of `FW_SIZE/4` words: the firmware image `g_swatt_buf`, or one
    of the mark buffers `g_mm`, `g_mm_s` and `g_swatt_buf_s`. -/
abbrev Buffer : Type := Fin fwWords → Word

def swattBase : Word := 0x8b00
def addrMask : Word := 0x7fc
def jumpMask : Word := 0x1c0
def iNum : Nat := 4

/-- `buf[i]`.  Reading outside the array is undefined in C; the invariant of
    the block machine shows that it does not happen. -/
def Buffer.get (buf : Buffer) (i : Nat) : Word :=
  if h : i < fwWords then buf ⟨i, h⟩ else 0

/-- `buf[i] = v`. -/
def Buffer.put (buf : Buffer) (i : Nat) (v : Word) : Buffer :=
  fun j => if j.val = i then v else buf j

theorem Buffer.get_put (buf : Buffer) (i j : Nat) (v : Word) (hj : j < fwWords) :
    (buf.put i v).get j = if j = i then v else buf.get j := by
  simp [Buffer.get, Buffer.put, hj]

theorem Buffer.get_of_lt (buf : Buffer) {i : Nat} (h : i < fwWords) :
    buf.get i = buf ⟨i, h⟩ := by
  simp [Buffer.get, h]

/-- The buffer `init_buf` leaves behind. -/
def Buffer.zero : Buffer := fun _ => 0

/-- `(a - SWATT_BASE)/4`, the word index of a card address. -/
def wordIndex (a : Word) : Nat := ((a - swattBase) / 4).toNat

/-! ## Section 2: One block -/

/-- A register a block may name as an operand: not one of `r5..r10`, which
    hold addresses, offsets and the jump target. -/
structure DataReg where
  reg : Reg
  isData : reg.val < 5 ∨ 10 < reg.val

@[simp] theorem DataReg.ne_addr (x : DataReg) (a : Reg) (ha : 5 ≤ a.val ∧ a.val ≤ 10) :
    x.reg ≠ a := by
  rintro rfl
  have := x.isData
  omega

@[simp] theorem DataReg.addr_ne (x : DataReg) (a : Reg) (ha : 5 ≤ a.val ∧ a.val ≤ 10) :
    a ≠ x.reg :=
  (x.ne_addr a ha).symm

/-- A register number as an operand. -/
def op (n : Reg) (h : n.val < 5 ∨ 10 < n.val := by decide) : DataReg := ⟨n, h⟩

/-- How a block mixes the loaded words: the even blocks start with `xor`,
    the odd ones with `add`. -/
inductive Wiring where
  | xorFirst
  | addFirst
  deriving DecidableEq, Repr

/-- The operands of a block.  `d1`, `d2`, `d3` are written in this order and
    computed from `s1`, `s2`, `s3`; `next` is the address put into `r10`. -/
structure Block where
  wiring : Wiring
  d1 : DataReg
  s1 : DataReg
  d2 : DataReg
  s2 : DataReg
  d3 : DataReg
  s3 : DataReg
  next : Word
  d1_ne_d2 : d1.reg ≠ d2.reg := by decide
  d1_ne_d3 : d1.reg ≠ d3.reg := by decide

/-- What a block leaves behind: the registers, and the indices of the two
    words it read and marked. -/
structure BlockRun where
  regs : Regs
  i1 : Nat
  i2 : Nat

/-- `r[5] = a; r[6] = buf[(r[5] - SWATT_BASE)/4]`. -/
def load (buf : Buffer) (r : Regs) (a : Word) : Regs :=
  let r := Function.update r 5 a
  Function.update r 6 (buf.get (wordIndex (r 5)))

/-- The body of the even blocks. -/
def Block.xorCode (b : Block) (buf : Buffer) (r : Regs) : BlockRun :=
  let r := load buf r (r 10 + r 7)
  let i1 := wordIndex (r 5)
  let r := Function.update r 5 (r 6 ^^^ r 5)
  let r := Function.update r b.d1.reg (r b.s1.reg ^^^ r 5)
  let r := Function.update r 7 (r b.d1.reg &&& addrMask)
  let r := load buf r (r 9 + r 7)
  let i2 := wordIndex (r 5)
  let r := Function.update r 5 (r 6 ^^^ r 5)
  let r := Function.update r b.d2.reg (r b.s2.reg ^^^ r 5)
  let r := Function.update r b.d3.reg (r b.s3.reg + r b.d2.reg)
  let r := Function.update r 7 (r b.d3.reg &&& addrMask)
  let r := Function.update r 5 (r b.d3.reg &&& jumpMask)
  let r := Function.update r 9 (r 9 ^^^ r 5)
  ⟨r, i1, i2⟩

/-- The body of the odd blocks. -/
def Block.addCode (b : Block) (buf : Buffer) (r : Regs) : BlockRun :=
  let r := load buf r (r 9 + r 8)
  let i1 := wordIndex (r 5)
  let r := Function.update r 5 (r 6 + r 5)
  let r := Function.update r b.d1.reg (r b.s1.reg + r 5)
  let r := Function.update r 8 (r b.d1.reg &&& addrMask)
  let r := load buf r (r 10 + r 8)
  let i2 := wordIndex (r 5)
  let r := Function.update r 5 (r 6 + r 5)
  let r := Function.update r b.d2.reg (r b.s2.reg + r 5)
  let r := Function.update r b.d3.reg (r b.s3.reg ^^^ r b.d2.reg)
  let r := Function.update r 8 (r b.d3.reg &&& addrMask)
  let r := Function.update r 5 (r b.d3.reg &&& jumpMask)
  let r := Function.update r 9 (r 9 ^^^ r 5)
  ⟨r, i1, i2⟩

/-- One block, up to the update of `r9`. -/
def Block.exec (b : Block) (buf : Buffer) (r : Regs) : BlockRun :=
  match b.wiring with
  | .xorFirst => b.xorCode buf r
  | .addFirst => b.addCode buf r

/-- The card address of block `k`; `k = 8` is the address after block 7. -/
def blockAddr (k : Nat) : Nat := 0x8c00 + 0x40 * k

/-- The eight blocks of one function.  Block `k` leaves the address of block
    `k + 1` in `r10`. -/
structure BlockTable where
  block : Fin 8 → Block
  next_eq : ∀ k, (block k).next.toNat = blockAddr (k + 1)

/-! ## Section 3: The operand tables

    The two functions repeat the eight blocks word for word, except that the
    generator marks `g_mm_s` and the simulator marks `g_swatt_buf_s`.  Block 3
    writes its second sum as `r[5] + r[6]` where the other odd blocks write
    `r[6] + r[5]`. -/

namespace GenerateNonce

def block0 : Block :=
  { wiring := .xorFirst, d1 := op 11, s1 := op 26, d2 := op 2, s2 := op 27,
    d3 := op 3, s3 := op 2, next := 0x8c00 + 16*4 + 8 - 8 }

def block1 : Block :=
  { wiring := .addFirst, d1 := op 11, s1 := op 2, d2 := op 12, s2 := op 2,
    d3 := op 13, s3 := op 11, next := 0x8c00 + 32*4 + 8 - 8 }

def block2 : Block :=
  { wiring := .xorFirst, d1 := op 14, s1 := op 11, d2 := op 15, s2 := op 2,
    d3 := op 16, s3 := op 3, next := 0x8c00 + 16*4*3 + 8 - 8 }

def block3 : Block :=
  { wiring := .addFirst, d1 := op 17, s1 := op 11, d2 := op 18, s2 := op 12,
    d3 := op 19, s3 := op 13, next := 0x8c00 + 16*4*4 + 8 - 8 }

def block4 : Block :=
  { wiring := .xorFirst, d1 := op 20, s1 := op 14, d2 := op 21, s2 := op 15,
    d3 := op 22, s3 := op 26, next := 0x8c00 + 16*4*5 + 8 - 8 }

def block5 : Block :=
  { wiring := .addFirst, d1 := op 23, s1 := op 17, d2 := op 24, s2 := op 18,
    d3 := op 25, s3 := op 19, next := 0x8c00 + 16*4*6 + 8 - 8 }

def block6 : Block :=
  { wiring := .xorFirst, d1 := op 26, s1 := op 20, d2 := op 27, s2 := op 21,
    d3 := op 28, s3 := op 22, next := 0x8c00 + 16*4*7 + 8 - 8 }

def block7 : Block :=
  { wiring := .addFirst, d1 := op 2, s1 := op 23, d2 := op 3, s2 := op 24,
    d3 := op 11, s3 := op 25, next := 0x8c00 + 16*4*8 + 8 - 8 }

def blocks : BlockTable where
  block := ![block0, block1, block2, block3, block4, block5, block6, block7]
  next_eq := by decide

end GenerateNonce

namespace ChecksumSimulator

def block0 : Block :=
  { wiring := .xorFirst, d1 := op 11, s1 := op 26, d2 := op 2, s2 := op 27,
    d3 := op 3, s3 := op 2, next := 0x8c00 + 16*4 + 8 - 8 }

def block1 : Block :=
  { wiring := .addFirst, d1 := op 11, s1 := op 2, d2 := op 12, s2 := op 2,
    d3 := op 13, s3 := op 11, next := 0x8c00 + 32*4 + 8 - 8 }

def block2 : Block :=
  { wiring := .xorFirst, d1 := op 14, s1 := op 11, d2 := op 15, s2 := op 2,
    d3 := op 16, s3 := op 3, next := 0x8c00 + 16*4*3 + 8 - 8 }

def block3 : Block :=
  { wiring := .addFirst, d1 := op 17, s1 := op 11, d2 := op 18, s2 := op 12,
    d3 := op 19, s3 := op 13, next := 0x8c00 + 16*4*4 + 8 - 8 }

def block4 : Block :=
  { wiring := .xorFirst, d1 := op 20, s1 := op 14, d2 := op 21, s2 := op 15,
    d3 := op 22, s3 := op 26, next := 0x8c00 + 16*4*5 + 8 - 8 }

def block5 : Block :=
  { wiring := .addFirst, d1 := op 23, s1 := op 17, d2 := op 24, s2 := op 18,
    d3 := op 25, s3 := op 19, next := 0x8c00 + 16*4*6 + 8 - 8 }

def block6 : Block :=
  { wiring := .xorFirst, d1 := op 26, s1 := op 20, d2 := op 27, s2 := op 21,
    d3 := op 28, s3 := op 22, next := 0x8c00 + 16*4*7 + 8 - 8 }

def block7 : Block :=
  { wiring := .addFirst, d1 := op 2, s1 := op 23, d2 := op 3, s2 := op 24,
    d3 := op 11, s3 := op 25, next := 0x8c00 + 16*4*8 + 8 - 8 }

def blocks : BlockTable where
  block := ![block0, block1, block2, block3, block4, block5, block6, block7]
  next_eq := by decide

end ChecksumSimulator

/-- No operand differs between the two copies of the blocks. -/
theorem blocks_agree : GenerateNonce.blocks = ChecksumSimulator.blocks := rfl

/-! ## Section 4: What a block computes -/

namespace Block

variable (b : Block) (buf : Buffer) (r : Regs)

/-- Base and offset of the first load. -/
def base1 : Word :=
  match b.wiring with
  | .xorFirst => r 10
  | .addFirst => r 9

def off1 : Word :=
  match b.wiring with
  | .xorFirst => r 7
  | .addFirst => r 8

def addr1 : Word := b.base1 r + b.off1 r

/-- The value of `d1`, as a function of the first loaded word. -/
def mix1 (w : Word) : Word :=
  match b.wiring with
  | .xorFirst => r b.s1.reg ^^^ (w ^^^ b.addr1 r)
  | .addFirst => r b.s1.reg + (w + b.addr1 r)

/-- Base and offset of the second load, which depends on the first word. -/
def base2 : Word :=
  match b.wiring with
  | .xorFirst => r 9
  | .addFirst => r 10

def off2 (w : Word) : Word := b.mix1 r w &&& addrMask

def addr2 (w : Word) : Word := b.base2 r + b.off2 r w

/-- The first word of the block. -/
def word1 : Word := buf.get (wordIndex (b.addr1 r))

/-- The second word of the block. -/
def word2 : Word := buf.get (wordIndex (b.addr2 r (b.word1 buf r)))

theorem exec_i1 : (b.exec buf r).i1 = wordIndex (b.addr1 r) := by
  unfold exec addr1 base1 off1
  cases b.wiring <;> simp [xorCode, addCode, load]

theorem exec_i2 : (b.exec buf r).i2 = wordIndex (b.addr2 r (b.word1 buf r)) := by
  unfold exec addr2 base2 off2 mix1 word1 addr1 base1 off1
  cases b.wiring <;> simp [xorCode, addCode, load]

theorem exec_d1 : (b.exec buf r).regs b.d1.reg = b.mix1 r (b.word1 buf r) := by
  unfold exec mix1 word1 addr1 base1 off1
  cases b.wiring <;> simp [xorCode, addCode, load, b.d1_ne_d2, b.d1_ne_d3]

theorem exec_r6 : (b.exec buf r).regs 6 = b.word2 buf r := by
  unfold exec word2 addr2 base2 off2 mix1 word1 addr1 base1 off1
  cases b.wiring <;> simp [xorCode, addCode, load]

theorem exec_r10 : (b.exec buf r).regs 10 = r 10 := by
  unfold exec
  cases b.wiring <;> simp [xorCode, addCode, load]

/-- The jump target changes only in the bits of `JUMP_MASK`. -/
theorem exec_r9 : ∃ v, (b.exec buf r).regs 9 = r 9 ^^^ (v &&& jumpMask) := by
  unfold exec
  cases b.wiring <;> exact ⟨_, by simp [xorCode, addCode, load]; rfl⟩

/-- The even blocks leave a masked value in `r7`, the odd ones leave it alone. -/
theorem exec_r7 : (b.exec buf r).regs 7 = r 7 ∨ ∃ v, (b.exec buf r).regs 7 = v &&& addrMask := by
  unfold exec
  cases b.wiring with
  | xorFirst => exact .inr ⟨_, by simp [xorCode, load]; rfl⟩
  | addFirst => exact .inl (by simp [addCode, load])

/-- The odd blocks leave a masked value in `r8`, the even ones leave it alone. -/
theorem exec_r8 : (b.exec buf r).regs 8 = r 8 ∨ ∃ v, (b.exec buf r).regs 8 = v &&& addrMask := by
  unfold exec
  cases b.wiring with
  | xorFirst => exact .inl (by simp [xorCode, load])
  | addFirst => exact .inr ⟨_, by simp [addCode, load]; rfl⟩

/-- A block writes its three operands and `r5..r9`. -/
theorem exec_frame {x : Reg} (h1 : x ≠ b.d1.reg) (h2 : x ≠ b.d2.reg) (h3 : x ≠ b.d3.reg)
    (hx : x.val < 5 ∨ 9 < x.val) : (b.exec buf r).regs x = r x := by
  have h : x ≠ 5 ∧ x ≠ 6 ∧ x ≠ 7 ∧ x ≠ 8 ∧ x ≠ 9 := by
    refine ⟨?_, ?_, ?_, ?_, ?_⟩ <;> (rintro rfl; simp at hx)
  obtain ⟨h5, h6, h7, h8, h9⟩ := h
  unfold exec
  cases b.wiring <;> simp [xorCode, addCode, load, h1, h2, h3, h5, h6, h7, h8, h9]

theorem load_congr {r r' : Regs} (a : Word) (h : ∀ x, x ≠ 5 → x ≠ 6 → r x = r' x) :
    load buf r a = load buf r' a := by
  funext x
  by_cases h6 : x = 6
  · simp [load, h6]
  · by_cases h5 : x = 5
    · simp [load, h5]
    · simp [load, h5, h6, h x h5 h6]

/-- A block overwrites `r5` and `r6` before it reads them. -/
theorem exec_congr {r r' : Regs} (h : ∀ x, x ≠ 5 → x ≠ 6 → r x = r' x) :
    b.exec buf r = b.exec buf r' := by
  have h7 := h 7 (by decide) (by decide)
  have h8 := h 8 (by decide) (by decide)
  have h9 := h 9 (by decide) (by decide)
  have h10 := h 10 (by decide) (by decide)
  unfold exec
  cases b.wiring with
  | xorFirst => simp only [xorCode, h7, h10, load_congr buf (r' 10 + r' 7) h]
  | addFirst => simp only [addCode, h8, h9, load_congr buf (r' 9 + r' 8) h]

/-- A block reads nothing of the buffer but the two words it marks. -/
theorem exec_eq_of_words {buf buf' : Buffer}
    (h1 : buf.get (b.exec buf r).i1 = buf'.get (b.exec buf r).i1)
    (h2 : buf.get (b.exec buf r).i2 = buf'.get (b.exec buf r).i2) :
    b.exec buf r = b.exec buf' r := by
  rw [exec_i1] at h1
  rw [exec_i2] at h2
  unfold addr2 base2 off2 mix1 word1 addr1 base1 off1 at h2
  unfold addr1 base1 off1 at h1
  unfold exec
  cases hw : b.wiring with
  | xorFirst =>
    simp only [hw] at h1 h2
    -- the address of the second load depends on the first word
    simp [xorCode, load, h1] at h2 ⊢
    simp [h2]
  | addFirst =>
    simp only [hw] at h1 h2
    simp [addCode, load, h1] at h2 ⊢
    simp [h2]

theorem mix1_injective {w w' : Word} (h : b.mix1 r w = b.mix1 r w') : w = w' := by
  unfold mix1 at h
  cases hw : b.wiring with
  | xorFirst =>
    simp only [hw] at h
    exact (BitVec.xor_left_inj _).mp ((BitVec.xor_right_inj _).mp h)
  | addFirst =>
    simp only [hw] at h
    exact (BitVec.add_left_inj _).mp ((BitVec.add_right_inj _).mp h)

/-- **No word is absorbed**: two images that give a block the same outgoing
    registers agree on the two words it reads. -/
theorem words_eq_of_exec {buf buf' : Buffer}
    (h : (b.exec buf r).regs = (b.exec buf' r).regs) :
    buf.get (b.exec buf r).i1 = buf'.get (b.exec buf r).i1 ∧
    buf.get (b.exec buf r).i2 = buf'.get (b.exec buf r).i2 := by
  -- `d1` keeps the first word: the later writes go to other registers
  have h1 : b.word1 buf r = b.word1 buf' r := by
    have hd := congrFun h b.d1.reg
    rw [exec_d1, exec_d1] at hd
    exact b.mix1_injective r hd
  -- and `r6` still holds the second
  have h2 : b.word2 buf r = b.word2 buf' r := by
    have h6 := congrFun h 6
    rwa [exec_r6, exec_r6] at h6
  refine ⟨?_, ?_⟩
  · rw [exec_i1]
    exact h1
  · rw [exec_i2]
    unfold word2 at h2
    rwa [← h1] at h2

end Block

end Viper
