import VetGumstix.Swatt.Code

/-! # The Checksum Loop as a Function

    What one block does to the checksum registers, `x`, the counter and the
    status register, as a function of the word it loads.  `Checksum` is the
    part of the processor state the loop works on; it leaves out `r0`, `r13`
    and memory, which the loop does not change.

    The theorems say that the instructions of a block compute this function,
    for any word the load puts into `r9`.
-/

namespace Swatt

open Arm

/-! ## Section 1: The abstract loop -/

/-- The state of the checksum: `r1..r8`, `r9`, `r10`, `r11`, `r12`, `r14` and
    the status register. -/
@[ext]
structure Checksum where
  c : Fin 8 → Word
  word : Word
  x : Word
  tmp : Word
  counter : Word
  link : Word
  status : Word

/-- The register of a checksum word. -/
def cReg (i : Fin 8) : Reg := ⟨i + 1, by omega⟩

def checksumOf (s : Cpu) : Checksum where
  c i := s.r (cReg i)
  word := s.r 9
  x := s.r 10
  tmp := s.r 11
  counter := s.r 12
  link := s.r 14
  status := s.cpsr

def tFunction (x : Word) : Word := x + (x * x ||| 5)

/-- The load address of a block whose first instruction is at `a`: the fourth
    instruction reads `r15` as `a + 20`. -/
def daddr (a x : Word) : Word := ((a + 20 : Word) ^^^ (x >>> 24)) &&& 0xfffffffc

/-- The sums of a block that adds first: with the loaded word `w`, and with
    `x` after the xor with `p2`. -/
def addFirstSum (k : Checksum) (i p2 : Fin 8) (w : Word) : Sum :=
  let t := addWithCarry (k.c i) w (carry k.status)
  addWithCarry (t.word ^^^ k.c p2) (tFunction k.x) t.carry

/-- The mixed word of a block that adds first, before it is rotated.  The
    xor with `r15` is the tenth instruction. -/
def addFirstMix (k : Checksum) (i p2 p1 : Fin 8) (a w : Word) : Word :=
  let t := addFirstSum k i p2 w
  (addWithCarry (t.word ^^^ (a + 44) ^^^ k.c p1) (daddr a (tFunction k.x)) t.carry).word ^^^
    t.flags k.status

/-- Blocks 1, 3, 5, 7: the rotation and the counter come in only when the
    carry is set. -/
def addFirstUpdate (k : Checksum) (i p2 p1 : Fin 8) (a w : Word) : Checksum :=
  let t := addFirstSum k i p2 w
  let v := addFirstMix k i p2 p1 a w
  let v := if t.carry then k.counter + v.rotateRight 1 else v
  { k with
    c := Function.update k.c i v
    word := w
    x := tFunction k.x ^^^ v
    tmp := t.flags k.status
    counter := k.counter - 1
    status := t.flags k.status }

/-- The sum of a block that xors first, up to the addition of `p1`. -/
def xorFirstSum (k : Checksum) (i p2 p1 : Fin 8) (a w : Word) : Sum :=
  let t := addWithCarry (k.c i ^^^ w) (k.c p2) (carry k.status)
  let t := addWithCarry (t.word ^^^ tFunction k.x) (a + 44) t.carry
  addWithCarry t.word (k.c p1) t.carry

/-- The mixed word of a block that xors first, with the carry of the addition
    of the status. -/
def xorFirstMix (k : Checksum) (i p2 p1 : Fin 8) (a w : Word) : Sum :=
  let t := xorFirstSum k i p2 p1 a w
  addWithCarry (t.word ^^^ daddr a (tFunction k.x)) (t.flags k.status) t.carry

/-- The decrement of the counter. -/
def counterSum (k : Checksum) : Sum := subtract k.counter 1

/-- Blocks 2, 4, 6, 8. -/
def xorFirstUpdate (k : Checksum) (i p2 p1 : Fin 8) (last : Bool) (a w : Word) : Checksum :=
  let t := xorFirstMix k i p2 p1 a w
  let v := k.counter ^^^ t.word.rotateRight 1
  { k with
    c := Function.update k.c i v
    word := w
    x := (addWithCarry (tFunction k.x) v t.carry).word
    tmp := (xorFirstSum k i p2 p1 a w).flags k.status
    counter := k.counter - 1
    status := if last then (counterSum k).flags k.status else t.flags k.status }

/-! ## Section 2: Registers -/

@[simp] theorem cReg_inj {i j : Fin 8} : cReg i = cReg j ↔ i = j := by
  unfold cReg
  rw [Fin.ext_iff, Fin.ext_iff]
  exact Nat.add_right_cancel_iff

/-- `r0`, the stack pointer and memory, which a block leaves alone. -/
structure SameFrame (s t : Cpu) : Prop where
  r0  : t.r 0 = s.r 0
  r13 : t.r 13 = s.r 13
  mem : t.mem = s.mem

theorem SameFrame.refl (s : Cpu) : SameFrame s s := ⟨rfl, rfl, rfl⟩

theorem SameFrame.trans {s t u : Cpu} (h : SameFrame s t) (h' : SameFrame t u) :
    SameFrame s u :=
  ⟨h'.r0.trans h.r0, h'.r13.trans h.r13, h'.mem.trans h.mem⟩

/-- A conditional addition without flags writes its register either way. -/
theorem exec_arith_noflags {ℓ : Type} (op : ArithOp) (cond : Cond) (d n : Reg) (o : Operand)
    (pcv : Word) (s : Cpu) :
    (Instr.arith op false cond d n o : Instr ℓ).exec pcv s =
      s.write d (if cond.holds s.cpsr then (op.sum s.cpsr (s.read pcv n) (o.value s pcv)).word
        else s.r d) := by
  cases h : cond.holds s.cpsr <;> simp [Instr.exec, h, Cpu.write]

theorem exec_logic {ℓ : Type} (op : LogicOp) (d n : Reg) (o : Operand) (pcv : Word) (s : Cpu) :
    (Instr.logic op d n o : Instr ℓ).exec pcv s =
      s.write d (op.value (s.read pcv n) (o.value s pcv)) := rfl

/-! ## Section 3: The instructions of a block -/

/-- What the part of a block before its load leaves behind. -/
structure AfterT (a : Word) (s t : Cpu) : Prop where
  r10   : t.r 10 = tFunction (s.r 10)
  r11   : t.r 11 = daddr a (tFunction (s.r 10))
  other : ∀ x, x ≠ 10 → x ≠ 11 → t.r x = s.r x
  carry : carry t.cpsr = carry s.cpsr
  flags : ∀ n z c v, withFlags t.cpsr n z c v = withFlags s.cpsr n z c v
  mem   : t.mem = s.mem

theorem exec_tFunc (a : Word) (s : Cpu) : AfterT a s (execAll a tFunc s) := by
  have hadd : ∀ x y : Word, (addWithCarry x y false).word = x + y := fun x y => by
    simp [addWithCarry]
  constructor
  · simp [tFunc, execAll, Instr.exec, Operand.value, LogicOp.value, ArithOp.sum, Cond.holds,
      Cpu.read, hadd, tFunction]
  · simp [tFunc, execAll, Instr.exec, Operand.value, LogicOp.value, ArithOp.sum, Cond.holds,
      Cpu.read, hadd, tFunction, daddr, BitVec.add_assoc]
  · intro x h10 h11
    simp [tFunc, execAll, Instr.exec, Cond.holds, h10, h11]
  · simp [tFunc, execAll, Instr.exec, Cond.holds]
  · simp [tFunc, execAll, Instr.exec, Cond.holds]
  · simp [tFunc, execAll, Instr.exec, Cond.holds]


section parts

variable {a : Word} {c p2 p1 : Reg}

/-- An operand register of a block: a checksum register. -/
structure IsC (c : Reg) : Prop where
  pos : 1 ≤ c.val
  le  : c.val ≤ 8

theorem IsC.ne {c x : Reg} (h : IsC c) (hx : x.val = 0 ∨ 9 ≤ x.val) : c ≠ x := by
  rintro rfl
  have := h.pos
  have := h.le
  omega

/-- A checksum register is none of the registers a block works with, nor one
    of those it leaves alone. -/
theorem IsC.distinct {c : Reg} (h : IsC c) :
    (c ≠ 9 ∧ c ≠ 10 ∧ c ≠ 11 ∧ c ≠ 12) ∧ (9 ≠ c ∧ 10 ≠ c ∧ 11 ≠ c ∧ 12 ≠ c) ∧
    (0 ≠ c ∧ 13 ≠ c ∧ 14 ≠ c) := by
  have h9 : c ≠ 9 := h.ne (.inr (by decide))
  have h10 : c ≠ 10 := h.ne (.inr (by decide))
  have h11 : c ≠ 11 := h.ne (.inr (by decide))
  have h12 : c ≠ 12 := h.ne (.inr (by decide))
  have h0 : c ≠ 0 := h.ne (.inl rfl)
  have h13 : c ≠ 13 := h.ne (.inr (by decide))
  have h14 : c ≠ 14 := h.ne (.inr (by decide))
  exact ⟨⟨h9, h10, h11, h12⟩, ⟨h9.symm, h10.symm, h11.symm, h12.symm⟩, h0.symm, h13.symm,
    h14.symm⟩

theorem IsC.read {c : Reg} (h : IsC c) (s : Cpu) (pcv : Word) : s.read pcv c = s.r c :=
  s.read_of_ne _ _ (h.ne (.inr (by decide)))

theorem isC_cReg (i : Fin 8) : IsC (cReg i) := ⟨Nat.le_add_left _ _, i.isLt⟩

@[simp] theorem read_nine (s : Cpu) (pcv : Word) : s.read pcv 9 = s.r 9 := rfl
@[simp] theorem read_ten (s : Cpu) (pcv : Word) : s.read pcv 10 = s.r 10 := rfl
@[simp] theorem read_eleven (s : Cpu) (pcv : Word) : s.read pcv 11 = s.r 11 := rfl
@[simp] theorem read_twelve (s : Cpu) (pcv : Word) : s.read pcv 12 = s.r 12 := rfl

/-- Add the loaded word, xor `p2`, add `x`. -/
def addFirstHead (c p2 : Reg) : Code :=
  [.arith .adc true .al c c (.reg 9), .logic .eor c c (.reg p2),
   .arith .adc true .al c c (.reg 10)]

/-- Xor the program counter and `p1`, add the load address, xor the status. -/
def addFirstMid (c p1 : Reg) : Code :=
  [.logic .eor c c (.reg 15), .logic .eor c c (.reg p1), .arith .adc false .al c c (.reg 11),
   .mrs 11, .logic .eor c c (.reg 11)]

/-- Rotate and add the counter on carry, xor into `x`, count down. -/
def addFirstTail (c : Reg) : Code :=
  [.arith .add false .cs c 12 (.ror c 1), .logic .eor 10 10 (.reg c),
   .arith .sub false .al 12 12 (.imm 1)]

theorem addFirst_parts (c p2 p1 : Reg) :
    addFirst c p2 p1 = addFirstHead c p2 ++ (addFirstMid c p1 ++ addFirstTail c) := rfl

/-- Xor the loaded word, add `p2`, xor `x`, add the program counter and `p1`. -/
def xorFirstHead (c p2 p1 : Reg) : Code :=
  [.logic .eor c c (.reg 9), .arith .adc true .al c c (.reg p2), .logic .eor c c (.reg 10),
   .arith .adc true .al c c (.reg 15), .arith .adc true .al c c (.reg p1)]

/-- Xor the load address, add the status. -/
def xorFirstMid (c : Reg) : Code :=
  [.logic .eor c c (.reg 11), .mrs 11, .arith .adc true .al c c (.reg 11)]

/-- Rotate and xor the counter, add into `x`, count down. -/
def xorFirstTail (c : Reg) (last : Bool) : Code :=
  [.logic .eor c 12 (.ror c 1), .arith .adc false .al 10 10 (.reg c),
   .arith .sub last .al 12 12 (.imm 1)]

theorem xorFirst_parts (c p2 p1 : Reg) (last : Bool) :
    xorFirst c p2 p1 last =
      xorFirstHead c p2 p1 ++ (xorFirstMid c ++ xorFirstTail c last) := rfl

theorem exec_addFirstHead (s : Cpu) (hc : IsC c) (h2 : IsC p2) (hne : p2 ≠ c) :
    execAll a (addFirstHead c p2) s =
    let t := addWithCarry (s.r c) (s.r 9) (carry s.cpsr)
    let t := addWithCarry (t.word ^^^ s.r p2) (s.r 10) t.carry
    (s.write c t.word).setStatus (t.flags s.cpsr) := by
  simp [addFirstHead, execAll, Instr.exec, Operand.value, LogicOp.value, ArithOp.sum, Cond.holds,
    Sum.flags, hc.read, h2.read, hne, hc.distinct]

theorem exec_addFirstMid (s : Cpu) (hc : IsC c) (h1 : IsC p1) (hne : p1 ≠ c) :
    execAll a (addFirstMid c p1) s =
    let v := (addWithCarry (s.r c ^^^ (a + 8) ^^^ s.r p1) (s.r 11) (carry s.cpsr)).word
    ((s.write c v).write 11 s.cpsr).write c (v ^^^ s.cpsr) := by
  simp [addFirstMid, execAll, Instr.exec, Operand.value, LogicOp.value, ArithOp.sum, Cond.holds,
    hc.read, h1.read, hne, hc.distinct]

theorem exec_addFirstTail (s : Cpu) (hc : IsC c) :
    execAll a (addFirstTail c) s =
    let v := if carry s.cpsr then s.r 12 + (s.r c).rotateRight 1 else s.r c
    ((s.write c v).write 10 (s.r 10 ^^^ v)).write 12 (s.r 12 - 1) := by
  simp only [addFirstTail, execAll, exec_arith_noflags, exec_logic, Operand.value, LogicOp.value,
    ArithOp.sum, Cond.holds, hc.read, read_ten, read_twelve, if_true, subtract_word, Cpu.write_r]
  simp [hc.distinct, addWithCarry]

theorem exec_xorFirstHead (s : Cpu) (hc : IsC c) (h2 : IsC p2) (h1 : IsC p1) (hne2 : p2 ≠ c)
    (hne1 : p1 ≠ c) :
    execAll a (xorFirstHead c p2 p1) s =
    let t := addWithCarry (s.r c ^^^ s.r 9) (s.r p2) (carry s.cpsr)
    let t := addWithCarry (t.word ^^^ s.r 10) (a + 20) t.carry
    let t := addWithCarry t.word (s.r p1) t.carry
    (s.write c t.word).setStatus (t.flags s.cpsr) := by
  simp [xorFirstHead, execAll, Instr.exec, Operand.value, LogicOp.value, ArithOp.sum, Cond.holds,
    Sum.flags, hc.read, h2.read, h1.read, hne2, hne1, hc.distinct, BitVec.add_assoc]

theorem exec_xorFirstMid (s : Cpu) (hc : IsC c) :
    execAll a (xorFirstMid c) s =
    let t := addWithCarry (s.r c ^^^ s.r 11) s.cpsr (carry s.cpsr)
    (((s.write c (s.r c ^^^ s.r 11)).write 11 s.cpsr).write c t.word).setStatus
      (t.flags s.cpsr) := by
  simp [xorFirstMid, execAll, Instr.exec, Operand.value, LogicOp.value, ArithOp.sum, Cond.holds,
    Sum.flags, hc.read, hc.distinct]

theorem exec_xorFirstTail (s : Cpu) (hc : IsC c) (last : Bool) :
    execAll a (xorFirstTail c last) s =
    let v := s.r 12 ^^^ (s.r c).rotateRight 1
    (((s.write c v).write 10 (addWithCarry (s.r 10) v (carry s.cpsr)).word).write 12
      (s.r 12 - 1)).setStatus (if last then (subtract (s.r 12) 1).flags s.cpsr else s.cpsr) := by
  cases last with
  | true =>
    simp [xorFirstTail, execAll, Instr.exec, Operand.value, LogicOp.value, ArithOp.sum, Cond.holds,
      hc.read, hc.distinct, subtract_word]
  | false =>
    simp [xorFirstTail, execAll, Instr.exec, Operand.value, LogicOp.value, ArithOp.sum, Cond.holds,
      hc.read, hc.distinct, subtract_word]
    rfl

end parts

/-! ### Whole blocks -/

section blocks

variable {a w : Word} {s t : Cpu}

/-- What a block reads when the word `w` has been loaded. -/
theorem AfterT.loaded (h : AfterT a s t) (w : Word) :
    (∀ j, (t.write 9 w).r (cReg j) = s.r (cReg j)) ∧ (t.write 9 w).r 9 = w ∧
    (t.write 9 w).r 10 = tFunction (s.r 10) ∧
    (t.write 9 w).r 11 = daddr a (tFunction (s.r 10)) ∧ (t.write 9 w).r 12 = s.r 12 ∧
    (t.write 9 w).r 14 = s.r 14 ∧ SameFrame s (t.write 9 w) := by
  refine ⟨fun j => ?_, by simp, by simp [h.r10], by simp [h.r11], ?_, ?_, ⟨?_, ?_, h.mem⟩⟩
  · obtain ⟨⟨h9, h10, h11, -⟩, -⟩ := (isC_cReg j).distinct
    rw [Cpu.write_r, if_neg h9, h.other _ h10 h11]
  all_goals
    rw [Cpu.write_r, if_neg (by decide), h.other _ (by decide) (by decide)]

/-- Up to the addition of `x`, a block that adds first computes its sum. -/
theorem exec_addFirst_sum (h : AfterT a s t) (w : Word) (i p2 : Fin 8) (h2 : p2 ≠ i) :
    execAll (a + 24) (addFirstHead (cReg i) (cReg p2)) (t.write 9 w) =
      ((t.write 9 w).write (cReg i) (addFirstSum (checksumOf s) i p2 w).word).setStatus
        ((addFirstSum (checksumOf s) i p2 w).flags s.cpsr) := by
  obtain ⟨hcj, h9, h10, -⟩ := h.loaded w
  have hcarry : carry (t.write 9 w).cpsr = carry s.cpsr := h.carry
  have hflags : ∀ t' : Sum, t'.flags (t.write 9 w).cpsr = t'.flags s.cpsr := fun t' => h.flags ..
  rw [exec_addFirstHead _ (isC_cReg i) (isC_cReg p2) (by simpa using h2)]
  simp only [hcj, h9, h10, hcarry, hflags]
  rfl

/-- Up to the addition of `p1`, a block that xors first computes its sum. -/
theorem exec_xorFirst_sum (h : AfterT a s t) (w : Word) (i p2 p1 : Fin 8) (h2 : p2 ≠ i)
    (h1 : p1 ≠ i) :
    execAll (a + 24) (xorFirstHead (cReg i) (cReg p2) (cReg p1)) (t.write 9 w) =
      ((t.write 9 w).write (cReg i) (xorFirstSum (checksumOf s) i p2 p1 a w).word).setStatus
        ((xorFirstSum (checksumOf s) i p2 p1 a w).flags s.cpsr) := by
  obtain ⟨hcj, h9, h10, -⟩ := h.loaded w
  have hcarry : carry (t.write 9 w).cpsr = carry s.cpsr := h.carry
  have hflags : ∀ t' : Sum, t'.flags (t.write 9 w).cpsr = t'.flags s.cpsr := fun t' => h.flags ..
  have hpc : a + 24 + 20 = a + 44 := by
    rw [BitVec.add_assoc]
    rfl
  rw [exec_xorFirstHead _ (isC_cReg i) (isC_cReg p2) (isC_cReg p1) (by simpa using h2)
    (by simpa using h1)]
  simp only [hcj, h9, h10, hcarry, hflags, hpc]
  rfl

/-- A block that adds first, behind its load of `w`. -/
theorem exec_addFirst (h : AfterT a s t) (i p2 p1 : Fin 8) (h2 : p2 ≠ i) (h1 : p1 ≠ i) :
    checksumOf (execAll (a + 24) (addFirst (cReg i) (cReg p2) (cReg p1)) (t.write 9 w)) =
      addFirstUpdate (checksumOf s) i p2 p1 a w ∧
    SameFrame s (execAll (a + 24) (addFirst (cReg i) (cReg p2) (cReg p1)) (t.write 9 w)) := by
  -- from here on only what the block reads of `t` and `w` matters
  obtain ⟨hcj, h9, h10, h11, h12, h14, hframe⟩ := h.loaded w
  have hsum := exec_addFirst_sum h w i p2 h2
  generalize t.write 9 w = u at *
  have hi := isC_cReg i
  have hd := hi.distinct
  have hne1 : cReg p1 ≠ cReg i := by simpa using h1
  -- the program counter the block mixes in, 44 bytes behind its start
  have hpc : a + 24 + BitVec.ofNat 32 (4 * (addFirstHead (cReg i) (cReg p2)).length) + 8 =
      a + 44 := by
    rw [BitVec.add_assoc, BitVec.add_assoc]
    rfl
  rw [addFirst_parts, execAll_append, execAll_append, hsum,
    exec_addFirstMid _ hi (isC_cReg p1) hne1, hpc, exec_addFirstTail _ hi]
  have h1211 : (12 : Reg) ≠ 11 := by decide
  have h1011 : (10 : Reg) ≠ 11 := by decide
  simp only [Cpu.write_r, Cpu.setStatus_r, Cpu.setStatus_cpsr, Cpu.setStatus_write, if_true, hd,
    hne1, if_false, hcj, h10, h11, h12, Sum.carry_flags, h1211, h1011]
  refine ⟨Checksum.ext ?_ ?_ ?_ ?_ ?_ ?_ ?_, ?_, ?_, ?_⟩
  · funext j
    have hdj := (isC_cReg j).distinct
    by_cases hj : j = i
    · subst hj
      simp [checksumOf, addFirstUpdate, addFirstMix, hdj]
    · simp [checksumOf, addFirstUpdate, hdj, hj, hcj]
  · simp [checksumOf, addFirstUpdate, hd, h9]
  · simp [checksumOf, addFirstUpdate, addFirstMix, hd]
  · simp [checksumOf, addFirstUpdate, hd]
  · simp [checksumOf, addFirstUpdate]
  · simp [checksumOf, addFirstUpdate, hd, h14]
  · simp [checksumOf, addFirstUpdate]
  · simp [hd, hframe.r0]
  · simp [hd, hframe.r13]
  · simp [hframe.mem]

/-- A block that xors first, behind its load of `w`. -/
theorem exec_xorFirst (h : AfterT a s t) (i p2 p1 : Fin 8) (h2 : p2 ≠ i) (h1 : p1 ≠ i)
    (last : Bool) :
    checksumOf (execAll (a + 24) (xorFirst (cReg i) (cReg p2) (cReg p1) last) (t.write 9 w)) =
      xorFirstUpdate (checksumOf s) i p2 p1 last a w ∧
    SameFrame s
      (execAll (a + 24) (xorFirst (cReg i) (cReg p2) (cReg p1) last) (t.write 9 w)) := by
  obtain ⟨hcj, h9, h10, h11, h12, h14, hframe⟩ := h.loaded w
  have hsum := exec_xorFirst_sum h w i p2 p1 h2 h1
  generalize t.write 9 w = u at *
  have hi := isC_cReg i
  have hd := hi.distinct
  have hmix : addWithCarry ((xorFirstSum (checksumOf s) i p2 p1 a w).word ^^^
        daddr a (tFunction (s.r 10))) ((xorFirstSum (checksumOf s) i p2 p1 a w).flags s.cpsr)
        (xorFirstSum (checksumOf s) i p2 p1 a w).carry =
      xorFirstMix (checksumOf s) i p2 p1 a w := rfl
  -- the three parts one after the other, then each field of the state
  rw [xorFirst_parts, execAll_append, execAll_append, hsum, exec_xorFirstMid _ hi,
    exec_xorFirstTail _ hi]
  have h1211 : (12 : Reg) ≠ 11 := by decide
  have h1011 : (10 : Reg) ≠ 11 := by decide
  simp only [Cpu.write_r, Cpu.setStatus_r, Cpu.setStatus_cpsr, Cpu.setStatus_write,
    Cpu.setStatus_setStatus, if_true, hd, if_false, h10, h11, h12, Sum.carry_flags,
    Sum.flags_flags, h1211, h1011, hmix]
  refine ⟨Checksum.ext ?_ ?_ ?_ ?_ ?_ ?_ ?_, ?_, ?_, ?_⟩
  · funext j
    have hdj := (isC_cReg j).distinct
    by_cases hj : j = i
    · subst hj
      simp [checksumOf, xorFirstUpdate, hdj]
    · simp [checksumOf, xorFirstUpdate, hdj, hj, hcj]
  · simp [checksumOf, xorFirstUpdate, hd, h9]
  · simp [checksumOf, xorFirstUpdate, hd]
  · simp [checksumOf, xorFirstUpdate, hd]
  · simp [checksumOf, xorFirstUpdate]
  · simp [checksumOf, xorFirstUpdate, hd, h14]
  · simp [checksumOf, xorFirstUpdate, counterSum]
  · simp [hd, hframe.r0]
  · simp [hd, hframe.r13]
  · simp [hframe.mem]

end blocks

/-! ### The eight blocks -/

/-- The update of each block, with the registers its code names. -/
def blockUpdate (i : Fin 8) (k : Checksum) (a w : Word) : Checksum :=
  match i with
  | 0 => addFirstUpdate k 0 6 7 a w
  | 1 => xorFirstUpdate k 1 6 0 false a w
  | 2 => addFirstUpdate k 2 0 1 a w
  | 3 => xorFirstUpdate k 3 0 2 false a w
  | 4 => addFirstUpdate k 4 2 3 a w
  | 5 => xorFirstUpdate k 5 2 4 false a w
  | 6 => addFirstUpdate k 6 4 5 a w
  | 7 => xorFirstUpdate k 7 4 6 true a w

/-- **Every block computes its update**, whatever word was loaded. -/
theorem exec_mixCode {a w : Word} {s t : Cpu} (h : AfterT a s t) (i : Fin 8) :
    checksumOf (execAll (a + 24) (mixCode i) (t.write 9 w)) =
      blockUpdate i (checksumOf s) a w ∧
    SameFrame s (execAll (a + 24) (mixCode i) (t.write 9 w)) := by
  have hcode : mixCode i =
      match i with
      | 0 => addFirst (cReg 0) (cReg 6) (cReg 7)
      | 1 => xorFirst (cReg 1) (cReg 6) (cReg 0) false
      | 2 => addFirst (cReg 2) (cReg 0) (cReg 1)
      | 3 => xorFirst (cReg 3) (cReg 0) (cReg 2) false
      | 4 => addFirst (cReg 4) (cReg 2) (cReg 3)
      | 5 => xorFirst (cReg 5) (cReg 2) (cReg 4) false
      | 6 => addFirst (cReg 6) (cReg 4) (cReg 5)
      | 7 => xorFirst (cReg 7) (cReg 4) (cReg 6) true := by
    revert i
    decide
  rw [hcode]
  match i with
  | 0 => exact exec_addFirst h 0 6 7 (by decide) (by decide)
  | 1 => exact exec_xorFirst h 1 6 0 (by decide) (by decide) false
  | 2 => exact exec_addFirst h 2 0 1 (by decide) (by decide)
  | 3 => exact exec_xorFirst h 3 0 2 (by decide) (by decide) false
  | 4 => exact exec_addFirst h 4 2 3 (by decide) (by decide)
  | 5 => exact exec_xorFirst h 5 2 4 (by decide) (by decide) false
  | 6 => exact exec_addFirst h 6 4 5 (by decide) (by decide)
  | 7 => exact exec_xorFirst h 7 4 6 (by decide) (by decide) true

end Swatt
