import VetGumstix.Framework.BitMask
import VetGumstix.Framework.Machine

/-! # A Fragment of the ARM Instruction Set

    ARM state: every instruction takes four bytes, `r15` reads as the address
    of the instruction plus 8, and only instructions with the suffix `s` set
    condition flags.  The fragment has the forms a checksum routine written
    in assembly needs: arithmetic with carry, logic with a shifted operand,
    single-word loads and stores, the status register, `push`, `pop` and
    branches to labels.

    * `Instr.exec` is the effect of an instruction that is no branch.
    * `Program.step` fetches and executes, as a machine of `Machine`.
    * `execAll` runs straight-line code; `Program.steps_straight` says that
      the machine does the same.

    Memory is addressed by words: an access clears the two low address bits.
    There is one bank of registers.
-/

namespace Arm

open Machine

abbrev Word := BitVec 32

/-- `r0` to `r15`; reading `r15` gives the program counter. -/
abbrev Reg := Fin 16

/-- Named, so that every register literal carries the same proof. -/
instance reg_neZero : NeZero 16 := ⟨by decide⟩

/-! ## Section 1: Processor state -/

/-- The words of memory, at their aligned addresses. -/
abbrev Memory := Word → Word

def wordAddr (a : Word) : Word := a &&& 0xfffffffc

def load (m : Memory) (a : Word) : Word := m (wordAddr a)

def store (m : Memory) (a v : Word) : Memory := Function.update m (wordAddr a) v

theorem load_store_same (m : Memory) (a v : Word) : load (store m a v) a = v := by
  simp [load, store]

theorem load_store_of_ne (m : Memory) {a b : Word} (v : Word) (h : wordAddr b ≠ wordAddr a) :
    load (store m a v) b = load m b := by
  simp [load, store, h]

/-- Registers, status register and memory. -/
structure Cpu where
  r : Reg → Word
  cpsr : Word
  mem : Memory

/-- The value of a register as an operand; `pcv` is what `r15` reads as. -/
def Cpu.read (s : Cpu) (pcv : Word) (x : Reg) : Word := if x = 15 then pcv else s.r x

def Cpu.write (s : Cpu) (x : Reg) (v : Word) : Cpu := { s with r := Function.update s.r x v }

def Cpu.setStatus (s : Cpu) (w : Word) : Cpu := { s with cpsr := w }

def Cpu.setMem (s : Cpu) (m : Memory) : Cpu := { s with mem := m }

section accessors

variable (s : Cpu) (x y : Reg) (v w pcv : Word) (m : Memory)

@[simp] theorem Cpu.write_r : (s.write x v).r y = if y = x then v else s.r y := by
  simp [Cpu.write, Function.update_apply]

@[simp] theorem Cpu.write_cpsr : (s.write x v).cpsr = s.cpsr := rfl

@[simp] theorem Cpu.write_mem : (s.write x v).mem = s.mem := rfl

@[simp] theorem Cpu.setStatus_r : (s.setStatus w).r = s.r := rfl

@[simp] theorem Cpu.setStatus_cpsr : (s.setStatus w).cpsr = w := rfl

@[simp] theorem Cpu.setStatus_mem : (s.setStatus w).mem = s.mem := rfl

@[simp] theorem Cpu.setMem_r : (s.setMem m).r = s.r := rfl

@[simp] theorem Cpu.setMem_cpsr : (s.setMem m).cpsr = s.cpsr := rfl

@[simp] theorem Cpu.setMem_mem : (s.setMem m).mem = m := rfl

@[simp] theorem Cpu.write_write : (s.write x v).write x w = s.write x w := by
  simp [Cpu.write]

theorem Cpu.write_comm (h : x ≠ y) : (s.write x v).write y w = (s.write y w).write x v := by
  simp [Cpu.write, Function.update_comm h]

theorem Cpu.write_self : s.write x (s.r x) = s := by
  simp [Cpu.write]

@[simp] theorem Cpu.setStatus_write : (s.setStatus w).write x v = (s.write x v).setStatus w :=
  rfl

@[simp] theorem Cpu.setStatus_setStatus : (s.setStatus v).setStatus w = s.setStatus w := rfl

@[simp] theorem Cpu.read_pc : s.read pcv 15 = pcv := rfl

theorem Cpu.read_of_ne (h : x ≠ 15) : s.read pcv x = s.r x := if_neg h

end accessors

/-! ### Condition flags -/

/-- Bit 29 of the status register. -/
def carry (cpsr : Word) : Bool := cpsr.getLsbD 29

/-- Bit 30 of the status register. -/
def zero (cpsr : Word) : Bool := cpsr.getLsbD 30

/-- Bit 28 of the status register. -/
def overflow (cpsr : Word) : Bool := cpsr.getLsbD 28

/-- A flag at bit `k`. -/
def flagBit (b : Bool) (k : Nat) : Word := if b then 1 <<< k else 0

/-- The status register with the four condition flags replaced. -/
def withFlags (cpsr : Word) (n z c v : Bool) : Word :=
  (cpsr &&& 0x0fffffff) ||| flagBit n 31 ||| flagBit z 30 ||| flagBit c 29 ||| flagBit v 28

@[simp] theorem carry_withFlags (cpsr : Word) (n z c v : Bool) :
    carry (withFlags cpsr n z c v) = c := by
  cases n <;> cases z <;> cases c <;> cases v <;> simp [carry, withFlags, flagBit]

@[simp] theorem zero_withFlags (cpsr : Word) (n z c v : Bool) :
    zero (withFlags cpsr n z c v) = z := by
  cases n <;> cases z <;> cases c <;> cases v <;> simp [zero, withFlags, flagBit]

@[simp] theorem overflow_withFlags (cpsr : Word) (n z c v : Bool) :
    overflow (withFlags cpsr n z c v) = v := by
  cases n <;> cases z <;> cases c <;> cases v <;> simp [overflow, withFlags, flagBit]

/-- The other 28 bits stay. -/
theorem withFlags_low (cpsr : Word) (n z c v : Bool) :
    withFlags cpsr n z c v &&& 0x0fffffff = cpsr &&& 0x0fffffff := by
  have hbit : ∀ b, flagBit b 31 &&& 0x0fffffff = 0 ∧ flagBit b 30 &&& 0x0fffffff = 0 ∧
      flagBit b 29 &&& 0x0fffffff = 0 ∧ flagBit b 28 &&& 0x0fffffff = 0 := by decide
  have hor : ∀ w : Word, w ||| 0 = w := fun _ => BitVec.or_zero
  simp only [withFlags, BitVec.and_or_distrib_right, BitVec.and_assoc, BitVec.and_self,
    hbit n, hbit z, hbit c, hbit v, hor]

/-- The flags are replaced as a whole. -/
@[simp] theorem withFlags_withFlags (cpsr : Word) (n z c v n' z' c' v' : Bool) :
    withFlags (withFlags cpsr n z c v) n' z' c' v' = withFlags cpsr n' z' c' v' := by
  have h := withFlags_low cpsr n z c v
  unfold withFlags at h ⊢
  rw [h]

/-- A sum with carry in: the word, the carry out and the signed overflow. -/
structure Sum where
  word : Word
  carry : Bool
  overflow : Bool

def addWithCarry (x y : Word) (c : Bool) : Sum :=
  let word := x + y + (if c then 1 else 0)
  { word := word
    carry := decide (2 ^ 32 ≤ x.toNat + y.toNat + c.toNat)
    overflow := x.msb == y.msb && x.msb != word.msb }

/-- Subtraction adds the complement with carry in, so its carry is the negated
    borrow. -/
def subtract (x y : Word) : Sum := addWithCarry x (~~~y) true

theorem addWithCarry_word (x y : Word) (c : Bool) :
    (addWithCarry x y c).word = x + y + (if c then 1 else 0) := rfl

theorem subtract_word (x y : Word) : (subtract x y).word = x - y := by
  rw [subtract, addWithCarry_word, if_pos rfl, BitVec.sub_eq_add_neg, BitVec.neg_eq_not_add,
    BitVec.add_assoc]
  rfl

/-- The flags an addition sets. -/
def Sum.flags (t : Sum) (cpsr : Word) : Word :=
  withFlags cpsr t.word.msb (t.word == 0) t.carry t.overflow

@[simp] theorem Sum.carry_flags (t : Sum) (cpsr : Word) : Arm.carry (t.flags cpsr) = t.carry := by
  simp [Sum.flags]

@[simp] theorem Sum.zero_flags (t : Sum) (cpsr : Word) : zero (t.flags cpsr) = (t.word == 0) := by
  simp [Sum.flags]

/-- Setting the flags keeps nothing of the old ones. -/
theorem Sum.flags_congr {cpsr cpsr' : Word} (h : cpsr' &&& 0x0fffffff = cpsr &&& 0x0fffffff)
    (t : Sum) : t.flags cpsr' = t.flags cpsr := by
  unfold Sum.flags withFlags
  rw [h]

@[simp] theorem Sum.flags_flags (t t' : Sum) (cpsr : Word) :
    t.flags (t'.flags cpsr) = t.flags cpsr := by
  simp [Sum.flags]

/-! ## Section 2: Instructions -/

inductive Cond where
  | al
  | cs
  | ne
  deriving DecidableEq, Repr

def Cond.holds : Cond → Word → Bool
  | .al, _    => true
  | .cs, cpsr => carry cpsr
  | .ne, cpsr => !zero cpsr

inductive Operand where
  | imm (w : Word)
  | reg (x : Reg)
  | lsr (x : Reg) (n : Nat)
  | ror (x : Reg) (n : Nat)
  deriving DecidableEq, Repr

def Operand.value (o : Operand) (s : Cpu) (pcv : Word) : Word :=
  match o with
  | .imm w   => w
  | .reg x   => s.read pcv x
  | .lsr x n => s.read pcv x >>> n
  | .ror x n => (s.read pcv x).rotateRight n

inductive ArithOp where
  | add
  | adc
  | sub
  deriving DecidableEq, Repr

def ArithOp.sum (op : ArithOp) (cpsr x y : Word) : Sum :=
  match op with
  | .add => addWithCarry x y false
  | .adc => addWithCarry x y (carry cpsr)
  | .sub => subtract x y

inductive LogicOp where
  | and
  | eor
  | orr
  | bic
  deriving DecidableEq, Repr

def LogicOp.value (op : LogicOp) (x y : Word) : Word :=
  match op with
  | .and => x &&& y
  | .eor => x ^^^ y
  | .orr => x ||| y
  | .bic => x &&& ~~~y

/-- Instructions over labels `ℓ`.  `setFlags` is the suffix `s`. -/
inductive Instr (ℓ : Type) where
  | arith (op : ArithOp) (setFlags : Bool) (cond : Cond) (d n : Reg) (o : Operand)
  | logic (op : LogicOp) (d n : Reg) (o : Operand)
  | mov (d : Reg) (o : Operand)
  | muls (d m n : Reg)
  | ldr (d n : Reg) (off : Word)
  | str (d n : Reg) (off : Word)
  | mrs (d : Reg)
  | msrControl (m : Reg)
  | push (x : Reg)
  | pop (x : Reg)
  | nop
  | b (cond : Cond) (target : ℓ)
  deriving DecidableEq, Repr

variable {ℓ : Type}

/-- The effect of an instruction that is no branch. -/
def Instr.exec (i : Instr ℓ) (pcv : Word) (s : Cpu) : Cpu :=
  match i with
  | .arith op setFlags cond d n o =>
    if cond.holds s.cpsr then
      let t := op.sum s.cpsr (s.read pcv n) (o.value s pcv)
      if setFlags then (s.write d t.word).setStatus (t.flags s.cpsr) else s.write d t.word
    else s
  | .logic op d n o => s.write d (op.value (s.read pcv n) (o.value s pcv))
  | .mov d o => s.write d (o.value s pcv)
  | .muls d m n =>
    let v := s.read pcv m * s.read pcv n
    -- carry and overflow stay as they were
    (s.write d v).setStatus
      (withFlags s.cpsr v.msb (v == 0) (carry s.cpsr) (overflow s.cpsr))
  | .ldr d n off => s.write d (load s.mem (s.read pcv n + off))
  | .str d n off => s.setMem (store s.mem (s.read pcv n + off) (s.read pcv d))
  | .mrs d => s.write d s.cpsr
  | .msrControl m => s.setStatus ((s.cpsr &&& 0xffffff00) ||| (s.read pcv m &&& 0xff))
  -- what is stored is the value from before the push, also of `r13`
  | .push x => (s.write 13 (s.r 13 - 4)).setMem (store s.mem (s.r 13 - 4) (s.read pcv x))
  -- what is loaded into `r13` replaces the incremented pointer
  | .pop x => (s.write 13 (s.r 13 + 4)).write x (load s.mem (s.r 13))
  | .nop => s
  | .b _ _ => s

def Instr.isBranch : Instr ℓ → Bool
  | .b _ _ => true
  | _      => false

/-- Where a branch goes. -/
def Instr.branchTo : Instr ℓ → Option ℓ
  | .b _ l => some l
  | _      => none

/-! ## Section 3: Programs -/

/-- A line of assembly: a label or an instruction. -/
inductive Item (ℓ : Type) where
  | label (l : ℓ)
  | instr (i : Instr ℓ)

/-- The instructions of a listing. -/
def assemble : List (Item ℓ) → List (Instr ℓ)
  | []                => []
  | .label _ :: items => assemble items
  | .instr i :: items => i :: assemble items

/-- The position of a label: the number of instructions before it. -/
def labelPos [DecidableEq ℓ] (l : ℓ) : List (Item ℓ) → Nat
  | []                 => 0
  | .label l' :: items => if l' = l then 0 else labelPos l items
  | .instr _ :: items  => labelPos l items + 1

/-- Instructions in front move every label. -/
theorem labelPos_instrs [DecidableEq ℓ] (l : ℓ) (is : List (Instr ℓ)) (js : List (Item ℓ)) :
    labelPos l (is.map Item.instr ++ js) = is.length + labelPos l js := by
  induction is with
  | nil => simp
  | cons i is ih =>
    simp only [List.map_cons, List.cons_append, labelPos, ih, List.length_cons]
    omega

/-- Code with its branch targets and the address of its first instruction. -/
structure Program (ℓ : Type) where
  code : List (Instr ℓ)
  target : ℓ → Nat
  origin : Word

def Program.addr (P : Program ℓ) (k : Nat) : Word := P.origin + BitVec.ofNat 32 (4 * k)

structure State where
  cpu : Cpu
  pc : Nat

/-- Fetch and execute; the machine halts behind the last instruction. -/
def Program.step (P : Program ℓ) (s : State) : Option State :=
  match P.code[s.pc]? with
  | none => none
  | some (.b cond l) =>
    some { s with pc := if cond.holds s.cpu.cpsr then P.target l else s.pc + 1 }
  | some i => some ⟨i.exec (P.addr s.pc + 8) s.cpu, s.pc + 1⟩

/-- What a step does: it executes the instruction at the program counter, or
    takes the branch there. -/
theorem Program.step_cases {P : Program ℓ} {s t : State} (h : P.step s = some t) :
    (∃ i, P.code[s.pc]? = some i ∧ i.isBranch = false ∧
      t = ⟨i.exec (P.addr s.pc + 8) s.cpu, s.pc + 1⟩) ∨
    ∃ cond l, P.code[s.pc]? = some (.b cond l) ∧
      t = ⟨s.cpu, if cond.holds s.cpu.cpsr then P.target l else s.pc + 1⟩ := by
  unfold Program.step at h
  split at h
  · simp at h
  · next cond l hcode => exact .inr ⟨cond, l, hcode, (Option.some.inj h).symm⟩
  · next i hbranch hcode =>
    refine .inl ⟨i, hcode, ?_, (Option.some.inj h).symm⟩
    cases i with
    | b cond l => exact absurd rfl (hbranch cond l)
    | _ => rfl

/-- The address an instruction loads from, if it loads. -/
def Instr.loadAddress (i : Instr ℓ) (pcv : Word) (s : Cpu) : Option Word :=
  match i with
  | .ldr _ n off => some (s.read pcv n + off)
  | .pop _       => some (s.r 13)
  | _            => none

/-- The address the next step loads from, if it loads. -/
def Program.loadsFrom (P : Program ℓ) (s : State) : Option Word :=
  P.code[s.pc]?.bind fun i => i.loadAddress (P.addr s.pc + 8) s.cpu

def Instr.isLoad : Instr ℓ → Bool
  | .ldr _ _ _ => true
  | .pop _     => true
  | _          => false

/-- Only loads have a load address. -/
theorem Program.isLoad_of_loadsFrom {P : Program ℓ} {s : State} {a : Word}
    (h : P.loadsFrom s = some a) : ∃ i, P.code[s.pc]? = some i ∧ i.isLoad = true := by
  obtain ⟨i, hcode, hi⟩ := Option.bind_eq_some_iff.mp h
  refine ⟨i, hcode, ?_⟩
  cases i with
  | ldr d n off => rfl
  | pop x => rfl
  | _ => simp [Instr.loadAddress] at hi

/-! ## Section 4: Straight-line code -/

/-- The words above `p`, counted upwards. -/
theorem add_word_succ (p : Word) (n : Nat) :
    p + 4 + BitVec.ofNat 32 (4 * n) = p + BitVec.ofNat 32 (4 * (n + 1)) := by
  rw [BitVec.add_assoc, Nat.mul_succ, Nat.add_comm, BitVec.ofNat_add]
  rfl

/-- The words below `p`, counted downwards. -/
theorem sub_word_succ (p : Word) (n : Nat) :
    p - 4 - BitVec.ofNat 32 (4 * n) = p - BitVec.ofNat 32 (4 * (n + 1)) := by
  rw [Nat.mul_succ, Nat.add_comm, BitVec.ofNat_add, sub_add_eq_sub_sub]
  rfl

theorem sub_word_add (p : Word) {j n : Nat} (h : j ≤ n) :
    p - BitVec.ofNat 32 (4 * n) + BitVec.ofNat 32 (4 * (n - j)) = p - BitVec.ofNat 32 (4 * j) := by
  have hsplit : BitVec.ofNat 32 (4 * n) =
      BitVec.ofNat 32 (4 * j) + BitVec.ofNat 32 (4 * (n - j)) := by
    rw [← BitVec.ofNat_add, ← Nat.mul_add, Nat.add_sub_cancel' h]
  rw [hsplit, sub_add_eq_sub_sub, BitVec.sub_add_cancel]

/-- Run instructions one after the other, the first of them at address `a`. -/
def execAll (a : Word) : List (Instr ℓ) → Cpu → Cpu
  | [], s      => s
  | i :: is, s => execAll (a + 4) is (i.exec (a + 8) s)

theorem execAll_append (a : Word) (is js : List (Instr ℓ)) (s : Cpu) :
    execAll a (is ++ js) s =
      execAll (a + BitVec.ofNat 32 (4 * is.length)) js (execAll a is s) := by
  induction is generalizing a s with
  | nil => simp [execAll]
  | cons i is ih =>
    simp only [List.cons_append, execAll, List.length_cons, ih, add_word_succ]

/-- `is` stands at position `k` of the program. -/
def Program.At (P : Program ℓ) (k : Nat) (is : List (Instr ℓ)) : Prop :=
  ∀ j < is.length, P.code[k + j]? = is[j]?

theorem Program.At.of_drop {P : Program ℓ} {k : Nat} {is rest : List (Instr ℓ)}
    (h : P.code.drop k = is ++ rest) : P.At k is := by
  intro j hj
  rw [← List.getElem?_drop, h, List.getElem?_append_left hj]

theorem Program.At.left {P : Program ℓ} {k : Nat} {is js : List (Instr ℓ)}
    (h : P.At k (is ++ js)) : P.At k is := by
  intro j hj
  rw [h j (by simp; omega), List.getElem?_append_left hj]

theorem Program.At.right {P : Program ℓ} {k : Nat} {is js : List (Instr ℓ)}
    (h : P.At k (is ++ js)) : P.At (k + is.length) js := by
  intro j hj
  rw [Nat.add_assoc, h (is.length + j) (by simp; omega),
    List.getElem?_append_right (Nat.le_add_right _ _), Nat.add_sub_cancel_left]

theorem Program.At.tail {P : Program ℓ} {k : Nat} {i : Instr ℓ} {is : List (Instr ℓ)}
    (h : P.At k (i :: is)) : P.At (k + 1) is := by
  intro j hj
  have := h (j + 1) (by simpa using hj)
  rw [List.getElem?_cons_succ] at this
  rw [← this]
  congr 1
  omega

theorem Program.addr_succ (P : Program ℓ) (k : Nat) : P.addr (k + 1) = P.addr k + 4 := by
  unfold Program.addr
  rw [Nat.mul_succ, BitVec.ofNat_add, BitVec.add_assoc]
  rfl

theorem Program.addr_add (P : Program ℓ) (k j : Nat) :
    P.addr (k + j) = P.addr k + BitVec.ofNat 32 (4 * j) := by
  unfold Program.addr
  rw [Nat.mul_add, BitVec.ofNat_add, BitVec.add_assoc]

/-- One instruction that is no branch. -/
theorem Program.step_exec {P : Program ℓ} {k : Nat} {i : Instr ℓ} (h : P.code[k]? = some i)
    (hb : i.isBranch = false) (s : Cpu) :
    P.step ⟨s, k⟩ = some ⟨i.exec (P.addr k + 8) s, k + 1⟩ := by
  unfold Program.step
  simp only [h]
  cases i with
  | b cond l => simp [Instr.isBranch] at hb
  | _ => rfl

/-- A branch. -/
theorem Program.step_branch {P : Program ℓ} {k : Nat} {cond : Cond} {l : ℓ}
    (h : P.code[k]? = some (.b cond l)) (s : Cpu) :
    P.step ⟨s, k⟩ = some ⟨s, if cond.holds s.cpsr then P.target l else k + 1⟩ := by
  simp [Program.step, h]

/-- **Straight-line code** runs from its first instruction to behind its last,
    and nowhere else. -/
theorem Program.trace_straight {P : Program ℓ} {k : Nat} {is : List (Instr ℓ)}
    (h : P.At k is) (hb : ∀ i ∈ is, i.isBranch = false) (s : Cpu) :
    ∃ tr, Steps P.step ⟨s, k⟩ tr ⟨execAll (P.addr k) is s, k + is.length⟩ ∧
      ∀ x ∈ tr, k ≤ x.pc ∧ x.pc < k + is.length := by
  induction is generalizing k s with
  | nil => exact ⟨[], .nil _, by simp⟩
  | cons i is ih =>
    have hi : P.code[k]? = some i := by simpa using h 0 (by simp)
    obtain ⟨tr, hrest, hpc⟩ := ih h.tail (fun j hj => hb j (List.mem_cons_of_mem _ hj))
      (i.exec (P.addr k + 8) s)
    have hlen : k + 1 + is.length = k + (i :: is).length := by
      simp only [List.length_cons]
      omega
    rw [P.addr_succ, hlen] at hrest
    refine ⟨_, .cons (P.step_exec hi (hb i (List.mem_cons_self ..)) s) hrest, ?_⟩
    intro x hx
    rcases List.mem_cons.mp hx with rfl | hx
    · exact ⟨Nat.le_refl k, by simp⟩
    · have := hpc x hx
      omega

theorem Program.steps_straight {P : Program ℓ} {k : Nat} {is : List (Instr ℓ)}
    (h : P.At k is) (hb : ∀ i ∈ is, i.isBranch = false) (s : Cpu) :
    Reaches P.step ⟨s, k⟩ ⟨execAll (P.addr k) is s, k + is.length⟩ := by
  obtain ⟨tr, hsteps, -⟩ := P.trace_straight h hb s
  exact ⟨tr, hsteps⟩

/-- Straight-line code at the end of a program runs to its end. -/
theorem Program.halts_straight {P : Program ℓ} {k : Nat} {is : List (Instr ℓ)}
    (h : P.At k is) (hb : ∀ i ∈ is, i.isBranch = false) (hend : P.code.length = k + is.length)
    (s : Cpu) : Halts P.step ⟨s, k⟩ ⟨execAll (P.addr k) is s, k + is.length⟩ := by
  refine ⟨P.steps_straight h hb s, ?_⟩
  have hnone : P.code[k + is.length]? = none := List.getElem?_eq_none (Nat.le_of_eq hend)
  simp only [Program.step, hnone]

/-! ### Registers -/

/-- The instruction may write register `x`. -/
def Instr.writes (x : Reg) : Instr ℓ → Bool
  | .arith _ _ _ d _ _ => d = x
  | .logic _ d _ _     => d = x
  | .mov d _           => d = x
  | .muls d _ _        => d = x
  | .ldr d _ _         => d = x
  | .mrs d             => d = x
  | .push _            => 13 = x
  | .pop y             => 13 = x ∨ y = x
  | _                  => false

theorem Instr.exec_r {i : Instr ℓ} {x : Reg} (h : i.writes x = false) (pcv : Word) (s : Cpu) :
    (i.exec pcv s).r x = s.r x := by
  cases i with
  | arith op setFlags cond d n o =>
    have hne : x ≠ d := Ne.symm (by simpa [Instr.writes] using h)
    simp only [Instr.exec]
    split
    · split <;> simp [hne]
    · rfl
  | logic op d n o | mov d o | muls d m n | ldr d n off | mrs d =>
    have hne : x ≠ d := Ne.symm (by simpa [Instr.writes] using h)
    simp [Instr.exec, hne]
  | push y =>
    have hne : x ≠ 13 := Ne.symm (by simpa [Instr.writes] using h)
    simp [Instr.exec, hne]
  | pop y =>
    obtain ⟨h13, hy⟩ : 13 ≠ x ∧ y ≠ x := by simpa [Instr.writes] using h
    simp [Instr.exec, h13.symm, hy.symm]
  | _ => rfl

/-- Code keeps the registers it does not write. -/
theorem execAll_r {is : List (Instr ℓ)} {x : Reg} (h : ∀ i ∈ is, i.writes x = false) (a : Word)
    (s : Cpu) : (execAll a is s).r x = s.r x := by
  induction is generalizing a s with
  | nil => rfl
  | cons i is ih =>
    rw [execAll, ih (fun j hj => h j (List.mem_cons_of_mem _ hj)),
      Instr.exec_r (h i (List.mem_cons_self ..))]

/-! ### Mode -/

/-- The mode bits of the status register. -/
def mode (cpsr : Word) : Word := cpsr &&& 0x1f

/-- The instruction writes the control bits of the status register. -/
def Instr.isMsr : Instr ℓ → Bool
  | .msrControl _ => true
  | _             => false

theorem mode_withFlags (cpsr : Word) (n z c v : Bool) :
    mode (withFlags cpsr n z c v) = mode cpsr := by
  have hmask : (0x0fffffff : Word) &&& 0x1f = 0x1f := by decide
  have hlow := congrArg (· &&& (0x1f : Word)) (withFlags_low cpsr n z c v)
  simp only [BitVec.and_assoc, hmask] at hlow
  exact hlow

/-- Only a write to the control bits changes the mode. -/
theorem Instr.exec_mode {i : Instr ℓ} (h : i.isMsr = false) (pcv : Word) (s : Cpu) :
    mode (i.exec pcv s).cpsr = mode s.cpsr := by
  cases i with
  | arith op setFlags cond d n o =>
    simp only [Instr.exec]
    split
    · split
      · exact mode_withFlags ..
      · rfl
    · rfl
  | muls d m n => exact mode_withFlags ..
  | msrControl m => simp [Instr.isMsr] at h
  | _ => rfl

/-- The mode bits that such a write takes from its operand. -/
theorem mode_msrControl (m : Reg) (hm : m ≠ 15) (pcv : Word) (s : Cpu) :
    mode ((.msrControl m : Instr ℓ).exec pcv s).cpsr = mode (s.r m) := by
  have hold : (0xffffff00 : Word) &&& 0x1f = 0 := by decide
  have hnew : (0xff : Word) &&& 0x1f = 0x1f := by decide
  have hzero : ∀ w : Word, w &&& 0 = 0 := fun _ => BitVec.and_zero
  have hor : ∀ w : Word, (0 : Word) ||| w = w := fun _ => BitVec.zero_or
  simp only [Instr.exec, Cpu.setStatus_cpsr, mode, Cpu.read_of_ne _ _ _ hm,
    BitVec.and_or_distrib_right, BitVec.and_assoc, hold, hnew, hzero, hor]

/-! ### Memory -/

/-- The instruction writes memory. -/
def Instr.isStore : Instr ℓ → Bool
  | .str _ _ _ => true
  | .push _    => true
  | _          => false

theorem Instr.exec_mem {i : Instr ℓ} (h : i.isStore = false) (pcv : Word) (s : Cpu) :
    (i.exec pcv s).mem = s.mem := by
  cases i with
  | arith op setFlags cond d n o =>
    simp only [Instr.exec]
    split
    · split <;> rfl
    · rfl
  | str d n off => simp [Instr.isStore] at h
  | push x => simp [Instr.isStore] at h
  | _ => rfl

/-- Code without stores leaves memory alone. -/
theorem execAll_mem {is : List (Instr ℓ)} (h : ∀ i ∈ is, i.isStore = false) (a : Word) (s : Cpu) :
    (execAll a is s).mem = s.mem := by
  induction is generalizing a s with
  | nil => rfl
  | cons i is ih =>
    rw [execAll, ih (fun j hj => h j (List.mem_cons_of_mem _ hj)),
      Instr.exec_mem (h i (List.mem_cons_self ..))]

/-- The word addresses of an array of words. -/
theorem wordAddr_add (a : Word) (k : Nat) :
    wordAddr (a + BitVec.ofNat 32 (4 * k)) = wordAddr a + BitVec.ofNat 32 (4 * k) := by
  have h1 := BitMask.toNat_and_field (a + BitVec.ofNat 32 (4 * k)) 0xfffffffc 2 30 rfl
  have h2 := BitMask.toNat_and_field a 0xfffffffc 2 30 rfl
  apply BitVec.eq_of_toNat_eq
  unfold wordAddr
  rw [h1, BitVec.toNat_add, BitVec.toNat_add, h2, BitVec.toNat_ofNat]
  omega

/-- An aligned address is its own word address. -/
theorem wordAddr_of_aligned {a : Word} (h : a.toNat % 4 = 0) : wordAddr a = a := by
  have hmask := BitMask.toNat_and_field a 0xfffffffc 2 30 rfl
  have hlt := a.isLt
  apply BitVec.eq_of_toNat_eq
  unfold wordAddr
  rw [hmask]
  omega

theorem wordAddr_inj {a : Word} {j k : Nat} (hj : j < 2 ^ 30) (hk : k < 2 ^ 30)
    (h : wordAddr (a + BitVec.ofNat 32 (4 * j)) = wordAddr (a + BitVec.ofNat 32 (4 * k))) :
    j = k := by
  rw [wordAddr_add, wordAddr_add] at h
  have h' := congrArg BitVec.toNat ((BitVec.add_right_inj _).mp h)
  rw [BitVec.toNat_ofNat, BitVec.toNat_ofNat] at h'
  omega

/-- Words counted downwards, as on a stack. -/
theorem wordAddr_sub_inj {a : Word} {j k : Nat} (hj : j < 2 ^ 30) (hk : k < 2 ^ 30)
    (h : wordAddr (a - BitVec.ofNat 32 (4 * j)) = wordAddr (a - BitVec.ofNat 32 (4 * k))) :
    j = k := by
  -- both are words above the one both of them are above
  have hup : ∀ m n : Nat, a - BitVec.ofNat 32 (4 * m) =
      a - BitVec.ofNat 32 (4 * m) - BitVec.ofNat 32 (4 * n) + BitVec.ofNat 32 (4 * n) := by
    intro m n
    rw [BitVec.sub_add_cancel]
  rw [hup j k, hup k j, sub_right_comm] at h
  exact (wordAddr_inj hk hj h).symm

/-- An array of `n` words written at `p`. -/
def storeWords (m : Memory) (p : Word) (f : Nat → Word) : Nat → Memory
  | 0     => m
  | n + 1 => store (storeWords m p f n) (p + BitVec.ofNat 32 (4 * n)) (f n)

theorem load_storeWords (m : Memory) (p : Word) (f : Nat → Word) {n j : Nat} (hn : n ≤ 2 ^ 30)
    (hj : j < n) : load (storeWords m p f n) (p + BitVec.ofNat 32 (4 * j)) = f j := by
  induction n with
  | zero => omega
  | succ n ih =>
    rw [storeWords]
    by_cases h : j = n
    · rw [h, load_store_same]
    · have hne : wordAddr (p + BitVec.ofNat 32 (4 * j)) ≠ wordAddr (p + BitVec.ofNat 32 (4 * n)) :=
        fun he => h (wordAddr_inj (by omega) (by omega) he)
      rw [load_store_of_ne _ _ hne]
      exact ih (by omega) (by omega)

/-- Memory outside the array stays as it is. -/
theorem load_storeWords_of_ne (m : Memory) (p : Word) (f : Nat → Word) {n : Nat} {b : Word}
    (h : ∀ j < n, wordAddr (p + BitVec.ofNat 32 (4 * j)) ≠ wordAddr b) :
    load (storeWords m p f n) b = load m b := by
  induction n with
  | zero => rfl
  | succ n ih =>
    rw [storeWords, load_store_of_ne _ _ (h n (Nat.lt_succ_self n)).symm]
    exact ih fun j hj => h j (Nat.lt_succ_of_lt hj)

end Arm
