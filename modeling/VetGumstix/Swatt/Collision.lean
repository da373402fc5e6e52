import VetGumstix.Swatt.Attack

/-! # Words a Block Cannot Tell Apart

    A block takes the loaded word into `C[i]` by additions, xors and a
    rotation, each of which can be undone.  But the carries of the additions
    go into the additions that follow and the flags into the word that `mrs`
    mixes in, and these depend on the loaded word as well: what the word loses
    in one place a carry may put back in another.

    * `block_collision`: in every block two words can leave the same `C[i]`.
    * `word_determined`: the flags are all that stands between `C[i]` and the
      word.  `C[i]` and the status register along the block determine it, and
      no more than 64 words leave one `C[i]`.
-/

namespace Swatt

open Arm

/-! ## Section 1: Undoing an addition -/

/-- The update of every block, in one form for each parity: the blocks that
    add first take the cyclic predecessors, those that xor first take
    `C[i-3]` for `C[i-2]`. -/
theorem blockUpdate_eq (i : Fin 8) (k : Checksum) (a w : Word) :
    blockUpdate i k a w =
      if i.val % 2 = 0 then addFirstUpdate k i (i - 2) (i - 1) a w
      else xorFirstUpdate k i (i - 3) (i - 1) (decide (i = 7)) a w := by
  match i with
  | 0 | 1 | 2 | 3 | 4 | 5 | 6 | 7 => rfl

theorem rotateRight_one_inj {v w : Word} : v.rotateRight 1 = w.rotateRight 1 ↔ v = w := by
  refine ⟨fun h => ?_, fun h => h ▸ rfl⟩
  apply BitVec.eq_of_getLsbD_eq
  intro j hj
  -- bit `j` of a word is bit `j - 1` of its rotation, and bit 0 is bit 31
  by_cases h0 : j = 0
  · have hbit := congrArg (fun u : Word => u.getLsbD 31) h
    simpa [BitVec.getLsbD_rotateRight, h0] using hbit
  · have hbit := congrArg (fun u : Word => u.getLsbD (j - 1)) h
    have hlt : j - 1 < 31 := by omega
    have hsucc : 1 + (j - 1) = j := by omega
    simpa [BitVec.getLsbD_rotateRight, hlt, hsucc] using hbit

theorem addWithCarry_left_inj {x x' y : Word} {c : Bool} :
    (addWithCarry x y c).word = (addWithCarry x' y c).word ↔ x = x' := by
  rw [addWithCarry_word, addWithCarry_word, BitVec.add_left_inj, BitVec.add_left_inj]

theorem addWithCarry_right_inj {x y y' : Word} {c : Bool} :
    (addWithCarry x y c).word = (addWithCarry x y' c).word ↔ y = y' := by
  rw [addWithCarry_word, addWithCarry_word, BitVec.add_left_inj, BitVec.add_right_inj]

/-! ## Section 2: The flags of a block -/

/-- The flags a block goes by: the carries of its first two additions, and the
    status register that it mixes in. -/
abbrev Marks := Bool × Bool × Word

/-- A block that adds first has no second addition before the one that sets
    the status. -/
def addFirstMarks (k : Checksum) (i p2 : Fin 8) (w : Word) : Marks :=
  ((addWithCarry (k.c i) w (carry k.status)).carry, false, (addFirstSum k i p2 w).flags k.status)

def xorFirstMarks (k : Checksum) (i p2 p1 : Fin 8) (a w : Word) : Marks :=
  let t := addWithCarry (k.c i ^^^ w) (k.c p2) (carry k.status)
  (t.carry, (addWithCarry (t.word ^^^ tFunction k.x) (a + 44) t.carry).carry,
    (xorFirstSum k i p2 p1 a w).flags k.status)

def blockMarks (i : Fin 8) (k : Checksum) (a w : Word) : Marks :=
  if i.val % 2 = 0 then addFirstMarks k i (i - 2) w else xorFirstMarks k i (i - 3) (i - 1) a w

theorem addFirst_word_inj {k : Checksum} {i p2 p1 : Fin 8} {a w w' : Word}
    (hmarks : addFirstMarks k i p2 w = addFirstMarks k i p2 w')
    (hc : (addFirstUpdate k i p2 p1 a w).c i = (addFirstUpdate k i p2 p1 a w').c i) : w = w' := by
  obtain ⟨hfirst, hrest⟩ := Prod.mk.inj hmarks
  have hflags := (Prod.mk.inj hrest).2
  have hcarry : (addFirstSum k i p2 w).carry = (addFirstSum k i p2 w').carry := by
    simpa using congrArg carry hflags
  -- back through the rotation, which both words take or neither
  have hmix : addFirstMix k i p2 p1 a w = addFirstMix k i p2 p1 a w' := by
    simp only [addFirstUpdate, Function.update_self, hcarry] at hc
    split at hc
    · exact rotateRight_one_inj.mp ((BitVec.add_right_inj _).mp hc)
    · exact hc
  -- back through the xors with the status, `C[i-1]` and the program counter
  have hsum : (addFirstSum k i p2 w).word = (addFirstSum k i p2 w').word := by
    simp only [addFirstMix, hflags, hcarry] at hmix
    rw [BitVec.xor_left_inj, addWithCarry_left_inj, BitVec.xor_left_inj,
      BitVec.xor_left_inj] at hmix
    exact hmix
  simp only [addFirstSum, hfirst] at hsum
  rw [addWithCarry_left_inj, BitVec.xor_left_inj, addWithCarry_right_inj] at hsum
  exact hsum

/-- The additions of a block that xors first, behind the first one `t`: of the
    program counter, of `C[i-1]`, and of the status. -/
def secondSum (t : Sum) (x pc : Word) : Sum := addWithCarry (t.word ^^^ x) pc t.carry

def thirdSum (t : Sum) (x pc ci1 : Word) : Sum :=
  addWithCarry (secondSum t x pc).word ci1 (secondSum t x pc).carry

def lastSum (t : Sum) (x pc ci1 daddr status : Word) : Sum :=
  addWithCarry ((thirdSum t x pc ci1).word ^^^ daddr) ((thirdSum t x pc ci1).flags status)
    (thirdSum t x pc ci1).carry

/-- With the same flags, the last sum gives the first one away. -/
theorem lastSum_inj {t t' : Sum} {x pc ci1 daddr status : Word} (hfirst : t.carry = t'.carry)
    (hsecond : (secondSum t x pc).carry = (secondSum t' x pc).carry)
    (hflags : (thirdSum t x pc ci1).flags status = (thirdSum t' x pc ci1).flags status)
    (hlast : (lastSum t x pc ci1 daddr status).word = (lastSum t' x pc ci1 daddr status).word) :
    t.word = t'.word := by
  have hcarry : (thirdSum t x pc ci1).carry = (thirdSum t' x pc ci1).carry := by
    simpa using congrArg carry hflags
  have hthird : (thirdSum t x pc ci1).word = (thirdSum t' x pc ci1).word := by
    simp only [lastSum, hflags, hcarry] at hlast
    rw [addWithCarry_left_inj, BitVec.xor_left_inj] at hlast
    exact hlast
  simp only [thirdSum, hsecond] at hthird
  rw [addWithCarry_left_inj] at hthird
  simp only [secondSum, hfirst] at hthird
  rw [addWithCarry_left_inj, BitVec.xor_left_inj] at hthird
  exact hthird

theorem xorFirst_word_inj {k : Checksum} {i p2 p1 : Fin 8} {last : Bool} {a w w' : Word}
    (hmarks : xorFirstMarks k i p2 p1 a w = xorFirstMarks k i p2 p1 a w')
    (hc : (xorFirstUpdate k i p2 p1 last a w).c i = (xorFirstUpdate k i p2 p1 last a w').c i) :
    w = w' := by
  obtain ⟨hfirst, hrest⟩ := Prod.mk.inj hmarks
  obtain ⟨hsecond, hflags⟩ := Prod.mk.inj hrest
  have hmix : (xorFirstMix k i p2 p1 a w).word = (xorFirstMix k i p2 p1 a w').word := by
    simp only [xorFirstUpdate, Function.update_self] at hc
    rw [BitVec.xor_right_inj] at hc
    exact rotateRight_one_inj.mp hc
  have hsum := lastSum_inj hfirst hsecond hflags hmix
  rw [addWithCarry_left_inj, BitVec.xor_right_inj] at hsum
  exact hsum

/-- With its flags, every block can be undone. -/
theorem blockUpdate_word_inj {i : Fin 8} {k : Checksum} {a w w' : Word}
    (hmarks : blockMarks i k a w = blockMarks i k a w')
    (hc : (blockUpdate i k a w).c i = (blockUpdate i k a w').c i) : w = w' := by
  rw [blockUpdate_eq, blockUpdate_eq] at hc
  unfold blockMarks at hmarks
  by_cases hi : i.val % 2 = 0
  · rw [if_pos hi, if_pos hi] at hc hmarks
    exact addFirst_word_inj hmarks hc
  · rw [if_neg hi, if_neg hi] at hc hmarks
    exact xorFirst_word_inj hmarks hc

/-- The status register takes 16 values, the carries four: a set of words that
    its flags tell apart has no more than 64. -/
theorem ncard_le_of_marks {f : Word → Marks} (status : Word) {s : Set Word}
    (hflags : ∀ w, ∃ t : Sum, (f w).2.2 = t.flags status) (hinj : Set.InjOn f s) :
    s.ncard ≤ 64 := by
  let marks : (Bool × Bool) × (Bool × Bool) × (Bool × Bool) → Marks := fun b =>
    (b.1.1, b.1.2, withFlags status b.2.1.1 b.2.1.2 b.2.2.1 b.2.2.2)
  have hmem : ∀ w ∈ s, f w ∈ Set.range marks := by
    intro w _
    obtain ⟨t, ht⟩ := hflags w
    refine ⟨(((f w).1, (f w).2.1), (t.word.msb, t.word == 0), (t.carry, t.overflow)), ?_⟩
    exact Prod.ext rfl (Prod.ext rfl ht.symm)
  calc s.ncard
      ≤ (Set.range marks).ncard := Set.ncard_le_ncard_of_injOn f hmem hinj
    _ ≤ (Set.univ : Set ((Bool × Bool) × (Bool × Bool) × (Bool × Bool))).ncard := by
        rw [← Set.image_univ]
        exact Set.ncard_image_le
    _ = 64 := by simp [Set.ncard_univ]

theorem blockMarks_flags (i : Fin 8) (k : Checksum) (a w : Word) :
    ∃ t : Sum, (blockMarks i k a w).2.2 = t.flags k.status := by
  unfold blockMarks
  split
  · exact ⟨_, rfl⟩
  · exact ⟨_, rfl⟩

/-! ## Section 3: The instructions -/

/-- The processor `s`, with the word `w` where the block at address `a` will
    load from. -/
def withWord (a : Word) (s : Cpu) (w : Word) : Cpu :=
  s.setMem (store s.mem (daddr a (tFunction (s.r 10))) w)

/-- The checksum register block `i` leaves, at address `a` and with the word
    `w` to load. -/
def outgoing (i : Fin 8) (a : Word) (s : Cpu) (w : Word) : Word :=
  (execAll a (blockCode i) (withWord a s w)).r (cReg i)

/-- The status register after the first `n` instructions of the block. -/
def statusAfter (i : Fin 8) (a : Word) (s : Cpu) (w : Word) (n : Nat) : Word :=
  (execAll a ((blockCode i).take n) (withWord a s w)).cpsr

theorem withWord_checksum (a : Word) (s : Cpu) (w : Word) :
    checksumOf (withWord a s w) = checksumOf s := rfl

theorem withWord_load (a : Word) (s : Cpu) (w : Word) :
    load (withWord a s w).mem (daddr a (tFunction ((withWord a s w).r 10))) = w :=
  load_store_same _ _ _

theorem outgoing_eq (i : Fin 8) (a : Word) (s : Cpu) (w : Word) :
    outgoing i a s w = (blockUpdate i (checksumOf s) a w).c i := by
  have hk := (exec_blockCode i a (withWord a s w)).1
  rw [withWord_load, withWord_checksum] at hk
  exact congrFun (congrArg Checksum.c hk) i

/-- The code of a block, in one form for each parity. -/
theorem mixCode_eq (i : Fin 8) :
    mixCode i =
      if i.val % 2 = 0 then addFirst (cReg i) (cReg (i - 2)) (cReg (i - 1))
      else xorFirst (cReg i) (cReg (i - 3)) (cReg (i - 1)) (decide (i = 7)) := by
  revert i
  decide

/-- The status register behind the load, as the instructions before it leave
    it. -/
theorem statusAfter_load (i : Fin 8) (a : Word) (s : Cpu) (w : Word) (n : Nat) :
    statusAfter i a s w (n + 6) =
      (execAll (a + 24) ((mixCode i).take n)
        ((execAll a tFunc (withWord a s w)).write 9 w)).cpsr := by
  have hcode : (blockCode i).take (n + 6) =
      tFunc ++ ([.ldr 9 11 0] ++ (mixCode i).take n) := rfl
  rw [statusAfter, hcode, exec_load, withWord_load]

section parts

variable (a : Word) (c p2 p1 : Reg) (s : Cpu)

/-- The carry of the first addition of a block that adds first. -/
theorem addFirst_carry (hc : IsC c) :
    carry (execAll a ((addFirst c p2 p1).take 1) s).cpsr =
      (addWithCarry (s.r c) (s.r 9) (carry s.cpsr)).carry := by
  simp [addFirst, execAll, Instr.exec, Operand.value, ArithOp.sum, Cond.holds, hc.read]

/-- The carries of the first two additions of a block that xors first. -/
theorem xorFirst_carry (last : Bool) (hc : IsC c) (h2 : IsC p2) (hne : p2 ≠ c) :
    carry (execAll a ((xorFirst c p2 p1 last).take 2) s).cpsr =
      (addWithCarry (s.r c ^^^ s.r 9) (s.r p2) (carry s.cpsr)).carry ∧
    carry (execAll a ((xorFirst c p2 p1 last).take 4) s).cpsr =
      let t := addWithCarry (s.r c ^^^ s.r 9) (s.r p2) (carry s.cpsr)
      (addWithCarry (t.word ^^^ s.r 10) (a + 20) t.carry).carry := by
  constructor
  · simp [xorFirst, execAll, Instr.exec, Operand.value, LogicOp.value, ArithOp.sum, Cond.holds,
      hc.read, h2.read, hne]
  · simp [xorFirst, execAll, Instr.exec, Operand.value, LogicOp.value, ArithOp.sum, Cond.holds,
      hc.read, h2.read, hne, hc.distinct, BitVec.add_assoc]

end parts

section marks

variable {a : Word} {s t : Cpu} (h : AfterT a s t) (w : Word) {i p2 p1 : Fin 8}

include h

theorem addFirstMarks_eq (p1 : Fin 8) (h2 : p2 ≠ i) :
    let status n := (execAll (a + 24) ((addFirst (cReg i) (cReg p2) (cReg p1)).take n)
      (t.write 9 w)).cpsr
    addFirstMarks (checksumOf s) i p2 w = (carry (status 1), false, status 3) := by
  have hhead : (addFirst (cReg i) (cReg p2) (cReg p1)).take 3 =
      addFirstHead (cReg i) (cReg p2) := rfl
  obtain ⟨hcj, h9, -⟩ := h.loaded w
  have hcarry : carry (t.write 9 w).cpsr = carry s.cpsr := h.carry
  simp only
  rw [addFirst_carry _ _ _ _ _ (isC_cReg i), hhead, exec_addFirst_sum h w i p2 h2, hcj, h9, hcarry]
  rfl

theorem xorFirstMarks_eq (last : Bool) (h2 : p2 ≠ i) (h1 : p1 ≠ i) :
    let status n := (execAll (a + 24) ((xorFirst (cReg i) (cReg p2) (cReg p1) last).take n)
      (t.write 9 w)).cpsr
    xorFirstMarks (checksumOf s) i p2 p1 a w =
      (carry (status 2), carry (status 4), status 5) := by
  have hhead : (xorFirst (cReg i) (cReg p2) (cReg p1) last).take 5 =
      xorFirstHead (cReg i) (cReg p2) (cReg p1) := rfl
  have hne : cReg p2 ≠ cReg i := by simpa using h2
  have hpc : a + 24 + 20 = a + 44 := by
    rw [BitVec.add_assoc]
    rfl
  obtain ⟨hcj, h9, h10, -⟩ := h.loaded w
  have hcarry : carry (t.write 9 w).cpsr = carry s.cpsr := h.carry
  obtain ⟨hfirst, hsecond⟩ := xorFirst_carry (a + 24) (cReg i) (cReg p2) (cReg p1) (t.write 9 w)
    last (isC_cReg i) (isC_cReg p2) hne
  simp only
  rw [hfirst, hsecond, hhead, exec_xorFirst_sum h w i p2 p1 h2 h1]
  simp only [hcj, h9, h10, hcarry, hpc]
  rfl

end marks

/-- The flags a block goes by show in the status register behind its
    additions. -/
theorem blockMarks_eq (i : Fin 8) (a : Word) (s : Cpu) (w : Word) :
    blockMarks i (checksumOf s) a w =
      if i.val % 2 = 0 then
        (carry (statusAfter i a s w 7), false, statusAfter i a s w 9)
      else
        (carry (statusAfter i a s w 8), carry (statusAfter i a s w 10),
          statusAfter i a s w 11) := by
  have hT := exec_tFunc a (withWord a s w)
  have h1 : ∀ j : Fin 8, j - 1 ≠ j := by decide
  have h2 : ∀ j : Fin 8, j - 2 ≠ j := by decide
  have h3 : ∀ j : Fin 8, j - 3 ≠ j := by decide
  have hstatus := statusAfter_load i a s w
  rw [mixCode_eq] at hstatus
  by_cases hi : i.val % 2 = 0
  · rw [if_pos hi] at hstatus
    rw [blockMarks, if_pos hi, if_pos hi, hstatus 1, hstatus 3]
    exact addFirstMarks_eq hT w (i - 1) (h2 i)
  · rw [if_neg hi] at hstatus
    rw [blockMarks, if_neg hi, if_neg hi, hstatus 2, hstatus 4, hstatus 5]
    exact xorFirstMarks_eq hT w (decide (i = 7)) (h3 i) (h1 i)

/-- **What a loaded word leaves behind.**  In every block, from every state,
    the word can be recovered from the checksum register and the status
    register along the block, and at most 64 words leave the same checksum
    register. -/
theorem word_determined (i : Fin 8) (a : Word) (s : Cpu) :
    Function.Injective (fun w => (outgoing i a s w, statusAfter i a s w)) ∧
    ∀ v, {w | outgoing i a s w = v}.ncard ≤ 64 := by
  constructor
  · intro w w' heq
    obtain ⟨hout, hstatus⟩ := Prod.mk.inj heq
    rw [outgoing_eq, outgoing_eq] at hout
    refine blockUpdate_word_inj ?_ hout
    rw [blockMarks_eq, blockMarks_eq, hstatus]
  · intro v
    -- the flags tell the words with the same checksum register apart
    have hinj : Set.InjOn (blockMarks i (checksumOf s) a) {w | outgoing i a s w = v} := by
      intro w hw w' hw' hmarks
      have hout : outgoing i a s w = outgoing i a s w' := Eq.trans hw hw'.symm
      rw [outgoing_eq, outgoing_eq] at hout
      exact blockUpdate_word_inj hmarks hout
    exact ncard_le_of_marks s.cpsr (blockMarks_flags i (checksumOf s) a) hinj

/-- A register file in which block `i` cannot tell 0 from `0xffffffff`: the
    blocks that add first find `C[i] = 1`, the others `C[i-3] = 1` and
    `x = 1`. -/
def blind (i : Fin 8) : Cpu where
  r x := if i.val % 2 = 0 then if x = cReg i then 1 else 0
    else if x = cReg (i - 3) ∨ x = 10 then 1 else 0
  cpsr := 0
  mem _ := 0

/-- The sum with 0 is 1 without a carry, the sum with `0xffffffff` is 0 with a
    carry, and the next addition takes the carry in. -/
theorem block_collision :
    ∃ s : Fin 8 → Cpu, ∀ i : Fin 8,
      outgoing i (blockStart 0x8000 i) (s i) 0 =
        outgoing i (blockStart 0x8000 i) (s i) 0xffffffff ∧
      ¬ Function.Injective (outgoing i (blockStart 0x8000 i) (s i)) := by
  have hsame : ∀ i : Fin 8, outgoing i (blockStart 0x8000 i) (blind i) 0 =
      outgoing i (blockStart 0x8000 i) (blind i) 0xffffffff := by decide +kernel
  refine ⟨blind, fun i => ⟨hsame i, ?_⟩⟩
  intro hinj
  exact absurd (hinj (hsame i)) (by decide)

end Swatt
