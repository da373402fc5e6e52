import VetGumstix.Swatt.Attack

/-! # What the Caller Gets Back

    The inline assembly saves `r0..r14` with 15 single pushes, uses every
    register but `r0` and `r13`, and pops them in the opposite order.  The
    stack pointer is popped half-way; the value pushed for it, its own before
    the push, is the one it has at that point.

    The model has one bank of registers, which is right as long as the
    processor stays in one mode.  `supervised_step` says that it stays in
    supervisor mode: the two writes to the status register get their mode bits
    from the status register.

    `caller_frame`: both builds end with the registers they were entered with,
    and have changed memory only in the challenge and below the stack pointer.
-/

namespace Swatt

open Arm Machine

/-! ## Section 1: Restoring the registers -/

/-- `restore_reglist` pops registers one by one. -/
def popAll (xs : List Reg) : Code := xs.map .pop

theorem exec_popAll (a : Word) (xs : List Reg) (hnd : xs.Nodup) (h13 : 13 ∉ xs) (s : Cpu) :
    (execAll a (popAll xs) s).r 13 = s.r 13 + BitVec.ofNat 32 (4 * xs.length) ∧
    (∀ i x, xs[i]? = some x →
      (execAll a (popAll xs) s).r x = load s.mem (s.r 13 + BitVec.ofNat 32 (4 * i))) ∧
    ∀ x, x ∉ xs → x ≠ 13 → (execAll a (popAll xs) s).r x = s.r x := by
  induction xs generalizing a s with
  | nil => exact ⟨(BitVec.add_zero _).symm, by simp, fun _ _ _ => rfl⟩
  | cons y xs ih =>
    obtain ⟨hy, hnd⟩ := List.nodup_cons.mp hnd
    rw [List.mem_cons, not_or] at h13
    generalize hs' : (Instr.pop y : Instr Label).exec (a + 8) s = s'
    have hcode : execAll a (popAll (y :: xs)) s = execAll (a + 4) (popAll xs) s' := by
      rw [← hs']
      rfl
    have hmem : s'.mem = s.mem := by
      rw [← hs']
      rfl
    have hsp : s'.r 13 = s.r 13 + 4 := by
      rw [← hs']
      simp [Instr.exec, h13.1]
    have hup : ∀ n : Nat, s'.r 13 + BitVec.ofNat 32 (4 * n) =
        s.r 13 + BitVec.ofNat 32 (4 * (n + 1)) := by
      intro n
      rw [hsp, add_word_succ]
    obtain ⟨hr, hm, hkeep⟩ := ih (a + 4) hnd h13.2 s'
    rw [hcode]
    refine ⟨by rw [hr, hup, List.length_cons], ?_, ?_⟩
    · intro i x hx
      cases i with
      | zero =>
        -- the later pops leave the register alone
        obtain rfl : y = x := by simpa using hx
        rw [hkeep y hy (Ne.symm h13.1), ← hs']
        simp [Instr.exec]
      | succ i => rw [hm i x (by simpa using hx), hup, hmem]
    · intro x hx hne
      obtain ⟨hxy, hxs⟩ := not_or.mp (fun h => hx (List.mem_cons.mpr h))
      rw [hkeep x hxs hne, ← hs']
      simp [Instr.exec, hxy, hne]

/-- `restore_reglist` starts with the link register and the stack pointer. -/
theorem exec_popPointers (a : Word) (s : Cpu) :
    (execAll a ([.pop 14, .pop 13] : Code) s).mem = s.mem ∧
    (execAll a ([.pop 14, .pop 13] : Code) s).r 14 = load s.mem (s.r 13) ∧
    (execAll a ([.pop 14, .pop 13] : Code) s).r 13 = load s.mem (s.r 13 + 4) := by
  simp [execAll, Instr.exec]

/-- **The registers come back** from the stack of a processor `s₀` that saved
    them. -/
theorem exec_restoreReglist (a : Word) {s s₀ : Cpu} (hsp : s.r 13 = s₀.r 13 - 60)
    (hstack : ∀ x : Reg, x.val < 15 →
      load s.mem (s₀.r 13 - BitVec.ofNat 32 (4 * (x + 1))) = pushed s₀ x x)
    (x : Reg) (hx : x.val < 15) : (execAll a restoreReglist s).r x = s₀.r x := by
  have hcode : restoreReglist =
      [.pop 14, .pop 13] ++ popAll [12, 11, 10, 9, 8, 7, 6, 5, 4, 3, 2, 1, 0] := rfl
  -- `r14` and the stack pointer
  obtain ⟨hmem, h14, h13⟩ := exec_popPointers a s
  rw [hcode, execAll_append]
  generalize execAll a ([.pop 14, .pop 13] : Code) s = s₁ at hmem h14 h13
  rw [hsp] at h14 h13
  have h14 : s₁.r 14 = s₀.r 14 := h14.trans (hstack 14 (by decide))
  have h13 : s₁.r 13 = s₀.r 13 - BitVec.ofNat 32 (4 * 13) := by
    have hnext : s₀.r 13 - 60 + 4 = s₀.r 13 - 56 := by
      rw [sub_add]
      rfl
    have hpushed : pushed s₀ (13 : Reg).val 13 = s₀.r 13 - BitVec.ofNat 32 (4 * 13) := if_pos rfl
    rw [hnext] at h13
    exact (h13.trans (hstack 13 (by decide))).trans hpushed
  generalize a + BitVec.ofNat 32 (4 * ([.pop 14, .pop 13] : Code).length) = b
  obtain ⟨hr, hm, hkeep⟩ := exec_popAll b
    [12, 11, 10, 9, 8, 7, 6, 5, 4, 3, 2, 1, 0] (by decide) (by decide) s₁
  by_cases h14' : x = 14
  · subst h14'
    exact (hkeep 14 (by decide) (by decide)).trans h14
  by_cases h13' : x = 13
  · subst h13'
    refine hr.trans ?_
    rw [h13]
    exact BitVec.sub_add_cancel _ _
  -- the others, `r12` first
  have hlt : x.val < 13 := by
    have h14v : x.val ≠ 14 := fun h => h14' (Fin.ext h)
    have h13v : x.val ≠ 13 := fun h => h13' (Fin.ext h)
    omega
  have horder : ∀ y : Reg, y.val < 13 →
      ([12, 11, 10, 9, 8, 7, 6, 5, 4, 3, 2, 1, 0] : List Reg)[12 - y.val]? = some y := by decide
  have hcount : 12 - x.val = 13 - (x.val + 1) := by omega
  refine (hm _ x (horder x hlt)).trans ?_
  rw [h13, hcount, sub_word_add _ (by omega), hmem, hstack x hx, pushed, if_neg h13']

/-! ## Section 2: Supervisor mode -/

def supervisor : Word := 0x13

/-- Every write to the control bits is the third of three instructions: the
    status register is read into `r11`, some bits are set or cleared that keep
    supervisor mode, and `r11` is written back.  No branch goes in between. -/
structure KeepsMode (P : Program Label) : Prop where
  write  : ∀ (k : Nat) (i : Instr Label), P.code[k]? = some i → i.isMsr = true →
    i = .msrControl 11 ∧ ∃ n, k = n + 2 ∧ P.code[n]? = some (.mrs 11) ∧
      (P.code[n + 1]? = some (.logic .orr 11 11 (.imm 0xd3)) ∨
        P.code[n + 1]? = some (.logic .bic 11 11 (.imm 0xc0)))
  target : ∀ (k : Nat) (cond : Cond) (l : Label), P.code[k]? = some (.b cond l) →
    ∀ d < 2, P.code[P.target l + d]? ≠ some (.msrControl 11)

/-- In supervisor mode, and about to stay there: at a write to the control
    bits, and one instruction before, `r11` has the mode bits. -/
structure Supervised (P : Program Label) (st : State) : Prop where
  status : mode st.cpu.cpsr = supervisor
  ready  : ∀ d < 2, P.code[st.pc + d]? = some (.msrControl 11) → mode (st.cpu.r 11) = supervisor

theorem mode_or (w : Word) (h : mode w = supervisor) : mode (w ||| 0xd3) = supervisor := by
  unfold mode supervisor at *
  rw [BitVec.and_or_distrib_right, h]
  decide

theorem mode_bic (w : Word) (h : mode w = supervisor) : mode (w &&& ~~~0xc0) = supervisor := by
  have hmask : (~~~0xc0 : Word) &&& 0x1f = 0x1f := by decide
  unfold mode supervisor at *
  rw [BitVec.and_assoc, hmask, h]

section step

variable {P : Program Label} (hP : KeepsMode P) {s : Cpu} {k : Nat}

include hP

/-- An instruction keeps the mode. -/
theorem supervised_exec {i : Instr Label} (hcode : P.code[k]? = some i) (pcv : Word)
    (h : Supervised P ⟨s, k⟩) : Supervised P ⟨i.exec pcv s, k + 1⟩ := by
  constructor
  · by_cases hmsr : i.isMsr = true
    · obtain ⟨rfl, -⟩ := hP.write k i hcode hmsr
      have hready : mode (s.r 11) = supervisor := h.ready 0 (by decide) hcode
      exact (mode_msrControl (ℓ := Label) 11 (by decide) pcv s).trans hready
    · exact (Instr.exec_mode (by simpa using hmsr) pcv s).trans h.status
  · intro d hd hnext
    obtain ⟨-, n, hn, hmrs, hlogic⟩ := hP.write _ _ hnext rfl
    have hcases : d = 0 ∨ d = 1 := by omega
    rcases hcases with rfl | rfl
    · -- the instruction is the one that sets or clears bits
      have hready : mode (s.r 11) = supervisor := h.ready 1 (by decide) hnext
      obtain rfl : k = n + 1 := by
        simp only at hn
        omega
      rcases hlogic with hl | hl
      · obtain rfl := Option.some.inj (hcode.symm.trans hl)
        simp only [exec_logic, LogicOp.value, Operand.value, read_eleven, Cpu.write_r, if_true]
        exact mode_or _ hready
      · obtain rfl := Option.some.inj (hcode.symm.trans hl)
        simp only [exec_logic, LogicOp.value, Operand.value, read_eleven, Cpu.write_r, if_true]
        exact mode_bic _ hready
    · -- the instruction is the one that reads the status register
      obtain rfl : k = n := by
        simp only at hn
        omega
      obtain rfl := Option.some.inj (hcode.symm.trans hmrs)
      simp only [Instr.exec, Cpu.write_r, if_true]
      exact h.status

/-- A branch keeps the mode and goes past the writes. -/
theorem supervised_branch {cond : Cond} {l : Label} (hcode : P.code[k]? = some (.b cond l))
    (h : Supervised P ⟨s, k⟩) :
    Supervised P ⟨s, if cond.holds s.cpsr then P.target l else k + 1⟩ := by
  refine ⟨h.status, ?_⟩
  intro d hd hnext
  simp only at hnext
  split at hnext
  · exact absurd hnext (hP.target k cond l hcode d hd)
  · -- the two instructions in front of a write are no branches
    obtain ⟨-, n, hn, hmrs, hlogic⟩ := hP.write _ _ hnext rfl
    have hcases : n = k ∨ n + 1 = k := by omega
    rcases hcases with rfl | rfl
    · simp [hcode] at hmrs
    · simp [hcode] at hlogic

/-- **The mode is kept** by every step. -/
theorem supervised_step {st t : State} (h : Supervised P st) (hstep : P.step st = some t) :
    Supervised P t := by
  rcases Program.step_cases hstep with ⟨i, hcode, -, rfl⟩ | ⟨cond, l, hcode, rfl⟩
  · exact supervised_exec hP hcode _ h
  · exact supervised_branch hP hcode h

end step

/-- What has to be checked of a listing from `init_checksum` on. -/
structure BodyKeepsMode (items : List (Item Label)) : Prop where
  write  : ∀ k < (assemble items).length, ∀ i ∈ (assemble items)[k]?, i.isMsr = true →
    2 ≤ k ∧ i = .msrControl 11 ∧ (assemble items)[k - 2]? = some (.mrs 11) ∧
      ((assemble items)[k - 1]? = some (.logic .orr 11 11 (.imm 0xd3)) ∨
        (assemble items)[k - 1]? = some (.logic .bic 11 11 (.imm 0xc0)))
  target : ∀ k < (assemble items).length, ∀ i ∈ (assemble items)[k]?, ∀ l ∈ i.branchTo,
    ∀ d < 2, (assemble items)[labelPos l items + d]? ≠ some (.msrControl 11)

/-- In front of `init_checksum` there are neither branches nor writes to the
    control bits. -/
theorem entryCode_plain {lay : Layout} :
    ∀ i ∈ entryCode lay, i.isMsr = false ∧ i.branchTo = none := by
  intro i hi
  simp only [entryCode, List.mem_append, List.mem_singleton, List.mem_replicate] at hi
  rcases hi with (hi | rfl) | ⟨-, rfl⟩
  · revert i
    decide
  · exact ⟨rfl, rfl⟩
  · exact ⟨rfl, rfl⟩

theorem program_keepsMode (lay : Layout) {fetch : Fin 8 → List (Item Label)}
    {stubs : List (Item Label)} (base : Word) (h : BodyKeepsMode (bodyItems fetch stubs)) :
    KeepsMode (program lay fetch stubs base) := by
  have hlen : ∀ {m : Nat} {i : Instr Label}, (assemble (bodyItems fetch stubs))[m]? = some i →
      m < (assemble (bodyItems fetch stubs)).length := fun hm => (List.getElem?_eq_some_iff.mp hm).1
  constructor
  · intro k i hk hmsr
    rcases program_code lay fetch stubs base hk with ⟨-, hmem⟩ | ⟨m, rfl, hm⟩
    · simp [(entryCode_plain i hmem).1] at hmsr
    · obtain ⟨h2, hi, hmrs, hlogic⟩ := h.write m (hlen hm) i hm hmsr
      obtain ⟨n, rfl⟩ := Nat.exists_eq_add_of_le' h2
      refine ⟨hi, initPos lay + n, by omega, ?_, ?_⟩
      · rw [program_body]
        exact hmrs
      · rw [Nat.add_assoc, program_body]
        exact hlogic
  · intro k cond l hk d hd
    rcases program_code lay fetch stubs base hk with ⟨-, hmem⟩ | ⟨m, rfl, hm⟩
    · simpa [Instr.branchTo] using (entryCode_plain _ hmem).2
    · rw [program_target, Nat.add_assoc, program_body]
      exact h.target m (hlen hm) _ hm l rfl d hd

/-- The run starts away from the writes. -/
theorem supervised_enter {P : Program Label} (hP : KeepsMode P) (counter challenge : Word)
    {s : Cpu} (h : mode s.cpsr = supervisor) :
    Supervised P (enter P counter challenge 52 s) := by
  refine ⟨h, ?_⟩
  intro d hd hnext
  obtain ⟨-, n, hn, -⟩ := hP.write _ _ hnext rfl
  have hpc : (enter P counter challenge 52 s).pc = 0 := rfl
  omega

/-! ## Section 3: The whole routine -/

/-- Entered with `s`, the inline assembly ends.  It stays in supervisor mode,
    hands back the registers, and has changed memory at most in the 13 words
    of the challenge and the 15 words below the stack pointer. -/
def GivesBack (P : Program Label) (counter challenge : Word) (s : Cpu) : Prop :=
  ∃ tr t, Steps P.step (enter P counter challenge 52 s) tr t ∧ P.step t = none ∧
    (∀ x ∈ tr, mode x.cpu.cpsr = supervisor) ∧ mode t.cpu.cpsr = supervisor ∧
    (∀ x : Reg, x.val < 15 → t.cpu.r x = s.r x) ∧
    ∀ b, (∀ i < 15, wordAddr (s.r 13 - BitVec.ofNat 32 (4 * (i + 1))) ≠ wordAddr b) →
      (∀ j < 13, wordAddr (challenge + BitVec.ofNat 32 (4 * j)) ≠ wordAddr b) →
      load t.cpu.mem b = load s.mem b

section build

variable {P : Program Label} {lay : Layout} {base challenge counter : Word}
  {ld : Memory → Word → Word}

/-- A build that ends with the tail gives back what it was entered with. -/
theorem Build.givesBack (h : Build P lay base ld) (hP : KeepsMode P)
    (htail : ∀ s, ∃ a n, Halts P.step ⟨s, initPos lay + 16 + 137 + 13⟩
      ⟨execAll a (enableInterrupts ++ restoreReglist) s, n⟩)
    (hcounter : counter.toNat % 8 = 0) {s : Cpu} (hmode : mode s.cpsr = supervisor)
    (haddr : s.r lay.addrReg = challenge)
    (hapart : ∀ i < 15, ∀ j < 13, wordAddr (s.r 13 - BitVec.ofNat 32 (4 * (i + 1))) ≠
      wordAddr (challenge + BitVec.ofNat 32 (4 * j))) :
    GivesBack P counter challenge s := by
  obtain ⟨s₁, hentry, hs₁⟩ := h.run_entry counter haddr hapart
  have h12 : s₁.r 12 = counter := congrArg Checksum.counter hs₁.checksum
  obtain ⟨s₂, hloop, -, hf⟩ :=
    loop_final (h.blocks s₁.mem) h.back h.top s₁ rfl (h12 ▸ hcounter)
  have hsave := P.steps_straight h.save (by decide) s₂
  have hmem := exec_saveChecksum (P.addr (initPos lay + 16 + 137)) s₂
  have hsp : (execAll (P.addr (initPos lay + 16 + 137)) saveChecksum s₂).r 13 = s.r 13 - 60 := by
    rw [execAll_r (by decide), hf.r13, hs₁.sp]
  rw [hf.mem, hf.r0, hs₁.r0] at hmem
  generalize execAll (P.addr (initPos lay + 16 + 137)) saveChecksum s₂ = s₃ at hsave hmem hsp
  obtain ⟨a, n, hend, hnone⟩ := htail s₃
  obtain ⟨tr, hrun⟩ := ((hentry.trans hloop).trans hsave).trans hend
  obtain ⟨hall, hlast⟩ := hrun.invariant (supervised_enter hP counter challenge hmode)
    fun _ _ => supervised_step hP
  refine ⟨tr, _, hrun, hnone, fun x hx => (hall x hx).status, hlast.status, ?_, ?_⟩
  · -- the stack is as the pushes left it
    rw [execAll_append]
    refine exec_restoreReglist _ ?_ ?_
    · rw [execAll_r (by decide), hsp]
    · intro x hx
      rw [execAll_mem (by decide), hmem,
        load_storeWords_of_ne _ _ _ fun j hj => (hapart x hx j hj).symm]
      exact hs₁.stack x hx
  · intro b hstack hwords
    rw [execAll_mem (by decide), hmem]
    exact hs₁.load_outside _ hstack hwords

end build

theorem genuine_keepsMode (lay : Layout) (base : Word) : KeepsMode (swattARM lay base) :=
  program_keepsMode lay base ⟨by decide +kernel, by decide +kernel⟩

theorem attack_keepsMode (lay : Layout) (base : Word) : KeepsMode (swattARMDbAttack lay base) :=
  program_keepsMode lay base ⟨by decide +kernel, by decide +kernel⟩

/-- **The caller's state** comes back from both builds, whatever the challenge
    and the entry registers, for every counter that is a multiple of 8.  The
    assembly is entered in supervisor mode, with the address of the challenge
    in the register the compiler chose, and the challenge apart from the 60
    bytes below the stack pointer. -/
theorem caller_frame (lay : Layout) (base counter challenge : Word) (s : Cpu)
    (hcounter : counter.toNat % 8 = 0) (hmode : mode s.cpsr = supervisor)
    (haddr : s.r lay.addrReg = challenge)
    (hapart : ∀ i < 15, ∀ j < 13, wordAddr (s.r 13 - BitVec.ofNat 32 (4 * (i + 1))) ≠
      wordAddr (challenge + BitVec.ofNat 32 (4 * j))) :
    GivesBack (swattARM lay base) counter challenge s ∧
    GivesBack (swattARMDbAttack lay base) counter challenge s :=
  ⟨(build_genuine lay base).givesBack (genuine_keepsMode lay base) (genuine_tail lay base)
      hcounter hmode haddr hapart,
    (build_attack lay base).givesBack (attack_keepsMode lay base) (attack_tail lay base)
      hcounter hmode haddr hapart⟩

theorem caller_frame_sample :
    GivesBack (swattARM ⟨11, 3, .inl rfl⟩ 0x8000) 0x1000000 0x3000 (sampleCpu id) ∧
    GivesBack (swattARMDbAttack ⟨11, 3, .inl rfl⟩ 0x8000) 0x1000000 0x3000 (sampleCpu id) :=
  caller_frame ⟨11, 3, .inl rfl⟩ 0x8000 0x1000000 0x3000 (sampleCpu id) (by decide) (by decide)
    rfl (by decide +kernel)

end Swatt
