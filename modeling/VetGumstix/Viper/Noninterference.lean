import VetGumstix.Viper.Safety

/-! # Which Words the Register Trace Depends On

    Two runs of `checksum_simulator` with the same pool on two images.  The
    register files after each block are the same exactly when the images
    agree on the words the first run marks: no other word has any influence,
    and no word a block loads is absorbed.
-/

namespace Viper

open Machine

/-! ## Section 1: The simulator returns -/

section returns

variable {cfg : Config} {buf : Buffer} {pool : Nat → Word} {n : Nat}

/-- Steps left: the blocks and jumps of this entry, and nine steps for every
    entry that can still be loaded. -/
def simMeasure (cfg : Config) (s : SimState) : Nat :=
  match s.core.pc with
  | .done => 0
  | .ret  => 1
  | _     => (2 * iNum + 1) * (cfg.nonceNum - s.inonce) + s.core.fuel + 2

theorem simMeasure_running (cfg : Config) {s : SimState} (hret : s.core.pc ≠ .ret)
    (hdone : s.core.pc ≠ .done) :
    simMeasure cfg s = (2 * iNum + 1) * (cfg.nonceNum - s.inonce) + s.core.fuel + 2 := by
  unfold simMeasure
  cases hpc : s.core.pc with
  | ret => exact absurd hpc hret
  | done => exact absurd hpc hdone
  | block k => rfl
  | jumpTable => rfl
  | checksumEnd => rfl

theorem simMeasure_step {s s' : SimState} (h : SimInv s)
    (hs : simStep cfg buf pool n s = some s') : simMeasure cfg s' < simMeasure cfg s := by
  rcases simStep_cases hs with ⟨c, hc, rfl⟩ | ⟨hpc, rfl⟩ | ⟨hpc, rfl⟩
  · obtain ⟨-, hret, hdone⟩ := coreStep_running hc
    have hinv := h.core hret hdone
    have hfuel := Core.fuel_step hinv hc
    rw [simMeasure_running cfg hret hdone,
      simMeasure_running cfg (hinv.step hc).no_ret (hinv.step hc).no_done]
    exact Nat.add_lt_add_right (Nat.add_lt_add_left hfuel _) 2
  · -- the measure of `__return` is 1
    have hlt : 1 < simMeasure cfg s := by
      rw [simMeasure_running cfg (by simp [hpc]) (by simp [hpc])]
      omega
    rcases simChecksumEnd_cases cfg pool n s with
      ⟨-, he⟩ | ⟨-, -, he⟩ | ⟨-, -, -, he⟩ | ⟨-, -, hroom, he⟩
    · rw [he]; exact hlt
    · rw [he]; exact hlt
    · rw [he]; exact hlt
    · -- the next entry starts with a full attempt, one loaded entry fewer
      have hfuel : (s.nextEntry pool).core.fuel = 2 * iNum := rfl
      have hin : (s.nextEntry pool).inonce = s.inonce + 1 := rfl
      have hsub : cfg.nonceNum - s.inonce = cfg.nonceNum - (s.inonce + 1) + 1 := by omega
      have hold := simMeasure_running cfg (s := s) (by simp [hpc]) (by simp [hpc])
      have hnew := simMeasure_running cfg (s := s.nextEntry pool)
        (by simp [SimState.nextEntry]) (by simp [SimState.nextEntry])
      rw [hsub, Nat.mul_succ] at hold
      rw [hfuel, hin] at hnew
      rw [he, hold, hnew]
      omega
  · simp [simMeasure, hpc]

/-- **The simulator returns** on every image and every pool. -/
theorem checksumSimulator_done (cfg : Config) (buf : Buffer) (pool : Nat → Word) (n : Nat)
    (g : Regs) (ck : Nat → Word × Word) :
    (checksumSimulator cfg buf pool n g ck).core.pc = .done := by
  obtain ⟨tr, t, hsteps, hhalt, hlen⟩ := exists_halting (simStep cfg buf pool n)
    (simMeasure cfg) (fun _ _ hi hs => SimInv.step hi hs)
    (fun _ _ hi hs => simMeasure_step hi hs) (simInit pool g ck) (simInv_init pool g ck)
  have hfuel : simMeasure cfg (simInit pool g ck) ≤ simFuel cfg := by
    have hf : (simInit pool g ck).core.fuel = 2 * iNum := rfl
    have hin : (simInit pool g ck).inonce = 1 := rfl
    have hpos := cfg.nonceNum_pos
    have hsub : cfg.nonceNum = cfg.nonceNum - 1 + 1 := by omega
    rw [simMeasure_running cfg (by simp [simInit]) (by simp [simInit]), hf, hin, simFuel]
    conv_rhs => rw [hsub, Nat.mul_succ]
    omega
  have ht : checksumSimulator cfg buf pool n g ck = t := hsteps.run_eq hhalt (hlen.trans hfuel)
  have hinv : SimInv t :=
    (hsteps.invariant (simInv_init pool g ck) fun _ _ hi hs => hi.step hs).2
  rw [ht]
  cases hpc : t.core.pc with
  | block k => simp [simStep, coreStep, hpc] at hhalt
  | jumpTable => simp [simStep, coreStep, hpc] at hhalt
  | checksumEnd => simp [simStep, hpc] at hhalt
  | ret => simp [simStep, hpc] at hhalt
  | done => rfl

end returns

/-! ## Section 2: Marks of a run -/

section marks

variable {cfg : Config} {buf : Buffer} {pool : Nat → Word} {n : Nat}

/-- One step of the simulator marks what it reads, and the return clears the
    marks. -/
theorem simStep_marks {s s' : SimState} (hs : simStep cfg buf pool n s = some s') {i : Nat}
    (hi : i < fwWords) :
    s'.core.marks.get i = 1 ↔ s.core.pc ≠ .ret ∧
      (s.core.marks.get i = 1 ∨ i ∈ s.core.reads ChecksumSimulator.blocks buf) := by
  rcases simStep_cases hs with ⟨c, hc, rfl⟩ | ⟨hpc, rfl⟩ | ⟨hpc, rfl⟩
  · rw [and_iff_right (coreStep_running hc).2.1]
    exact coreStep_marks hc hi
  · simp [simChecksumEnd_marks, hpc, Core.reads]
  · simp [hpc, Buffer.get, Buffer.zero]

/-- Along a run that ends in `done`, the words marked are the words read. -/
theorem marked_iff_read {s t : SimState} {tr : List SimState}
    (h : Steps (simStep cfg buf pool n) s tr t) (hdone : t.core.pc = .done) {i : Nat}
    (hi : i < fwWords) :
    (∃ x ∈ tr, x.core.marks.get i = 1) ↔
      (s.core.marks.get i = 1 ∧ s.core.pc ≠ .done) ∨
      ∃ x ∈ tr, i ∈ x.core.reads ChecksumSimulator.blocks buf := by
  induction h with
  | nil s => simp [hdone]
  | @cons s s' t tr hs hrest ih =>
    have hpc : s.core.pc ≠ .done := by
      intro hd
      simp [simStep, hd] at hs
    have hm := simStep_marks hs hi
    -- a step that reads is a block, and no block returns
    have hread : i ∈ s.core.reads ChecksumSimulator.blocks buf → s'.core.pc ≠ .done := by
      intro hr
      rcases simStep_cases hs with ⟨c, hc, rfl⟩ | ⟨hpc', rfl⟩ | ⟨hpc', rfl⟩
      · rcases coreStep_cases hc with ⟨k, -, rfl⟩ | ⟨hj, -⟩
        · rcases runBlock_cases ChecksumSimulator.blocks buf k s.core with
            ⟨-, he⟩ | ⟨-, -, he⟩ | ⟨-, -, he⟩ <;> simp [he]
        · simp [Core.reads, hj] at hr
      · simp [Core.reads, hpc'] at hr
      · simp [Core.reads, hpc'] at hr
    have hret : i ∈ s.core.reads ChecksumSimulator.blocks buf → s.core.pc ≠ .ret := by
      intro hr hpc'
      simp [Core.reads, hpc'] at hr
    simp only [List.mem_cons, exists_eq_or_imp]
    rw [ih hdone, hm]
    -- what is marked behind this step was marked before it, or is read by it
    constructor
    · rintro (hs | ⟨⟨-, hs | hr⟩, -⟩ | hx)
      · exact .inl ⟨hs, hpc⟩
      · exact .inl ⟨hs, hpc⟩
      · exact .inr (.inl hr)
      · exact .inr (.inr hx)
    · rintro (⟨hs, -⟩ | hr | hx)
      · exact .inl hs
      · exact .inr (.inl ⟨⟨hret hr, .inr hr⟩, hread hr⟩)
      · exact .inr (.inr hx)

end marks

/-! ## Section 3: Two images -/

section images

variable {A B : Buffer}

/-- The images agree on the two words the next block reads in `A`. -/
def AgreeAt (A B : Buffer) (s : SimState) : Prop :=
  ∀ i ∈ s.core.reads ChecksumSimulator.blocks A, A.get i = B.get i

/-- The register file the next step leaves, when it is a block. -/
def blockRegs (buf : Buffer) (s : SimState) : List Regs :=
  match s.core.pc with
  | .block k => [(runBlock ChecksumSimulator.blocks buf k s.core).r]
  | _        => []

/-- The register files after each executed block of `checksum_simulator`. -/
def registerTrace (cfg : Config) (buf : Buffer) (pool : Nat → Word) (n : Nat) (g : Regs)
    (ck : Nat → Word × Word) : List Regs :=
  (simTrace cfg buf pool n g ck).flatMap (blockRegs buf)

/-- The blocks executed by `checksum_simulator`, in order. -/
def executedPath (cfg : Config) (buf : Buffer) (pool : Nat → Word) (n : Nat) (g : Regs)
    (ck : Nat → Word × Word) : List (Fin 8) :=
  blocksOf ((simTrace cfg buf pool n g ck).map SimState.core)

/-- A block and the test after it depend on the image through the block's
    registers and marks only. -/
theorem runBlock_of_exec {k : Fin 8} {c : Core}
    (h : (ChecksumSimulator.blocks.block k).exec A c.r =
      (ChecksumSimulator.blocks.block k).exec B c.r) :
    runBlock ChecksumSimulator.blocks A k c = runBlock ChecksumSimulator.blocks B k c := by
  simp only [runBlock, h]

/-- The test after a block hides no register: `r10` is set alike on both
    images, and the block leaves it alone. -/
theorem exec_of_runBlock {k : Fin 8} {c : Core}
    (h : (runBlock ChecksumSimulator.blocks A k c).r =
      (runBlock ChecksumSimulator.blocks B k c).r) :
    ((ChecksumSimulator.blocks.block k).exec A c.r).regs =
      ((ChecksumSimulator.blocks.block k).exec B c.r).regs := by
  have hoff : ∀ (buf : Buffer) (x : Reg), x ≠ 10 →
      (runBlock ChecksumSimulator.blocks buf k c).r x =
        ((ChecksumSimulator.blocks.block k).exec buf c.r).regs x := by
    intro buf x hx
    rcases runBlock_cases ChecksumSimulator.blocks buf k c with
      ⟨-, he⟩ | ⟨-, -, he⟩ | ⟨-, -, he⟩ <;> simp [he, hx]
  funext x
  by_cases hx : x = 10
  · rw [hx, Block.exec_r10, Block.exec_r10]
  · rw [← hoff A x hx, ← hoff B x hx, h]

/-- The images agree where they show the same register file. -/
theorem blockRegs_eq_iff (s : SimState) : blockRegs A s = blockRegs B s ↔ AgreeAt A B s := by
  unfold blockRegs AgreeAt Core.reads
  cases hpc : s.core.pc with
  | block k =>
    simp only [List.cons.injEq, and_true, List.forall_mem_cons, List.not_mem_nil,
      false_implies, implies_true]
    constructor
    · intro h
      exact Block.words_eq_of_exec _ _ (exec_of_runBlock h)
    · rintro ⟨h1, h2⟩
      rw [runBlock_of_exec (Block.exec_eq_of_words _ _ h1 h2)]
  | jumpTable => simp
  | checksumEnd => simp
  | ret => simp
  | done => simp

variable {cfg : Config} {pool : Nat → Word} {n : Nat}

theorem simStep_of_agree {s : SimState} (h : AgreeAt A B s) :
    simStep cfg A pool n s = simStep cfg B pool n s := by
  unfold AgreeAt Core.reads at h
  unfold simStep coreStep
  cases hpc : s.core.pc with
  | block k =>
    simp only [hpc, List.forall_mem_cons, List.not_mem_nil, false_implies, implies_true,
      and_true] at h
    simp only [runBlock_of_exec (Block.exec_eq_of_words _ _ h.1 h.2)]
  | jumpTable => rfl
  | checksumEnd => rfl
  | ret => rfl
  | done => rfl

theorem simStep_none_iff (s : SimState) :
    simStep cfg A pool n s = none ↔ simStep cfg B pool n s = none := by
  unfold simStep coreStep
  cases hpc : s.core.pc <;> simp

theorem blockRegs_length (s : SimState) : (blockRegs A s).length = (blockRegs B s).length := by
  unfold blockRegs
  cases s.core.pc <;> simp only [List.length_singleton, List.length_nil]

/-- Agreement on the marked words is agreement at every step of the run. -/
theorem agree_on_marked_iff (g : Regs) (ck : Nat → Word × Word) :
    (∀ i < fwWords, (∃ s ∈ simTrace cfg A pool n g ck, s.core.marks.get i = 1) →
      A.get i = B.get i) ↔
    ∀ s ∈ simTrace cfg A pool n g ck, AgreeAt A B s := by
  have hrun : Steps (simStep cfg A pool n) (simInit pool g ck) (simTrace cfg A pool n g ck)
      (checksumSimulator cfg A pool n g ck) := steps_run _ _ _
  have hdone := checksumSimulator_done cfg A pool n g ck
  constructor
  · intro h s hs i hi
    -- reads outside the image give zero on both
    by_cases hlt : i < fwWords
    · exact h i hlt ((marked_iff_read hrun hdone hlt).mpr (.inr ⟨s, hs, hi⟩))
    · simp [Buffer.get, hlt]
  · intro h i hlt hmark
    rcases (marked_iff_read hrun hdone hlt).mp hmark with ⟨hz, -⟩ | ⟨s, hs, hi⟩
    · simp [simInit, Buffer.get, Buffer.zero] at hz
    · exact h s hs i hi

/-- **The register trace pins down the words that are read.**  Two images give
    the same register files after each block exactly when they agree on every
    word the run on the first marks.  Then the executed blocks and the reported
    checksums are the same too; and a block gives the same registers only to
    images that agree on the two words it loads. -/
theorem register_trace_eq_iff (cfg : Config) (A B : Buffer) (pool : Nat → Word) (n : Nat)
    (g : Regs) (ck : Nat → Word × Word) :
    (registerTrace cfg A pool n g ck = registerTrace cfg B pool n g ck ↔
      ∀ i < fwWords, (∃ s ∈ simTrace cfg A pool n g ck, s.core.marks.get i = 1) →
        A.get i = B.get i) ∧
    (registerTrace cfg A pool n g ck = registerTrace cfg B pool n g ck →
      executedPath cfg A pool n g ck = executedPath cfg B pool n g ck ∧
      (checksumSimulator cfg A pool n g ck).checksum =
        (checksumSimulator cfg B pool n g ck).checksum) ∧
    (∀ (k : Fin 8) (r : Regs),
      ((ChecksumSimulator.blocks.block k).exec A r).regs =
        ((ChecksumSimulator.blocks.block k).exec B r).regs →
      A.get ((ChecksumSimulator.blocks.block k).exec A r).i1 =
        B.get ((ChecksumSimulator.blocks.block k).exec A r).i1 ∧
      A.get ((ChecksumSimulator.blocks.block k).exec A r).i2 =
        B.get ((ChecksumSimulator.blocks.block k).exec A r).i2) := by
  have hlock : registerTrace cfg A pool n g ck = registerTrace cfg B pool n g ck ↔
      ∀ s ∈ simTrace cfg A pool n g ck, AgreeAt A B s :=
    lockstep_iff blockRegs_eq_iff blockRegs_length (fun _ => simStep_of_agree)
      simStep_none_iff (simFuel cfg) (simInit pool g ck)
  refine ⟨hlock.trans (agree_on_marked_iff g ck).symm, ?_, fun k r => Block.words_eq_of_exec _ r⟩
  intro h
  obtain ⟨htrace, hfinal⟩ := lockstep_eq (fun _ => simStep_of_agree) simStep_none_iff
    (simFuel cfg) (simInit pool g ck) (hlock.mp h)
  refine ⟨?_, ?_⟩
  · unfold executedPath simTrace
    rw [htrace]
  · unfold checksumSimulator
    rw [hfinal]

end images

end Viper
