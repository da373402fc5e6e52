import VetGumstix.Viper.Agreement
import VetGumstix.Viper.Attempts

/-! # Coverage

    The generator keeps two mark buffers: `g_mm_s`, in which the blocks mark
    what they read, and `g_mm`, the marks of the accepted attempts.  An
    accepted attempt copies the first to the second, a rejected one back.

    * `coverage_accounting`: after any number of attempts `g_mm` marks exactly
      what accepted attempts read, and the counts of `mms_updated` and
      `mm_left` add up to 642.
    * `coverage_never_full`: two of the 642 words are out of reach of every
      block, so `mms_left` is never zero.
-/

namespace Viper

open Machine

/-! ## Section 1: The marks of an attempt -/

/-- A buffer of zeros and ones. -/
def Binary (b : Buffer) : Prop := ∀ i < fwWords, b.get i = 0 ∨ b.get i = 1

theorem binary_zero : Binary Buffer.zero := fun _ hi => .inl (Buffer.get_of_lt _ hi)

theorem Binary.put {b : Buffer} (h : Binary b) (i : Nat) : Binary (b.put i 1) := by
  intro j hj
  rw [Buffer.get_put _ _ _ _ hj]
  split
  · exact .inr rfl
  · exact h j hj

theorem Binary.step {tbl : BlockTable} {buf : Buffer} {c c' : Core} (h : Binary c.marks)
    (hs : coreStep tbl buf c = some c') : Binary c'.marks := by
  rcases coreStep_cases hs with ⟨k, -, rfl⟩ | ⟨-, rfl⟩
  · rw [runBlock_marks]
    exact (h.put _).put _
  · exact h

theorem Binary.attempt {buf : Buffer} {c : Core} (h : Binary c.marks) (tbl : BlockTable) :
    Binary (attempt tbl buf c).marks := by
  have hstep : ∀ c c' : Core, Binary c.marks → coreStep tbl buf c = some c' → Binary c'.marks :=
    fun _ _ hb hs => hb.step hs
  exact ((steps_run (coreStep tbl buf) (2 * iNum) c).invariant h hstep).2

/-- The words read during attempt `k` of a run of the generator. -/
def attemptReads (cfg : Config) (buf : Buffer) (rnd : Nat → BitVec 8) (g : Regs) (k : Nat) :
    List Nat :=
  (attemptStates cfg buf rnd g k).flatMap fun s => s.core.reads GenerateNonce.blocks buf

section attempts

variable {cfg : Config} {buf : Buffer} {rnd : Nat → BitVec 8} {g : Regs} {n : Nat}
  (h : AttemptRun cfg buf rnd g n)
include h

theorem AttemptRun.mem_reads {k : Nat} (hk : k < n) {i : Nat} :
    i ∈ attemptReads cfg buf rnd g k ↔
      ∃ c ∈ visits (coreStep GenerateNonce.blocks buf) (2 * iNum)
        (attemptStart cfg buf rnd g k).core, i ∈ c.reads GenerateNonce.blocks buf := by
  obtain ⟨rest, hstates, hout⟩ := h.states hk
  have hreads : attemptReads cfg buf rnd g k = ((attemptStates cfg buf rnd g k).map
      GenState.core).flatMap (Core.reads GenerateNonce.blocks buf) := by
    rw [List.flatMap_map]
    rfl
  rw [hreads, hstates, List.flatMap_append, (outside_blocks hout GenerateNonce.blocks buf).2,
    List.append_nil, List.mem_flatMap]

/-- An attempt reads words 64 to 703. -/
theorem AttemptRun.reads_range {k : Nat} (hk : k < n) {i : Nat}
    (hi : i ∈ attemptReads cfg buf rnd g k) : 64 ≤ i ∧ i ≤ 703 := by
  obtain ⟨c, hc, hread⟩ := (h.mem_reads hk).mp hi
  have hinv := ((steps_run (coreStep GenerateNonce.blocks buf) (2 * iNum)
    (attemptStart cfg buf rnd g k).core).invariant (h.start k hk).core
    fun _ _ hi hs => hi.step hs).1 c hc
  unfold Core.reads at hread
  split at hread
  · next j hj =>
    obtain ⟨h1, h2⟩ := hinv.addr.reads_range (GenerateNonce.blocks.block j) buf
    simp only [List.mem_cons, List.not_mem_nil, or_false] at hread
    rcases hread with rfl | rfl
    · exact h1
    · exact h2
  · simp at hread

/-- An attempt marks what it reads, on top of the marks of accepted
    attempts. -/
theorem AttemptRun.marks_iff {k : Nat} (hk : k < n) {i : Nat} (hi : i < fwWords) :
    (attemptEnd cfg buf rnd g k).core.marks.get i = 1 ↔
      (attemptStart cfg buf rnd g k).mm.get i = 1 ∨ i ∈ attemptReads cfg buf rnd g k := by
  rw [h.mem_reads hk, ← (h.start k hk).marks]
  exact marks_of_steps (steps_run (coreStep GenerateNonce.blocks buf) (2 * iNum) _) hi

theorem AttemptRun.marks_binary {k : Nat} (hk : k < n)
    (hmm : Binary (attemptStart cfg buf rnd g k).mm) :
    Binary (attemptEnd cfg buf rnd g k).core.marks := by
  rw [← (h.start k hk).marks] at hmm
  exact hmm.attempt GenerateNonce.blocks

/-! ## Section 2: The marks of a run -/

omit h in
/-- `g_mm` after attempt `k`. -/
theorem attemptStart_mm (k : Nat) :
    (attemptStart cfg buf rnd g (k + 1)).mm =
      if (attemptEnd cfg buf rnd g k).Accepts then (attemptEnd cfg buf rnd g k).core.marks
      else (attemptStart cfg buf rnd g k).mm := by
  rw [attemptStart_succ, genChecksumEnd_mm]
  unfold GenState.judged
  split <;> rfl

theorem AttemptRun.mm_binary {k : Nat} (hk : k ≤ n) :
    Binary (attemptStart cfg buf rnd g k).mm := by
  induction k with
  | zero => exact binary_zero
  | succ k ih =>
    rw [attemptStart_mm]
    split
    · exact h.marks_binary hk (ih (Nat.le_of_lt hk))
    · exact ih (Nat.le_of_lt hk)

/-- `g_mm` marks what accepted attempts read. -/
theorem AttemptRun.mm_iff {k : Nat} (hk : k ≤ n) {i : Nat} (hi : i < fwWords) :
    (attemptStart cfg buf rnd g k).mm.get i = 1 ↔
      ∃ j < k, (attemptEnd cfg buf rnd g j).Accepts ∧ i ∈ attemptReads cfg buf rnd g j := by
  induction k with
  | zero =>
    have hzero : (attemptStart cfg buf rnd g 0).mm.get i = 0 := Buffer.get_of_lt _ hi
    simp [hzero]
  | succ k ih =>
    have ih := ih (Nat.le_of_lt hk)
    rw [attemptStart_mm]
    simp only [Nat.lt_succ_iff_lt_or_eq, or_and_right, exists_or, exists_eq_left]
    split
    · next hacc => rw [h.marks_iff hk hi, ih]; simp [hacc]
    · next hrej => rw [ih]; simp [hrej]

end attempts

/-! ## Section 3: Counting -/

/-- `mm_left` -/
def mmLeft (mm : Buffer) : Nat := coverage.countP (fun i => mm.get i == 0)

/-- The `inew` computed when the attempt that ended in `e` is judged. -/
def GenState.inew (e : GenState) : Nat := mmsUpdated e.mm e.core.marks

/-- The `inew` of the accepted attempts among `es`, added up. -/
def totalNew (es : List GenState) : Nat := ((es.filter fun e => e.Accepts).map GenState.inew).sum

theorem totalNew_concat (es : List GenState) (e : GenState) :
    totalNew (es ++ [e]) = totalNew es + if e.Accepts then e.inew else 0 := by
  unfold totalNew
  rw [List.filter_append, List.map_append, List.sum_append]
  by_cases hacc : e.Accepts <;> simp [hacc]

theorem mmLeft_zero : mmLeft Buffer.zero = 642 := by decide +kernel

/-- Words that are zero in `mm` are zero in `mms` too, or new there. -/
theorem mmLeft_add {mm mms : Buffer} (hmm : Binary mm) (hmms : Binary mms)
    (hsub : ∀ i < fwWords, mm.get i = 1 → mms.get i = 1) :
    mmLeft mms + mmsUpdated mm mms = mmLeft mm := by
  have hlt : ∀ i ∈ coverage, i < fwWords := by decide +kernel
  unfold mmLeft mmsUpdated
  generalize coverage = l at hlt
  induction l with
  | nil => rfl
  | cons i l ih =>
    have hi := hlt i (List.mem_cons_self ..)
    have ih := ih fun j hj => hlt j (List.mem_cons_of_mem _ hj)
    have hhead : (if (mms.get i == 0) = true then 1 else 0) +
        (if (mm.get i == 0 && mms.get i == 1) = true then 1 else 0) =
        if (mm.get i == 0) = true then 1 else 0 := by
      rcases hmm i hi with h0 | h1
      · rcases hmms i hi with h0' | h1'
        · simp [h0, h0']
        · simp [h0, h1']
      · simp [h1, hsub i hi h1]
    simp only [List.countP_cons]
    omega

section attempts

variable {cfg : Config} {buf : Buffer} {rnd : Nat → BitVec 8} {g : Regs} {n : Nat}
  (h : AttemptRun cfg buf rnd g n)
include h

/-- An accepted attempt lowers `mm_left` by its `inew`. -/
theorem AttemptRun.mmLeft_accepted {k : Nat} (hk : k < n)
    (hacc : (attemptEnd cfg buf rnd g k).Accepts) :
    mmLeft (attemptStart cfg buf rnd g (k + 1)).mm + (attemptEnd cfg buf rnd g k).inew =
      mmLeft (attemptStart cfg buf rnd g k).mm := by
  have hbin := h.mm_binary (Nat.le_of_lt hk)
  rw [attemptStart_mm, if_pos hacc]
  refine mmLeft_add hbin (h.marks_binary hk hbin) fun i hi hi1 => ?_
  exact (h.marks_iff hk hi).mpr (.inl hi1)

omit h in
/-- `inonce` after attempt `k`. -/
theorem attemptStart_inonce (k : Nat) :
    (attemptStart cfg buf rnd g (k + 1)).inonce =
      if (attemptEnd cfg buf rnd g k).Accepts then (attemptStart cfg buf rnd g k).inonce + 1
      else (attemptStart cfg buf rnd g k).inonce := by
  rw [attemptStart_succ, genChecksumEnd_inonce]
  unfold GenState.judged
  split <;> rfl

omit h in
/-- The pool after attempt `k`. -/
theorem attemptStart_pool (k : Nat) :
    (attemptStart cfg buf rnd g (k + 1)).pool =
      if (attemptEnd cfg buf rnd g k).Accepts then
        Function.update (attemptStart cfg buf rnd g k).pool (attemptStart cfg buf rnd g k).inonce
          (attemptStart cfg buf rnd g k).nonce
      else (attemptStart cfg buf rnd g k).pool := by
  rw [attemptStart_succ, genChecksumEnd_pool]
  unfold GenState.judged
  split <;> rfl

/-- What the accepted attempts among the first `k` have added up to: words in
    `g_mm`, and at least one of them for each pool entry. -/
theorem AttemptRun.counts {k : Nat} (hk : k ≤ n) :
    mmLeft (attemptStart cfg buf rnd g k).mm +
        totalNew ((List.range k).map (attemptEnd cfg buf rnd g)) = 642 ∧
      (attemptStart cfg buf rnd g k).inonce ≤
        totalNew ((List.range k).map (attemptEnd cfg buf rnd g)) := by
  induction k with
  | zero =>
    have hmm : (attemptStart cfg buf rnd g 0).mm = Buffer.zero := rfl
    have hinonce : (attemptStart cfg buf rnd g 0).inonce = 0 := rfl
    rw [hmm, mmLeft_zero, hinonce]
    exact ⟨rfl, Nat.le_refl 0⟩
  | succ k ih =>
    obtain ⟨hleft, hcount⟩ := ih (Nat.le_of_lt hk)
    rw [List.range_succ, List.map_append, List.map_singleton, totalNew_concat,
      attemptStart_inonce]
    by_cases hacc : (attemptEnd cfg buf rnd g k).Accepts
    · have hdrop := h.mmLeft_accepted hk hacc
      have hnew : 1 ≤ (attemptEnd cfg buf rnd g k).inew := hacc.2
      rw [if_pos hacc, if_pos hacc]
      omega
    · rw [attemptStart_mm, if_neg hacc, if_neg hacc, if_neg hacc]
      exact ⟨hleft, hcount⟩

omit h in
/-- Every pool entry is the nonce of an accepted attempt. -/
theorem pool_entry {k p : Nat} (hp : p < (attemptStart cfg buf rnd g k).inonce) :
    ∃ j < k, (attemptEnd cfg buf rnd g j).Accepts ∧ (attemptEnd cfg buf rnd g j).inonce = p ∧
      (attemptStart cfg buf rnd g k).pool p = (attemptEnd cfg buf rnd g j).nonce := by
  induction k with
  | zero => exact absurd hp (Nat.not_lt_zero p)
  | succ k ih =>
    rw [attemptStart_inonce] at hp
    rw [attemptStart_pool]
    by_cases hacc : (attemptEnd cfg buf rnd g k).Accepts
    · rw [if_pos hacc] at hp ⊢
      rcases Nat.lt_succ_iff_lt_or_eq.mp hp with hlt | rfl
      · obtain ⟨j, hj, hrest⟩ := ih hlt
        rw [Function.update_of_ne (Nat.ne_of_lt hlt)]
        exact ⟨j, Nat.lt_succ_of_lt hj, hrest⟩
      · exact ⟨k, Nat.lt_succ_self k, hacc, rfl, Function.update_self ..⟩
    · rw [if_neg hacc] at hp ⊢
      obtain ⟨j, hj, hrest⟩ := ih hp
      exact ⟨j, Nat.lt_succ_of_lt hj, hrest⟩

/-- An accepted attempt reads a word that no accepted attempt before it
    read. -/
theorem AttemptRun.reads_new {k : Nat} (hk : k < n)
    (hacc : (attemptEnd cfg buf rnd g k).Accepts) :
    ∃ i, 64 ≤ i ∧ i < 706 ∧ i ∈ attemptReads cfg buf rnd g k ∧
      ∀ j < k, (attemptEnd cfg buf rnd g j).Accepts → i ∉ attemptReads cfg buf rnd g j := by
  obtain ⟨i, hi, hold, hnew⟩ := mmsUpdated_pos.mp hacc.2
  have hrange : 64 ≤ i ∧ i < 706 := by
    have := List.mem_range'_1.mp hi
    exact this
  have hlt : i < fwWords := Nat.lt_trans hrange.2 (by decide)
  have hne : (attemptStart cfg buf rnd g k).mm.get i ≠ 1 := by
    rw [show (attemptStart cfg buf rnd g k).mm.get i = 0 from hold]
    decide
  refine ⟨i, hrange.1, hrange.2, ?_, ?_⟩
  · exact ((h.marks_iff hk hlt).mp hnew).resolve_left hne
  · intro j hj hj' hmem
    exact hne ((h.mm_iff (Nat.le_of_lt hk) hlt).mpr ⟨j, hj, hj', hmem⟩)

end attempts

/-! ### The second attempt on the zero image -/

section zero

variable (rnd : Nat → BitVec 8)

/-- The first attempt on the zero image is rejected, and the second starts
    from the initial registers. -/
theorem zero_image_start_one :
    attemptStart viperConfig Buffer.zero rnd (fun _ => 0) 1 =
      ((genInit fun _ => 0).ended Buffer.zero).rejected.nextAttempt rnd := by
  have hrej : ¬ ((genInit fun _ => 0).ended Buffer.zero).Accepts := zero_image_rejected
  have hj := GenState.judged_of_rejects hrej
  rw [attemptStart_succ, ← hj]
  exact genChecksumEnd_continues viperConfig rnd (by rw [attemptEnd_zero, judge_rejects hrej])
    (by rw [attemptEnd_zero, hj]; decide) (by rw [attemptEnd_zero, hj]; decide)

theorem zero_image_core_one :
    (attemptStart viperConfig Buffer.zero rnd (fun _ => 0) 1).core =
      startEntry ⟨initRegs fun _ => 0, Buffer.zero⟩ (nonceAt rnd 0) := by
  rw [zero_image_start_one]
  rfl

/-- There is a second attempt on the zero image. -/
theorem zero_image_one_lt {rnd : Nat → BitVec 8} {n : Nat}
    (h : AttemptRun viperConfig Buffer.zero rnd (fun _ => 0) n) : 1 < n :=
  h.lt_of_pc h.pos (by rw [zero_image_core_one]; simp [startEntry])

/-- The second attempt on the zero image, when its nonce is `0xa0`. -/
def zeroCore : Core :=
  attempt GenerateNonce.blocks Buffer.zero (startEntry ⟨initRegs fun _ => 0, Buffer.zero⟩ 0xa0)

theorem zeroCore_accepted :
    zeroCore.icount = iNum ∧ 1 ≤ mmsUpdated Buffer.zero zeroCore.marks ∧
    zeroCore.r 9 = 0x8d40 ∧ zeroCore.r 10 = 0x8e00 := by
  decide +kernel

variable {rnd} (hrnd : nonceAt rnd 0 = 0xa0)
include hrnd

theorem zero_image_end_one :
    (attemptEnd viperConfig Buffer.zero rnd (fun _ => 0) 1).core = zeroCore ∧
    (attemptEnd viperConfig Buffer.zero rnd (fun _ => 0) 1).Accepts := by
  have hcore : (attemptEnd viperConfig Buffer.zero rnd (fun _ => 0) 1).core = zeroCore := by
    rw [attemptEnd_core, zero_image_core_one, hrnd, zeroCore]
  have hmm : (attemptEnd viperConfig Buffer.zero rnd (fun _ => 0) 1).mm = Buffer.zero := by
    rw [attemptEnd_mm, zero_image_start_one]
    rfl
  refine ⟨hcore, ?_⟩
  unfold GenState.Accepts
  rw [hcore, hmm]
  exact ⟨zeroCore_accepted.1, zeroCore_accepted.2.1⟩

end zero

/-- **Coverage accounting.**  After attempt `k`, which ended in `e`, `g_mm` is
    0/1-valued and marks exactly the words read during accepted attempts; when
    the attempt is accepted, `mm_left` has dropped by its `inew`, which is at
    least 1; `mm_left` and the `inew` of all accepted attempts add up to 642;
    and there are at most `642 - mm_left` pool entries.  When `generate_nonce`
    returns, every entry of the pool is the nonce of an accepted attempt, which
    read a word between 64 and 705 that no accepted attempt before it read. -/
theorem coverage_accounting (cfg : Config) (buf : Buffer) (rnd : Nat → BitVec 8) (g : Regs) :
    (∀ k e, (attemptEnds cfg buf rnd g)[k]? = some e →
      (∀ i < fwWords, (judge e).1.mm.get i = 0 ∨ (judge e).1.mm.get i = 1) ∧
      (∀ i < fwWords, (judge e).1.mm.get i = 1 ↔ ∃ j ≤ k, ∃ e',
        (attemptEnds cfg buf rnd g)[j]? = some e' ∧ e'.Accepts ∧
        i ∈ attemptReads cfg buf rnd g j) ∧
      (e.Accepts → 1 ≤ e.inew ∧ mmLeft (judge e).1.mm + e.inew = mmLeft e.mm) ∧
      mmLeft (judge e).1.mm + totalNew ((attemptEnds cfg buf rnd g).take (k + 1)) = 642 ∧
      (judge e).1.inonce ≤ 642 - mmLeft (judge e).1.mm) ∧
    (∀ p < (generateNonce cfg buf rnd g).nonceCount, ∃ k e,
      (attemptEnds cfg buf rnd g)[k]? = some e ∧ e.Accepts ∧ e.inonce = p ∧
      (generateNonce cfg buf rnd g).pool p = e.nonce ∧
      ∃ i, 64 ≤ i ∧ i < 706 ∧ i ∈ attemptReads cfg buf rnd g k ∧
        ∀ j < k, ∀ e', (attemptEnds cfg buf rnd g)[j]? = some e' → e'.Accepts →
          i ∉ attemptReads cfg buf rnd g j) ∧
    (generateNonce cfg buf rnd g).nonceCount ≤ 642 - mmLeft (generateNonce cfg buf rnd g).mm := by
  obtain ⟨n, h⟩ := exists_attemptRun cfg buf rnd g
  refine ⟨?_, ?_, ?_⟩
  · intro k e he
    obtain ⟨hk, rfl⟩ := h.getElem_ends.mp he
    obtain ⟨hsum, hcount⟩ := h.counts (k := k + 1) hk
    have hmm : (judge (attemptEnd cfg buf rnd g k)).1.mm =
        (attemptStart cfg buf rnd g (k + 1)).mm := by
      rw [judge_fst, attemptStart_succ, genChecksumEnd_mm]
    have hinonce : (judge (attemptEnd cfg buf rnd g k)).1.inonce =
        (attemptStart cfg buf rnd g (k + 1)).inonce := by
      rw [judge_fst, attemptStart_succ, genChecksumEnd_inonce]
    rw [hmm, hinonce, h.take_ends hk]
    refine ⟨h.mm_binary hk, ?_, ?_, hsum, by omega⟩
    · intro i hi
      rw [h.mm_iff hk hi]
      constructor
      · rintro ⟨j, hj, hacc, hmem⟩
        exact ⟨j, Nat.lt_succ_iff.mp hj, _, h.getElem_ends.mpr ⟨by omega, rfl⟩, hacc, hmem⟩
      · rintro ⟨j, hj, e', he', hacc, hmem⟩
        obtain ⟨-, rfl⟩ := h.getElem_ends.mp he'
        exact ⟨j, Nat.lt_succ_iff.mpr hj, hacc, hmem⟩
    · exact fun hacc => ⟨hacc.2, h.mmLeft_accepted hk hacc⟩
  · intro p hp
    rw [h.result] at hp ⊢
    obtain ⟨k, hk, hacc, hinonce, hpool⟩ := pool_entry hp
    obtain ⟨i, hlo, hhi, hmem, hnew⟩ := h.reads_new hk hacc
    refine ⟨k, _, h.getElem_ends.mpr ⟨hk, rfl⟩, hacc, hinonce, hpool, i, hlo, hhi, hmem, ?_⟩
    intro j hj e' he' hacc'
    obtain ⟨-, rfl⟩ := h.getElem_ends.mp he'
    exact hnew j hj hacc'
  · obtain ⟨hsum, hcount⟩ := h.counts (Nat.le_refl n)
    rw [h.result]
    show (attemptStart cfg buf rnd g n).inonce ≤ 642 - mmLeft (attemptStart cfg buf rnd g n).mm
    omega

/-- The second attempt on the zero image, accepted with the nonce `0xa0`. -/
theorem zero_image_accounted :
    1 ≤ (attemptEnd viperConfig Buffer.zero (bytesOf fun _ => 0xa0) (fun _ => 0) 1).inew ∧
    mmLeft (judge (attemptEnd viperConfig Buffer.zero (bytesOf fun _ => 0xa0) (fun _ => 0) 1)).1.mm
      + (attemptEnd viperConfig Buffer.zero (bytesOf fun _ => 0xa0) (fun _ => 0) 1).inew =
      mmLeft (attemptEnd viperConfig Buffer.zero (bytesOf fun _ => 0xa0) (fun _ => 0) 1).mm := by
  obtain ⟨n, h⟩ := exists_attemptRun viperConfig Buffer.zero (bytesOf fun _ => 0xa0) fun _ => 0
  have hacc := (zero_image_end_one (nonceAt_bytesOf (fun _ => 0xa0) 0)).2
  exact ((coverage_accounting viperConfig Buffer.zero (bytesOf fun _ => 0xa0) fun _ => 0).1 1 _
    (h.getElem_ends.mpr ⟨zero_image_one_lt h, rfl⟩)).2.2.1 hacc

/-! ## Section 4: Words out of reach

    The counted range ends at `(0x8c00 - SWATT_BASE + 16*4*8 + 8 + 2048)/4`, but
    the blocks put `0x8c00 + 16*4*8 + 8 - 8` at most into `r10`, so the last load
    that can be made is two words short of it. -/

section attempts

variable {cfg : Config} {buf : Buffer} {rnd : Nat → BitVec 8} {g : Regs} {n : Nat}
  (h : AttemptRun cfg buf rnd g n)
include h

/-- Words from 704 on stay unmarked. -/
theorem AttemptRun.unmarked {k : Nat} (hk : k < n) {i : Nat} (hlo : 704 ≤ i) (hi : i < fwWords) :
    (attemptEnd cfg buf rnd g k).core.marks.get i = 0 := by
  refine (h.marks_binary hk (h.mm_binary (Nat.le_of_lt hk)) i hi).resolve_right fun h1 => ?_
  rcases (h.marks_iff hk hi).mp h1 with hmm | hread
  · obtain ⟨j, hj, -, hread⟩ := (h.mm_iff (Nat.le_of_lt hk) hi).mp hmm
    have := (h.reads_range (Nat.lt_trans hj hk) hread).2
    omega
  · have := (h.reads_range hk hread).2
    omega

/-- `mms_left` counts at least words 704 and 705. -/
theorem AttemptRun.two_le_mmsLeft {k : Nat} (hk : k < n) :
    2 ≤ mmsLeft (attemptEnd cfg buf rnd g k).core.marks := by
  have hsub : [704, 705].Sublist coverage := by decide +kernel
  have hle := hsub.countP_le (p := fun i => (attemptEnd cfg buf rnd g k).core.marks.get i == 0)
  have h704 := h.unmarked hk (i := 704) (by decide) (by decide)
  have h705 := h.unmarked hk (i := 705) (by decide) (by decide)
  unfold mmsLeft
  simpa [h704, h705] using hle

/-- The exit for a full coverage is not taken. -/
theorem AttemptRun.not_full {k : Nat} (hk : k < n) :
    (judge (attemptEnd cfg buf rnd g k)).2 = false := by
  have hleft := h.two_le_mmsLeft hk
  by_cases hacc : (attemptEnd cfg buf rnd g k).Accepts
  · rw [judge_accepts hacc]
    exact decide_eq_false (by omega)
  · rw [judge_rejects hacc]

end attempts

/-! ### Words within reach -/

/-- Some run of the generator comes to a block that reads word `i`. -/
def Readable (cfg : Config) (i : Nat) : Prop :=
  ∃ (buf : Buffer) (rnd : Nat → BitVec 8) (g : Regs) (s : GenState),
    Reaches (genStep cfg buf rnd) (genInit g) s ∧ i ∈ s.core.reads GenerateNonce.blocks buf

theorem Readable.range {cfg : Config} {i : Nat} (h : Readable cfg i) : 64 ≤ i ∧ i < 704 := by
  obtain ⟨buf, rnd, g, s, ⟨tr, hsteps⟩, hread⟩ := h
  have hinv : GenInv cfg s := (hsteps.invariant (genInv_init g) fun _ _ hi hs => hi.step hs).2
  unfold Core.reads at hread
  split at hread
  · next k hk =>
    obtain ⟨h1, h2⟩ := hinv.addr.reads_range (GenerateNonce.blocks.block k) buf
    simp only [List.mem_cons, List.not_mem_nil, or_false] at hread
    rcases hread with rfl | rfl <;> omega
  · simp at hread

/-- An attempt that jumps to block 0 reads the word at `r10 + r7` first, and
    the nonce decides both the jump and `r7`. -/
theorem readable_of_start {cfg : Config} {buf : Buffer} {rnd : Nat → BitVec 8} {g : Regs}
    {s : GenState} (hreach : Reaches (genStep cfg buf rnd) (genInit g) s) {q : Snapshot}
    {nonce : Word} (hcore : s.core = startEntry q nonce)
    (h9 : q.regs 9 ^^^ (nonce &&& jumpMask) = 0x8c00) {i : Nat}
    (hi : wordIndex (q.regs 10 + ((nonce >>> 16) &&& addrMask)) = i) : Readable cfg i := by
  obtain ⟨tr, hsteps⟩ := hreach
  have hr9 : s.core.r 9 = 0x8c00 := by
    rw [hcore, ← h9]
    simp [startEntry, applyNonce]
  have haddr : s.core.r 10 + s.core.r 7 = q.regs 10 + ((nonce >>> 16) &&& addrMask) := by
    rw [hcore]
    simp [startEntry, applyNonce]
  have hpc : s.core.pc = .jumpTable := by rw [hcore]; rfl
  have hjump : jumpLabel (s.core.r 9) = .block 0 := by
    rw [hr9]
    rfl
  have hstep : genStep cfg buf rnd s = some { s with core := { s.core with pc := .block 0 } } := by
    simp [genStep, coreStep, hpc, hjump]
  rw [← hi, ← haddr]
  refine ⟨buf, rnd, g, _, ⟨_, hsteps.append (.single hstep)⟩, ?_⟩
  show _ ∈ [((GenerateNonce.blocks.block 0).exec buf s.core.r).i1, _]
  rw [Block.exec_i1]
  exact List.mem_cons_self ..

/-- Two attempts on the zero image: the second is accepted, and the third
    starts from its registers. -/
theorem zero_image_start_two {rnd : Nat → BitVec 8} (hrnd : nonceAt rnd 0 = 0xa0) :
    (attemptStart viperConfig Buffer.zero rnd (fun _ => 0) 2).core =
      startEntry zeroCore.snapshot (nonceAt rnd 1) := by
  obtain ⟨hcore, hacc⟩ := zero_image_end_one hrnd
  have hj := GenState.judged_of_accepts hacc
  have hstart : (attemptEnd viperConfig Buffer.zero rnd (fun _ => 0) 1) =
      (((genInit fun _ => 0).ended Buffer.zero).rejected.nextAttempt rnd).ended Buffer.zero := by
    rw [attemptEnd, zero_image_start_one]
  obtain ⟨n, h⟩ := exists_attemptRun viperConfig Buffer.zero rnd fun _ => 0
  have hone := zero_image_one_lt h
  have hnext := genChecksumEnd_continues viperConfig rnd (h.not_full hone)
    (by rw [hj, hstart]; show 1 < 300; decide) (by rw [hj, hstart]; show 2 < 100000; decide)
  rw [attemptStart_succ, hnext, hj]
  show startEntry ((attemptEnd viperConfig Buffer.zero rnd (fun _ => 0) 1).core.snapshot) _ = _
  rw [hcore, hstart]
  rfl

/-- Words 64 to 575 are read by the second attempt on the zero image. -/
theorem readable_low {m : Nat} (hm : m < 512) : Readable viperConfig (64 + m) := by
  have hbits : ∀ m < 512,
      ((0x8c00 : Word) ^^^ ((BitVec.ofNat 32 (4 * m) <<< 16) &&& jumpMask) = 0x8c00) ∧
      wordIndex ((0x8c00 : Word) + (((BitVec.ofNat 32 (4 * m) <<< 16) >>> 16) &&& addrMask)) =
        64 + m := by
    decide +kernel
  obtain ⟨h9, hidx⟩ := hbits m hm
  obtain ⟨n, h⟩ := exists_attemptRun viperConfig Buffer.zero
    (bytesOf fun _ => BitVec.ofNat 32 (4 * m) <<< 16) fun _ => 0
  have hcore := zero_image_core_one (bytesOf fun _ => BitVec.ofNat 32 (4 * m) <<< 16)
  rw [nonceAt_bytesOf] at hcore
  exact readable_of_start (h.reaches h.pos) hcore h9 hidx

/-- Words 192 to 703 are read by the third attempt, when the second was
    accepted and left `0x8e00` in `r10`. -/
theorem readable_high {m : Nat} (hm : m < 512) : Readable viperConfig (192 + m) := by
  have hbits : ∀ m < 512,
      ((0x8d40 : Word) ^^^ ((BitVec.ofNat 32 (4 * m) <<< 16 ||| 0x140) &&& jumpMask) = 0x8c00) ∧
      wordIndex ((0x8e00 : Word) +
        (((BitVec.ofNat 32 (4 * m) <<< 16 ||| 0x140) >>> 16) &&& addrMask)) = 192 + m := by
    decide +kernel
  obtain ⟨h9, hidx⟩ := hbits m hm
  generalize hns : (fun k : Nat => if k = 0 then (0xa0 : Word) else
    BitVec.ofNat 32 (4 * m) <<< 16 ||| 0x140) = ns
  obtain ⟨n, h⟩ := exists_attemptRun viperConfig Buffer.zero (bytesOf ns) fun _ => 0
  have h0 : nonceAt (bytesOf ns) 0 = 0xa0 := by rw [nonceAt_bytesOf, ← hns]; rfl
  have h1 : nonceAt (bytesOf ns) 1 = BitVec.ofNat 32 (4 * m) <<< 16 ||| 0x140 := by
    rw [nonceAt_bytesOf, ← hns]
    rfl
  have hone := zero_image_one_lt h
  have hcore := zero_image_start_two h0
  rw [h1] at hcore
  obtain ⟨-, -, hr9, hr10⟩ := zeroCore_accepted
  rw [← hr9] at h9
  rw [← hr10] at hidx
  exact readable_of_start (h.reaches hone) hcore h9 hidx

/-- **The readable words** are 64 to 703. -/
theorem readable_iff (i : Nat) : Readable viperConfig i ↔ 64 ≤ i ∧ i < 704 := by
  refine ⟨Readable.range, fun ⟨hlo, hhi⟩ => ?_⟩
  by_cases h : i < 576
  · obtain ⟨m, rfl⟩ : ∃ m, i = 64 + m := ⟨i - 64, by omega⟩
    exact readable_low (by omega)
  · obtain ⟨m, rfl⟩ : ∃ m, i = 192 + m := ⟨i - 192, by omega⟩
    exact readable_high (by omega)

theorem mem_coverage (i : Nat) : i ∈ coverage ↔ 64 ≤ i ∧ i < 706 := by
  unfold coverage istart iend
  rw [List.mem_range'_1]

/-- **The coverage is never full.**  With any limits, the counted words are not
    the words that can be read: in every run there is a counted word that no
    block reads, `mms_left` stays at 2 or more, and the exit for a full coverage
    is not taken.  With the limits of the source, what can be read is what is
    counted, without words 704 and 705. -/
theorem coverage_never_full (cfg : Config) (buf : Buffer) (rnd : Nat → BitVec 8) (g : Regs) :
    ¬ (∀ i, i ∈ coverage ↔ Readable cfg i) ∧
    (∃ i ∈ coverage, ∀ s, Reaches (genStep cfg buf rnd) (genInit g) s →
      i ∉ s.core.reads GenerateNonce.blocks buf) ∧
    (∀ e ∈ attemptEnds cfg buf rnd g, 2 ≤ mmsLeft e.core.marks ∧ (judge e).2 = false) ∧
    ∀ i, Readable viperConfig i ↔ i ∈ coverage ∧ i ≠ 704 ∧ i ≠ 705 := by
  have h704 : 704 ∈ coverage := (mem_coverage 704).mpr (by decide)
  refine ⟨fun hall => ?_, ⟨704, h704, fun s hs hmem => ?_⟩, fun e he => ?_, fun i => ?_⟩
  · have := ((hall 704).mp h704).range
    omega
  · have := Readable.range ⟨buf, rnd, g, s, hs, hmem⟩
    omega
  · obtain ⟨n, h⟩ := exists_attemptRun cfg buf rnd g
    rw [h.ends] at he
    obtain ⟨k, hk, rfl⟩ := List.mem_map.mp he
    have hk := List.mem_range.mp hk
    exact ⟨h.two_le_mmsLeft hk, h.not_full hk⟩
  · rw [readable_iff, mem_coverage]
    omega

/-- The first attempt on the zero image leaves words 704 and 705. -/
theorem zero_image_not_full :
    2 ≤ mmsLeft (attemptEnd viperConfig Buffer.zero (fun _ => 0) (fun _ => 0) 0).core.marks :=
  ((coverage_never_full viperConfig Buffer.zero (fun _ => 0) fun _ => 0).2.2.1 _
    (List.mem_of_getElem? (attemptEnds_zero viperConfig Buffer.zero (fun _ => 0) fun _ => 0))).1

/-- Word 705 is counted by `mms_left`, and no run reads it. -/
theorem word_705_unread : 705 ∈ coverage ∧ ¬ Readable viperConfig 705 :=
  ⟨(mem_coverage 705).mpr (by decide), fun h => absurd h.range.2 (by decide)⟩

end Viper
