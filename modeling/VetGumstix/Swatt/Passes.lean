import VetGumstix.Swatt.Window

/-! # The Passes of the Checksum Loop

    The loop counts `r12` down once in each of its eight blocks and tests it
    only behind the last, so it sees every eighth value of a counter that
    wraps.  As far as termination goes the loop is a counter machine: its
    state is the position within the loop and the counter, and the program
    follows it instruction by instruction.

    * `steps_loop`: the run of the counter machine, pass by pass.
    * `loop_passes`: the loop leaves exactly when the counter it starts with
      is a multiple of 8, after `passes` passes, and stores a zero counter.
-/

namespace Swatt

open Arm Machine

/-! ## Section 1: The counter machine -/

/-- How far the loop is behind the label `checksum`, in instructions, and the
    counter. -/
@[ext]
structure Count where
  pos : Nat
  counter : Word

/-- Eight blocks of 17 instructions, the last of which counts down, and the
    branch back. -/
def countStep (k : Count) : Option Count :=
  if k.pos < 136 then some ⟨k.pos + 1, if k.pos % 17 = 16 then k.counter - 1 else k.counter⟩
  else if k.pos = 136 then some ⟨if k.counter = 0 then 137 else 0, k.counter⟩
  else none

/-- The states of a pass that starts with the counter `c`. -/
def passCounts (c : Word) : List Count :=
  (List.range 137).map fun q => ⟨q, c - BitVec.ofNat 32 (q / 17)⟩

/-- The states of the first `n` passes. -/
def loopCounts (c : Word) (n : Nat) : List Count :=
  (List.range n).flatMap fun j => passCounts (c - BitVec.ofNat 32 (8 * j))

theorem loopCounts_succ (c : Word) (n : Nat) :
    loopCounts c (n + 1) = loopCounts c n ++ passCounts (c - BitVec.ofNat 32 (8 * n)) := by
  unfold loopCounts
  rw [List.range_succ, List.flatMap_append, List.flatMap_singleton]

theorem sub_ofNat_add (c : Word) (m n : Nat) :
    c - BitVec.ofNat 32 m - BitVec.ofNat 32 n = c - BitVec.ofNat 32 (m + n) := by
  rw [BitVec.ofNat_add]
  bv_omega

theorem steps_body (c : Word) {q : Nat} (hq : q ≤ 136) :
    Steps countStep ⟨0, c⟩ ((List.range q).map fun p => ⟨p, c - BitVec.ofNat 32 (p / 17)⟩)
      ⟨q, c - BitVec.ofNat 32 (q / 17)⟩ := by
  induction q with
  | zero =>
    have hzero : c - BitVec.ofNat 32 (0 / 17) = c := BitVec.sub_zero c
    rw [hzero]
    exact .nil _
  | succ q ih =>
    have hstep : countStep ⟨q, c - BitVec.ofNat 32 (q / 17)⟩ =
        some ⟨q + 1, c - BitVec.ofNat 32 ((q + 1) / 17)⟩ := by
      have hlt : q < 136 := hq
      unfold countStep
      rw [if_pos hlt]
      by_cases hend : q % 17 = 16
      · rw [if_pos hend, show (q + 1) / 17 = q / 17 + 1 by omega, ← sub_ofNat_add]
        rfl
      · rw [if_neg hend, show (q + 1) / 17 = q / 17 by omega]
    rw [List.range_succ, List.map_append]
    exact (ih (by omega)).append (.single hstep)

theorem steps_pass (c : Word) :
    Steps countStep ⟨0, c⟩ (passCounts c) ⟨if c - 8 = 0 then 137 else 0, c - 8⟩ := by
  have hbranch : countStep ⟨136, c - 8⟩ = some ⟨if c - 8 = 0 then 137 else 0, c - 8⟩ := rfl
  unfold passCounts
  rw [List.range_succ, List.map_append]
  exact (steps_body c (Nat.le_refl 136)).append (.single hbranch)

/-- Passes that do not end on zero come back to the start. -/
theorem steps_passes (c : Word) (n : Nat) (h : ∀ j < n, c - BitVec.ofNat 32 (8 * (j + 1)) ≠ 0) :
    Steps countStep ⟨0, c⟩ (loopCounts c n) ⟨0, c - BitVec.ofNat 32 (8 * n)⟩ := by
  induction n with
  | zero =>
    have hzero : c - BitVec.ofNat 32 (8 * 0) = c := BitVec.sub_zero c
    rw [hzero]
    exact .nil _
  | succ n ih =>
    have hpass := steps_pass (c - BitVec.ofNat 32 (8 * n))
    have hnext : c - BitVec.ofNat 32 (8 * n) - 8 = c - BitVec.ofNat 32 (8 * (n + 1)) :=
      sub_ofNat_add c (8 * n) 8
    rw [hnext, if_neg (h n (Nat.lt_succ_self n))] at hpass
    rw [loopCounts_succ]
    exact (ih fun j hj => h j (Nat.lt_succ_of_lt hj)).append hpass

/-- Before its last pass the counter does not come to zero. -/
theorem counter_ne_zero {c : Word} (h8 : c.toNat % 8 = 0) {j : Nat} (hj : j + 1 < passes c) :
    c - BitVec.ofNat 32 (8 * (j + 1)) ≠ 0 := by
  intro h0
  have hlt := c.isLt
  have heq : c = BitVec.ofNat 32 (8 * (j + 1)) := sub_eq_zero.mp h0
  unfold passes at hj
  have hnat := congrArg BitVec.toNat heq
  rw [BitVec.toNat_ofNat] at hnat
  split at hj
  · next hzero =>
    rw [hzero] at hnat
    have : (0 : Word).toNat = 0 := rfl
    omega
  · omega

/-- **The loop** makes all its passes and leaves with the counter at zero. -/
theorem steps_loop {c : Word} (h8 : c.toNat % 8 = 0) :
    Steps countStep ⟨0, c⟩ (loopCounts c (passes c)) ⟨137, 0⟩ := by
  obtain ⟨n, hn⟩ := Nat.exists_eq_succ_of_ne_zero (Nat.ne_of_gt (passes_pos h8))
  have hback := steps_passes c n fun j hj => counter_ne_zero h8 (by omega)
  have hpass := steps_pass (c - BitVec.ofNat 32 (8 * n))
  have hlast : c - BitVec.ofNat 32 (8 * n) - 8 = 0 := by
    have hall := passes_mul h8
    rw [hn] at hall
    exact (sub_ofNat_add c (8 * n) 8).trans (sub_eq_zero.mpr hall.symm)
  rw [hlast, if_pos rfl] at hpass
  rw [hn, Nat.succ_eq_add_one, loopCounts_succ]
  exact hback.append hpass

/-! ### Visits -/

/-- A pass is at each of its positions once. -/
theorem passCounts_at (c : Word) {q : Nat} (hq : q < 137) :
    (passCounts c).filter (fun k => k.pos = q) = [⟨q, c - BitVec.ofNat 32 (q / 17)⟩] := by
  have honce : (List.range 137).filter (fun p => decide (p = q)) = [q] := by
    rw [List.filter_eq, List.count_eq_one_of_mem List.nodup_range (List.mem_range.mpr hq)]
    rfl
  unfold passCounts
  rw [List.filter_map]
  exact congrArg _ honce

/-- The counters with which the passes come by a position. -/
theorem loopCounts_at (c : Word) (n : Nat) {q : Nat} (hq : q < 137) :
    ((loopCounts c n).filter (fun k => k.pos = q)).map Count.counter =
      (List.range n).map fun j => c - BitVec.ofNat 32 (8 * j + q / 17) := by
  induction n with
  | zero => rfl
  | succ n ih =>
    rw [loopCounts_succ, List.filter_append, List.map_append, ih, passCounts_at _ hq,
      List.range_succ, List.map_append, List.map_singleton, List.map_singleton, sub_ofNat_add]

/-! ## Section 2: The program follows the counter -/

section genuine

variable (lay : Layout) (base : Word)

/-- The instructions of the eight blocks. -/
def loopCode : Code := (List.finRange 8).flatMap blockCode

theorem loopCode_at : (swattARM lay base).At (initPos lay + 16) loopCode :=
  program_at lay loadWord [] base _ 16 (by decide +kernel)

/-- Only the last instruction of a block writes the counter, and only in block
    8 does it set the flags. -/
theorem loopCode_counter : ∀ q < 136, ∀ i ∈ loopCode[q]?, i.isBranch = false ∧
    if q % 17 = 16 then i = .arith .sub (decide (q = 135)) .al 12 12 (.imm 1)
    else i.writes 12 = false := by
  decide +kernel

/-- The counter machine's view of a state. -/
def countOf (st : State) : Count := ⟨st.pc - (initPos lay + 16), st.cpu.r 12⟩

/-- In the loop, or just behind it.  In front of the branch the zero flag is
    that of the counter. -/
structure InLoop (st : State) : Prop where
  above : initPos lay + 16 ≤ st.pc
  flag  : st.pc = initPos lay + 16 + 136 → zero st.cpu.cpsr = (st.cpu.r 12 == 0)

/-- An instruction of a block moves the counter as the counter machine does. -/
theorem step_block {st : State} (h : InLoop lay st) (hpos : (countOf lay st).pos < 136) :
    ∃ st', (swattARM lay base).step st = some st' ∧ InLoop lay st' ∧
      st'.pc = st.pc + 1 ∧ st'.cpu.r 12 =
        if (countOf lay st).pos % 17 = 16 then st.cpu.r 12 - 1 else st.cpu.r 12 := by
  generalize hq : (countOf lay st).pos = q at hpos
  have hpc : st.pc = initPos lay + 16 + q := by
    have := h.above
    simp only [countOf] at hq
    omega
  have hlen : loopCode.length = 136 := by decide +kernel
  obtain ⟨i, hi⟩ : ∃ i, loopCode[q]? = some i :=
    ⟨_, List.getElem?_eq_getElem (by rw [hlen]; exact hpos)⟩
  obtain ⟨hbranch, hcount⟩ := loopCode_counter q hpos i hi
  have hcode : (swattARM lay base).code[st.pc]? = some i := by
    rw [hpc, loopCode_at lay base q (by rw [hlen]; exact hpos), hi]
  refine ⟨_, (swattARM lay base).step_exec hcode hbranch st.cpu, ?_, rfl, ?_⟩
  · refine ⟨Nat.le_succ_of_le h.above, ?_⟩
    intro hend
    -- only the `subs` of block 8 is followed by the branch
    obtain rfl : q = 135 := by
      simp only at hend
      omega
    rw [if_pos (by decide)] at hcount
    subst hcount
    simp [Instr.exec, Cond.holds, ArithOp.sum, Operand.value]
  · by_cases hend : q % 17 = 16
    · rw [if_pos hend] at hcount ⊢
      subst hcount
      simp [Instr.exec, Cond.holds, ArithOp.sum, Operand.value, subtract_word]
      split <;> simp
    · rw [if_neg hend] at hcount ⊢
      exact Instr.exec_r hcount _ _

/-- The branch goes back unless the counter is zero. -/
theorem step_back {st : State} (h : InLoop lay st) (hpos : (countOf lay st).pos = 136) :
    (swattARM lay base).step st = some ⟨st.cpu,
      if st.cpu.r 12 = 0 then initPos lay + 16 + 137 else initPos lay + 16⟩ := by
  obtain ⟨s, n⟩ := st
  obtain rfl : n = initPos lay + 16 + 136 := by
    have := h.above
    simp only [countOf] at hpos this
    omega
  have hstep := (swattARM lay base).step_branch (build_genuine lay base).back s
  rw [(build_genuine lay base).top, Cond.holds, h.flag rfl] at hstep
  rw [hstep]
  simp

/-- **The loop follows the counter machine.** -/
theorem step_count {st : State} (h : InLoop lay st) {k : Count}
    (hk : countStep (countOf lay st) = some k) :
    ∃ st', (swattARM lay base).step st = some st' ∧ InLoop lay st' ∧ countOf lay st' = k := by
  unfold countStep at hk
  split at hk
  · next hpos =>
    obtain ⟨st', hstep, hin, hpc, hcount⟩ := step_block lay base h hpos
    refine ⟨st', hstep, hin, ?_⟩
    have hsub : st.pc + 1 - (initPos lay + 16) = st.pc - (initPos lay + 16) + 1 :=
      Nat.sub_add_comm h.above
    rw [← Option.some.inj hk]
    unfold countOf at hcount ⊢
    rw [hcount, hpc, hsub]
  · split at hk
    · next hpos =>
      refine ⟨_, step_back lay base h hpos, ?_, ?_⟩
      · constructor
        · simp only
          split <;> omega
        · simp only
          split <;> omega
      · rw [← Option.some.inj hk]
        unfold countOf
        simp only
        split <;> simp
    · simp at hk

/-! ## Section 3: Runs -/

/-- Every pass of a counter that is no multiple of 8 leads to another one. -/
theorem loop_diverges {s : Cpu} (h8 : (s.r 12).toNat % 8 ≠ 0) (t : State) :
    ¬ Halts (swattARM lay base).step ⟨s, initPos lay + 16⟩ t := by
  refine not_halts_of_rounds (fun st => InLoop lay st ∧ (countOf lay st).pos = 0 ∧
    (st.cpu.r 12).toNat % 8 ≠ 0) ?_ ⟨⟨Nat.le_refl _, by simp⟩, by simp [countOf], h8⟩ t
  rintro st ⟨hin, hpos, hmod⟩
  have hcount : countOf lay st = ⟨0, st.cpu.r 12⟩ := Count.ext hpos rfl
  have hne : st.cpu.r 12 - 8 ≠ 0 := by
    intro h0
    rw [sub_eq_zero.mp h0] at hmod
    exact hmod rfl
  have hpass := steps_pass (st.cpu.r 12)
  rw [if_neg hne, ← hcount] at hpass
  obtain ⟨tr, t, hrun, hmap, -, hinT, hcountT⟩ :=
    Steps.simulate (countOf lay) (fun _ _ h hk => step_count lay base h hk) hin hpass
  refine ⟨tr, t, hrun, ?_, hinT, congrArg Count.pos hcountT, ?_⟩
  · rintro rfl
    exact absurd hmap (by simp [passCounts])
  · have h12 : t.cpu.r 12 = st.cpu.r 12 - 8 := congrArg Count.counter hcountT
    have h8 : (8 : Word).toNat = 8 := rfl
    have hlt := (st.cpu.r 12).isLt
    rw [h12, BitVec.toNat_sub, h8]
    omega

/-- Behind the loop the code is straight. -/
theorem behind_loop {st st' : State} (h : initPos lay + 16 + 137 ≤ st.pc)
    (hstep : (swattARM lay base).step st = some st') : initPos lay + 16 + 137 ≤ st'.pc := by
  rcases Program.step_cases hstep with ⟨i, -, -, rfl⟩ | ⟨cond, l, hcode, rfl⟩
  · exact Nat.le_succ_of_le h
  · have := (genuine_branch lay base hcode).1
    omega

/-- The states of a run that are at position `q` of the loop, in terms of the
    counter machine. -/
theorem visits_of_counts {tr : List State} (hin : ∀ x ∈ tr, InLoop lay x) (q : Nat) :
    (tr.filter fun x => x.pc = initPos lay + 16 + q).map (fun x => x.cpu.r 12) =
      ((tr.map (countOf lay)).filter fun k => k.pos = q).map Count.counter := by
  have hpos : ∀ x ∈ tr, decide (x.pc = initPos lay + 16 + q) =
      decide ((countOf lay x).pos = q) := by
    intro x hx
    have := (hin x hx).above
    apply decide_eq_decide.mpr
    simp only [countOf]
    omega
  rw [List.filter_map, List.map_map, List.filter_congr hpos]
  rfl

/-- The run from `init_checksum` on, for a counter that is a multiple of 8:
    the states at the positions of the loop are those of the passes. -/
theorem loop_trace {s : Cpu} (h8 : (s.r 12).toNat % 8 = 0) :
    ∃ tr t, Steps (swattARM lay base).step ⟨s, initPos lay + 16⟩ tr t ∧
      (swattARM lay base).step t = none ∧
      ∀ q < 137, (tr.filter fun x => x.pc = initPos lay + 16 + q).map (fun x => x.cpu.r 12) =
        (List.range (passes (s.r 12))).map fun j => s.r 12 - BitVec.ofNat 32 (8 * j + q / 17) := by
  have hin : InLoop lay ⟨s, initPos lay + 16⟩ := ⟨Nat.le_refl _, by simp⟩
  have hcount : countOf lay ⟨s, initPos lay + 16⟩ = ⟨0, s.r 12⟩ := Count.ext (Nat.sub_self _) rfl
  have hloop := steps_loop h8
  rw [← hcount] at hloop
  obtain ⟨tr, st, hrun, hmap, hall, hinT, hcountT⟩ :=
    Steps.simulate (countOf lay) (fun _ _ h hk => step_count lay base h hk) hin hloop
  -- the rest of the run
  obtain ⟨s', n⟩ := st
  obtain rfl : n = initPos lay + 16 + 137 := by
    have habove := hinT.above
    have hpos : n - (initPos lay + 16) = 137 := congrArg Count.pos hcountT
    simp only at habove
    omega
  obtain ⟨t, ⟨⟨rest, hrest⟩, hnone⟩, -⟩ := (build_genuine lay base).leave s'
  refine ⟨tr ++ rest, t, hrun.append hrest, hnone, ?_⟩
  intro q hq
  have hbehind : ∀ x ∈ rest, initPos lay + 16 + 137 ≤ x.pc :=
    (hrest.invariant (Nat.le_refl _) fun _ _ h hstep => behind_loop lay base h hstep).1
  have hnil : (rest.filter fun x => x.pc = initPos lay + 16 + q) = [] := by
    rw [List.filter_eq_nil_iff]
    intro x hx
    have := hbehind x hx
    simp only [decide_eq_true_eq]
    omega
  rw [List.filter_append, hnil, List.append_nil, visits_of_counts lay hall, hmap,
    loopCounts_at _ _ hq]

end genuine

/-- **The passes of the loop.**  The code is entered at `init_checksum`, with
    the counter `c` in `challenge[11]` and `r0` pointing to the challenge; the
    registers, memory and the status register are arbitrary.  The run ends
    exactly when `c` is a multiple of 8.  It then makes `passes c` passes: the
    `m`-th instruction of block `i`, and so each of the 17, is executed once
    in pass `j` and finds `c - 8 * j - i` in the counter, and so is the branch
    behind block 8.  The counter stored at the end is 0. -/
theorem loop_passes (lay : Layout) (base : Word) (s : Cpu) (c : Word)
    (hc : load s.mem (s.r 0 + 44) = c) :
    ((∃ t, Halts (swattARM lay base).step ⟨s, initPos lay⟩ t) ↔ c.toNat % 8 = 0) ∧
    (c.toNat % 8 = 0 → ∃ tr t, Steps (swattARM lay base).step ⟨s, initPos lay⟩ tr t ∧
      (swattARM lay base).step t = none ∧
      (∀ i < 8, ∀ m < 17,
        (tr.filter fun x => x.pc = initPos lay + 16 + (17 * i + m)).map (fun x => x.cpu.r 12) =
          (List.range (passes c)).map fun j => c - BitVec.ofNat 32 (8 * j + i)) ∧
      (tr.filter fun x => x.pc = initPos lay + 16 + 136).length = passes c ∧
      load t.cpu.mem (s.r 0 + 44) = 0) := by
  obtain ⟨hk, h0, -⟩ := exec_initChecksum ((swattARM lay base).addr (initPos lay)) s
  obtain ⟨init, hinit, hpc⟩ :=
    (swattARM lay base).trace_straight (build_genuine lay base).init (by decide) s
  generalize execAll ((swattARM lay base).addr (initPos lay)) (initChecksum ++ disableInterrupts)
    s = s₁ at hk h0 hinit
  -- the loop starts with the counter of the challenge
  obtain rfl : s₁.r 12 = c := (congrArg Checksum.counter hk).trans hc
  have hstart : initPos lay + (initChecksum ++ disableInterrupts).length = initPos lay + 16 := rfl
  rw [hstart] at hinit hpc
  constructor
  · constructor
    · rintro ⟨t, ⟨tr, htr⟩, hnone⟩
      by_contra h8
      obtain ⟨rest, -, hrest⟩ := htr.split hnone hinit
      exact loop_diverges lay base h8 t ⟨⟨rest, hrest⟩, hnone⟩
    · intro h8
      obtain ⟨tr, t, htr, hnone, -⟩ := loop_trace lay base h8
      exact ⟨t, ⟨_, hinit.append htr⟩, hnone⟩
  · intro h8
    obtain ⟨tr, t, htr, hnone, hvisits⟩ := loop_trace lay base h8
    have hall : ∀ q < 137, ((init ++ tr).filter fun x => x.pc = initPos lay + 16 + q).map
        (fun x => x.cpu.r 12) =
        (List.range (passes (s₁.r 12))).map fun j =>
          s₁.r 12 - BitVec.ofNat 32 (8 * j + q / 17) := by
      intro q hq
      have hnil : (init.filter fun x => x.pc = initPos lay + 16 + q) = [] := by
        rw [List.filter_eq_nil_iff]
        intro x hx
        have := hpc x hx
        simp only [decide_eq_true_eq]
        omega
      rw [List.filter_append, hnil, List.nil_append, hvisits q hq]
    refine ⟨init ++ tr, t, hinit.append htr, hnone, ?_, ?_, ?_⟩
    · intro i hi m hm
      rw [hall (17 * i + m) (by omega), show (17 * i + m) / 17 = i by omega]
    · have hlen := congrArg List.length (hall 136 (by decide))
      rwa [List.length_map, List.length_map, List.length_range] at hlen
    · obtain ⟨t', hhalt, hmem⟩ := (build_genuine lay base).run_loop s₁ h8
      obtain rfl : t = t' := Halts.unique ⟨⟨tr, htr⟩, hnone⟩ hhalt
      have h11 := load_storeWords s₁.mem (s₁.r 0) (finalChecksum base
        (fun a => load s₁.mem (a + 0)) (checksumOf s₁)).stored (n := 13) (j := 11) (by decide)
        (by decide)
      rw [← hmem, h0] at h11
      exact h11.trans (finalChecksum_counter base _ h8)

/-- With the counter of the source, `0x1000000`, the loop makes `2 ^ 21`
    passes; with a counter of 12 it does not end. -/
theorem loop_passes_sample :
    (∃ tr t, Steps (swattARM ⟨11, 3, .inl rfl⟩ 0x8000).step
        ⟨sampleCpu fun _ => 0x1000000, initPos ⟨11, 3, .inl rfl⟩⟩ tr t ∧
      (tr.filter fun x => x.pc = initPos ⟨11, 3, .inl rfl⟩ + 16 + 136).length = 2 ^ 21) ∧
    ¬ ∃ t, Halts (swattARM ⟨11, 3, .inl rfl⟩ 0x8000).step
      ⟨sampleCpu fun _ => 12, initPos ⟨11, 3, .inl rfl⟩⟩ t := by
  constructor
  · obtain ⟨tr, t, hrun, -, -, hcount, -⟩ := (loop_passes ⟨11, 3, .inl rfl⟩ 0x8000
      (sampleCpu fun _ => 0x1000000) 0x1000000 rfl).2 (by decide)
    exact ⟨tr, t, hrun, hcount⟩
  · intro hhalts
    exact absurd ((loop_passes ⟨11, 3, .inl rfl⟩ 0x8000 (sampleCpu fun _ => 12) 12 rfl).1.mp
      hhalts) (by decide)

end Swatt
