import VetGumstix.Viper.Generation

/-! # Replay of the Pool

    On a pool that is a chain the simulator completes entry after entry, with
    the snapshots the generator saved, and reports entry `k` when it loads
    entry `k + 1`.  The main results compare a run of `checksum_simulator`
    with the run of `generate_nonce` that filled its pool.
-/

namespace Viper

open Machine

/-! ## Section 1: One entry of the simulator -/

section simulator

variable {cfg : Config} {buf : Buffer} {pool : Nat → Word} {n : Nat}

/-- The state in which the current entry reaches `__checksum_end`. -/
def SimState.ended (buf : Buffer) (s : SimState) : SimState :=
  { s with core := attempt ChecksumSimulator.blocks buf s.core }

/-- The states of an entry that walks through `ctr`: its blocks and jumps, then
    `__checksum_end`. -/
def SimState.entryTrace (buf : Buffer) (s : SimState) (ctr : List Core) : List SimState :=
  (ctr.map fun c => { s with core := c }) ++ [s.ended buf]

/-- The snapshots at which entries complete along a trace. -/
def completions (tr : List SimState) : List Snapshot :=
  (tr.filter fun s => s.core.pc = .checksumEnd ∧ s.core.icount = iNum).map fun s =>
    s.core.snapshot

theorem completions_append (tr tr' : List SimState) :
    completions (tr ++ tr') = completions tr ++ completions tr' := by
  simp [completions]

theorem completions_nil_of_blocks {tr : List SimState}
    (h : ∀ x ∈ tr, x.core.pc ≠ .checksumEnd) : completions tr = [] := by
  unfold completions
  rw [List.map_eq_nil_iff, List.filter_eq_nil_iff]
  intro x hx
  simp [h x hx]

theorem mem_entryTrace {s x : SimState} {ctr : List Core} :
    x ∈ s.entryTrace buf ctr ↔ (∃ c ∈ ctr, { s with core := c } = x) ∨ x = s.ended buf := by
  simp [SimState.entryTrace]

/-- The states of the current entry before `__checksum_end`. -/
def SimState.body (buf : Buffer) (s : SimState) : List SimState :=
  attemptBody (fun c => { s with core := c }) ChecksumSimulator.blocks buf s.core

/-- A round of the simulator: an entry, and `__checksum_end` after it. -/
theorem sim_round (cfg : Config) (buf : Buffer) (pool : Nat → Word) (n : Nat) {s : SimState}
    (h : CoreInv s.core) :
    Steps (simStep cfg buf pool n) s (s.body buf ++ [s.ended buf])
      (simChecksumEnd cfg pool n (s.ended buf)) := by
  refine attempt_round h (fun _ _ hc => simStep_core cfg pool n s hc) ?_
  intro d hpc
  simp [simStep, hpc]

/-- An entry of the simulator as steps of the block machine and as steps of
    the simulator. -/
theorem sim_attempt (cfg : Config) (buf : Buffer) (pool : Nat → Word) (n : Nat) {s : SimState}
    (h : CoreInv s.core) :
    ∃ ctr, Steps (coreStep ChecksumSimulator.blocks buf) s.core ctr (s.ended buf).core ∧
      Steps (simStep cfg buf pool n) s (s.entryTrace buf ctr)
        (simChecksumEnd cfg pool n (s.ended buf)) ∧
      ctr.length ≤ 2 * iNum ∧ (∀ c ∈ ctr, c.pc ≠ .checksumEnd) ∧
      (s.ended buf).core.pc = .checksumEnd := by
  have hsteps := steps_run (coreStep ChecksumSimulator.blocks buf) (2 * iNum) s.core
  refine ⟨_, hsteps, sim_round cfg buf pool n h, visits_length _ _ _, ?_, attempt_pc _ buf h⟩
  intro c hc
  obtain ⟨c', hstep⟩ := hsteps.stepped c hc
  exact (coreStep_running hstep).1

/-! ### The reported row -/

/-- The registers a checksum is taken from. -/
def checksumRegs : List Reg :=
  [2, 3, 11, 12, 13, 14, 15, 16, 17, 18, 19, 20, 21, 22, 23, 24, 25, 26, 27, 28, 31]

/-- The row reported for a register file when `nonce` is loaded next. -/
def reportRow (r : Regs) (nonce : Word) : Word × Word :=
  let j := (nonce &&& 0x1f).toNat % 21
  (r (checksumRegs.getD j 0), BitVec.ofNat 32 j)

/-- `return_checksum` reports row `nonce & 0x1f` modulo 21, of a register that
    loading the nonce does not change. -/
theorem returnChecksum_eq (r : Regs) (ck : Nat → Word × Word) (nonce : Word) (k : Nat) :
    returnChecksum (applyNonce r nonce) ck (nonce &&& 0x1f).toNat (k + 2) =
      Function.update ck k (reportRow r nonce) := by
  -- rows 21 to 31 repeat rows 0 to 10
  have hrows : ∀ i < 32, returnRows[i]? =
      some (checksumRegs.getD (i % 21) 0, BitVec.ofNat 32 (i % 21)) := by decide
  have hregs : ∀ i < 21, checksumRegs.getD i 0 ≠ 7 ∧ checksumRegs.getD i 0 ≠ 8 ∧
      checksumRegs.getD i 0 ≠ 9 := by decide
  have hlt : (nonce &&& 0x1f).toNat < 32 := by
    have hm := BitMask.toNat_and_field nonce 0x1f 0 5 rfl
    omega
  obtain ⟨h7, h8, h9⟩ := hregs ((nonce &&& 0x1f).toNat % 21) (Nat.mod_lt _ (by decide))
  simp only [returnChecksum, hrows _ hlt, reportRow]
  rw [applyNonce_of_ne h7 h8 h9]
  rfl

/-! ### Attested words -/

/-- In state `s` the simulator loads the next nonce and `return_checksum`
    writes row `k`. -/
def SimState.Reports (n k : Nat) (s : SimState) : Prop :=
  s.core.pc = .checksumEnd ∧ s.core.icount = iNum ∧ s.inonce < n ∧ s.inonce = k + 1

/-- Word `i` is read while some entry `k` is processed, and row `k` is written
    later on. -/
def AttestedIn (buf : Buffer) (n : Nat) (tr : List SimState) (i : Nat) : Prop :=
  ∃ k s x, [s, x].Sublist tr ∧ s.inonce = k + 1 ∧
    i ∈ s.core.reads ChecksumSimulator.blocks buf ∧ x.Reports n k

/-- `Reports` is the step that writes row `k`, and it writes no other row. -/
theorem SimState.Reports.step {s s' : SimState} {k : Nat} (h : s.Reports n k)
    (hs : simStep cfg buf pool n s = some s') :
    s'.checksum = Function.update s.checksum k (reportRow s.core.r (pool (k + 1))) := by
  obtain ⟨hpc, hi, hlt, hk⟩ := h
  have hnext : (s.nextEntry pool).checksum =
      Function.update s.checksum k (reportRow s.core.r (pool (k + 1))) := by
    simp only [SimState.nextEntry, hk]
    exact returnChecksum_eq _ _ _ _
  simp only [simStep, hpc, Option.some.injEq] at hs
  rcases simChecksumEnd_cases cfg pool n s with
    ⟨hne, -⟩ | ⟨-, hle, -⟩ | ⟨-, -, -, he⟩ | ⟨-, -, -, he⟩
  · exact absurd hi hne
  · omega
  · rw [← hs, he]
    exact hnext
  · rw [← hs, he]
    exact hnext

/-- Two states of a trace in order, when the trace is cut in two. -/
theorem attestedIn_append {tr tr' : List SimState} {i : Nat} (h : AttestedIn buf n (tr ++ tr') i) :
    (∃ s ∈ tr, i ∈ s.core.reads ChecksumSimulator.blocks buf) ∨ AttestedIn buf n tr' i := by
  obtain ⟨k, s, x, hsub, hk, hi, hx⟩ := h
  obtain ⟨l, l', hl, hsub, hsub'⟩ := List.sublist_append_iff.mp hsub
  cases l with
  | nil =>
    rw [List.nil_append] at hl
    exact .inr ⟨k, s, x, hl ▸ hsub', hk, hi, hx⟩
  | cons y l =>
    obtain rfl : s = y := by simpa using congrArg List.head? hl
    exact .inl ⟨s, hsub.subset (List.mem_cons_self ..), hi⟩

theorem AttestedIn.append_left {tr' : List SimState} {i : Nat} (h : AttestedIn buf n tr' i)
    (tr : List SimState) : AttestedIn buf n (tr ++ tr') i := by
  obtain ⟨k, s, x, hsub, hrest⟩ := h
  exact ⟨k, s, x, hsub.trans (List.sublist_append_right tr tr'), hrest⟩

theorem not_attestedIn {tr : List SimState} (h : ∀ k, ∀ x ∈ tr, ¬ x.Reports n k) (i : Nat) :
    ¬ AttestedIn buf n tr i := by
  rintro ⟨k, s, x, hsub, -, -, hx⟩
  exact h k x (hsub.subset (by simp)) hx

/-! ## Section 2: Runs of the simulator on a chain -/

/-- A run of the simulator from `s` to its return, in which every entry that
    is started completes, with the snapshots `qs`.  `ms` are the marks at the
    entries that are reported. -/
structure SimRun (cfg : Config) (buf : Buffer) (pool : Nat → Word) (n : Nat) (s : SimState)
    (qs : List Snapshot) (ms : List Buffer) (tr : List SimState) (t : SimState) : Prop where
  steps     : Steps (simStep cfg buf pool n) s tr t
  done      : t.core.pc = .done
  completed : completions tr = qs
  icounts   : ∀ x ∈ tr, x.core.pc = .checksumEnd → x.core.icount = iNum
  attested  : ∀ i < fwWords, (s.core.marks.get i = 1 ∨ AttestedIn buf n tr i) ↔
                (ms.getLastD s.core.marks).get i = 1

theorem simRun_ret {s : SimState} (hpc : s.core.pc = .ret) :
    SimRun cfg buf pool n s [] [] [s]
      { s with core := { s.core with marks := Buffer.zero, pc := .done } } where
  steps := .single (by simp [simStep, hpc])
  done := rfl
  completed := completions_nil_of_blocks (by simp [hpc])
  icounts := by simp [hpc]
  attested := by
    intro i _
    have hno : ¬ AttestedIn buf n [s] i := not_attestedIn (by simp [SimState.Reports, hpc]) i
    simp [hno]

/-- The words an entry reads are attested once its row is written: they move
    from the trace into the marks. -/
theorem attested_of_reported {s : SimState} {ctr : List Core} (tr : List SimState)
    (hsteps : Steps (coreStep ChecksumSimulator.blocks buf) s.core ctr (s.ended buf).core)
    (hpos : 1 ≤ s.inonce) (hrep : (s.ended buf).Reports n (s.inonce - 1)) {i : Nat}
    (hi : i < fwWords) :
    (s.core.marks.get i = 1 ∨ AttestedIn buf n (s.entryTrace buf ctr ++ tr) i) ↔
      ((s.ended buf).core.marks.get i = 1 ∨ AttestedIn buf n tr i) := by
  rw [marks_of_steps hsteps hi]
  constructor
  · rintro (hs | hatt)
    · exact .inl (.inl hs)
    rcases attestedIn_append hatt with ⟨x, hx, hread⟩ | hatt
    · rcases mem_entryTrace.mp hx with ⟨c, hc, rfl⟩ | rfl
      · exact .inl (.inr ⟨c, hc, hread⟩)
      · -- at `__checksum_end` no word is read
        simp [Core.reads, hrep.1] at hread
    · exact .inr hatt
  · rintro ((hs | ⟨c, hc, hread⟩) | hatt)
    · exact .inl hs
    · have hfirst : [({ s with core := c } : SimState)].Sublist
          (ctr.map fun c => { s with core := c }) :=
        List.singleton_sublist.mpr (List.mem_map_of_mem hc)
      have hsub : [{ s with core := c }, s.ended buf].Sublist (s.entryTrace buf ctr ++ tr) :=
        (hfirst.append (List.Sublist.refl [s.ended buf])).trans (List.sublist_append_left _ _)
      exact .inr ⟨s.inonce - 1, _, _, hsub, (Nat.sub_add_cancel hpos).symm, hread, hrep⟩
    · exact .inr (hatt.append_left _)

/-- The last entry of the pool reports nothing. -/
theorem not_reports_entryTrace {s : SimState} {ctr : List Core} (hle : n ≤ s.inonce) (k : Nat)
    {x : SimState} (hx : x ∈ s.entryTrace buf ctr) : ¬ x.Reports n k := by
  rintro ⟨-, -, hlt, -⟩
  rcases mem_entryTrace.mp hx with ⟨c, -, rfl⟩ | rfl
  · exact Nat.not_lt.mpr hle hlt
  · exact Nat.not_lt.mpr hle hlt

/-- A completed entry in front of a run.  Its reads are attested when another
    entry is loaded after it, and nothing is attested otherwise. -/
theorem SimRun.entry {s : SimState} {qs : List Snapshot} {ms : List Buffer}
    {tr : List SimState} {t : SimState} (hcore : CoreInv s.core) (hpos : 1 ≤ s.inonce)
    (hi : (s.ended buf).core.icount = iNum)
    (h : SimRun cfg buf pool n (simChecksumEnd cfg pool n (s.ended buf)) qs ms tr t)
    (hlast : n ≤ s.inonce → ms = [] ∧ ∀ k, ∀ x ∈ tr, ¬ x.Reports n k) :
    ∃ tr', SimRun cfg buf pool n s ((s.ended buf).core.snapshot :: qs)
        (if s.inonce < n then (s.ended buf).core.marks :: ms else ms) tr' t ∧
      tr'.length ≤ 2 * iNum + 1 + tr.length := by
  obtain ⟨ctr, hcsteps, hsteps, hlen, hblocks, hpc⟩ :=
    sim_attempt cfg buf pool n hcore
  have hmap : ∀ x ∈ ctr.map fun c => ({ s with core := c } : SimState),
      x.core.pc ≠ .checksumEnd := by
    intro x hx
    obtain ⟨c, hc, rfl⟩ := List.mem_map.mp hx
    exact hblocks c hc
  refine ⟨s.entryTrace buf ctr ++ tr, ⟨hsteps.append h.steps, h.done, ?_, ?_, ?_⟩, ?_⟩
  · rw [completions_append, h.completed, SimState.entryTrace, completions_append,
      completions_nil_of_blocks hmap]
    simp [completions, hpc, hi]
  · intro x hx hx'
    rcases List.mem_append.mp hx with hx | hx
    · rcases mem_entryTrace.mp hx with ⟨c, hc, rfl⟩ | rfl
      · exact absurd hx' (hblocks c hc)
      · exact hi
    · exact h.icounts x hx hx'
  · intro i hb
    have hnext := h.attested i hb
    rw [simChecksumEnd_marks] at hnext
    by_cases hlt : s.inonce < n
    · have hrep : (s.ended buf).Reports n (s.inonce - 1) :=
        ⟨hpc, hi, hlt, (Nat.sub_add_cancel hpos).symm⟩
      rw [if_pos hlt, List.getLastD_cons, ← hnext, attested_of_reported tr hcsteps hpos hrep hb]
    · have hle : n ≤ s.inonce := Nat.le_of_not_lt hlt
      obtain ⟨hms, hno⟩ := hlast hle
      have hnone : ∀ k, ∀ x ∈ s.entryTrace buf ctr ++ tr, ¬ x.Reports n k := by
        intro k x hx
        rcases List.mem_append.mp hx with hx | hx
        · exact not_reports_entryTrace hle k hx
        · exact hno k x hx
      rw [if_neg hlt, hms, or_iff_left (not_attestedIn hnone i)]
      rfl
  · simp only [SimState.entryTrace, List.length_append, List.length_map, List.length_singleton]
    omega

/-- A completed entry after which the simulator returns. -/
theorem sim_return (cfg : Config) (pool : Nat → Word) (n : Nat) {s : SimState}
    (hcore : CoreInv s.core) (hpos : 1 ≤ s.inonce)
    (hi : (s.ended buf).core.icount = iNum)
    (hret : (simChecksumEnd cfg pool n (s.ended buf)).core.pc = .ret) :
    ∃ tr t, SimRun cfg buf pool n s [(s.ended buf).core.snapshot]
        (if s.inonce < n then [(s.ended buf).core.marks] else []) tr t ∧
      tr.length ≤ 2 * iNum + 2 ∧
      t.checksum = (simChecksumEnd cfg pool n (s.ended buf)).checksum := by
  obtain ⟨tr, hrun, hlen⟩ := SimRun.entry hcore hpos hi (simRun_ret hret)
    (fun _ => ⟨rfl, by simp [SimState.Reports, hret]⟩)
  exact ⟨tr, _, hrun, hlen, rfl⟩

/-- The simulator at the start of entry `e`, with the registers of `p` after
    loading `nonce`, up to `r5` and `r6`. -/
structure AtEntry (p : Snapshot) (nonce : Word) (e : Nat) (s : SimState) : Prop where
  pc     : s.core.pc = .jumpTable
  icount : s.core.icount = 0
  marks  : s.core.marks = p.marks
  regs   : ∀ x, x ≠ 5 → x ≠ 6 → s.core.r x = applyNonce p.regs nonce x
  saved  : AddrInv p.regs
  loaded : s.inonce = e + 1

theorem AtEntry.addr {p : Snapshot} {nonce : Word} {e : Nat} {s : SimState}
    (h : AtEntry p nonce e s) : AddrInv s.core.r := by
  have ha := h.saved.applyNonce nonce
  refine ⟨?_, ?_, ?_, ?_⟩
  · rw [h.regs 7 (by decide) (by decide)]; exact ha.r7
  · rw [h.regs 8 (by decide) (by decide)]; exact ha.r8
  · rw [h.regs 9 (by decide) (by decide)]; exact ha.r9
  · rw [h.regs 10 (by decide) (by decide)]; exact ha.r10

theorem AtEntry.coreInv {p : Snapshot} {nonce : Word} {e : Nat} {s : SimState}
    (h : AtEntry p nonce e s) : CoreInv s.core :=
  coreInv_jump h.addr (h.icount ▸ iNum_pos) h.pc

theorem AtEntry.ended_core {p : Snapshot} {nonce : Word} {e : Nat} {s : SimState}
    (h : AtEntry p nonce e s) (buf : Buffer) : (s.ended buf).core = playEntry buf p nonce :=
  attempt_congr h.pc rfl h.marks h.icount h.regs h.addr.r9

/-- Loading the next nonce starts the next entry and reports the current one. -/
theorem AtEntry.next {p : Snapshot} {nonce : Word} {e : Nat} {s : SimState}
    (h : AtEntry p nonce e s) (buf : Buffer) (pool : Nat → Word) :
    AtEntry (playEntry buf p nonce).snapshot (pool (e + 1)) (e + 1)
      ((s.ended buf).nextEntry pool) ∧
    ((s.ended buf).nextEntry pool).checksum =
      Function.update s.checksum e (reportRow (playEntry buf p nonce).r (pool (e + 1))) := by
  have hcore := h.ended_core buf
  have hin : (s.ended buf).inonce = e + 1 := h.loaded
  refine ⟨⟨rfl, rfl, ?_, ?_, addrInv_playEntry h.saved nonce, ?_⟩, ?_⟩
  · simp only [SimState.nextEntry, hcore, Core.snapshot]
  · intro x _ _
    simp only [SimState.nextEntry, hcore, hin, Core.snapshot]
  · simp only [SimState.nextEntry, hin]
  · simp only [SimState.nextEntry, hcore, hin]
    exact returnChecksum_eq _ _ _ _

/-! ### Entry after entry -/

/-- Rows `e`, `e + 1` and so on of `ck` report the snapshots `qs`, each with the
    nonce loaded after it. -/
def RowsFrom (ck : Nat → Word × Word) (e : Nat) (ns : List Word) (qs : List Snapshot) : Prop :=
  ∀ (i : Nat) q ν, qs[i]? = some q → ns[i]? = some ν → ck (e + i) = reportRow q.regs ν

theorem RowsFrom.cons {ck : Nat → Word × Word} {e : Nat} {ns : List Word} {qs : List Snapshot}
    {ν : Word} {q : Snapshot} (hrow : ck e = reportRow q.regs ν) (h : RowsFrom ck (e + 1) ns qs) :
    RowsFrom ck e (ν :: ns) (q :: qs) := by
  intro i q' μ hq hμ
  cases i with
  | zero =>
    simp only [List.getElem?_cons_zero, Option.some.injEq] at hq hμ
    rw [← hq, ← hμ]
    exact hrow
  | succ i =>
    have := h i q' μ (by simpa using hq) (by simpa using hμ)
    rwa [show e + (i + 1) = e + 1 + i by omega]

/-- A run from the start of entry `e`, when the nonces `ns` follow it in the
    pool and `qs` are the snapshots of the entries.  Every entry completes, up
    to the exit at `NONCE_NUM`; row `k` is reported when entry `k + 1` is
    loaded, and no other row is written. -/
structure ReplaysFrom (cfg : Config) (buf : Buffer) (pool : Nat → Word) (n e : Nat) (s : SimState)
    (ns : List Word) (qs : List Snapshot) (tr : List SimState) (t : SimState) : Prop where
  run    : SimRun cfg buf pool n s (qs.take (max 1 (cfg.nonceNum - 1 - e)))
             ((qs.take ns.length).map Snapshot.marks) tr t
  length : tr.length ≤ (2 * iNum + 1) * (ns.length + 1) + 1
  rows   : RowsFrom t.checksum e ns qs
  others : ∀ k, k < e ∨ e + ns.length ≤ k → t.checksum k = s.checksum k

section entry

variable {p : Snapshot} {nonce ν : Word} {ns : List Word} {qs : List Snapshot} {e : Nat}
  {s : SimState}

theorem AtEntry.ended_icount (hs : AtEntry p nonce e s)
    (hi : (playEntry buf p nonce).icount = iNum) : (s.ended buf).core.icount = iNum := by
  rw [hs.ended_core buf]
  exact hi

theorem AtEntry.inonce_pos (hs : AtEntry p nonce e s) : 1 ≤ s.inonce := by
  rw [hs.loaded]
  exact Nat.succ_pos e

/-- The last entry: nothing is loaded after it, and its row stays unwritten. -/
theorem AtEntry.replays_last (cfg : Config) (pool : Nat → Word) (hs : AtEntry p nonce e s)
    (hi : (playEntry buf p nonce).icount = iNum) (hn : n ≤ e + 1) :
    ∃ tr t, ReplaysFrom cfg buf pool n e s [] [(playEntry buf p nonce).snapshot] tr t := by
  have hcore := hs.ended_core buf
  have hi' := hs.ended_icount hi
  have hle : n ≤ s.inonce := hs.loaded ▸ hn
  have hend := simChecksumEnd_last cfg pool hi' hle
  obtain ⟨tr, t, hrun, hlen, hck⟩ :=
    sim_return cfg pool n hs.coreInv hs.inonce_pos hi' (by rw [hend])
  refine ⟨tr, t, ?_, by simpa using hlen, by simp [RowsFrom], ?_⟩
  · rw [if_neg (Nat.not_lt.mpr hle)] at hrun
    rw [List.take_of_length_le (by simp), ← hcore]
    exact hrun
  · intro k _
    rw [hck, hend]
    rfl

/-- The exit at the pool limit: entry `e + 1` is loaded, which reports entry
    `e`, and the simulator returns before it runs. -/
theorem AtEntry.replays_exit (hs : AtEntry p nonce e s)
    (hi : (playEntry buf p nonce).icount = iNum) (hν : pool (e + 1) = ν) (hlt : e + 1 < n)
    (hN : cfg.nonceNum ≤ e + 2) (qs : List Snapshot) :
    ∃ tr t, ReplaysFrom cfg buf pool n e s [ν] ((playEntry buf p nonce).snapshot :: qs) tr t := by
  have hcore := hs.ended_core buf
  have hi' := hs.ended_icount hi
  have hlt' : s.inonce < n := hs.loaded ▸ hlt
  have hN' : cfg.nonceNum ≤ s.inonce + 1 := hs.loaded ▸ hN
  have hend := simChecksumEnd_exit pool hi' hlt' hN'
  obtain ⟨tr, t, hrun, hlen, hck⟩ :=
    sim_return cfg pool n hs.coreInv hs.inonce_pos hi' (by rw [hend])
  have hrow : t.checksum =
      Function.update s.checksum e (reportRow (playEntry buf p nonce).r ν) := by
    rw [hck, hend, ← hν]
    exact (hs.next buf pool).2
  refine ⟨tr, t, ?_, ?_, .cons ?_ (by simp [RowsFrom]), ?_⟩
  · have hmax : max 1 (cfg.nonceNum - 1 - e) = 1 := by omega
    rw [if_pos hlt'] at hrun
    rw [hmax, List.take_succ_cons, List.take_zero, ← hcore]
    exact hrun
  · rw [List.length_singleton]
    omega
  · rw [hrow, Function.update_self]
    rfl
  · intro k hk
    rw [List.length_singleton] at hk
    rw [hrow, Function.update_of_ne (by omega)]

/-- A completed entry in front of a replay of the entries after it. -/
theorem AtEntry.replays_cons (hs : AtEntry p nonce e s)
    (hi : (playEntry buf p nonce).icount = iNum) (hν : pool (e + 1) = ν) (hlt : e + 1 < n)
    (hN : e + 2 < cfg.nonceNum) {tr : List SimState} {t : SimState}
    (h : ReplaysFrom cfg buf pool n (e + 1) ((s.ended buf).nextEntry pool) ns qs tr t) :
    ∃ tr', ReplaysFrom cfg buf pool n e s (ν :: ns) ((playEntry buf p nonce).snapshot :: qs)
      tr' t := by
  have hcore := hs.ended_core buf
  have hi' := hs.ended_icount hi
  have hlt' : s.inonce < n := hs.loaded ▸ hlt
  have hN' : s.inonce + 1 < cfg.nonceNum := hs.loaded ▸ hN
  have hend := simChecksumEnd_next pool hi' hlt' hN'
  have hrow := (hs.next buf pool).2
  rw [hν] at hrow
  obtain ⟨tr', hrun, hlen⟩ := SimRun.entry hs.coreInv hs.inonce_pos hi' (hend ▸ h.run)
    (fun hge => absurd hlt' (Nat.not_lt.mpr hge))
  rw [if_pos hlt'] at hrun
  refine ⟨tr', ?_, ?_, h.rows.cons ?_, ?_⟩
  · have hmax : max 1 (cfg.nonceNum - 1 - e) = max 1 (cfg.nonceNum - 1 - (e + 1)) + 1 := by omega
    rw [hmax, List.take_succ_cons, ← hcore]
    exact hrun
  · have hmul : (2 * iNum + 1) * ((ν :: ns).length + 1) =
        (2 * iNum + 1) * (ns.length + 1) + (2 * iNum + 1) := Nat.mul_succ _ _
    have := h.length
    omega
  · rw [h.others e (.inl (by omega)), hrow, Function.update_self]
    rfl
  · intro k hk
    rw [List.length_cons] at hk
    rw [h.others k (by omega), hrow, Function.update_of_ne (by omega)]

end entry

/-- **Runs of the simulator on a chain.**  The induction is on the entries
    after the current one. -/
theorem sim_chain (ns : List Word) : ∀ (p : Snapshot) (nonce : Word) (qs : List Snapshot)
    (e : Nat) (s : SimState), Chain buf p (nonce :: ns) qs → AtEntry p nonce e s →
    n = e + 1 + ns.length → n ≤ cfg.nonceNum →
    (∀ i ν, ns[i]? = some ν → pool (e + 1 + i) = ν) →
    ∃ tr t, ReplaysFrom cfg buf pool n e s ns qs tr t := by
  induction ns with
  | nil =>
    intro p nonce qs e s hchain hs hn _ _
    cases hchain with
    | cons hi _ hrest =>
      cases hrest
      exact hs.replays_last cfg pool hi (by simp at hn; omega)
  | cons ν ns ih =>
    intro p nonce qs e s hchain hs hn hN hpool
    cases hchain with
    | @cons _ _ _ qs hi _ hrest =>
      have hν : pool (e + 1) = ν := hpool 0 ν rfl
      rw [List.length_cons] at hn
      by_cases hexit : cfg.nonceNum ≤ e + 2
      · -- the pool is full, and `ν` is its last entry
        obtain rfl : ns = [] := List.eq_nil_of_length_eq_zero (by omega)
        exact hs.replays_exit hi hν (by omega) hexit qs
      · have hnext := (hs.next buf pool).1
        rw [hν] at hnext
        obtain ⟨tr, t, hrest⟩ := ih _ ν qs (e + 1) _ hrest hnext (by omega) hN
          (fun i μ hi => by
            have := hpool (i + 1) μ (by simpa using hi)
            rwa [show e + 1 + (i + 1) = e + 1 + 1 + i by omega] at this)
        obtain ⟨tr', h⟩ := hs.replays_cons hi hν (by omega) (by omega) hrest
        exact ⟨tr', t, h⟩

end simulator

end Viper
