import VetGumstix.Viper.Replay

/-! # The Simulator Replays the Generator

    `main` runs `generate_nonce` and then `checksum_simulator` on the pool it
    filled.  This module compares the two runs, for every image and every
    sequence of random bytes:

    * when the hard-coded first attempt is rejected, the simulator completes
      the pool with the registers and marks the generator saved;
    * when it is accepted, the simulator stops at entry 0;
    * the words a reported checksum depends on are those marked before the
      last entry was accepted.
-/

namespace Viper

open Machine

/-! ## Section 1: A pool behind a rejected first attempt -/

section agreement

variable {cfg : Config} {buf : Buffer} {rnd : Nat → BitVec 8} {g : Regs}

/-- The simulator starts entry 0 from the snapshot the generator started from. -/
theorem atEntry_generated (pool : Nat → Word) (ck : Nat → Word × Word) :
    AtEntry ⟨initRegs g, Buffer.zero⟩ (pool 0) 0
      (simInit pool (generateNonce cfg buf rnd g).core.r ck) where
  pc := rfl
  icount := rfl
  marks := rfl
  regs := applyNonce_congr (initRegs_generated cfg buf rnd g) (pool 0)
  saved := addrInv_initRegs g
  loaded := rfl

/-- The two runs side by side: one chain of nonces and snapshots describes
    both. -/
theorem replay_of_rejected {G : GenState} (hG : generateNonce cfg buf rnd g = G)
    (ck : Nat → Word × Word) (hrej : FirstRejected buf g) (hn : 1 ≤ G.nonceCount) :
    ∃ ν ns qs,
      GenRun cfg buf rnd (genInit g) (ν :: ns) qs (genTrace cfg buf rnd g) G ∧
      ReplaysFrom cfg buf G.pool G.nonceCount 0 (simInit G.pool G.core.r ck) ns qs
        (simTrace cfg buf G.pool G.nonceCount G.core.r ck)
        (checksumSimulator cfg buf G.pool G.nonceCount G.core.r ck) := by
  obtain ⟨ns, qs, hgen⟩ := generateNonce_of_rejected cfg rnd hrej
  rw [hG] at hgen
  have hcount : G.nonceCount = ns.length := hgen.count.trans (Nat.zero_add _)
  cases ns with
  | nil => simp [hcount] at hn
  | cons ν ns =>
    have hnew : ∀ i μ, (ν :: ns)[i]? = some μ → G.pool i = μ := by
      intro i μ hi
      have h := hgen.pool_new i μ hi
      rwa [show (genInit g).inonce + i = i from Nat.zero_add i] at h
    have hstart : AtEntry ⟨initRegs g, Buffer.zero⟩ ν 0 (simInit G.pool G.core.r ck) := by
      rw [← hnew 0 ν rfl, ← hG]
      exact atEntry_generated _ ck
    rw [List.length_cons] at hcount
    have hbound := hgen.bound
    obtain ⟨tr, t, hsim⟩ := sim_chain ns _ ν qs 0 _ hgen.chain hstart
      (by omega) hbound
      (fun i μ hi => by
        rw [show 0 + 1 + i = i + 1 by omega]
        exact hnew (i + 1) μ (by simpa using hi))
    -- the fuel of `checksumSimulator` covers the run
    have hhalt : simStep cfg buf G.pool G.nonceCount t = none := by simp [simStep, hsim.run.done]
    have hfuel : tr.length ≤ simFuel cfg := by
      have hlen := hsim.length
      have hmul := Nat.mul_le_mul_left (2 * iNum + 1) (show ns.length + 1 ≤ cfg.nonceNum by omega)
      unfold simFuel
      omega
    refine ⟨ν, ns, qs, hgen, ?_⟩
    unfold checksumSimulator simTrace
    rw [hsim.run.steps.run_eq hhalt hfuel, hsim.run.steps.visits_eq hhalt hfuel]
    exact hsim

/-- **Replay simulates generation.**  When the hard-coded first attempt is
    rejected and the pool is not empty, the simulator completes every entry
    but, on a full pool, the last; it passes through the registers and marks
    the generator saved, and reports entry `k` in row `k` for every entry but
    the last. -/
theorem replay_simulates_generation (cfg : Config) (hN : 2 ≤ cfg.nonceNum) (buf : Buffer)
    (rnd : Nat → BitVec 8) (g : Regs) (ck : Nat → Word × Word) (hrej : FirstRejected buf g)
    (hn : 1 ≤ (generateNonce cfg buf rnd g).nonceCount) :
    let G := generateNonce cfg buf rnd g
    let saved := acceptances cfg rnd (genTrace cfg buf rnd g)
    let S := checksumSimulator cfg buf G.pool G.nonceCount G.core.r ck
    let tr := simTrace cfg buf G.pool G.nonceCount G.core.r ck
    G.core.pc = .done ∧ S.core.pc = .done ∧ saved.length = G.nonceCount ∧
    (∀ s ∈ tr, s.core.pc = .checksumEnd → s.core.icount = iNum) ∧
    (completions tr).length = min G.nonceCount (cfg.nonceNum - 1) ∧
    (∀ (k : Nat) q, (completions tr)[k]? = some q → saved[k]? = some q) ∧
    (∀ k, k + 1 < G.nonceCount →
      ∃ q, saved[k]? = some q ∧ S.checksum k = reportRow q.regs (G.pool (k + 1))) ∧
    (∀ k, G.nonceCount ≤ k + 1 → S.checksum k = ck k) := by
  intro G saved S tr
  obtain ⟨ν, ns, qs, hgen, hsim⟩ := replay_of_rejected rfl ck hrej hn
  have hsaved : saved = qs := hgen.accepted
  have hcount : G.nonceCount = ns.length + 1 :=
    hgen.count.trans ((Nat.zero_add _).trans List.length_cons)
  have hlen : qs.length = G.nonceCount := by
    rw [hgen.chain.length_eq, hcount, List.length_cons]
  have hcompl : completions tr = qs.take (cfg.nonceNum - 1) := by
    rw [show cfg.nonceNum - 1 = max 1 (cfg.nonceNum - 1) by omega]
    exact hsim.run.completed
  refine ⟨hgen.done, hsim.run.done, hsaved ▸ hlen, hsim.run.icounts, ?_, ?_, ?_, ?_⟩
  · rw [hcompl, List.length_take, hlen, Nat.min_comm]
  · intro k q hq
    rw [hcompl, List.getElem?_take] at hq
    rw [hsaved]
    split at hq
    · exact hq
    · exact absurd hq (by simp)
  · intro k hk
    have hkq : k < qs.length := by omega
    have hkn : k < ns.length := by omega
    have hpool : G.pool (k + 1) = ns[k] := by
      have h := hgen.pool_new (k + 1) ns[k] (by simp [hkn])
      rwa [show (genInit g).inonce + (k + 1) = k + 1 from Nat.zero_add _] at h
    refine ⟨qs[k], by rw [hsaved]; exact List.getElem?_eq_getElem hkq, ?_⟩
    rw [hpool, ← hsim.rows k _ _ (List.getElem?_eq_getElem hkq) (List.getElem?_eq_getElem hkn),
      Nat.zero_add]
  · intro k hk
    exact hsim.others k (.inr (by omega))

def threeAttempts : Config := { viperConfig with loopCount := 3 }

def sampleBytes : Nat → BitVec 8 := fun i => if i = 0 then 0xa0 else 0

/-- Three attempts on the zero image: the first is rejected, and the two with
    random nonces are accepted. -/
def sampleRun : GenState := generateNonce threeAttempts Buffer.zero sampleBytes fun _ => 0

theorem zero_image_rejected : FirstRejected Buffer.zero fun _ => 0 := by decide +kernel

theorem sampleRun_nonceCount :
    (generateNonce threeAttempts Buffer.zero sampleBytes fun _ => 0).nonceCount = 2 := by
  decide +kernel

theorem zero_image_replayed :
    sampleRun.nonceCount = 2 ∧
    (checksumSimulator threeAttempts Buffer.zero sampleRun.pool sampleRun.nonceCount
      sampleRun.core.r fun _ => (0, 0)).core.pc = .done := by
  unfold sampleRun
  have hn := sampleRun_nonceCount
  exact ⟨hn,
    (replay_simulates_generation threeAttempts (by decide) Buffer.zero sampleBytes (fun _ => 0)
      (fun _ => (0, 0)) zero_image_rejected (by omega)).2.1⟩

/-! ## Section 2: The hard-coded first attempt -/

/-- The walk of the hard-coded attempt, from block 0 through the jump table,
    takes `I_NUM` blocks and ends in block 7. -/
def CompletesFromBlock0 (buf : Buffer) (g : Regs) : Prop :=
  (attemptBlocks GenerateNonce.blocks buf (genInit g).core).length = iNum ∧
  (attemptBlocks GenerateNonce.blocks buf (genInit g).core).getLast? = some 7

instance (buf : Buffer) (g : Regs) : Decidable (CompletesFromBlock0 buf g) :=
  inferInstanceAs (Decidable (_ ∧ _))

theorem lt_fwWords_of_coverage {i : Nat} (hi : i ∈ coverage) : i < fwWords := by
  have h1 : istart = 64 := rfl
  have h2 : iend = 706 := rfl
  have hw : fwWords = 768 := rfl
  rw [coverage, List.mem_range'_1] at hi
  omega

/-- The first attempt reads a word of the coverage range, whatever the image. -/
theorem mmsUpdated_first (buf : Buffer) (g : Regs) :
    1 ≤ mmsUpdated Buffer.zero ((genInit g).ended buf).core.marks := by
  obtain ⟨tr, hsteps, -, hend, -⟩ :=
    attempt_steps GenerateNonce.blocks buf (coreInv_first g)
  -- block 0 comes first, and its first load is word `i`
  have hrange := (addrInv_initRegs g).reads_range (GenerateNonce.blocks.block 0) buf
  generalize hi : ((GenerateNonce.blocks.block 0).exec buf (initRegs g)).i1 = i at hrange
  have hcov : i ∈ coverage := by
    have h1 : istart = 64 := rfl
    have h2 : iend = 706 := rfl
    rw [coverage, List.mem_range'_1]
    omega
  have hlt := lt_fwWords_of_coverage hcov
  have hread : i ∈ (genInit g).core.reads GenerateNonce.blocks buf := by
    rw [← hi]
    exact List.mem_cons_self ..
  have hmark : (attempt GenerateNonce.blocks buf (genInit g).core).marks.get i = 1 := by
    refine (marks_of_steps hsteps hlt).mpr (.inr ⟨(genInit g).core, ?_, hread⟩)
    refine hsteps.first_mem fun heq => ?_
    rw [← heq] at hend
    exact absurd hend (by simp [genInit])
  have hzero : Buffer.zero.get i = 0 := Buffer.get_of_lt _ hlt
  exact mmsUpdated_pos.mpr ⟨i, hcov, hzero, hmark⟩

/-- Whether the first attempt is kept is decided by its walk alone. -/
theorem firstRejected_iff (buf : Buffer) (g : Regs) :
    FirstRejected buf g ↔ ¬ CompletesFromBlock0 buf g := by
  have hi := attempt_icount_iff GenerateNonce.blocks buf (coreInv_first g)
    (by simp [genInit])
  have hcount : (genInit g).core.icount = 0 := rfl
  rw [hcount, Nat.zero_add] at hi
  unfold FirstRejected CompletesFromBlock0
  rw [not_iff_not, ← hi]
  exact ⟨fun h => h.1, fun h => ⟨h, mmsUpdated_first buf g⟩⟩

/-- Applied to the initial `r9`, the hard-coded nonce leads to block 7, which
    ends the entry after one block. -/
theorem hardcoded_entry_ends (buf : Buffer) {pool : Nat → Word} (hpool : pool 0 = 0x33f233f3)
    (g : Regs) (ck : Nat → Word × Word) : ((simInit pool g ck).ended buf).core.icount = 1 := by
  have h9 : (simInit pool g ck).core.r 9 = 0x8c00 ^^^ (pool 0 &&& jumpMask) := rfl
  have hl : jumpLabel ((simInit pool g ck).core.r 9) = .block 7 := by
    rw [h9, hpool]
    decide
  exact attempt_jump_seven rfl hl

/-- A pool that starts with the hard-coded nonce is given up at entry 0. -/
theorem hardcoded_entry_wrong (cfg : Config) (buf : Buffer) (n : Nat) {pool : Nat → Word}
    (hpool : pool 0 = 0x33f233f3) (g : Regs) (ck : Nat → Word × Word) :
    ∃ s ∈ simTrace cfg buf pool n g ck, s.core.pc = .checksumEnd ∧ s.core.icount ≠ iNum := by
  have hi := hardcoded_entry_ends buf hpool g ck
  have hne : ((simInit pool g ck).ended buf).core.icount ≠ iNum := by rw [hi]; decide
  have hinv := (simInv_init pool g ck).core (by simp [simInit]) (by simp [simInit])
  obtain ⟨ctr, -, hsteps, hlen, -, hpc⟩ :=
    sim_attempt cfg buf pool n hinv
  have hret : (simChecksumEnd cfg pool n ((simInit pool g ck).ended buf)).core.pc = .ret := by
    simp [simChecksumEnd, hne]
  have hrun := hsteps.append (simRun_ret hret).steps
  have htr := hrun.visits_eq (n := simFuel cfg) rfl (by
    have hpos := Nat.mul_le_mul_left (2 * iNum + 1) cfg.nonceNum_pos
    simp only [SimState.entryTrace, List.length_append, List.length_map, List.length_singleton,
      simFuel]
    omega)
  refine ⟨(simInit pool g ck).ended buf, ?_, hpc, hne⟩
  unfold simTrace
  rw [htr]
  exact List.mem_append_left _ (mem_entryTrace.mpr (.inr rfl))

/-- **When every generated nonce replays.**  The simulator takes its exit
    "icounter is wrong" exactly when the image leads the hard-coded attempt,
    which the generator enters at block 0, through `I_NUM` blocks to block 7:
    then the nonce is kept, and the simulator enters it at block 7. -/
theorem replay_never_wrong_iff (cfg : Config) (buf : Buffer) (rnd : Nat → BitVec 8) (g : Regs)
    (ck : Nat → Word × Word) (hn : 1 ≤ (generateNonce cfg buf rnd g).nonceCount) :
    let G := generateNonce cfg buf rnd g
    ((checksumSimulator cfg buf G.pool G.nonceCount G.core.r ck).core.pc = .done ∧
      ∀ s ∈ simTrace cfg buf G.pool G.nonceCount G.core.r ck,
        s.core.pc = .checksumEnd → s.core.icount = iNum) ↔
    ¬ CompletesFromBlock0 buf g := by
  intro G
  rw [← firstRejected_iff]
  constructor
  · rintro ⟨-, hall⟩
    -- an accepted first attempt puts its nonce into entry 0
    refine Decidable.byContradiction fun hacc => ?_
    have hpool := (generateNonce_of_accepted cfg rnd hacc).1
    obtain ⟨s, hs, hpc, hne⟩ := hardcoded_entry_wrong cfg buf G.nonceCount hpool
      G.core.r ck
    exact hne (hall s hs hpc)
  · intro hrej
    obtain ⟨ν, ns, qs, -, hsim⟩ := replay_of_rejected rfl ck hrej hn
    exact ⟨hsim.run.done, hsim.run.icounts⟩

theorem zero_image_never_wrong :
    sampleRun.nonceCount = 2 ∧
    ∀ s ∈ simTrace threeAttempts Buffer.zero sampleRun.pool sampleRun.nonceCount
        sampleRun.core.r fun _ => (0, 0),
      s.core.pc = .checksumEnd → s.core.icount = iNum := by
  unfold sampleRun
  have hn := sampleRun_nonceCount
  exact ⟨hn,
    ((replay_never_wrong_iff threeAttempts Buffer.zero sampleBytes (fun _ => 0) (fun _ => (0, 0))
      (by omega)).mpr ((firstRejected_iff _ _).mp zero_image_rejected)).2⟩

/-- An image that leads the hard-coded attempt through blocks 0, 6, 6, 7. -/
def steeringImage : Buffer := fun i => if i.val = 316 then 0x3c else 0

def steeringRun : GenState := generateNonce viperConfig steeringImage (fun _ => 0) fun _ => 0

/-- With the constants of the source, `steeringImage` brings an entry into the pool,
    and the simulator gives it up. -/
theorem steering_image_wrong :
    1 ≤ steeringRun.nonceCount ∧
    ∃ s ∈ simTrace viperConfig steeringImage steeringRun.pool steeringRun.nonceCount
        steeringRun.core.r fun _ => (0, 0),
      s.core.pc = .checksumEnd ∧ s.core.icount ≠ iNum := by
  have hacc : ¬ FirstRejected steeringImage fun _ => 0 := by decide +kernel
  obtain ⟨hpool, hn⟩ := generateNonce_of_accepted viperConfig (fun _ => 0) hacc
  exact ⟨hn, hardcoded_entry_wrong viperConfig steeringImage _ hpool _ _⟩

/-! ## Section 3: Attested words -/

/-- What is attested, in terms of the marks at the reported entries. -/
theorem attested_of_run {pool : Nat → Word} {n : Nat} {qs : List Snapshot} {ms : List Buffer}
    {tr : List SimState} {t : SimState} {ck : Nat → Word × Word}
    (h : SimRun cfg buf pool n (simInit pool g ck) qs ms tr t) {i : Nat} (hi : i < fwWords) :
    AttestedIn buf n tr i ↔ (ms.getLastD Buffer.zero).get i = 1 := by
  have hzero : ¬ (simInit pool g ck).core.marks.get i = 1 := by
    rw [show (simInit pool g ck).core.marks = Buffer.zero from rfl, Buffer.get_of_lt _ hi]
    simp [Buffer.zero]
  exact (or_iff_right hzero).symm.trans (h.attested i hi)

/-- The last pool entry marks a word that no reported entry reads. -/
theorem last_entry_unattested (ck : Nat → Word × Word) (hrej : FirstRejected buf g)
    (hn : 1 ≤ (generateNonce cfg buf rnd g).nonceCount) :
    let G := generateNonce cfg buf rnd g
    ∃ i < fwWords, G.mm.get i = 1 ∧
      ¬ AttestedIn buf G.nonceCount (simTrace cfg buf G.pool G.nonceCount G.core.r ck) i := by
  intro G
  obtain ⟨ν, ns, qs, hgen, hsim⟩ := replay_of_rejected rfl ck hrej hn
  obtain ⟨i, hi, hold, hnew⟩ := hgen.chain.last_new
  have hlt := lt_fwWords_of_coverage hi
  refine ⟨i, hlt, ?_, ?_⟩
  · rw [← hgen.last] at hnew
    exact hnew
  · rw [attested_of_run hsim.run hlt]
    rw [show (genInit g).mm = Buffer.zero from rfl] at hold
    rw [hold]
    decide

/-- **What the reported checksums attest.**  The words read in an entry whose
    row is written are exactly those marked when the last entry but one was
    accepted; the words only the last entry reaches, of which there is one at
    least, are attested by no row. -/
theorem attested_iff_marked_before_last (cfg : Config) (buf : Buffer) (rnd : Nat → BitVec 8)
    (g : Regs) (ck : Nat → Word × Word) (hrej : FirstRejected buf g)
    (hn : 2 ≤ (generateNonce cfg buf rnd g).nonceCount) :
    let G := generateNonce cfg buf rnd g
    let tr := simTrace cfg buf G.pool G.nonceCount G.core.r ck
    ∃ q, (acceptances cfg rnd (genTrace cfg buf rnd g))[G.nonceCount - 2]? = some q ∧
      (∀ i < fwWords, AttestedIn buf G.nonceCount tr i ↔ q.marks.get i = 1) ∧
      ∃ i < fwWords, G.mm.get i = 1 ∧ ¬ AttestedIn buf G.nonceCount tr i := by
  intro G tr
  have hn : 2 ≤ G.nonceCount := hn
  obtain ⟨ν, ns, qs, hgen, hsim⟩ := replay_of_rejected rfl ck hrej (Nat.le_of_succ_le hn)
  have hcount : G.nonceCount = ns.length + 1 :=
    hgen.count.trans ((Nat.zero_add _).trans List.length_cons)
  have hlen : qs.length = ns.length + 1 := hgen.chain.length_eq.trans List.length_cons
  have hidx : G.nonceCount - 2 = ns.length - 1 := by omega
  have hpos : ns.length ≠ 0 := by omega
  have hq : qs[ns.length - 1]? = some (qs[ns.length - 1]) :=
    List.getElem?_eq_getElem (by omega)
  have hlast : ((qs.take ns.length).map Snapshot.marks).getLastD Buffer.zero =
      (qs[ns.length - 1]).marks := by
    simp [List.getLastD_eq_getLast?, List.getLast?_take, hpos, hq]
  refine ⟨qs[ns.length - 1], ?_, ?_, last_entry_unattested ck hrej (Nat.le_of_succ_le hn)⟩
  · rw [hgen.accepted, hidx]
    exact hq
  · intro i hi
    rw [← hlast]
    exact attested_of_run hsim.run hi

theorem zero_image_attested :
    ∃ q, (acceptances threeAttempts sampleBytes
        (genTrace threeAttempts Buffer.zero sampleBytes fun _ => 0))[sampleRun.nonceCount - 2]? =
      some q := by
  unfold sampleRun
  have hn := sampleRun_nonceCount
  exact (attested_iff_marked_before_last threeAttempts Buffer.zero sampleBytes (fun _ => 0)
    (fun _ => (0, 0)) zero_image_rejected (by omega)).imp fun _ h => h.1

/-- A word of the second entry of the zero image is marked in `g_mm` and
    attested by no row. -/
theorem zero_image_unattested :
    FirstRejected Buffer.zero (fun _ => 0) ∧ sampleRun.nonceCount = 2 ∧
    ∃ i < fwWords, sampleRun.mm.get i = 1 ∧
      ¬ AttestedIn Buffer.zero sampleRun.nonceCount
        (simTrace threeAttempts Buffer.zero sampleRun.pool sampleRun.nonceCount sampleRun.core.r
          fun _ => (0, 0)) i := by
  unfold sampleRun
  have hn := sampleRun_nonceCount
  exact ⟨zero_image_rejected, hn,
    last_entry_unattested (fun _ => (0, 0)) zero_image_rejected (by omega)⟩

end agreement

end Viper
