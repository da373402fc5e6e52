import VetGumstix.Viper.Safety

/-! # Runs of the Generator

    The generator keeps a nonce when the attempt it starts, from the registers
    and marks of the last kept attempt, takes `I_NUM` blocks and reaches a new
    word.  A pool is therefore a `Chain`: each entry, applied to the snapshot
    the entry before it left, completes and leaves the next snapshot.

    `Chain` is the abstract model between the two functions.  This module
    shows that the runs of the generator build a chain, in which rejected
    attempts leave no trace.
-/

namespace Viper

open Machine

/-! ## Section 1: Chains -/

/-- What an accepted attempt leaves behind: the registers and the marks. -/
structure Snapshot where
  regs : Regs
  marks : Buffer

def Core.snapshot (c : Core) : Snapshot := ⟨c.r, c.marks⟩

/-- The block machine at the start of an entry. -/
def startEntry (p : Snapshot) (nonce : Word) : Core :=
  { r := applyNonce p.regs nonce, marks := p.marks, icount := 0, pc := .jumpTable }

/-- The block machine at the end of an entry. -/
def playEntry (buf : Buffer) (p : Snapshot) (nonce : Word) : Core :=
  attempt ChecksumSimulator.blocks buf (startEntry p nonce)

/-- The nonces `ns` complete one after the other, starting from `p`, and
    leave the snapshots `qs`; each of them marks a new word. -/
inductive Chain (buf : Buffer) : Snapshot → List Word → List Snapshot → Prop where
  | nil  : ∀ p, Chain buf p [] []
  | cons : ∀ {p : Snapshot} {nonce : Word} {ns : List Word} {qs : List Snapshot},
             (playEntry buf p nonce).icount = iNum →
             1 ≤ mmsUpdated p.marks (playEntry buf p nonce).marks →
             Chain buf (playEntry buf p nonce).snapshot ns qs →
             Chain buf p (nonce :: ns) ((playEntry buf p nonce).snapshot :: qs)

theorem Chain.length_eq {buf : Buffer} {p : Snapshot} {ns : List Word} {qs : List Snapshot}
    (h : Chain buf p ns qs) : qs.length = ns.length := by
  induction h with
  | nil p => rfl
  | cons _ _ _ ih => simp [ih]

theorem mmsUpdated_pos {mm mms : Buffer} :
    1 ≤ mmsUpdated mm mms ↔ ∃ i ∈ coverage, mm.get i = 0 ∧ mms.get i = 1 := by
  unfold mmsUpdated
  rw [Nat.succ_le_iff, List.countP_pos_iff]
  simp

/-- The last entry of a chain marks a word that no entry before it marked. -/
theorem Chain.last_new {buf : Buffer} (ns : List Word) : ∀ {p : Snapshot} {nonce : Word}
    {qs : List Snapshot}, Chain buf p (nonce :: ns) qs →
    ∃ i ∈ coverage, (((qs.take ns.length).map Snapshot.marks).getLastD p.marks).get i = 0 ∧
      (qs.getLastD p).marks.get i = 1 := by
  induction ns with
  | nil =>
    intro p nonce qs h
    cases h with
    | cons _ hnew hrest =>
      cases hrest
      exact mmsUpdated_pos.mp hnew
  | cons ν ns ih =>
    intro p nonce qs h
    cases h with
    | cons _ _ hrest =>
      rw [List.length_cons, List.take_succ_cons, List.map_cons, List.getLastD_cons,
        List.getLastD_cons]
      exact ih hrest

theorem coreInv_startEntry {p : Snapshot} (h : AddrInv p.regs) (nonce : Word) :
    CoreInv (startEntry p nonce) :=
  coreInv_jump (h.applyNonce nonce) iNum_pos rfl

theorem addrInv_playEntry {buf : Buffer} {p : Snapshot} (h : AddrInv p.regs) (nonce : Word) :
    AddrInv (playEntry buf p nonce).r := by
  obtain ⟨tr, -, -, -, haddr⟩ := attempt_steps ChecksumSimulator.blocks buf
    (coreInv_startEntry h nonce)
  exact haddr

/-! ## Section 2: One attempt of the generator -/

section generator

variable {cfg : Config} {buf : Buffer} {rnd : Nat → BitVec 8}

/-- The state in which the current attempt reaches `__checksum_end`. -/
def GenState.ended (buf : Buffer) (s : GenState) : GenState :=
  { s with core := attempt GenerateNonce.blocks buf s.core }

/-- The snapshots saved along a trace, at the attempts that are accepted. -/
def acceptances (cfg : Config) (rnd : Nat → BitVec 8) (tr : List GenState) : List Snapshot :=
  (tr.filter fun s => s.core.pc = .checksumEnd ∧ s.Accepts).map fun s =>
    ⟨(genChecksumEnd cfg rnd s).regState, (genChecksumEnd cfg rnd s).mm⟩

@[simp] theorem genChecksumEnd_regState (s : GenState) :
    (genChecksumEnd cfg rnd s).regState = s.judged.regState := by
  rcases genChecksumEnd_cases cfg rnd s with ⟨ic, ct, he⟩ | ⟨-, -, he⟩ <;>
    simp [he, GenState.nextAttempt]

@[simp] theorem genChecksumEnd_mm (s : GenState) :
    (genChecksumEnd cfg rnd s).mm = s.judged.mm := by
  rcases genChecksumEnd_cases cfg rnd s with ⟨ic, ct, he⟩ | ⟨-, -, he⟩ <;>
    simp [he, GenState.nextAttempt]

@[simp] theorem genChecksumEnd_pool (s : GenState) :
    (genChecksumEnd cfg rnd s).pool = s.judged.pool := by
  rcases genChecksumEnd_cases cfg rnd s with ⟨ic, ct, he⟩ | ⟨-, -, he⟩ <;>
    simp [he, GenState.nextAttempt]

@[simp] theorem genChecksumEnd_inonce (s : GenState) :
    (genChecksumEnd cfg rnd s).inonce = s.judged.inonce := by
  rcases genChecksumEnd_cases cfg rnd s with ⟨ic, ct, he⟩ | ⟨-, -, he⟩ <;>
    simp [he, GenState.nextAttempt]

/-- The states of the current attempt before `__checksum_end`. -/
def GenState.body (buf : Buffer) (s : GenState) : List GenState :=
  attemptBody (fun c => { s with core := c }) GenerateNonce.blocks buf s.core

/-- A round of the generator: an attempt, and what `__checksum_end` makes of
    it. -/
theorem gen_round (cfg : Config) (buf : Buffer) (rnd : Nat → BitVec 8) {s : GenState}
    (h : CoreInv s.core) :
    Steps (genStep cfg buf rnd) s (s.body buf ++ [s.ended buf])
      (genChecksumEnd cfg rnd (s.ended buf)) := by
  refine attempt_round h (fun _ _ hc => genStep_core cfg rnd s hc) ?_
  intro d hpc
  simp [genStep, hpc]

/-- An attempt of the generator: blocks and jumps, then `__checksum_end`. -/
theorem gen_attempt (cfg : Config) (buf : Buffer) (rnd : Nat → BitVec 8) {s : GenState}
    (h : CoreInv s.core) :
    ∃ tr, Steps (genStep cfg buf rnd) s (tr ++ [s.ended buf])
        (genChecksumEnd cfg rnd (s.ended buf)) ∧
      tr.length ≤ 2 * iNum ∧ (∀ x ∈ tr, x.core.pc ≠ .checksumEnd) ∧
      (s.ended buf).core.pc = .checksumEnd := by
  refine ⟨s.body buf, gen_round cfg buf rnd h, attemptBody_length .., ?_, attempt_pc _ buf h⟩
  intro x hx
  obtain ⟨d, rfl, hpc⟩ := attemptBody_pc hx
  exact hpc

theorem acceptances_append (tr tr' : List GenState) :
    acceptances cfg rnd (tr ++ tr') = acceptances cfg rnd tr ++ acceptances cfg rnd tr' := by
  simp [acceptances]

theorem acceptances_nil_of_blocks {tr : List GenState}
    (h : ∀ x ∈ tr, x.core.pc ≠ .checksumEnd) : acceptances cfg rnd tr = [] := by
  unfold acceptances
  rw [List.map_eq_nil_iff, List.filter_eq_nil_iff]
  intro x hx
  simp [h x hx]

/-! ### Runs of the generator -/

/-- A run of the generator from `s` to its return: it accepts the nonces
    `ns`, leaving the snapshots `qs`, and appends them to the pool. -/
structure GenRun (cfg : Config) (buf : Buffer) (rnd : Nat → BitVec 8) (s : GenState)
    (ns : List Word) (qs : List Snapshot) (tr : List GenState) (t : GenState) : Prop where
  steps    : Steps (genStep cfg buf rnd) s tr t
  done     : t.core.pc = .done
  chain    : Chain buf ⟨s.regState, s.mm⟩ ns qs
  accepted : acceptances cfg rnd tr = qs
  count    : t.nonceCount = s.inonce + ns.length
  bound    : t.nonceCount ≤ cfg.nonceNum
  pool_new : ∀ i ν, ns[i]? = some ν → t.pool (s.inonce + i) = ν
  pool_old : ∀ i < s.inonce, t.pool i = s.pool i
  last     : (⟨t.regState, t.mm⟩ : Snapshot) = qs.getLastD ⟨s.regState, s.mm⟩

/-- From `__return` nothing more is accepted. -/
theorem genRun_ret {s : GenState} (hpc : s.core.pc = .ret) (hn : s.inonce ≤ cfg.nonceNum) :
    GenRun cfg buf rnd s [] [] [s]
      { s with nonceCount := s.inonce, core := { s.core with pc := .done } } where
  steps := .single (by simp [genStep, hpc])
  done := rfl
  chain := .nil _
  accepted := acceptances_nil_of_blocks (by simp [hpc])
  count := rfl
  bound := hn
  pool_new := by simp
  pool_old := by simp
  last := rfl

/-- A rejected attempt adds nothing to a run. -/
theorem GenRun.reject {s : GenState} {ns : List Word} {qs : List Snapshot}
    {tr : List GenState} {t : GenState} (hcore : CoreInv s.core)
    (hrej : ¬ (s.ended buf).Accepts)
    (h : GenRun cfg buf rnd (genChecksumEnd cfg rnd (s.ended buf)) ns qs tr t) :
    ∃ tr', GenRun cfg buf rnd s ns qs tr' t ∧ tr'.length ≤ 2 * iNum + 1 + tr.length := by
  obtain ⟨tr₀, hsteps, hlen, hblocks, hpc⟩ := gen_attempt cfg buf rnd hcore
  have hj := GenState.judged_of_rejects hrej
  -- `__checksum_end` puts the saved registers and marks back, and keeps the pool
  have hreg : (genChecksumEnd cfg rnd (s.ended buf)).regState = s.regState := by
    rw [genChecksumEnd_regState, hj]; rfl
  have hmm : (genChecksumEnd cfg rnd (s.ended buf)).mm = s.mm := by
    rw [genChecksumEnd_mm, hj]; rfl
  have hpool : (genChecksumEnd cfg rnd (s.ended buf)).pool = s.pool := by
    rw [genChecksumEnd_pool, hj]; rfl
  have hinonce : (genChecksumEnd cfg rnd (s.ended buf)).inonce = s.inonce := by
    rw [genChecksumEnd_inonce, hj]; rfl
  refine ⟨tr₀ ++ [s.ended buf] ++ tr, ⟨hsteps.append h.steps, h.done, ?_, ?_, ?_, h.bound, ?_, ?_,
    ?_⟩, ?_⟩
  · rw [← hreg, ← hmm]
    exact h.chain
  · rw [acceptances_append, acceptances_append, acceptances_nil_of_blocks hblocks, h.accepted]
    simp [acceptances, hrej]
  · rw [← hinonce]
    exact h.count
  · rw [← hinonce]
    exact h.pool_new
  · rw [← hinonce, ← hpool]
    exact h.pool_old
  · rw [← hreg, ← hmm]
    exact h.last
  · simp only [List.length_append, List.length_singleton]
    omega

/-- An accepted attempt is the first entry of the chain of a run. -/
theorem GenRun.accept {s : GenState} {ns : List Word} {qs : List Snapshot}
    {tr : List GenState} {t : GenState}
    (hcore : s.core = startEntry ⟨s.regState, s.mm⟩ s.nonce) (haddr : AddrInv s.regState)
    (hacc : (s.ended buf).Accepts)
    (h : GenRun cfg buf rnd (genChecksumEnd cfg rnd (s.ended buf)) ns qs tr t) :
    ∃ tr', GenRun cfg buf rnd s (s.nonce :: ns) ((s.ended buf).core.snapshot :: qs) tr' t ∧
      tr'.length ≤ 2 * iNum + 1 + tr.length := by
  have hinv : CoreInv s.core := hcore ▸ coreInv_startEntry haddr s.nonce
  obtain ⟨tr₀, hsteps, hlen, hblocks, hpc⟩ := gen_attempt cfg buf rnd hinv
  have hj := GenState.judged_of_accepts hacc
  -- the tables of the two functions agree, so the attempt is an entry of the simulator
  have hplay : (s.ended buf).core = playEntry buf ⟨s.regState, s.mm⟩ s.nonce := by
    show attempt GenerateNonce.blocks buf s.core = _
    rw [hcore, blocks_agree]
    rfl
  have hpool : (s.ended buf).accepted.pool = Function.update s.pool s.inonce s.nonce := rfl
  have hinonce : (s.ended buf).accepted.inonce = s.inonce + 1 := rfl
  refine ⟨tr₀ ++ [s.ended buf] ++ tr, ⟨hsteps.append h.steps, h.done, ?_, ?_, ?_, h.bound, ?_, ?_,
    ?_⟩, ?_⟩
  · have hchain : Chain buf (s.ended buf).core.snapshot ns qs := by
      simpa [hj, GenState.accepted, Core.snapshot] using h.chain
    rw [hplay] at hchain ⊢
    exact .cons (hplay ▸ hacc.1) (hplay ▸ hacc.2) hchain
  · rw [acceptances_append, acceptances_append, acceptances_nil_of_blocks hblocks, h.accepted]
    simp [acceptances, hpc, hacc, hj, GenState.accepted, Core.snapshot]
  · have hcount := h.count
    rw [genChecksumEnd_inonce, hj, hinonce] at hcount
    rw [hcount, List.length_cons]
    omega
  · intro i ν hi
    cases i with
    | zero =>
      -- the rest of the run leaves the new entry alone
      have hold := h.pool_old s.inonce (by simp [hj, hinonce])
      rw [genChecksumEnd_pool, hj, hpool] at hold
      simp only [List.getElem?_cons_zero, Option.some.injEq] at hi
      simpa [hi] using hold
    | succ i =>
      have hnew := h.pool_new i ν (by simpa using hi)
      rw [genChecksumEnd_inonce, hj, hinonce] at hnew
      rw [← hnew]
      congr 1
      omega
  · intro i hi
    have hold := h.pool_old i (by rw [genChecksumEnd_inonce, hj, hinonce]; omega)
    rw [genChecksumEnd_pool, hj, hpool] at hold
    rw [hold, Function.update_of_ne (by omega)]
  · rw [h.last]
    cases qs with
    | nil => simp [hj, GenState.accepted, Core.snapshot]
    | cons q qs => simp only [List.getLastD_cons]
  · simp only [List.length_append, List.length_singleton]
    omega

/-- The generator at the start of an attempt after the first. -/
structure AtAttempt (cfg : Config) (s : GenState) : Prop where
  core  : s.core = startEntry ⟨s.regState, s.mm⟩ s.nonce
  saved : AddrInv s.regState
  room  : s.inonce < cfg.nonceNum
  limit : s.count < cfg.loopCount

/-- After `__checksum_end` the generator returns or starts an attempt. -/
theorem genChecksumEnd_next {e : GenState} (haddr : AddrInv e.core.r)
    (hsaved : AddrInv e.regState) (hroom : e.inonce < cfg.nonceNum) :
    ((genChecksumEnd cfg rnd e).core.pc = .ret ∧
      (genChecksumEnd cfg rnd e).inonce ≤ cfg.nonceNum) ∨
    (AtAttempt cfg (genChecksumEnd cfg rnd e) ∧
      (genChecksumEnd cfg rnd e).count = e.count + 1) := by
  have hle : e.judged.inonce ≤ cfg.nonceNum := by
    unfold GenState.judged
    split
    · exact hroom
    · exact Nat.le_of_lt hroom
  have hcount : e.judged.count = e.count := by
    unfold GenState.judged
    split <;> rfl
  have hreg : e.judged.core.r = e.judged.regState ∧ e.judged.core.marks = e.judged.mm ∧
      AddrInv e.judged.regState := by
    unfold GenState.judged
    split
    · exact ⟨rfl, rfl, haddr⟩
    · exact ⟨rfl, rfl, hsaved⟩
  rcases genChecksumEnd_cases cfg rnd e with ⟨ic, ct, he⟩ | ⟨hlt, hlim, he⟩
  · left
    rw [he]
    exact ⟨rfl, hle⟩
  · right
    rw [he]
    refine ⟨⟨?_, hreg.2.2, hlt, hlim⟩, ?_⟩
    · simp only [GenState.nextAttempt, startEntry, hreg.1, hreg.2.1]
    · show e.judged.count + 1 = e.count + 1
      rw [hcount]

/-- Every attempt ends in a state the generator goes on from. -/
theorem ended_next (buf : Buffer) (rnd : Nat → BitVec 8) {s : GenState} (h : CoreInv s.core)
    (hsaved : AddrInv s.regState) (hroom : s.inonce < cfg.nonceNum) :
    ((genChecksumEnd cfg rnd (s.ended buf)).core.pc = .ret ∧
      (genChecksumEnd cfg rnd (s.ended buf)).inonce ≤ cfg.nonceNum) ∨
    (AtAttempt cfg (genChecksumEnd cfg rnd (s.ended buf)) ∧
      (genChecksumEnd cfg rnd (s.ended buf)).count = s.count + 1) := by
  obtain ⟨-, -, -, -, haddr⟩ := attempt_steps GenerateNonce.blocks buf h
  exact genChecksumEnd_next (e := s.ended buf) haddr hsaved hroom

/-- **Runs of the generator.**  From the start of an attempt the generator
    returns, having appended a chain to the pool.  The induction is on the
    attempts left before `LOOP_COUNT`. -/
theorem gen_rounds (m : Nat) : ∀ s : GenState, AtAttempt cfg s → cfg.loopCount - s.count ≤ m →
    ∃ ns qs tr t, GenRun cfg buf rnd s ns qs tr t ∧ tr.length ≤ (2 * iNum + 1) * m + 1 := by
  induction m with
  | zero =>
    intro s hs hm
    have := hs.limit
    omega
  | succ m ih =>
    intro s hs hm
    have hcore : CoreInv s.core := hs.core ▸ coreInv_startEntry hs.saved s.nonce
    -- what follows this attempt is a run, which the attempt extends or not
    obtain ⟨ns, qs, tr, t, hrun, hlen⟩ : ∃ ns qs tr t,
        GenRun cfg buf rnd (genChecksumEnd cfg rnd (s.ended buf)) ns qs tr t ∧
          tr.length ≤ (2 * iNum + 1) * m + 1 := by
      rcases ended_next buf rnd hcore hs.saved hs.room with
        ⟨hret, hle⟩ | ⟨hat, hct⟩
      · exact ⟨[], [], _, _, genRun_ret hret hle, by simp⟩
      · exact ih _ hat (by omega)
    have hmul : (2 * iNum + 1) * (m + 1) = (2 * iNum + 1) * m + (2 * iNum + 1) := Nat.mul_succ _ _
    by_cases hacc : (s.ended buf).Accepts
    · obtain ⟨tr', hrun', hlen'⟩ := hrun.accept hs.core hs.saved hacc
      exact ⟨_, _, tr', t, hrun', by omega⟩
    · obtain ⟨tr', hrun', hlen'⟩ := hrun.reject hcore hacc
      exact ⟨_, _, tr', t, hrun', by omega⟩

/-- What follows the hard-coded first attempt is a run of the generator. -/
theorem gen_first (cfg : Config) (buf : Buffer) (rnd : Nat → BitVec 8) (g : Regs) :
    ∃ ns qs tr t, GenRun cfg buf rnd (genChecksumEnd cfg rnd ((genInit g).ended buf)) ns qs tr t ∧
      tr.length ≤ (2 * iNum + 1) * cfg.loopCount + 1 := by
  rcases ended_next buf rnd (coreInv_first g)
    (addrInv_initRegs g) cfg.nonceNum_pos with ⟨hret, hle⟩ | ⟨hat, hct⟩
  · exact ⟨[], [], _, _, genRun_ret hret hle, by simp⟩
  · exact gen_rounds cfg.loopCount _ hat (by omega)

/-- The first attempt, with the nonce `0x33f233f3` entered at block 0, is
    rejected. -/
def FirstRejected (buf : Buffer) (g : Regs) : Prop := ¬ ((genInit g).ended buf).Accepts

instance (buf : Buffer) (g : Regs) : Decidable (FirstRejected buf g) :=
  inferInstanceAs (Decidable (¬ _))

/-- When the first attempt is rejected, the whole run of `generate_nonce`
    builds a chain from the initial registers and empty marks. -/
theorem generateNonce_of_rejected (cfg : Config) (rnd : Nat → BitVec 8) {g : Regs}
    (hrej : FirstRejected buf g) :
    ∃ ns qs, GenRun cfg buf rnd (genInit g) ns qs (genTrace cfg buf rnd g)
      (generateNonce cfg buf rnd g) := by
  obtain ⟨ns, qs, tr, t, hrun, hlen⟩ := gen_first cfg buf rnd g
  obtain ⟨tr', hrun', hlen'⟩ := hrun.reject (coreInv_first g) hrej
  have hfuel : tr'.length ≤ genFuel cfg := by
    unfold genFuel
    rw [Nat.mul_succ]
    omega
  have hhalt : genStep cfg buf rnd t = none := by simp [genStep, hrun'.done]
  refine ⟨ns, qs, ?_⟩
  unfold generateNonce genTrace
  rw [hrun'.steps.run_eq hhalt hfuel, hrun'.steps.visits_eq hhalt hfuel]
  exact hrun'

/-- When the first attempt is accepted, it is entry 0 of the pool. -/
theorem generateNonce_of_accepted (cfg : Config) (rnd : Nat → BitVec 8) {g : Regs}
    (hacc : ¬ FirstRejected buf g) :
    (generateNonce cfg buf rnd g).pool 0 = 0x33f233f3 ∧
    1 ≤ (generateNonce cfg buf rnd g).nonceCount := by
  have hacc : ((genInit g).ended buf).Accepts := Decidable.not_not.mp hacc
  obtain ⟨ns, qs, tr, t, hrun, hlen⟩ := gen_first cfg buf rnd g
  obtain ⟨tr₀, hsteps, hlen₀, -, -⟩ := gen_attempt cfg buf rnd
    (coreInv_first g)
  have hhalt : genStep cfg buf rnd t = none := by simp [genStep, hrun.done]
  have hfuel : (tr₀ ++ [(genInit g).ended buf] ++ tr).length ≤ genFuel cfg := by
    unfold genFuel
    rw [Nat.mul_succ]
    simp only [List.length_append, List.length_singleton]
    omega
  have ht : generateNonce cfg buf rnd g = t := (hsteps.append hrun.steps).run_eq hhalt hfuel
  have hj := GenState.judged_of_accepts hacc
  have hinonce : ((genInit g).ended buf).accepted.inonce = 1 := rfl
  have hold := hrun.pool_old 0 (by rw [genChecksumEnd_inonce, hj, hinonce]; omega)
  have hcount := hrun.count
  rw [genChecksumEnd_pool, hj] at hold
  rw [genChecksumEnd_inonce, hj, hinonce] at hcount
  rw [ht, hold, hcount]
  exact ⟨rfl, Nat.le_add_right 1 _⟩

/-! ### Registers the generator never writes -/

/-- The registers that are no operand of a block and no address register. -/
def untouched : List Reg := [0, 1, 4, 29, 30]

theorem runBlock_untouched {x : Reg} (hx : x ∈ untouched) (k : Fin 8) (c : Core) :
    (runBlock GenerateNonce.blocks buf k c).r x = c.r x := by
  have hall : ∀ x ∈ untouched, (x.val < 5 ∨ 10 < x.val) ∧ ∀ k : Fin 8,
      x ≠ (GenerateNonce.blocks.block k).d1.reg ∧ x ≠ (GenerateNonce.blocks.block k).d2.reg ∧
      x ≠ (GenerateNonce.blocks.block k).d3.reg := by decide
  obtain ⟨hr, hk⟩ := hall x hx
  obtain ⟨h1, h2, h3⟩ := hk k
  have h10 : x ≠ 10 := by rintro rfl; simp at hr
  have hframe := (GenerateNonce.blocks.block k).exec_frame buf c.r h1 h2 h3 (by omega)
  rcases runBlock_cases GenerateNonce.blocks buf k c with
    ⟨-, he⟩ | ⟨-, -, he⟩ | ⟨-, -, he⟩ <;> simp [he, h10, hframe]

theorem applyNonce_untouched {x : Reg} (hx : x ∈ untouched) (r : Regs) (nonce : Word) :
    applyNonce r nonce x = r x := by
  have hall : ∀ x ∈ untouched, x ≠ 7 ∧ x ≠ 8 ∧ x ≠ 9 := by decide
  obtain ⟨h7, h8, h9⟩ := hall x hx
  exact applyNonce_of_ne h7 h8 h9 r nonce

/-- These registers still hold what `g` held, also in the saved file. -/
def KeepsUntouched (g : Regs) (s : GenState) : Prop :=
  ∀ x ∈ untouched, s.core.r x = g x ∧ s.regState x = g x

theorem KeepsUntouched.step {g : Regs} {s s' : GenState} (h : KeepsUntouched g s)
    (hs : genStep cfg buf rnd s = some s') : KeepsUntouched g s' := by
  intro x hx
  obtain ⟨hr, hst⟩ := h x hx
  rcases genStep_cases hs with ⟨c, hc, rfl⟩ | ⟨-, rfl⟩ | ⟨-, rfl⟩
  · rcases coreStep_cases hc with ⟨k, -, rfl⟩ | ⟨-, rfl⟩
    · exact ⟨(runBlock_untouched hx k s.core).trans hr, hst⟩
    · exact ⟨hr, hst⟩
  · have hj : s.judged.core.r x = g x ∧ s.judged.regState x = g x := by
      unfold GenState.judged
      split
      · exact ⟨hr, hr⟩
      · exact ⟨hst, hst⟩
    rcases genChecksumEnd_cases cfg rnd s with ⟨ic, ct, he⟩ | ⟨-, -, he⟩
    · rw [he]
      exact hj
    · rw [he]
      exact ⟨(applyNonce_untouched hx _ _).trans hj.1, hj.2⟩
  · exact ⟨hr, hst⟩

theorem initRegs_untouched {x : Reg} (hx : x ∈ untouched) (g : Regs) : initRegs g x = g x := by
  unfold untouched at hx
  fin_cases hx <;> rfl

theorem generateNonce_untouched (cfg : Config) (buf : Buffer) (rnd : Nat → BitVec 8) (g : Regs) :
    ∀ x ∈ untouched, (generateNonce cfg buf rnd g).core.r x = g x := by
  intro x hx
  have hinit : KeepsUntouched g (genInit g) := fun x hx =>
    ⟨initRegs_untouched hx g, initRegs_untouched hx g⟩
  have hinv := ((steps_run (genStep cfg buf rnd) (genFuel cfg) (genInit g)).invariant hinit
    fun _ _ hi hs => hi.step hs).2
  exact (hinv x hx).1

/-- The simulator starts from the registers the generator started from, up to
    `r5` and `r6`. -/
theorem initRegs_generated (cfg : Config) (buf : Buffer) (rnd : Nat → BitVec 8) (g : Regs)
    (x : Reg) (h5 : x ≠ 5) (h6 : x ≠ 6) :
    initRegs (generateNonce cfg buf rnd g).core.r x = initRegs g x := by
  by_cases hx : x ∈ untouched
  · rw [initRegs_untouched hx, initRegs_untouched hx]
    exact generateNonce_untouched cfg buf rnd g x hx
  · -- every other register is assigned a constant
    revert hx h5 h6
    fin_cases x <;> intro h5 h6 hx <;> first
      | rfl
      | exact absurd rfl h5
      | exact absurd rfl h6
      | exact absurd (by decide) hx

end generator

end Viper
