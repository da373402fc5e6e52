import VetGumstix.Framework.Bytes
import VetGumstix.Framework.Rounds
import VetGumstix.Viper.Replay

/-! # Attempts and Entries

    `generate_nonce` works in rounds, one for each attempt, and
    `checksum_simulator` in rounds, one for each pool entry: a few blocks, each
    after a jump, then `__checksum_end`.  The field `count` numbers the attempts
    of the generator, and `inonce` the entries of the simulator, so the states
    of one attempt or entry can be picked out of a trace.

    `viper_terminates`: both functions return, and what an attempt can do.
-/

namespace Viper

open Machine

/-! ## Section 1: The blocks of an attempt -/

/-- The blocks `bs` of an attempt, and the count it ends with: between 1 and
    `I_NUM` blocks; the count is `I_NUM` exactly when there were `I_NUM` blocks
    and the last of them, and no other, was block 7. -/
structure Attempted (bs : List (Fin 8)) (icount : Nat) : Prop where
  pos  : 1 ≤ bs.length
  le   : bs.length ≤ iNum
  full : icount = iNum ↔ bs.length = iNum ∧ bs.getLast? = some 7 ∧ 7 ∉ bs.dropLast

/-- Every block but the last goes on to the jump table, so it is not block 7
    and counts below `I_NUM`. -/
theorem blocks_of_steps {tbl : BlockTable} {buf : Buffer} {c c' : Core} {tr : List Core}
    (h : Steps (coreStep tbl buf) c tr c') (hinv : CoreInv c) (hpc : c.pc ≠ .checksumEnd)
    (hend : c'.pc = .checksumEnd) :
    1 ≤ (blocksOf tr).length ∧ c.icount + (blocksOf tr).length ≤ iNum ∧
      7 ∉ (blocksOf tr).dropLast := by
  revert hinv
  refine attempt_induction ?_ ?_ ?_ h hpc hend
  · intro c tr c' hk hs ih hinv
    rw [blocksOf_cons_jump hk]
    exact ih (hinv.step hs)
  · intro c k tr c' hk h7 hcount hs ih hinv
    obtain ⟨hpos, hle, hno⟩ := ih (hinv.step hs)
    have hne : blocksOf tr ≠ [] := List.length_pos_iff.mp hpos
    rw [hcount] at hle
    rw [blocksOf_cons_block hk, List.dropLast_cons_of_ne_nil hne]
    refine ⟨by simp, ?_, ?_⟩
    · rw [List.length_cons]
      omega
    · simp only [List.mem_cons, not_or]
      exact ⟨Ne.symm h7, hno⟩
  · intro c k hk _ hinv
    have hlt := (hinv.block k hk).1
    rw [blocksOf_cons_block hk]
    simpa [blocksOf] using hlt

theorem blocksOf_append (tr tr' : List Core) :
    blocksOf (tr ++ tr') = blocksOf tr ++ blocksOf tr' :=
  List.filterMap_append

/-- States outside the blocks run none and read nothing. -/
theorem outside_blocks {tr : List Core} (h : ∀ c ∈ tr, ∀ k, c.pc ≠ .block k) (tbl : BlockTable)
    (buf : Buffer) : blocksOf tr = [] ∧ tr.flatMap (Core.reads tbl buf) = [] := by
  refine ⟨List.filterMap_eq_nil_iff.mpr ?_, List.flatMap_eq_nil_iff.mpr ?_⟩
  · intro c hc
    split
    · next k hk => exact absurd hk (h c hc k)
    · rfl
  · intro c hc
    unfold Core.reads
    split
    · next k hk => exact absurd hk (h c hc k)
    · rfl

/-- A whole attempt that starts with the count at zero. -/
theorem attempted {tbl : BlockTable} {buf : Buffer} {c : Core} (hinv : CoreInv c)
    (hpc : c.pc ≠ .checksumEnd) (hzero : c.icount = 0) :
    Attempted (attemptBlocks tbl buf c) (attempt tbl buf c).icount := by
  obtain ⟨-, -, -, hend, -⟩ := attempt_steps tbl buf hinv
  obtain ⟨hpos, hle, hno⟩ := blocks_of_steps (steps_run _ (2 * iNum) c) hinv hpc hend
  have hfull := attempt_icount_iff tbl buf hinv hpc
  rw [hzero, Nat.zero_add] at hle hfull
  exact ⟨hpos, hle, hfull.trans ⟨fun h => ⟨h.1, h.2, hno⟩, fun h => ⟨h.1, h.2.1⟩⟩⟩

/-- A machine around the block machine, which works in rounds and numbers its
    states by them: the states of round `k` are those of its run through the
    block machine, and states outside the blocks. -/
theorem round_states {σ : Type} (core : σ → Core) (lift : σ → Core → σ) (tag : σ → Nat)
    {next : σ → σ} (tbl : BlockTable) (buf : Buffer) (hcore : ∀ s c, core (lift s c) = c)
    (htag : ∀ s c, tag (lift s c) = tag s) {s last : σ} {n : Nat}
    (hinv : ∀ i < n, CoreInv (core (next^[i] s))) (hnum : ∀ i < n, tag (next^[i] s) = i)
    (hlast : (core last).pc = .ret) {k : Nat} (hk : k < n) :
    ∃ rest, ((roundStates (fun s => (visits (coreStep tbl buf) (2 * iNum) (core s)).map (lift s))
        (fun s => lift s (attempt tbl buf (core s))) next n s ++ [last]).filter
          fun s => tag s = k).map core =
        visits (coreStep tbl buf) (2 * iNum) (core (next^[k] s)) ++ rest ∧
      ∀ c ∈ rest, ∀ j, c.pc ≠ .block j := by
  have hround := roundStates_of_tag
    (fun s => (visits (coreStep tbl buf) (2 * iNum) (core s)).map (lift s))
    (fun s => lift s (attempt tbl buf (core s))) next tag s n (fun i hi x hx => by
      rcases List.mem_append.mp hx with hx | hx
      · obtain ⟨c, -, rfl⟩ := List.mem_map.mp hx
        rw [htag, hnum i hi]
      · rw [List.mem_singleton.mp hx, htag, hnum i hi]) hk
  have hid : core ∘ lift (next^[k] s) = id := funext fun c => hcore _ c
  refine ⟨attempt tbl buf (core (next^[k] s)) :: ([last].filter fun s => tag s = k).map core,
    ?_, ?_⟩
  · rw [List.filter_append, hround, List.map_append, List.map_append, List.map_map, hid,
      List.map_id, List.map_singleton, hcore, List.append_assoc, List.singleton_append]
  · intro c hc j
    rcases List.mem_cons.mp hc with rfl | hc
    · obtain ⟨-, -, -, hpc, -⟩ := attempt_steps tbl buf (hinv k hk)
      simp [hpc]
    · obtain ⟨x, hx, rfl⟩ := List.mem_map.mp hc
      obtain rfl := List.mem_singleton.mp (List.mem_filter.mp hx).1
      simp [hlast]

/-! ## Section 2: The attempts of the generator -/

section generator

variable (cfg : Config) (buf : Buffer) (rnd : Nat → BitVec 8) (g : Regs)

/-- The state after the current attempt and `__checksum_end`. -/
def nextStart (s : GenState) : GenState := genChecksumEnd cfg rnd (s.ended buf)

/-- The state in which attempt `i` starts; attempt 0 is the hard-coded one. -/
def attemptStart (i : Nat) : GenState := (nextStart cfg buf rnd)^[i] (genInit g)

/-- The state in which attempt `i` reaches `__checksum_end`. -/
def attemptEnd (i : Nat) : GenState := (attemptStart cfg buf rnd g i).ended buf

/-- The visits of `__checksum_end` of a run of the generator. -/
def attemptEnds : List GenState :=
  (genTrace cfg buf rnd g).filter fun s => s.core.pc = .checksumEnd

/-- The states of a run of the generator during attempt `k`. -/
def attemptStates (k : Nat) : List GenState :=
  (genTrace cfg buf rnd g).filter fun s => s.count = k

theorem attemptStart_succ (i : Nat) :
    attemptStart cfg buf rnd g (i + 1) =
      genChecksumEnd cfg rnd (attemptEnd cfg buf rnd g i) :=
  Function.iterate_succ_apply' _ _ _

theorem attemptEnd_zero : attemptEnd cfg buf rnd g 0 = (genInit g).ended buf := rfl

theorem attemptEnd_core (i : Nat) :
    (attemptEnd cfg buf rnd g i).core =
      attempt GenerateNonce.blocks buf (attemptStart cfg buf rnd g i).core := rfl

theorem attemptEnd_mm (i : Nat) :
    (attemptEnd cfg buf rnd g i).mm = (attemptStart cfg buf rnd g i).mm := rfl

/-- What holds when an attempt starts. -/
structure GenStart (s : GenState) : Prop where
  core    : CoreInv s.core
  saved   : AddrInv s.regState
  room    : s.inonce < cfg.nonceNum
  running : s.core.pc ≠ .checksumEnd
  icount  : s.core.icount = 0
  marks   : s.core.marks = s.mm

variable {cfg buf rnd g}

theorem genStart_init (g : Regs) : GenStart cfg (genInit g) where
  core := coreInv_first g
  saved := addrInv_initRegs g
  room := cfg.nonceNum_pos
  running := by simp [genInit]
  icount := rfl
  marks := rfl

theorem AtAttempt.genStart {s : GenState} (h : AtAttempt cfg s) : GenStart cfg s where
  core := h.core ▸ coreInv_startEntry h.saved s.nonce
  saved := h.saved
  room := h.room
  running := by rw [h.core]; simp [startEntry]
  icount := by rw [h.core]; rfl
  marks := by rw [h.core]; rfl

/-- The state after `__return`. -/
def GenState.returned (s : GenState) : GenState :=
  { s with nonceCount := s.inonce, core := { s.core with pc := .done } }

theorem genStep_ret {s : GenState} (h : s.core.pc = .ret) :
    genStep cfg buf rnd s = some s.returned := by
  simp only [genStep, h]
  rfl

/-- The rounds of the generator; `LOOP_COUNT` bounds their number. -/
theorem gen_rounds_of_start (cfg : Config) (buf : Buffer) (rnd : Nat → BitVec 8) :
    Rounds (genStep cfg buf rnd) (GenStart cfg) (fun s => s.core.pc = .ret) (GenState.body buf)
      (GenState.ended buf) (nextStart cfg buf rnd) fun s => cfg.loopCount - s.count where
  round s hs := gen_round cfg buf rnd hs.core
  again s hs := by
    rcases ended_next buf rnd hs.core hs.saved hs.room with ⟨hret, -⟩ | ⟨hat, hcount⟩
    · exact .inr hret
    · have hlimit := hat.limit
      refine .inl ⟨hat.genStart, ?_⟩
      show cfg.loopCount - (genChecksumEnd cfg rnd (s.ended buf)).count < _
      omega
  last s hs := ⟨s.returned, genStep_ret hs, rfl⟩

/-- A run of `generate_nonce` with `n` attempts. -/
structure AttemptRun (cfg : Config) (buf : Buffer) (rnd : Nat → BitVec 8) (g : Regs) (n : Nat) :
    Prop where
  pos    : 0 < n
  limit  : n ≤ max 1 cfg.loopCount
  start  : ∀ i < n, GenStart cfg (attemptStart cfg buf rnd g i)
  trace  : genTrace cfg buf rnd g =
    roundStates (GenState.body buf) (GenState.ended buf) (nextStart cfg buf rnd) n (genInit g) ++
      [attemptStart cfg buf rnd g n]
  ret    : (attemptStart cfg buf rnd g n).core.pc = .ret
  result : generateNonce cfg buf rnd g = (attemptStart cfg buf rnd g n).returned

/-- Attempts after the first start where `__checksum_end` loads a nonce. -/
theorem GenStart.atAttempt {s : GenState} (h : GenStart cfg s)
    (hnext : GenStart cfg (nextStart cfg buf rnd s)) :
    AtAttempt cfg (nextStart cfg buf rnd s) ∧ (nextStart cfg buf rnd s).count = s.count + 1 := by
  rcases ended_next buf rnd h.core h.saved h.room with ⟨hret, -⟩ | hat
  · exact absurd hret hnext.core.no_ret
  · exact hat

/-- **Every run of `generate_nonce` is a run of attempts.** -/
theorem exists_attemptRun (cfg : Config) (buf : Buffer) (rnd : Nat → BitVec 8) (g : Regs) :
    ∃ n, AttemptRun cfg buf rnd g n := by
  obtain ⟨n, t, hall, hsteps, hret, hstep, hnone⟩ :=
    (gen_rounds_of_start cfg buf rnd).run (genStart_init g)
  have hbody : ∀ s : GenState, (s.body buf).length ≤ 2 * iNum := fun _ => attemptBody_length ..
  have hlen := roundStates_length (GenState.ended buf) (nextStart cfg buf rnd) hbody (n + 1)
    (genInit g)
  have hbound : n + 1 ≤ max 1 cfg.loopCount := by
    obtain ⟨-, hle⟩ := hall n (Nat.le_refl n)
    have hinit : (genInit g).count = 0 := rfl
    cases n with
    | zero => exact Nat.le_max_left _ _
    | succ n =>
      -- the last attempt starts below the limit
      have hstart := (hall (n + 1) (Nat.le_refl _)).1
      rw [Function.iterate_succ_apply'] at hle hstart
      have hlimit := ((hall n (Nat.le_succ n)).1.atAttempt hstart).1.limit
      omega
  have hfuel : (roundStates (GenState.body buf) (GenState.ended buf) (nextStart cfg buf rnd)
      (n + 1) (genInit g) ++ [(nextStart cfg buf rnd)^[n + 1] (genInit g)]).length ≤
      genFuel cfg := by
    have hmul : (2 * iNum + 1) * (n + 1) ≤ (2 * iNum + 1) * (cfg.loopCount + 1) :=
      Nat.mul_le_mul_left _ (by omega)
    simp only [List.length_append, List.length_singleton, genFuel]
    omega
  have ht : ((nextStart cfg buf rnd)^[n + 1] (genInit g)).returned = t :=
    Option.some.inj ((genStep_ret hret).symm.trans hstep)
  exact ⟨n + 1, Nat.succ_pos n, hbound, fun i hi => (hall i (by omega)).1,
    hsteps.visits_eq hnone hfuel, hret, (hsteps.run_eq hnone hfuel).trans ht.symm⟩

section attempts

variable {n : Nat} (h : AttemptRun cfg buf rnd g n)
include h

/-- Attempts after the first. -/
theorem AttemptRun.atAttempt {i : Nat} (hi : i + 1 < n) :
    AtAttempt cfg (attemptStart cfg buf rnd g (i + 1)) ∧
      (attemptStart cfg buf rnd g (i + 1)).count = (attemptStart cfg buf rnd g i).count + 1 := by
  have hnext := h.start (i + 1) hi
  rw [attemptStart_succ] at hnext ⊢
  exact (h.start i (by omega)).atAttempt hnext

/-- `count` is the number of the attempt. -/
theorem AttemptRun.count {i : Nat} (hi : i < n) : (attemptStart cfg buf rnd g i).count = i := by
  induction i with
  | zero => rfl
  | succ i ih => rw [(h.atAttempt hi).2, ih (by omega)]

/-- The visits of `__checksum_end` are the ends of the attempts. -/
theorem AttemptRun.ends :
    attemptEnds cfg buf rnd g = (List.range n).map (attemptEnd cfg buf rnd g) := by
  have hcloses := roundStates_closes (GenState.body buf) (GenState.ended buf)
    (nextStart cfg buf rnd) (fun s => s.core.pc = .checksumEnd) (genInit g) n
    (fun i _ x hx => by obtain ⟨d, rfl, hpc⟩ := attemptBody_pc hx; exact decide_eq_false hpc)
    (fun i hi => decide_eq_true (attempt_pc _ buf (h.start i hi).core))
  unfold attemptEnds
  rw [h.trace, List.filter_append, hcloses, List.filter_eq_nil_iff.mpr (by simp [h.ret]),
    List.append_nil]
  rfl

theorem AttemptRun.take_ends {k : Nat} (hk : k < n) :
    (attemptEnds cfg buf rnd g).take (k + 1) =
      (List.range (k + 1)).map (attemptEnd cfg buf rnd g) := by
  rw [h.ends, ← List.map_take, List.take_range, Nat.min_eq_left hk]

theorem AttemptRun.getElem_ends {i : Nat} {e : GenState} :
    (attemptEnds cfg buf rnd g)[i]? = some e ↔ i < n ∧ attemptEnd cfg buf rnd g i = e := by
  rw [h.ends]
  simp [List.getElem?_eq_some_iff]

/-- The states of attempt `k` are those of its run through the block machine,
    and states outside the blocks. -/
theorem AttemptRun.states {k : Nat} (hk : k < n) :
    ∃ rest, (attemptStates cfg buf rnd g k).map GenState.core =
        visits (coreStep GenerateNonce.blocks buf) (2 * iNum)
          (attemptStart cfg buf rnd g k).core ++ rest ∧
      ∀ c ∈ rest, ∀ j, c.pc ≠ .block j := by
  unfold attemptStates
  rw [h.trace]
  exact round_states GenState.core (fun s c => { s with core := c }) GenState.count
    GenerateNonce.blocks buf (fun _ _ => rfl) (fun _ _ => rfl)
    (fun i hi => (h.start i hi).core) (fun i hi => h.count hi) h.ret hk

/-- The blocks of attempt `k`. -/
theorem AttemptRun.blocks {k : Nat} (hk : k < n) :
    blocksOf ((attemptStates cfg buf rnd g k).map GenState.core) =
      attemptBlocks GenerateNonce.blocks buf (attemptStart cfg buf rnd g k).core := by
  obtain ⟨rest, hstates, hout⟩ := h.states hk
  rw [hstates, blocksOf_append, (outside_blocks hout GenerateNonce.blocks buf).1, List.append_nil]
  rfl

theorem AttemptRun.reaches {i : Nat} (hi : i ≤ n) :
    Reaches (genStep cfg buf rnd) (genInit g) (attemptStart cfg buf rnd g i) := by
  induction i with
  | zero => exact .refl _
  | succ i ih =>
    rw [attemptStart_succ]
    exact (ih (Nat.le_of_lt hi)).trans ⟨_, gen_round cfg buf rnd (h.start i hi).core⟩

/-- Only `__return` comes after the last attempt. -/
theorem AttemptRun.lt_of_pc {i : Nat} (hi : i < n)
    (hpc : (attemptStart cfg buf rnd g (i + 1)).core.pc ≠ .ret) : i + 1 < n := by
  refine Nat.lt_of_le_of_ne hi fun he => hpc ?_
  rw [he]
  exact h.ret

end attempts

/-- Unless every word is marked, `__checksum_end` counts the attempt, and goes on
    as long as no limit is reached. -/
theorem genChecksumEnd_not_full (cfg : Config) (rnd : Nat → BitVec 8) {s : GenState}
    (hfull : (judge s).2 = false) :
    genChecksumEnd cfg rnd s =
      if cfg.nonceNum ≤ s.judged.inonce ∨ cfg.loopCount ≤ s.judged.count + 1 then
        { s.judged with core := { s.judged.core with icount := 0, pc := .ret },
                        count := s.judged.count + 1 }
      else s.judged.nextAttempt rnd := by
  rw [← judge_fst]
  revert hfull
  unfold genChecksumEnd
  obtain ⟨t, full⟩ := judge s
  intro hfull
  simp only at hfull
  rw [hfull]
  rfl

theorem genChecksumEnd_count (cfg : Config) (rnd : Nat → BitVec 8) {s : GenState}
    (hfull : (judge s).2 = false) : (genChecksumEnd cfg rnd s).count = s.judged.count + 1 := by
  rw [genChecksumEnd_not_full cfg rnd hfull]
  split <;> rfl

theorem genChecksumEnd_continues (cfg : Config) (rnd : Nat → BitVec 8) {s : GenState}
    (hfull : (judge s).2 = false) (hroom : s.judged.inonce < cfg.nonceNum)
    (hlimit : s.judged.count + 1 < cfg.loopCount) :
    genChecksumEnd cfg rnd s = s.judged.nextAttempt rnd := by
  rw [genChecksumEnd_not_full cfg rnd hfull, if_neg (by omega)]

end generator

/-! ### The nonces of a run -/

/-- Bytes that make up the nonces `ns`, in order. -/
def bytesOf (ns : Nat → Word) : Nat → BitVec 8 := fun i => (ns (i / 4)).extractLsb' (8 * (i % 4)) 8

/-- The nonce drawn `k` attempts after the first. -/
def nonceAt (rnd : Nat → BitVec 8) (k : Nat) : Word :=
  nonceOfBytes (rnd (4 * k)) (rnd (4 * k + 1)) (rnd (4 * k + 2)) (rnd (4 * k + 3))

theorem nonceAt_bytesOf (ns : Nat → Word) (k : Nat) : nonceAt (bytesOf ns) k = ns k := by
  have hdiv : ∀ j < 4, (4 * k + j) / 4 = k := fun j hj => by omega
  have hmod : ∀ j < 4, (4 * k + j) % 4 = j := fun j hj => by omega
  have hbyte : ∀ j < 4, bytesOf ns (4 * k + j) = (ns k).extractLsb' (8 * j) 8 := by
    intro j hj
    rw [bytesOf, hdiv j hj, hmod j hj]
  unfold nonceAt
  rw [show 4 * k = 4 * k + 0 from rfl, hbyte 0 (by decide), hbyte 1 (by decide),
    hbyte 2 (by decide), hbyte 3 (by decide)]
  exact Bytes.leWord_extract (ns k)

section attempts

variable {cfg : Config} {buf : Buffer} {rnd : Nat → BitVec 8} {g : Regs} {n : Nat}
  (h : AttemptRun cfg buf rnd g n)
include h

/-- Attempts after the first start with the nonce drawn at the end of the one
    before. -/
theorem AttemptRun.next {k : Nat} (hk : k + 1 < n) :
    attemptStart cfg buf rnd g (k + 1) = (attemptEnd cfg buf rnd g k).judged.nextAttempt rnd := by
  have hrun := (h.start (k + 1) hk).core.no_ret
  rw [attemptStart_succ] at hrun ⊢
  rcases genChecksumEnd_cases cfg rnd (attemptEnd cfg buf rnd g k) with ⟨ic, ct, he⟩ | ⟨-, -, he⟩
  · rw [he] at hrun
    exact absurd rfl hrun
  · exact he

theorem AttemptRun.randCalls {k : Nat} (hk : k < n) :
    (attemptStart cfg buf rnd g k).randCalls = 4 * k := by
  induction k with
  | zero => rfl
  | succ k ih =>
    rw [h.next hk]
    show (attemptEnd cfg buf rnd g k).judged.randCalls + 4 = _
    rw [GenState.judged_randCalls]
    show (attemptStart cfg buf rnd g k).randCalls + 4 = _
    rw [ih (by omega)]
    omega

/-- The nonce of an attempt after the first. -/
theorem AttemptRun.nonce {k : Nat} (hk : k + 1 < n) :
    (attemptStart cfg buf rnd g (k + 1)).nonce = nonceAt rnd k := by
  have hcalls : (attemptEnd cfg buf rnd g k).randCalls = 4 * k := h.randCalls (by omega)
  rw [h.next hk]
  show (attemptEnd cfg buf rnd g k).judged.drawn rnd = _
  rw [GenState.drawn, GenState.judged_randCalls, hcalls]
  rfl

end attempts

/-! ## Section 3: The entries of the simulator -/

section simulator

variable (cfg : Config) (buf : Buffer) (pool : Nat → Word) (m : Nat) (g : Regs)
  (ck : Nat → Word × Word)

/-- The state after the current entry and `__checksum_end`. -/
def nextEntryStart (s : SimState) : SimState := simChecksumEnd cfg pool m (s.ended buf)

/-- The state in which entry `i` starts. -/
def entryStart (i : Nat) : SimState := (nextEntryStart cfg buf pool m)^[i] (simInit pool g ck)

/-- The visits of `__checksum_end` of a run of the simulator. -/
def entryEnds : List SimState :=
  (simTrace cfg buf pool m g ck).filter fun s => s.core.pc = .checksumEnd

/-- The states of a run of the simulator during entry `k`. -/
def entryStates (k : Nat) : List SimState :=
  (simTrace cfg buf pool m g ck).filter fun s => s.inonce - 1 = k

/-- What holds when an entry starts. -/
structure SimStart (s : SimState) : Prop where
  core    : CoreInv s.core
  loaded  : 1 ≤ s.inonce
  running : s.core.pc ≠ .checksumEnd
  icount  : s.core.icount = 0

variable {cfg buf pool m g ck}

theorem simStart_init (pool : Nat → Word) (g : Regs) (ck : Nat → Word × Word) :
    SimStart (simInit pool g ck) where
  core := coreInv_jump ((addrInv_initRegs g).applyNonce (pool 0)) iNum_pos rfl
  loaded := Nat.le_refl 1
  running := by simp [simInit]
  icount := rfl

/-- After an entry the simulator returns or starts the next one. -/
theorem SimStart.next (cfg : Config) (buf : Buffer) (pool : Nat → Word) (m : Nat) {s : SimState}
    (h : SimStart s) :
    (nextEntryStart cfg buf pool m s).core.pc = .ret ∨
    (SimStart (nextEntryStart cfg buf pool m s) ∧ s.inonce + 1 < cfg.nonceNum ∧
      (nextEntryStart cfg buf pool m s).inonce = s.inonce + 1) := by
  obtain ⟨-, -, -, -, haddr⟩ := attempt_steps ChecksumSimulator.blocks buf h.core
  unfold nextEntryStart
  rcases simChecksumEnd_cases cfg pool m (s.ended buf) with
    ⟨-, he⟩ | ⟨-, -, he⟩ | ⟨-, -, -, he⟩ | ⟨-, -, hlt, he⟩
  · exact .inl (by rw [he])
  · exact .inl (by rw [he])
  · exact .inl (by rw [he])
  · refine .inr ?_
    rw [he]
    refine ⟨⟨?_, Nat.le_add_left 1 _, by simp [SimState.nextEntry], rfl⟩, hlt, rfl⟩
    exact coreInv_jump (AddrInv.applyNonce haddr _) iNum_pos rfl

/-- The state after `__return`. -/
def SimState.returned (s : SimState) : SimState :=
  { s with core := { s.core with marks := Buffer.zero, pc := .done } }

theorem simStep_ret {s : SimState} (h : s.core.pc = .ret) :
    simStep cfg buf pool m s = some s.returned := by
  simp only [simStep, h]
  rfl

/-- The rounds of the simulator; `NONCE_NUM` bounds their number. -/
theorem sim_rounds_of_start (cfg : Config) (buf : Buffer) (pool : Nat → Word) (m : Nat) :
    Rounds (simStep cfg buf pool m) SimStart (fun s => s.core.pc = .ret) (SimState.body buf)
      (SimState.ended buf) (nextEntryStart cfg buf pool m) fun s => cfg.nonceNum - s.inonce where
  round s hs := sim_round cfg buf pool m hs.core
  again s hs := by
    rcases hs.next cfg buf pool m with hret | ⟨hnext, hlt, hinonce⟩
    · exact .inr hret
    · exact .inl ⟨hnext, by omega⟩
  last s hs := ⟨s.returned, simStep_ret hs, rfl⟩

/-- A run of `checksum_simulator` with `n` entries. -/
structure EntryRun (cfg : Config) (buf : Buffer) (pool : Nat → Word) (m : Nat) (g : Regs)
    (ck : Nat → Word × Word) (n : Nat) : Prop where
  limit  : n ≤ cfg.nonceNum
  start  : ∀ i < n, SimStart (entryStart cfg buf pool m g ck i)
  trace  : simTrace cfg buf pool m g ck =
    roundStates (SimState.body buf) (SimState.ended buf) (nextEntryStart cfg buf pool m) n
      (simInit pool g ck) ++ [entryStart cfg buf pool m g ck n]
  ret    : (entryStart cfg buf pool m g ck n).core.pc = .ret
  result : checksumSimulator cfg buf pool m g ck = (entryStart cfg buf pool m g ck n).returned

/-- **Every run of `checksum_simulator` is a run of entries.** -/
theorem exists_entryRun (cfg : Config) (buf : Buffer) (pool : Nat → Word) (m : Nat) (g : Regs)
    (ck : Nat → Word × Word) : ∃ n, EntryRun cfg buf pool m g ck n := by
  obtain ⟨n, t, hall, hsteps, hret, hstep, hnone⟩ :=
    (sim_rounds_of_start cfg buf pool m).run (simStart_init pool g ck)
  have hbody : ∀ s : SimState, (s.body buf).length ≤ 2 * iNum := fun _ => attemptBody_length ..
  have hlen := roundStates_length (SimState.ended buf) (nextEntryStart cfg buf pool m) hbody
    (n + 1) (simInit pool g ck)
  have hbound : n + 1 ≤ cfg.nonceNum := by
    obtain ⟨-, hle⟩ := hall n (Nat.le_refl n)
    have hinit : (simInit pool g ck).inonce = 1 := rfl
    have := cfg.nonceNum_pos
    omega
  have hfuel : (roundStates (SimState.body buf) (SimState.ended buf) (nextEntryStart cfg buf pool m)
      (n + 1) (simInit pool g ck) ++
      [(nextEntryStart cfg buf pool m)^[n + 1] (simInit pool g ck)]).length ≤ simFuel cfg := by
    have hmul : (2 * iNum + 1) * (n + 1) ≤ (2 * iNum + 1) * cfg.nonceNum :=
      Nat.mul_le_mul_left _ hbound
    simp only [List.length_append, List.length_singleton, simFuel]
    omega
  have ht : ((nextEntryStart cfg buf pool m)^[n + 1] (simInit pool g ck)).returned = t :=
    Option.some.inj ((simStep_ret hret).symm.trans hstep)
  exact ⟨n + 1, hbound, fun i hi => (hall i (by omega)).1, hsteps.visits_eq hnone hfuel, hret,
    (hsteps.run_eq hnone hfuel).trans ht.symm⟩

section entries

variable {n : Nat} (h : EntryRun cfg buf pool m g ck n)
include h

/-- `inonce` is one more than the number of the entry. -/
theorem EntryRun.inonce {i : Nat} (hi : i < n) :
    (entryStart cfg buf pool m g ck i).inonce = i + 1 := by
  induction i with
  | zero => rfl
  | succ i ih =>
    have hstart := h.start (i + 1) hi
    have hprev := ih (by omega)
    unfold entryStart at hstart hprev ⊢
    rw [Function.iterate_succ_apply'] at hstart ⊢
    rcases (h.start i (by omega)).next cfg buf pool m with hret | ⟨-, -, hinonce⟩
    · exact absurd hret hstart.core.no_ret
    · rw [← hprev]
      exact hinonce

theorem EntryRun.ends :
    entryEnds cfg buf pool m g ck =
      (List.range n).map fun i => (entryStart cfg buf pool m g ck i).ended buf := by
  have hcloses := roundStates_closes (SimState.body buf) (SimState.ended buf)
    (nextEntryStart cfg buf pool m) (fun s => s.core.pc = .checksumEnd) (simInit pool g ck) n
    (fun i _ x hx => by obtain ⟨d, rfl, hpc⟩ := attemptBody_pc hx; exact decide_eq_false hpc)
    (fun i hi => decide_eq_true (attempt_pc _ buf (h.start i hi).core))
  unfold entryEnds
  rw [h.trace, List.filter_append, hcloses, List.filter_eq_nil_iff.mpr (by simp [h.ret]),
    List.append_nil]
  rfl

/-- The blocks of entry `k`. -/
theorem EntryRun.blocks {k : Nat} (hk : k < n) :
    blocksOf ((entryStates cfg buf pool m g ck k).map SimState.core) =
      attemptBlocks ChecksumSimulator.blocks buf (entryStart cfg buf pool m g ck k).core := by
  have hnum : ∀ i < n, (entryStart cfg buf pool m g ck i).inonce - 1 = i := by
    intro i hi
    rw [h.inonce hi]
    rfl
  obtain ⟨rest, hstates, hout⟩ := round_states SimState.core (fun s c => { s with core := c })
    (fun s => s.inonce - 1) ChecksumSimulator.blocks buf (fun _ _ => rfl) (fun _ _ => rfl)
    (fun i hi => (h.start i hi).core) hnum h.ret hk
  unfold entryStates
  rw [h.trace]
  refine (congrArg blocksOf hstates).trans ?_
  rw [blocksOf_append, (outside_blocks hout ChecksumSimulator.blocks buf).1, List.append_nil]
  rfl

end entries

end simulator

/-! ## Section 4: Termination -/

/-- A pool entry is an accepted attempt, and the run ends when the pool is
    full. -/
theorem AttemptRun.inonce_succ_le {cfg : Config} {buf : Buffer} {rnd : Nat → BitVec 8} {g : Regs}
    {n k : Nat} (h : AttemptRun cfg buf rnd g n) (hk : k < n) :
    (attemptStart cfg buf rnd g (k + 1)).inonce ≤ cfg.nonceNum := by
  have hroom := (h.start k hk).room
  rw [attemptStart_succ, genChecksumEnd_inonce]
  unfold GenState.judged
  split
  · exact hroom
  · exact Nat.le_of_lt hroom

theorem AttemptRun.inonce_le {cfg : Config} {buf : Buffer} {rnd : Nat → BitVec 8} {g : Regs}
    {n : Nat} (h : AttemptRun cfg buf rnd g n) :
    (attemptStart cfg buf rnd g n).inonce ≤ cfg.nonceNum := by
  obtain ⟨i, rfl⟩ := Nat.exists_eq_succ_of_ne_zero (Nat.ne_of_gt h.pos)
  exact h.inonce_succ_le (Nat.lt_succ_self i)

/-- **Both functions return.**  `generate_nonce` makes at most `LOOP_COUNT`
    attempts, and one if `LOOP_COUNT` is 0; the pool gets at most `NONCE_NUM`
    entries, and `checksum_simulator` plays at most `NONCE_NUM` of them,
    whatever the pool and `g_nonce_count` are.  Every attempt and every entry runs
    between 1 and `I_NUM` blocks, and reaches `__checksum_end` with
    `icount = I_NUM` exactly when it ran `I_NUM` blocks of which the last, and
    no other, is block 7. -/
theorem viper_terminates (cfg : Config) (buf : Buffer) (g : Regs) :
    (∀ rnd : Nat → BitVec 8,
      Halts (genStep cfg buf rnd) (genInit g) (generateNonce cfg buf rnd g) ∧
      (generateNonce cfg buf rnd g).core.pc = .done ∧
      (generateNonce cfg buf rnd g).nonceCount ≤ cfg.nonceNum ∧
      (attemptEnds cfg buf rnd g).length ≤ max 1 cfg.loopCount ∧
      ∀ k e, (attemptEnds cfg buf rnd g)[k]? = some e →
        Attempted (blocksOf ((attemptStates cfg buf rnd g k).map GenState.core)) e.core.icount) ∧
    (∀ (pool : Nat → Word) (m : Nat) (ck : Nat → Word × Word),
      Halts (simStep cfg buf pool m) (simInit pool g ck) (checksumSimulator cfg buf pool m g ck) ∧
      (checksumSimulator cfg buf pool m g ck).core.pc = .done ∧
      (entryEnds cfg buf pool m g ck).length ≤ cfg.nonceNum ∧
      ∀ k e, (entryEnds cfg buf pool m g ck)[k]? = some e →
        Attempted (blocksOf ((entryStates cfg buf pool m g ck k).map SimState.core))
          e.core.icount) := by
  refine ⟨fun rnd => ?_, fun pool m ck => ?_⟩
  · obtain ⟨n, h⟩ := exists_attemptRun cfg buf rnd g
    refine ⟨⟨⟨_, steps_run _ _ _⟩, ?_⟩, ?_, ?_, ?_, ?_⟩
    · rw [h.result]
      rfl
    · rw [h.result]
      rfl
    · rw [h.result]
      exact h.inonce_le
    · rw [h.ends, List.length_map, List.length_range]
      exact h.limit
    · intro k e he
      obtain ⟨hk, rfl⟩ := h.getElem_ends.mp he
      have hs := h.start k hk
      rw [h.blocks hk]
      exact attempted hs.core hs.running hs.icount
  · obtain ⟨n, h⟩ := exists_entryRun cfg buf pool m g ck
    refine ⟨⟨⟨_, steps_run _ _ _⟩, ?_⟩, ?_, ?_, ?_⟩
    · rw [h.result]
      rfl
    · rw [h.result]
      rfl
    · rw [h.ends, List.length_map, List.length_range]
      exact h.limit
    · intro k e he
      rw [h.ends, List.getElem?_map, Option.map_eq_some_iff] at he
      obtain ⟨i, hi, rfl⟩ := he
      obtain ⟨hk, rfl⟩ : k < n ∧ k = i := by simpa [List.getElem?_eq_some_iff] using hi
      have hs := h.start k hk
      rw [h.blocks hk]
      exact attempted hs.core hs.running hs.icount

/-- There is a first attempt. -/
theorem attemptEnds_zero (cfg : Config) (buf : Buffer) (rnd : Nat → BitVec 8) (g : Regs) :
    (attemptEnds cfg buf rnd g)[0]? = some (attemptEnd cfg buf rnd g 0) := by
  obtain ⟨n, h⟩ := exists_attemptRun cfg buf rnd g
  exact h.getElem_ends.mpr ⟨h.pos, rfl⟩

/-- The first attempt on the zero image. -/
theorem zero_image_attempted :
    Attempted
      (blocksOf ((attemptStates viperConfig Buffer.zero (fun _ => 0) (fun _ => 0) 0).map
        GenState.core))
      (attemptEnd viperConfig Buffer.zero (fun _ => 0) (fun _ => 0) 0).core.icount :=
  ((viper_terminates viperConfig Buffer.zero fun _ => 0).1 fun _ => 0).2.2.2.2 0 _
    (attemptEnds_zero viperConfig Buffer.zero (fun _ => 0) fun _ => 0)

end Viper
