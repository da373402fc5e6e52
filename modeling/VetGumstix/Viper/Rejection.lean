import VetGumstix.Framework.Trials
import VetGumstix.Viper.Coverage

/-! # Rejected Nonces

    An attempt of `generate_nonce` overwrites registers and sets marks before it
    is known whether its nonce is kept.  `__checksum_end` saves what it made, or
    puts back what was saved before.

    The attempts after the first are trials of the drawn nonces: what a run
    saves is the run of these trials (`AttemptRun.saved_run`), so the nonces
    that were rejected can be left out.

    `rejected_leave_no_trace`: a rejected attempt changes nothing, and a run
    over the accepted nonces alone makes the same pool.
-/

namespace Viper

open Machine

/-! ## Section 1: Trials of nonces -/

/-- What `__checksum_end` saves of an attempt. -/
structure Saved where
  regs   : Regs
  marks  : Buffer
  pool   : Nat → Word
  inonce : Nat

def GenState.saved (s : GenState) : Saved := ⟨s.regState, s.mm, s.pool, s.inonce⟩

/-- The block machine at the end of the attempt with `nonce`. -/
def Saved.tried (buf : Buffer) (q : Saved) (nonce : Word) : Core :=
  attempt GenerateNonce.blocks buf (startEntry ⟨q.regs, q.marks⟩ nonce)

def Saved.keeps (buf : Buffer) (q : Saved) (nonce : Word) : Bool :=
  (q.tried buf nonce).icount = iNum ∧ 1 ≤ mmsUpdated q.marks (q.tried buf nonce).marks

def Saved.push (buf : Buffer) (q : Saved) (nonce : Word) : Saved :=
  ⟨(q.tried buf nonce).r, (q.tried buf nonce).marks, Function.update q.pool q.inonce nonce,
    q.inonce + 1⟩

/-- A nonce is pushed, or nothing is changed. -/
def nonceTrials (buf : Buffer) : Trials Saved Word where
  step q nonce := if q.keeps buf nonce then q.push buf nonce else q
  keeps := Saved.keeps buf
  undo q nonce h := by simp [h]

theorem nonceTrials_inonce (buf : Buffer) (q : Saved) (nonces : List Word) :
    ((nonceTrials buf).run q nonces).inonce =
      q.inonce + ((nonceTrials buf).kept q nonces).length := by
  refine (nonceTrials buf).counter_run (c := Saved.inonce) (fun q nonce h => ?_) q nonces
  have hstep : (nonceTrials buf).step q nonce = q.push buf nonce := if_pos h
  rw [hstep]
  rfl

/-! ## Section 2: The attempts are trials -/

section attempts

variable {cfg : Config} {buf : Buffer} {rnd : Nat → BitVec 8} {g : Regs} {n : Nat}

/-- What is saved after attempt `k`. -/
theorem attemptStart_saved (k : Nat) :
    (attemptStart cfg buf rnd g (k + 1)).saved = (attemptEnd cfg buf rnd g k).judged.saved := by
  rw [attemptStart_succ]
  simp [GenState.saved]

/-- The first attempt draws no nonce. -/
theorem attemptStart_one_saved (rnd rnd' : Nat → BitVec 8) :
    (attemptStart cfg buf rnd' g 1).saved = (attemptStart cfg buf rnd g 1).saved := by
  rw [attemptStart_saved, attemptStart_saved, attemptEnd_zero, attemptEnd_zero]

variable (h : AttemptRun cfg buf rnd g n)
include h

/-- Attempt `k + 1` tries the `k`-th drawn nonce. -/
theorem AttemptRun.tried {k : Nat} (hk : k + 1 < n) :
    (attemptEnd cfg buf rnd g (k + 1)).core =
      (attemptStart cfg buf rnd g (k + 1)).saved.tried buf (nonceAt rnd k) := by
  rw [attemptEnd_core, (h.atAttempt hk).1.core, h.nonce hk]
  rfl

theorem AttemptRun.accepts_iff {k : Nat} (hk : k + 1 < n) :
    (attemptEnd cfg buf rnd g (k + 1)).Accepts ↔
      (attemptStart cfg buf rnd g (k + 1)).saved.keeps buf (nonceAt rnd k) = true := by
  unfold GenState.Accepts Saved.keeps
  rw [h.tried hk, decide_eq_true_iff]
  rfl

/-- One attempt after the first is one trial. -/
theorem AttemptRun.saved_succ {k : Nat} (hk : k + 1 < n) :
    (attemptStart cfg buf rnd g (k + 1 + 1)).saved =
      (nonceTrials buf).step (attemptStart cfg buf rnd g (k + 1)).saved (nonceAt rnd k) := by
  rw [attemptStart_saved]
  unfold nonceTrials
  by_cases hacc : (attemptEnd cfg buf rnd g (k + 1)).Accepts
  · rw [GenState.judged_of_accepts hacc]
    simp only [(h.accepts_iff hk).mp hacc, if_true]
    unfold Saved.push
    rw [← h.tried hk, ← h.nonce hk]
    rfl
  · rw [GenState.judged_of_rejects hacc]
    simp only [mt (h.accepts_iff hk).mpr hacc]
    rfl

/-- **What a run saves** is the run of the trials of its nonces. -/
theorem AttemptRun.saved_run {k : Nat} (hk : k < n) :
    (attemptStart cfg buf rnd g (k + 1)).saved =
      (nonceTrials buf).run (attemptStart cfg buf rnd g 1).saved
        ((List.range k).map (nonceAt rnd)) := by
  induction k with
  | zero => rfl
  | succ k ih =>
    rw [h.saved_succ hk, ih (by omega), List.range_succ, List.map_append, List.map_singleton,
      Trials.run_concat]

end attempts

/-- The nonces of the accepted attempts among `es`. -/
def keptNonces (es : List GenState) : List Word :=
  (es.filter fun e => e.Accepts).map GenState.nonce

/-- The nonces `ns` are drawn first. -/
def Draws (rnd : Nat → BitVec 8) (ns : List Word) : Prop :=
  ∀ j nonce, ns[j]? = some nonce → nonceAt rnd j = nonce

theorem keptNonces_concat (es : List GenState) (e : GenState) :
    keptNonces (es ++ [e]) = keptNonces es ++ if e.Accepts then [e.nonce] else [] := by
  unfold keptNonces
  rw [List.filter_append, List.map_append]
  split
  · next h => simp [h]
  · next h => simp [h]

section attempts

variable {cfg : Config} {buf : Buffer} {rnd : Nat → BitVec 8} {g : Regs} {n : Nat}
  (h : AttemptRun cfg buf rnd g n)
include h

/-- The nonces kept after the first attempt are those the trials keep. -/
theorem AttemptRun.kept {k : Nat} (hk : k < n) :
    keptNonces (((attemptEnds cfg buf rnd g).take (k + 1)).drop 1) =
      (nonceTrials buf).kept (attemptStart cfg buf rnd g 1).saved
        ((List.range k).map (nonceAt rnd)) := by
  have hends : ((attemptEnds cfg buf rnd g).take (k + 1)).drop 1 =
      (List.range k).map fun j => attemptEnd cfg buf rnd g (j + 1) := by
    rw [h.take_ends hk, List.range_succ_eq_map, List.map_cons, List.drop_one, List.tail_cons,
      List.map_map]
    rfl
  rw [hends]
  clear hends
  induction k with
  | zero => rfl
  | succ k ih =>
    have hnonce : (attemptEnd cfg buf rnd g (k + 1)).nonce = nonceAt rnd k := h.nonce hk
    have hacc := h.accepts_iff hk
    rw [h.saved_run (k := k) (by omega)] at hacc
    rw [List.range_succ, List.map_append, List.map_singleton, List.map_append, List.map_singleton,
      Trials.kept_concat, keptNonces_concat, ih (by omega), hnonce]
    simp only [hacc]
    rfl

/-! ## Section 3: Leaving the rejected nonces out -/

/-- With room in the pool and attempts left, another attempt follows. -/
theorem AttemptRun.continues {k : Nat} (hk : k < n)
    (hroom : (attemptStart cfg buf rnd g (k + 1)).inonce < cfg.nonceNum)
    (hlimit : k + 1 < cfg.loopCount) : k + 1 < n := by
  have hcount : (attemptEnd cfg buf rnd g k).count = k := h.count hk
  rw [attemptStart_succ, genChecksumEnd_inonce] at hroom
  refine h.lt_of_pc hk ?_
  rw [attemptStart_succ, genChecksumEnd_continues cfg rnd (h.not_full hk) hroom
    (by rwa [GenState.judged_count, hcount])]
  simp [GenState.nextAttempt]

variable {rnd' : Nat → BitVec 8} {n' : Nat} (h' : AttemptRun cfg buf rnd' g n')
include h'

/-- A run that draws the kept nonces alone saves the same. -/
theorem AttemptRun.reduced {k : Nat} (hk : k < n) {ns : List Word}
    (hns : keptNonces (((attemptEnds cfg buf rnd g).take (k + 1)).drop 1) = ns)
    (hrnd : Draws rnd' ns) :
    ns.length < n' ∧ (attemptStart cfg buf rnd' g (ns.length + 1)).saved =
      (attemptStart cfg buf rnd g (k + 1)).saved := by
  have hdrawn : (List.range ns.length).map (nonceAt rnd') = ns := by
    refine List.ext_getElem (by simp) fun j hj hj' => ?_
    simpa using hrnd j _ (List.getElem?_eq_getElem hj')
  rw [h.kept hk] at hns
  have hsaved := h.saved_run hk
  have hinonce := nonceTrials_inonce buf (attemptStart cfg buf rnd g 1).saved
    ((List.range k).map (nonceAt rnd))
  rw [← hsaved, hns] at hinonce
  have hpool : (attemptStart cfg buf rnd g (k + 1)).saved.inonce ≤ cfg.nonceNum :=
    h.inonce_succ_le hk
  have hlen : ns.length ≤ k := by
    rw [← hns]
    simpa using (nonceTrials buf).kept_length_le (attemptStart cfg buf rnd g 1).saved
      ((List.range k).map (nonceAt rnd))
  -- the shorter run does not end before its last kept nonce
  have hruns : ∀ i ≤ ns.length, i < n' := by
    intro i
    induction i with
    | zero => exact fun _ => h'.pos
    | succ i ih =>
      intro hi
      have hi' := ih (by omega)
      have hcount := nonceTrials_inonce buf (attemptStart cfg buf rnd' g 1).saved
        ((List.range i).map (nonceAt rnd'))
      have hle := (nonceTrials buf).kept_length_le (attemptStart cfg buf rnd' g 1).saved
        ((List.range i).map (nonceAt rnd'))
      rw [← h'.saved_run hi', attemptStart_one_saved rnd rnd'] at hcount
      rw [attemptStart_one_saved rnd rnd', List.length_map, List.length_range] at hle
      have hlimit := h.limit
      refine h'.continues hi' ?_ (by omega)
      show (attemptStart cfg buf rnd' g (i + 1)).saved.inonce < cfg.nonceNum
      omega
  refine ⟨hruns _ (Nat.le_refl _), ?_⟩
  rw [h'.saved_run (hruns _ (Nat.le_refl _)), hdrawn, attemptStart_one_saved rnd rnd', hsaved,
    ← hns, Trials.run_kept]

omit h' in
/-- A run that stays below the attempt limit ends with a full pool. -/
theorem AttemptRun.pool_full (hcount : (generateNonce cfg buf rnd g).count < cfg.loopCount) :
    (attemptStart cfg buf rnd g n).inonce = cfg.nonceNum := by
  obtain ⟨k, rfl⟩ := Nat.exists_eq_succ_of_ne_zero (Nat.ne_of_gt h.pos)
  have hk : k < k + 1 := Nat.lt_succ_self k
  have hend : (attemptEnd cfg buf rnd g k).count = k := h.count hk
  have hlimit : k + 1 < cfg.loopCount := by
    have hret := h.result ▸ hcount
    change (attemptStart cfg buf rnd g (k + 1)).count < cfg.loopCount at hret
    rwa [attemptStart_succ, genChecksumEnd_count cfg rnd (h.not_full hk), GenState.judged_count,
      hend] at hret
  refine Nat.le_antisymm (h.inonce_succ_le hk) (Nat.le_of_not_lt fun hroom => ?_)
  exact Nat.lt_irrefl _ (h.continues hk hroom hlimit)

/-- The shorter run returns where the longer one does. -/
theorem AttemptRun.reduced_result {ns : List Word}
    (hns : keptNonces ((attemptEnds cfg buf rnd g).drop 1) = ns)
    (hrnd : Draws rnd' ns)
    (hcount : (generateNonce cfg buf rnd g).count < cfg.loopCount) :
    (attemptStart cfg buf rnd' g n').saved = (attemptStart cfg buf rnd g n).saved := by
  obtain ⟨k, rfl⟩ := Nat.exists_eq_succ_of_ne_zero (Nat.ne_of_gt h.pos)
  have hall : (attemptEnds cfg buf rnd g).take (k + 1) = attemptEnds cfg buf rnd g :=
    List.take_of_length_le (by simp [h.ends])
  obtain ⟨hlt, hsaved⟩ := h.reduced h' (Nat.lt_succ_self k) (hall.symm ▸ hns) hrnd
  have hfull : (attemptStart cfg buf rnd' g (ns.length + 1)).inonce = cfg.nonceNum := by
    have hinonce := congrArg Saved.inonce hsaved
    exact hinonce.trans (h.pool_full hcount)
  -- no attempt starts with a full pool
  have hlast : n' = ns.length + 1 := by
    refine Nat.le_antisymm (Nat.le_of_not_lt fun hlt' => ?_) hlt
    have hroom := (h'.start _ hlt').room
    omega
  rw [hlast, hsaved]

end attempts

/-! ## Section 4: No trace -/

/-- Both states have the same registers, marks and pool. -/
structure Unchanged (s t : GenState) : Prop where
  r        : s.core.r = t.core.r
  regState : s.regState = t.regState
  mm       : s.mm = t.mm
  marks    : s.core.marks = t.core.marks
  pool     : s.pool = t.pool
  inonce   : s.inonce = t.inonce

/-- Once an attempt is judged, `g_reg` and `g_mm_s` are what is saved. -/
theorem GenState.judged_restored (s : GenState) :
    s.judged.core.r = s.judged.regState ∧ s.judged.core.marks = s.judged.mm := by
  unfold GenState.judged
  split <;> exact ⟨rfl, rfl⟩

theorem GenState.saved_of_rejects {s : GenState} (h : ¬ s.Accepts) : s.judged.saved = s.saved := by
  rw [GenState.judged_of_rejects h]
  rfl

theorem unchanged_of_saved {s t : GenState} (hs : s.core.r = s.regState ∧ s.core.marks = s.mm)
    (ht : t.core.r = t.regState ∧ t.core.marks = t.mm) (h : s.saved = t.saved) : Unchanged s t := by
  have hreg : s.regState = t.regState := congrArg Saved.regs h
  have hmm : s.mm = t.mm := congrArg Saved.marks h
  exact ⟨by rw [hs.1, hreg, ht.1], hreg, hmm, by rw [hs.2, hmm, ht.2], congrArg Saved.pool h,
    congrArg Saved.inonce h⟩

/-- **Rejected nonces leave no trace.**  Whenever an attempt has been judged,
    and so before the next nonce is applied, `g_reg` is `g_reg_state` and `g_mm_s`
    is `g_mm`.  An attempt that is not accepted leaves registers, marks and
    pool as they were before it: after the attempt before, or at the start.
    After any attempt, a run that draws the accepted nonces alone has saved the
    same registers, marks and pool; and if the attempt limit was not reached,
    it returns with the same. -/
theorem rejected_leave_no_trace (cfg : Config) (buf : Buffer) (rnd : Nat → BitVec 8) (g : Regs) :
    (∀ e ∈ attemptEnds cfg buf rnd g,
      (judge e).1.core.r = (judge e).1.regState ∧ (judge e).1.core.marks = (judge e).1.mm) ∧
    (∀ e, (attemptEnds cfg buf rnd g)[0]? = some e → ¬ e.Accepts →
      Unchanged (judge e).1 (genInit g)) ∧
    (∀ k e e', (attemptEnds cfg buf rnd g)[k]? = some e →
      (attemptEnds cfg buf rnd g)[k + 1]? = some e' → ¬ e'.Accepts →
      Unchanged (judge e').1 (judge e).1) ∧
    (∀ k e, (attemptEnds cfg buf rnd g)[k]? = some e →
      ∀ ns, ns = keptNonces (((attemptEnds cfg buf rnd g).take (k + 1)).drop 1) →
      ∀ rnd', Draws rnd' ns → ∃ e', (attemptEnds cfg buf rnd' g)[ns.length]? = some e' ∧
        (judge e').1.saved = (judge e).1.saved) ∧
    (∀ rnd', Draws rnd' (keptNonces ((attemptEnds cfg buf rnd g).drop 1)) →
      (generateNonce cfg buf rnd g).count < cfg.loopCount →
      (generateNonce cfg buf rnd' g).saved = (generateNonce cfg buf rnd g).saved ∧
      (generateNonce cfg buf rnd' g).nonceCount = (generateNonce cfg buf rnd g).nonceCount) := by
  obtain ⟨n, h⟩ := exists_attemptRun cfg buf rnd g
  simp only [judge_fst]
  refine ⟨fun e _ => e.judged_restored, ?_, ?_, ?_, ?_⟩
  · intro e he hrej
    obtain ⟨-, rfl⟩ := h.getElem_ends.mp he
    refine unchanged_of_saved (GenState.judged_restored _) ⟨rfl, rfl⟩ ?_
    rw [GenState.saved_of_rejects hrej]
    rfl
  · intro k e e' he he' hrej
    obtain ⟨-, rfl⟩ := h.getElem_ends.mp he
    obtain ⟨-, rfl⟩ := h.getElem_ends.mp he'
    refine unchanged_of_saved (GenState.judged_restored _) (GenState.judged_restored _) ?_
    rw [GenState.saved_of_rejects hrej, ← attemptStart_saved]
    rfl
  · intro k e he ns hns rnd' hrnd
    obtain ⟨hk, rfl⟩ := h.getElem_ends.mp he
    obtain ⟨n', h'⟩ := exists_attemptRun cfg buf rnd' g
    obtain ⟨hlt, hsaved⟩ := h.reduced h' hk hns.symm hrnd
    rw [attemptStart_saved, attemptStart_saved] at hsaved
    exact ⟨_, h'.getElem_ends.mpr ⟨hlt, rfl⟩, hsaved⟩
  · intro rnd' hrnd hcount
    obtain ⟨n', h'⟩ := exists_attemptRun cfg buf rnd' g
    have hsaved := h.reduced_result h' rfl hrnd hcount
    rw [h'.result, h.result]
    exact ⟨hsaved, congrArg Saved.inonce hsaved⟩

/-- On the zero image, with a pool of one entry, the nonce 0 is rejected and
    `0xa0` accepted. -/
theorem nonce_zero_left_out :
    (generateNonce ⟨1, 10, Nat.one_pos⟩ Buffer.zero (bytesOf fun _ => 0xa0) fun _ => 0).saved =
      (generateNonce ⟨1, 10, Nat.one_pos⟩ Buffer.zero
        (bytesOf fun k => if k = 0 then 0 else 0xa0) fun _ => 0).saved := by
  have hkept : keptNonces ((attemptEnds ⟨1, 10, Nat.one_pos⟩ Buffer.zero
      (bytesOf fun k => if k = 0 then 0 else 0xa0) fun _ => 0).drop 1) = [0xa0] := by
    decide +kernel
  refine ((rejected_leave_no_trace ⟨1, 10, Nat.one_pos⟩ Buffer.zero
    (bytesOf fun k => if k = 0 then 0 else 0xa0) fun _ => 0).2.2.2.2 _ ?_ (by decide +kernel)).1
  intro j nonce hj
  rw [hkept] at hj
  rw [nonceAt_bytesOf, List.mem_singleton.mp (List.mem_of_getElem? hj)]

end Viper
