import VetGumstix.Framework.BitMask
import VetGumstix.Nic.Poll

/-! # Interrupt and Polling

    A frame that arrives raises `RSFL`.  The interrupt handler schedules
    `smsc911x_poll` and disables the interrupt; the poll takes frames from the
    FIFO, and when it finds none it acknowledges `RSFL`, tells NAPI that it is
    done and enables the interrupt again.  Handler and poll may run on two
    processors, so the model takes their statements one by one, the read and
    the write of `INT_EN` apart, and lets frames arrive between any two.

    Whether the chip raises `RSFL` again by itself while the FIFO is not empty is
    a parameter, `level`.

    * `asleep_only_by_window`: a frame is left lying without interrupt or poll
      only if a frame arrived between the look at the empty FIFO and the
      acknowledgement, and only on a chip that does not raise `RSFL` again.
    * `window_sleeps`: on such a chip it then is.
    * `int_en_kept`: while the interface is not stopped, no change of `INT_EN` is
      ever lost, and `napi_schedule_prep` never fails.
    * `poll_plays`: the loop of `poll` is a run of these statements.
-/

namespace Nic

open BitMask Transition

/-! ## Section 1: The transitions -/

/-- What `smsc911x_irqhandler` does next. -/
inductive RsflHandler where
  | idle
  | inten (seen : Bool)         -- `INT_STS` has been read
  | prep                        -- `napi_schedule_prep`
  | readEn
  | writeEn (temp : BitVec 32)
  | schedule                    -- `__napi_schedule`
deriving DecidableEq

/-- What `smsc911x_poll` does next. -/
inductive Poller where
  | off
  | look (budget : Nat)         -- the loop, for so many more packets
  | ack
  | complete                    -- `napi_complete`
  | readEn
  | writeEn (temp : BitVec 32)

structure NapiState where
  waiting : Nat        -- frames in the RX status FIFO
  rsfl : Bool          -- `INT_STS_RSFL_`
  intEn : BitVec 32
  sched : Bool         -- `NAPI_STATE_SCHED`
  disable : Bool       -- `NAPI_STATE_DISABLE`
  listed : Bool        -- on the poll list
  handler : RsflHandler
  poller : Poller

inductive NapiAction where
  | arrive             -- a frame arrives
  | irq                -- the handler is called, for this or another cause
  | handler            -- the next statement of the handler
  | softirq            -- `net_rx_action` calls the poll
  | poll (fail : Bool) -- its next statement; whether `netdev_alloc_skb` fails

/-- The interrupt is enabled. -/
def RsflEnabled (intEn : BitVec 32) : Prop := intEn &&& intRsfl ≠ 0

instance (w : BitVec 32) : Decidable (RsflEnabled w) := inferInstanceAs (Decidable (_ ≠ _))

def NapiState.handlerStep (s : NapiState) : NapiState :=
  match s.handler with
  | .idle         => s
  | .inten seen   => { s with handler := if seen ∧ RsflEnabled s.intEn then .prep else .idle }
  | .prep         =>
    if s.disable ∨ s.sched then { s with handler := .idle }
    else { s with sched := true, handler := .readEn }
  | .readEn       => { s with handler := .writeEn s.intEn }
  | .writeEn temp => { s with intEn := temp &&& ~~~intRsfl, handler := .schedule }
  | .schedule     => { s with listed := true, handler := .idle }

/-- A poll that has used up its weight, be it with a packet there is no memory
    for, leaves the rest to `net_rx_action`: it calls `napi_complete` when
    `napi_disable` waits. -/
def NapiState.pollStep (level fail : Bool) (s : NapiState) : NapiState :=
  match s.poller with
  | .off          => s
  | .look 0       =>
    if s.disable then { s with sched := false, listed := false, poller := .off }
    else { s with poller := .off }
  | .look (k + 1) =>
    if s.waiting = 0 then { s with poller := .ack }
    else { s with waiting := s.waiting - 1, poller := if fail ∧ 0 < k then .off else .look k }
  | .ack          => { s with rsfl := level && decide (0 < s.waiting), poller := .complete }
  | .complete     => { s with sched := false, listed := false, poller := .readEn }
  | .readEn       => { s with poller := .writeEn s.intEn }
  | .writeEn temp => { s with intEn := temp ||| intRsfl, poller := .off }

/-- `SMSC_NAPI_WEIGHT` -/
def smscNapiWeight : Nat := 16

def NapiState.Enabled (s : NapiState) : NapiAction → Prop
  | .arrive  => True
  | .irq     => s.handler = .idle
  | .handler => s.handler ≠ .idle
  | .softirq => s.listed = true ∧ s.poller = .off
  | .poll _  => s.poller ≠ .off

def NapiState.next (level : Bool) (s : NapiState) : NapiAction → NapiState
  | .arrive    => { s with waiting := s.waiting + 1, rsfl := true }
  | .irq       => { s with handler := .inten s.rsfl }
  | .handler   => s.handlerStep
  | .softirq   => { s with poller := if s.sched then .look smscNapiWeight else .off }
  | .poll fail => s.pollStep level fail

def NapiStep (level : Bool) : NapiState → NapiAction → NapiState → Prop :=
  Next NapiState.Enabled (NapiState.next level)

/-- After `smsc911x_open`: NAPI enabled, and then the interrupt. -/
structure NapiState.Opened (s : NapiState) : Prop where
  empty   : s.waiting = 0
  intEn   : RsflEnabled s.intEn
  sched   : s.sched = false
  disable : s.disable = false
  listed  : s.listed = false
  handler : s.handler = .idle
  poller  : s.poller = .off

/-- A frame waits, and neither an interrupt nor a poll is to come. -/
structure NapiState.Asleep (s : NapiState) : Prop where
  waiting : 0 < s.waiting
  sched   : s.sched = false
  poller  : s.poller = .off
  masked  : ¬ (s.rsfl = true ∧ RsflEnabled s.intEn)
  handler : s.handler ≠ .prep

/-! ## Section 2: The phases -/

/-- The handler does nothing about `RSFL`. -/
def RsflHandler.Outside (h : RsflHandler) : Prop := h = .idle ∨ ∃ seen, h = .inten seen

/-- NAPI is not scheduled; the interrupt is enabled. -/
structure Quiet (s : NapiState) : Prop where
  sched   : s.sched = false
  listed  : s.listed = false
  poller  : s.poller = .off
  intEn   : RsflEnabled s.intEn
  handler : s.handler.Outside ∨ s.handler = .prep

/-- The handler schedules the poll. -/
structure Scheduling (s : NapiState) : Prop where
  sched   : s.sched = true
  listed  : s.listed = false
  poller  : s.poller = .off
  handler : s.handler = .readEn ∨ s.handler = .writeEn s.intEn ∨
    s.handler = .schedule ∧ ¬ RsflEnabled s.intEn

/-- The poll is on its list. -/
structure Polling (s : NapiState) : Prop where
  sched   : s.sched = true
  listed  : s.listed = true
  intEn   : ¬ RsflEnabled s.intEn
  handler : s.handler.Outside
  poller  : s.poller ≠ .readEn ∧ ∀ temp, s.poller ≠ .writeEn temp

/-- The poll is done and enables the interrupt again. -/
structure Completing (s : NapiState) : Prop where
  sched   : s.sched = false
  listed  : s.listed = false
  intEn   : ¬ RsflEnabled s.intEn
  handler : s.handler.Outside
  poller  : s.poller = .readEn ∨ s.poller = .writeEn s.intEn

/-- While `napi_disable` waits, `net_rx_action` has completed a poll that has used
    up its weight; the interrupt stays disabled. -/
structure Spent (s : NapiState) : Prop where
  disable : s.disable = true
  sched   : s.sched = false
  listed  : s.listed = false
  intEn   : ¬ RsflEnabled s.intEn
  handler : s.handler.Outside
  poller  : s.poller = .off

/-- The phases of an interface that is up. -/
inductive Phase (s : NapiState) : Prop where
  | quiet (h : Quiet s)
  | scheduling (h : Scheduling s)
  | polling (h : Polling s)
  | completing (h : Completing s)
  | spent (h : Spent s)

theorem NapiState.Opened.phase {s : NapiState} (h : s.Opened) : Phase s :=
  .quiet ⟨h.sched, h.listed, h.poller, h.intEn, .inl (.inl h.handler)⟩

theorem rsflEnabled_set (w : BitVec 32) : RsflEnabled (w ||| intRsfl) := by
  apply and_ne_zero_of_bit 3
  · rw [BitVec.getLsbD_or, show intRsfl.getLsbD 3 = true from rfl, Bool.or_true]
  · rfl

theorem not_rsflEnabled_clear (w : BitVec 32) : ¬ RsflEnabled (w &&& ~~~intRsfl) := by
  unfold RsflEnabled
  rw [BitVec.and_assoc, show ~~~intRsfl &&& intRsfl = 0 by decide]
  exact not_not.mpr BitVec.and_zero

/-- Outside, the handler looks at `INT_EN` and leaves; only with the interrupt
    enabled does it go on. -/
theorem handlerStep_outside {s : NapiState} (h : s.handler.Outside) (hrun : s.handler ≠ .idle) :
    ∃ next, s.handlerStep = { s with handler := next } ∧
      (next = .idle ∨ next = .prep ∧ RsflEnabled s.intEn) := by
  rcases h with hidle | ⟨seen, hseen⟩
  · exact absurd hidle hrun
  · unfold NapiState.handlerStep
    rw [hseen]
    refine ⟨_, rfl, ?_⟩
    by_cases hgo : seen ∧ RsflEnabled s.intEn
    · exact .inr ⟨if_pos hgo, hgo.2⟩
    · exact .inl (if_neg hgo)

section Steps

variable {level : Bool} {s t : NapiState} {a : NapiAction}

/-- Only `napi_disable` sets `NAPI_STATE_DISABLE`. -/
theorem disable_step (hstep : NapiStep level s a t) : t.disable = s.disable := by
  obtain ⟨-, rfl⟩ := hstep
  cases a with
  | handler =>
    show s.handlerStep.disable = _
    unfold NapiState.handlerStep
    split <;> try rfl
    split <;> rfl
  | poll fail =>
    show (s.pollStep level fail).disable = _
    unfold NapiState.pollStep
    split <;> try rfl
    · split <;> rfl
    · split <;> rfl
  | _ => rfl

theorem quiet_step (h : Quiet s) (hstep : NapiStep level s a t) : Phase t := by
  obtain ⟨henabled, rfl⟩ := hstep
  cases a with
  | arrive => exact .quiet ⟨h.sched, h.listed, h.poller, h.intEn, h.handler⟩
  | irq => exact .quiet ⟨h.sched, h.listed, h.poller, h.intEn, .inl (.inr ⟨_, rfl⟩)⟩
  | handler =>
    show Phase s.handlerStep
    rcases h.handler with hout | hprep
    · obtain ⟨next, heq, hidle | ⟨hprep, -⟩⟩ := handlerStep_outside hout henabled
      · rw [heq, hidle]
        exact .quiet ⟨h.sched, h.listed, h.poller, h.intEn, .inl (.inl rfl)⟩
      · rw [heq, hprep]
        exact .quiet ⟨h.sched, h.listed, h.poller, h.intEn, .inr rfl⟩
    · unfold NapiState.handlerStep
      rw [hprep]
      dsimp only
      split
      · exact .quiet ⟨h.sched, h.listed, h.poller, h.intEn, .inl (.inl rfl)⟩
      · exact .scheduling ⟨rfl, h.listed, h.poller, .inl rfl⟩
  | softirq => exact nomatch h.listed.symm.trans henabled.1
  | poll fail => exact absurd h.poller henabled

theorem scheduling_step (h : Scheduling s) (hstep : NapiStep level s a t) : Phase t := by
  obtain ⟨henabled, rfl⟩ := hstep
  cases a with
  | arrive => exact .scheduling ⟨h.sched, h.listed, h.poller, h.handler⟩
  | irq =>
    have hidle : s.handler = .idle := henabled
    rcases h.handler with hh | hh | ⟨hh, -⟩ <;> exact nomatch hidle.symm.trans hh
  | handler =>
    show Phase s.handlerStep
    unfold NapiState.handlerStep
    rcases h.handler with hh | hh | ⟨hh, hmasked⟩
    · rw [hh]
      exact .scheduling ⟨h.sched, h.listed, h.poller, .inr (.inl rfl)⟩
    · rw [hh]
      exact .scheduling ⟨h.sched, h.listed, h.poller, .inr (.inr ⟨rfl, not_rsflEnabled_clear _⟩)⟩
    · rw [hh]
      refine .polling ⟨h.sched, rfl, hmasked, .inl rfl, ?_⟩
      rw [show s.poller = .off from h.poller]
      exact ⟨nofun, nofun⟩
  | softirq => exact nomatch h.listed.symm.trans henabled.1
  | poll fail => exact absurd h.poller henabled

/-- Where the interrupt is disabled, the handler does not leave its place
    outside. -/
theorem handlerStep_masked (h : s.handler.Outside) (hrun : s.handler ≠ .idle)
    (hmasked : ¬ RsflEnabled s.intEn) : s.handlerStep = { s with handler := .idle } := by
  obtain ⟨next, heq, hidle | ⟨-, hon⟩⟩ := handlerStep_outside h hrun
  · rw [heq, hidle]
  · exact absurd hon hmasked

theorem polling_step (h : Polling s) (hstep : NapiStep level s a t) : Phase t := by
  obtain ⟨henabled, rfl⟩ := hstep
  cases a with
  | arrive => exact .polling ⟨h.sched, h.listed, h.intEn, h.handler, h.poller⟩
  | irq => exact .polling ⟨h.sched, h.listed, h.intEn, .inr ⟨_, rfl⟩, h.poller⟩
  | handler =>
    show Phase s.handlerStep
    rw [handlerStep_masked h.handler henabled h.intEn]
    exact .polling ⟨h.sched, h.listed, h.intEn, .inl rfl, h.poller⟩
  | softirq =>
    show Phase { s with poller := if s.sched then .look smscNapiWeight else .off }
    rw [h.sched]
    exact .polling ⟨rfl, h.listed, h.intEn, h.handler, nofun, nofun⟩
  | poll fail =>
    show Phase (s.pollStep level fail)
    unfold NapiState.pollStep
    split
    · exact .polling h
    · split
      · rename_i hdisable
        exact .spent ⟨hdisable, rfl, rfl, h.intEn, h.handler, rfl⟩
      · exact .polling ⟨h.sched, h.listed, h.intEn, h.handler, nofun, nofun⟩
    · split
      · exact .polling ⟨h.sched, h.listed, h.intEn, h.handler, nofun, nofun⟩
      · refine .polling ⟨h.sched, h.listed, h.intEn, h.handler, ?_⟩
        dsimp only
        split <;> exact ⟨nofun, nofun⟩
    · exact .polling ⟨h.sched, h.listed, h.intEn, h.handler, nofun, nofun⟩
    · exact .completing ⟨rfl, rfl, h.intEn, h.handler, .inl rfl⟩
    · rename_i hp
      exact absurd hp h.poller.1
    · rename_i hp
      exact absurd hp (h.poller.2 _)

theorem completing_step (h : Completing s) (hstep : NapiStep level s a t) : Phase t := by
  obtain ⟨henabled, rfl⟩ := hstep
  cases a with
  | arrive => exact .completing ⟨h.sched, h.listed, h.intEn, h.handler, h.poller⟩
  | irq => exact .completing ⟨h.sched, h.listed, h.intEn, .inr ⟨_, rfl⟩, h.poller⟩
  | handler =>
    show Phase s.handlerStep
    rw [handlerStep_masked h.handler henabled h.intEn]
    exact .completing ⟨h.sched, h.listed, h.intEn, .inl rfl, h.poller⟩
  | softirq => exact nomatch h.listed.symm.trans henabled.1
  | poll fail =>
    show Phase (s.pollStep level fail)
    unfold NapiState.pollStep
    rcases h.poller with hp | hp
    · rw [hp]
      exact .completing ⟨h.sched, h.listed, h.intEn, h.handler, .inr rfl⟩
    · rw [hp]
      exact .quiet ⟨h.sched, h.listed, rfl, rsflEnabled_set _, .inl h.handler⟩

theorem spent_step (h : Spent s) (hstep : NapiStep level s a t) : Phase t := by
  obtain ⟨henabled, rfl⟩ := hstep
  cases a with
  | arrive => exact .spent ⟨h.disable, h.sched, h.listed, h.intEn, h.handler, h.poller⟩
  | irq => exact .spent ⟨h.disable, h.sched, h.listed, h.intEn, .inr ⟨_, rfl⟩, h.poller⟩
  | handler =>
    show Phase s.handlerStep
    rw [handlerStep_masked h.handler henabled h.intEn]
    exact .spent ⟨h.disable, h.sched, h.listed, h.intEn, .inl rfl, h.poller⟩
  | softirq => exact nomatch h.listed.symm.trans henabled.1
  | poll fail => exact absurd h.poller henabled

theorem phase_step (h : Phase s) (hstep : NapiStep level s a t) : Phase t := by
  cases h with
  | quiet h => exact quiet_step h hstep
  | scheduling h => exact scheduling_step h hstep
  | polling h => exact polling_step h hstep
  | completing h => exact completing_step h hstep
  | spent h => exact spent_step h hstep

/-! ## Section 3: No frame is forgotten -/

/-- No frame arrives between the look at the empty FIFO and the acknowledgement;
    for a chip that raises `RSFL` again it may. -/
def NoWindow (level : Bool) (s : NapiState) (a : NapiAction) : Prop :=
  level = true ∨ ¬ (a = .arrive ∧ s.poller = .ack)

/-- While no poll is to come, `RSFL` is raised for a waiting frame. -/
structure Awake (level : Bool) (s : NapiState) : Prop where
  on    : s.disable = false
  phase : Phase s
  ack   : level = false → s.poller = .ack → s.waiting = 0
  rsfl  : s.sched = false ∨ s.poller = .complete → 0 < s.waiting → s.rsfl = true

/-- The handler leaves the FIFO, `RSFL` and the poll alone, and never takes
    `NAPI_STATE_SCHED` back. -/
theorem handlerStep_keeps (s : NapiState) :
    s.handlerStep.waiting = s.waiting ∧ s.handlerStep.rsfl = s.rsfl ∧
      s.handlerStep.poller = s.poller ∧ (s.handlerStep.sched = false → s.sched = false) := by
  unfold NapiState.handlerStep
  split
  · exact ⟨rfl, rfl, rfl, id⟩
  · exact ⟨rfl, rfl, rfl, id⟩
  · split
    · exact ⟨rfl, rfl, rfl, id⟩
    · exact ⟨rfl, rfl, rfl, nofun⟩
  · exact ⟨rfl, rfl, rfl, id⟩
  · exact ⟨rfl, rfl, rfl, id⟩
  · exact ⟨rfl, rfl, rfl, id⟩

theorem sched_of_listed (h : Phase s) (hlisted : s.listed = true) : s.sched = true := by
  cases h with
  | quiet h => exact nomatch h.listed.symm.trans hlisted
  | scheduling h => exact h.sched
  | polling h => exact h.sched
  | completing h => exact nomatch h.listed.symm.trans hlisted
  | spent h => exact nomatch h.listed.symm.trans hlisted

/-- A statement of the poll keeps a raised `RSFL` until it has seen the FIFO
    empty. -/
theorem awake_poll (h : Awake level s) (hrun : s.poller ≠ .off) (fail : Bool)
    (hon : (s.pollStep level fail).disable = false) (hphase : Phase (s.pollStep level fail)) :
    Awake level (s.pollStep level fail) := by
  suffices hparts : (level = false → (s.pollStep level fail).poller = .ack →
      (s.pollStep level fail).waiting = 0) ∧
      ((s.pollStep level fail).sched = false ∨ (s.pollStep level fail).poller = .complete →
        0 < (s.pollStep level fail).waiting → (s.pollStep level fail).rsfl = true) from
    ⟨hon, hphase, hparts.1, hparts.2⟩
  clear hon hphase
  unfold NapiState.pollStep
  split
  · rename_i hp
    exact absurd hp hrun
  · rw [h.on]
    exact ⟨nofun, fun hc => h.rsfl (hc.imp_right nofun)⟩
  · rename_i k hp
    by_cases hempty : s.waiting = 0
    · rw [if_pos hempty]
      refine ⟨fun _ _ => hempty, ?_⟩
      intro _ hpos
      exact absurd hempty (Nat.pos_iff_ne_zero.mp hpos)
    · rw [if_neg hempty]
      -- the loop goes on or stops, and `RSFL` stays
      have hpoller : ∀ q : Poller, (∀ n, q ≠ .look n) → q ≠ .off →
          (if fail = true ∧ 0 < k then Poller.off else .look k) ≠ q := by
        intro q hlook hoff hc
        split at hc
        · exact hoff hc.symm
        · exact hlook k hc.symm
      refine ⟨fun _ hc => absurd hc (hpoller .ack nofun nofun), ?_⟩
      intro hc _
      exact h.rsfl (hc.imp_right fun hc => absurd hc (hpoller .complete nofun nofun))
        (Nat.pos_of_ne_zero hempty)
  · rename_i hp
    refine ⟨nofun, ?_⟩
    intro _ hpos
    cases level with
    | true => simpa using hpos
    | false => exact absurd (h.ack rfl hp) (Nat.pos_iff_ne_zero.mp hpos)
  · rename_i hp
    exact ⟨nofun, fun _ => h.rsfl (.inr hp)⟩
  · exact ⟨nofun, fun hc => h.rsfl (hc.imp_right nofun)⟩
  · exact ⟨nofun, fun hc => h.rsfl (hc.imp_right nofun)⟩

theorem awake_step (level : Bool) (s : NapiState) (a : NapiAction) (t : NapiState)
    (h : Awake level s) (hok : NoWindow level s a) (hstep : NapiStep level s a t) :
    Awake level t := by
  have hphase := phase_step h.phase hstep
  have hon := (disable_step hstep).trans h.on
  obtain ⟨henabled, rfl⟩ := hstep
  cases a with
  | arrive =>
    refine ⟨hon, hphase, ?_, fun _ _ => rfl⟩
    intro hlevel hack
    rcases hok with hl | hw
    · exact nomatch hlevel.symm.trans hl
    · exact absurd ⟨rfl, hack⟩ hw
  | irq => exact ⟨hon, hphase, h.ack, h.rsfl⟩
  | handler =>
    obtain ⟨hwaiting, hrsfl, hpoller, hsched⟩ := handlerStep_keeps s
    refine ⟨hon, hphase, ?_, ?_⟩
    · show level = false → s.handlerStep.poller = .ack → s.handlerStep.waiting = 0
      rw [hpoller, hwaiting]
      exact h.ack
    · show s.handlerStep.sched = false ∨ s.handlerStep.poller = .complete →
        0 < s.handlerStep.waiting → s.handlerStep.rsfl = true
      rw [hpoller, hwaiting, hrsfl]
      exact fun hc => h.rsfl (hc.imp_left hsched)
  | softirq =>
    have hsched := sched_of_listed h.phase henabled.1
    have hnext : s.next level .softirq = { s with poller := .look smscNapiWeight } := by
      show ({ s with poller := if s.sched then .look smscNapiWeight else .off } : NapiState) = _
      rw [if_pos hsched]
    rw [hnext] at hphase hon ⊢
    refine ⟨hon, hphase, nofun, ?_⟩
    rintro (hc | hc)
    · exact nomatch hsched.symm.trans hc
    · exact nomatch hc
  | poll fail => exact awake_poll h henabled fail hon hphase

theorem NapiState.Opened.awake (level : Bool) (h : s.Opened) : Awake level s := by
  refine ⟨h.disable, h.phase, fun _ _ => h.empty, ?_⟩
  intro _ hpos
  exact absurd h.empty (Nat.pos_iff_ne_zero.mp hpos)

theorem Awake.not_asleep (h : Awake level s) : ¬ s.Asleep := by
  intro hs
  have hrsfl := h.rsfl (.inl hs.sched) hs.waiting
  cases h.phase with
  | quiet hq => exact hs.masked ⟨hrsfl, hq.intEn⟩
  | scheduling hp => exact nomatch hp.sched.symm.trans hs.sched
  | polling hp => exact nomatch hp.sched.symm.trans hs.sched
  | completing hp =>
    rcases hp.poller with hc | hc <;> exact nomatch hs.poller.symm.trans hc
  | spent hp => exact nomatch h.on.symm.trans hp.disable

variable {tr : List (Taken NapiState NapiAction)}

/-- **A frame is forgotten only in one window**: on a chip that does not raise
    `RSFL` again, by an arrival between the look at the empty FIFO and the
    acknowledgement.  On a chip that does, never. -/
theorem asleep_only_by_window (hopen : s.Opened) (hrun : Run (NapiStep level) s tr t)
    (hasleep : t.Asleep) :
    level = false ∧ ∃ x ∈ tr, x.action = .arrive ∧ x.pre.poller = .ack := by
  by_contra hnone
  have hok : ∀ x ∈ tr, NoWindow level x.pre x.action := by
    intro x hx
    by_cases hlevel : level = true
    · exact .inl hlevel
    · right
      intro hwindow
      exact hnone ⟨by simpa using hlevel, x, hx, hwindow⟩
  exact (hrun.invariant (hopen.awake level) (awake_step level) hok).1.not_asleep hasleep

/-- As `smsc911x_open` leaves it, with `TDFA`, `RSFL` and `RXSTOP` enabled. -/
def openedNapi : NapiState := ⟨0, false, 0x01000208, false, false, false, .idle, .off⟩

theorem openedNapi_opened : openedNapi.Opened := ⟨rfl, by decide, rfl, rfl, rfl, rfl, rfl⟩

/-- One frame is polled, and the next one arrives in the window. -/
def windowActions : List NapiAction :=
  [.arrive, .irq, .handler, .handler, .handler, .handler, .handler, .softirq,
    .poll false, .poll false, .arrive, .poll false, .poll false, .poll false, .poll false]

theorem windowActions_playable :
    Playable NapiState.Enabled (NapiState.next false) openedNapi windowActions := by
  -- the handler goes on to `napi_schedule_prep`, for `RSFL` is enabled
  have hprep : (openedNapi.next false .arrive |>.next false .irq |>.next false .handler).handler ≠
      .idle := by decide
  exact ⟨trivial, rfl, nofun, hprep, nofun, nofun, nofun, ⟨rfl, rfl⟩, nofun, nofun, trivial,
    nofun, nofun, nofun, nofun, trivial⟩

theorem asleep_only_by_window_forgets :
    ∃ x ∈ steps (NapiState.next false) openedNapi windowActions,
      x.action = .arrive ∧ x.pre.poller = .ack := by
  have hasleep : (windowActions.foldl (NapiState.next false) openedNapi).Asleep :=
    ⟨by decide, rfl, rfl, nofun, nofun⟩
  exact (asleep_only_by_window openedNapi_opened (run_of_playable windowActions_playable)
    hasleep).2

/-- Nothing is to come before the next frame. -/
structure Forgotten (s : NapiState) : Prop where
  waiting : 0 < s.waiting
  rsfl    : s.rsfl = false
  sched   : s.sched = false
  listed  : s.listed = false
  poller  : s.poller = .off
  handler : s.handler = .idle ∨ s.handler = .inten false

theorem Forgotten.asleep (h : Forgotten s) : s.Asleep := by
  refine ⟨h.waiting, h.sched, h.poller, ?_, ?_⟩
  · intro hc
    exact nomatch h.rsfl.symm.trans hc.1
  · rcases h.handler with hh | hh <;> rw [hh] <;> exact nofun

theorem forgotten_step (level : Bool) (s : NapiState) (a : NapiAction) (t : NapiState)
    (h : Forgotten s) (hquiet : a ≠ .arrive) (hstep : NapiStep level s a t) : Forgotten t := by
  obtain ⟨henabled, rfl⟩ := hstep
  cases a with
  | arrive => exact absurd rfl hquiet
  | irq =>
    refine ⟨h.waiting, h.rsfl, h.sched, h.listed, h.poller, .inr ?_⟩
    show RsflHandler.inten s.rsfl = _
    rw [h.rsfl]
  | handler =>
    show Forgotten s.handlerStep
    unfold NapiState.handlerStep
    rcases h.handler with hh | hh
    · exact absurd hh henabled
    · rw [hh]
      refine ⟨h.waiting, h.rsfl, h.sched, h.listed, h.poller, .inl ?_⟩
      show (if false = true ∧ RsflEnabled s.intEn then RsflHandler.prep else .idle) = .idle
      rw [if_neg]
      rintro ⟨hc, -⟩
      exact Bool.false_ne_true hc
  | softirq => exact nomatch h.listed.symm.trans henabled.1
  | poll fail => exact absurd h.poller henabled

/-- The statements the handler still has to make. -/
def RsflHandler.left : RsflHandler → Nat
  | .idle      => 0
  | .schedule  => 1
  | .writeEn _ => 2
  | .readEn    => 3
  | .prep      => 4
  | .inten _   => 5

theorem handlerStep_left (h : s.handler ≠ .idle) :
    s.handlerStep.handler.left < s.handler.left := by
  unfold NapiState.handlerStep
  cases hh : s.handler with
  | idle => exact absurd hh h
  | inten seen =>
    dsimp only
    split <;> simp only [RsflHandler.left] <;> omega
  | prep =>
    dsimp only
    split <;> simp only [RsflHandler.left] <;> omega
  | readEn => exact Nat.lt_succ_self 2
  | writeEn temp => exact Nat.lt_succ_self 1
  | schedule => exact Nat.lt_succ_self 0

/-- Left to itself, the handler comes to its end, and the poll is where it was. -/
theorem handler_finishes (level : Bool) (s : NapiState) :
    ∃ tr t, Run (NapiStep level) s tr t ∧ t.handler = .idle ∧ t.waiting = s.waiting ∧
      t.poller = s.poller := by
  induction hleft : s.handler.left using Nat.strong_induction_on generalizing s with
  | _ n ih =>
    by_cases hidle : s.handler = .idle
    · exact ⟨[], s, .nil s, hidle, rfl, rfl⟩
    · obtain ⟨hwaiting, -, hpoller, -⟩ := handlerStep_keeps s
      obtain ⟨tr, t, hrun, hend, hwaiting', hpoller'⟩ :=
        ih _ (hleft ▸ handlerStep_left hidle) s.handlerStep rfl
      have hstep : NapiStep level s .handler s.handlerStep := ⟨hidle, rfl⟩
      exact ⟨_, t, .cons hstep hrun, hend, hwaiting'.trans hwaiting, hpoller'.trans hpoller⟩

/-- **The window forgets.**  On a chip that does not raise `RSFL` again, a frame
    that arrives while the poll is about to acknowledge may be left lying; it
    then is until another one arrives. -/
theorem window_sleeps (hack : s.poller = .ack) :
    ∃ tr t, Run (NapiStep false) s tr t ∧ t.waiting = s.waiting + 1 ∧
      ∀ tr' u, Run (NapiStep false) t tr' u → (∀ x ∈ tr', x.action ≠ .arrive) → u.Asleep := by
  obtain ⟨tr, ⟨waiting, rsfl, intEn, sched, disable, listed, handler, poller⟩, hfirst, hidle,
    hwaiting, hpoller⟩ := handler_finishes false s
  rw [hack] at hpoller
  cases hidle
  cases hpoller
  have hplay : Playable NapiState.Enabled (NapiState.next false)
      ⟨waiting, rsfl, intEn, sched, disable, listed, .idle, .ack⟩
      [.arrive, .poll false, .poll false, .poll false, .poll false] :=
    ⟨trivial, nofun, nofun, nofun, nofun, trivial⟩
  refine ⟨_, _, hfirst.append (run_of_playable hplay), congrArg (· + 1) hwaiting, ?_⟩
  intro tr' u hrun hquiet
  have hstart : Forgotten
      ⟨waiting + 1, false, intEn ||| intRsfl, false, disable, false, .idle, .off⟩ :=
    ⟨Nat.succ_pos waiting, rfl, rfl, rfl, rfl, .inl rfl⟩
  exact (hrun.invariant hstart (forgotten_step false) hquiet).1.asleep

/-- The handler is about to look at `INT_EN`. -/
theorem window_sleeps_empty :
    ∃ tr t, Run (NapiStep false) ⟨0, true, 0x01000200, true, false, true, .inten true, .ack⟩ tr t ∧
      t.waiting = 0 + 1 ∧
      ∀ tr' u, Run (NapiStep false) t tr' u → (∀ x ∈ tr', x.action ≠ .arrive) → u.Asleep :=
  window_sleeps rfl

/-! ## Section 4: `INT_EN` -/

theorem RsflHandler.Outside.cases {h : RsflHandler} (hout : h.Outside) :
    h ≠ .prep ∧ h ≠ .readEn ∧ ∀ temp, h ≠ .writeEn temp := by
  rcases hout with rfl | ⟨seen, rfl⟩ <;> exact ⟨nofun, nofun, nofun⟩

/-- What the handler writes back is what `INT_EN` still holds, without `RSFL`. -/
theorem handler_temp {temp : BitVec 32} (h : Phase s) (hh : s.handler = .writeEn temp) :
    temp = s.intEn := by
  cases h with
  | quiet h =>
    rcases h.handler with hout | hprep
    · exact absurd hh (hout.cases.2.2 temp)
    · exact nomatch hprep.symm.trans hh
  | scheduling h =>
    rcases h.handler with hc | hc | ⟨hc, -⟩
    · exact nomatch hc.symm.trans hh
    · exact (RsflHandler.writeEn.inj (hc.symm.trans hh)).symm
    · exact nomatch hc.symm.trans hh
  | polling h => exact absurd hh (h.handler.cases.2.2 temp)
  | completing h => exact absurd hh (h.handler.cases.2.2 temp)
  | spent h => exact absurd hh (h.handler.cases.2.2 temp)

/-- And so is what the poll writes back, with `RSFL`. -/
theorem poller_temp {temp : BitVec 32} (h : Phase s) (hp : s.poller = .writeEn temp) :
    temp = s.intEn := by
  cases h with
  | quiet h => exact nomatch h.poller.symm.trans hp
  | scheduling h => exact nomatch h.poller.symm.trans hp
  | polling h => exact absurd hp (h.poller.2 temp)
  | completing h =>
    rcases h.poller with hc | hc
    · exact nomatch hc.symm.trans hp
    · exact (Poller.writeEn.inj (hc.symm.trans hp)).symm
  | spent h => exact nomatch h.poller.symm.trans hp

/-- The bits of `INT_EN` besides `RSFL`. -/
theorem other_bits_step (h : Phase s) (hstep : NapiStep level s a t) :
    t.intEn &&& ~~~intRsfl = s.intEn &&& ~~~intRsfl := by
  obtain ⟨-, rfl⟩ := hstep
  cases a with
  | arrive => rfl
  | irq => rfl
  | handler =>
    show s.handlerStep.intEn &&& _ = _
    unfold NapiState.handlerStep
    split
    · rfl
    · rfl
    · split <;> rfl
    · rfl
    · rename_i temp hh
      rw [handler_temp h hh, BitVec.and_assoc, BitVec.and_self]
    · rfl
  | softirq => rfl
  | poll fail =>
    show (s.pollStep level fail).intEn &&& _ = _
    unfold NapiState.pollStep
    split
    · rfl
    · split <;> rfl
    · split <;> rfl
    · rfl
    · rfl
    · rfl
    · rename_i temp hp
      have hclear : intRsfl &&& ~~~intRsfl = 0#32 := by decide
      rw [poller_temp h hp, BitVec.and_or_distrib_right, hclear, BitVec.or_zero]

/-- The handler and the poll are never both about to change `INT_EN`. -/
def Exclusive (s : NapiState) : Prop :=
  (s.handler = .prep ∨ s.handler = .readEn ∨ ∃ temp, s.handler = .writeEn temp) →
    s.poller = .off

theorem Phase.exclusive (h : Phase s) : Exclusive s := by
  intro hc
  -- while the poll runs, the handler stays outside
  have hout : ¬ s.handler.Outside := by
    intro hout
    obtain ⟨hprep, hread, hwrite⟩ := hout.cases
    rcases hc with hc | hc | ⟨temp, hc⟩
    · exact hprep hc
    · exact hread hc
    · exact hwrite temp hc
  cases h with
  | quiet h => exact h.poller
  | scheduling h => exact h.poller
  | polling h => exact absurd h.handler hout
  | completing h => exact absurd h.handler hout
  | spent h => exact absurd h.handler hout

theorem Phase.prep_free (h : Phase s) (hprep : s.handler = .prep) : s.sched = false := by
  cases h with
  | quiet h => exact h.sched
  | scheduling h =>
    rcases h.handler with hc | hc | ⟨hc, -⟩ <;> exact nomatch hprep.symm.trans hc
  | polling h => exact absurd hprep h.handler.cases.1
  | completing h => exact absurd hprep h.handler.cases.1
  | spent h => exact absurd hprep h.handler.cases.1

/-- **No change of `INT_EN` is lost**, while the interface is not stopped: the
    other interrupts stay enabled or not as they were; the handler and the poll
    never change it at the same time; and whenever the handler asks,
    `napi_schedule_prep` succeeds. -/
theorem int_en_kept (hopen : s.Opened) (hrun : Run (NapiStep level) s tr t) :
    t.intEn &&& ~~~intRsfl = s.intEn &&& ~~~intRsfl ∧
      ∀ x ∈ tr, Exclusive x.pre ∧
        (x.pre.handler = .prep → x.pre.disable = false ∧ x.pre.sched = false) := by
  have hstep : ∀ (u : NapiState) a v,
      (u.disable = false ∧ Phase u) ∧ u.intEn &&& ~~~intRsfl = s.intEn &&& ~~~intRsfl → True →
      NapiStep level u a v →
      (v.disable = false ∧ Phase v) ∧ v.intEn &&& ~~~intRsfl = s.intEn &&& ~~~intRsfl := by
    rintro u a v ⟨⟨hon, hphase⟩, hbits⟩ _ huv
    exact ⟨⟨(disable_step huv).trans hon, phase_step hphase huv⟩,
      (other_bits_step hphase huv).trans hbits⟩
  obtain ⟨hend, hall⟩ := hrun.invariant ⟨⟨hopen.disable, hopen.phase⟩, rfl⟩ hstep
    (fun _ _ => trivial)
  refine ⟨hend.2, ?_⟩
  intro x hx
  obtain ⟨⟨hon, hphase⟩, -⟩ := hall x hx
  exact ⟨hphase.exclusive, fun hprep => ⟨hon, hphase.prep_free hprep⟩⟩

theorem int_en_kept_window :
    (windowActions.foldl (NapiState.next false) openedNapi).intEn &&& ~~~intRsfl = 0x01000200 :=
  (int_en_kept openedNapi_opened (run_of_playable windowActions_playable)).1

end Steps

/-! ## Section 5: The loop of `poll` -/

/-- The device as handler and poll see it. -/
def Device.napi (d : Device) (poller : Poller) : NapiState where
  waiting := d.rxStatus.length
  rsfl := decide (RsflEnabled d.intSts)
  intEn := d.intEn
  sched := d.napiScheduled
  disable := false
  listed := d.napiScheduled
  handler := .idle
  poller := poller

section Plays

variable {f : Responder} {alloc : Nat → (length : Nat) → Option (Fresh length)}
  {rxstat : BitVec 32} {more : List (BitVec 32)} {d d' : Device}

/-- Whether a packet is answered or handed on, the interrupt is as before. -/
theorem receive_napi {m : Fresh (4 * pktwords rxstat)} (h : d.receive f rxstat m = some d')
    (p : Poller) : d'.napi p = d.napi p ∧ d'.rxStatus = d.rxStatus := by
  simp only [Device.receive, Option.bind_eq_bind, Option.bind_eq_some_iff] at h
  obtain ⟨s, -, ⟨challenge, t⟩, -, heq⟩ := h
  cases heq
  cases challenge <;> exact ⟨rfl, rfl⟩

/-- A packet is taken from the FIFO. -/
theorem napi_take (level fail : Bool) (budget : Nat) (hstatus : d.rxStatus = rxstat :: more) :
    NapiStep level (d.napi (.look (budget + 1))) (.poll fail)
      ({ d with rxStatus := more }.napi (if fail ∧ 0 < budget then .off else .look budget)) := by
  refine ⟨nofun, ?_⟩
  have hlen : d.rxStatus.length = more.length + 1 := by rw [hstatus, List.length_cons]
  show _ = (d.napi (.look (budget + 1))).pollStep level fail
  simp [NapiState.pollStep, Device.napi, hlen]

/-- Without memory the loop ends, and with it the call. -/
theorem napi_starved (level : Bool) (budget : Nat) (hstatus : d.rxStatus = rxstat :: more) :
    ∃ tr, Run (NapiStep level) (d.napi (.look (budget + 1))) tr
        ({ d with rxStatus := more }.napi .off) ∧
      ∀ x ∈ tr, ∃ fail, x.action = .poll fail := by
  have htake := napi_take level true budget hstatus
  cases budget with
  | zero =>
    -- this was the last packet of the budget
    have hlast : NapiStep level ({ d with rxStatus := more }.napi (.look 0)) (.poll false)
        ({ d with rxStatus := more }.napi .off) := ⟨nofun, rfl⟩
    refine ⟨_, .cons htake (.cons hlast (.nil _)), ?_⟩
    intro x hx
    simp only [List.mem_cons, List.not_mem_nil, or_false] at hx
    rcases hx with rfl | rfl
    · exact ⟨true, rfl⟩
    · exact ⟨false, rfl⟩
  | succ budget =>
    rw [if_pos ⟨rfl, Nat.succ_pos budget⟩] at htake
    refine ⟨_, .cons htake (.nil _), ?_⟩
    intro x hx
    exact ⟨true, by rw [List.mem_singleton.mp hx]⟩

/-- One packet, and then the rest of the loop. -/
theorem napi_continue {level : Bool} {budget : Nat} {e : Device}
    (hstatus : d.rxStatus = rxstat :: more)
    (he : ∀ p, e.napi p = { d with rxStatus := more }.napi p)
    (hrest : ∃ tr, Run (NapiStep level) (e.napi (.look budget)) tr (d'.napi .off) ∧
      ∀ x ∈ tr, ∃ fail, x.action = .poll fail) :
    ∃ tr, Run (NapiStep level) (d.napi (.look (budget + 1))) tr (d'.napi .off) ∧
      ∀ x ∈ tr, ∃ fail, x.action = .poll fail := by
  obtain ⟨tr, hrun, hall⟩ := hrest
  rw [he] at hrun
  have htake := napi_take level false budget hstatus
  rw [if_neg (fun hc => Bool.false_ne_true hc.1)] at htake
  refine ⟨_, .cons htake hrun, ?_⟩
  intro x hx
  rcases List.mem_cons.mp hx with rfl | hx
  · exact ⟨false, rfl⟩
  · exact hall x hx

/-- With an empty FIFO the poll acknowledges, completes and enables. -/
theorem napi_finish (level : Bool) (budget : Nat) (hstatus : d.rxStatus = []) :
    ∃ tr, Run (NapiStep level) (d.napi (.look (budget + 1))) tr (d.complete.napi .off) ∧
      ∀ x ∈ tr, ∃ fail, x.action = .poll fail := by
  have hempty : (d.napi (.look (budget + 1))).waiting = 0 := by
    show d.rxStatus.length = 0
    rw [hstatus, List.length_nil]
  have hack : NapiStep level (d.napi (.look (budget + 1))) (.poll false) (d.napi .ack) := by
    refine ⟨nofun, ?_⟩
    show _ = (d.napi (.look (budget + 1))).pollStep level false
    unfold NapiState.pollStep
    exact (if_pos hempty).symm
  have hplay : Playable NapiState.Enabled (NapiState.next level) (d.napi .ack)
      (List.replicate 4 (.poll false)) := ⟨nofun, nofun, nofun, nofun, trivial⟩
  have hrsfl : decide (RsflEnabled (d.intSts &&& ~~~intRsfl)) =
      (level && decide (0 < d.rxStatus.length)) := by
    rw [hstatus, decide_eq_false (not_rsflEnabled_clear _)]
    exact (Bool.and_false level).symm
  have hend : (List.replicate 4 (NapiAction.poll false)).foldl (NapiState.next level)
      (d.napi .ack) = d.complete.napi .off := by
    show { d.napi .off with
      rsfl := level && decide (0 < d.rxStatus.length), sched := false, listed := false,
      intEn := d.intEn ||| intRsfl } = _
    rw [← hrsfl]
    rfl
  refine ⟨_, .cons hack (hend ▸ run_of_playable hplay), ?_⟩
  intro x hx
  rcases List.mem_cons.mp hx with rfl | hx
  · exact ⟨false, rfl⟩
  · exact ⟨false, List.eq_of_mem_replicate (action_of_mem_steps hx)⟩

/-- **`poll` plays**: its loop is a run of the poll's statements that nothing
    interrupts, and it reports as many packets as it took from the FIFO. -/
theorem poll_plays (level : Bool) {budget n n' : Nat} (hwords : ∀ w ∈ d.rxStatus, w ≠ 0)
    (hpoll : poll f alloc budget n d = some (n', d')) :
    n' + d'.rxStatus.length = n + d.rxStatus.length ∧
      ∃ tr, Run (NapiStep level) (d.napi (.look budget)) tr (d'.napi .off) ∧
        ∀ x ∈ tr, ∃ fail, x.action = .poll fail := by
  induction budget generalizing n d with
  | zero =>
    obtain ⟨rfl, rfl⟩ := Prod.mk.inj (Option.some.inj hpoll)
    have hstop : NapiStep level (d.napi (.look 0)) (.poll false) (d.napi .off) := ⟨nofun, rfl⟩
    refine ⟨rfl, _, .cons hstop (.nil _), ?_⟩
    intro x hx
    exact ⟨false, by rw [List.mem_singleton.mp hx]⟩
  | succ budget ih =>
    unfold poll at hpoll
    cases hstatus : d.rxStatus with
    | nil =>
      have hget : d.rxGetRxstatus = (0, d) := by
        unfold Device.rxGetRxstatus
        rw [hstatus]
      rw [hget] at hpoll
      obtain ⟨rfl, rfl⟩ := Prod.mk.inj (Option.some.inj hpoll)
      exact ⟨congrArg (n + ·.length) hstatus, napi_finish level budget hstatus⟩
    | cons rxstat more =>
      have hget : d.rxGetRxstatus = (rxstat, { d with rxStatus := more }) := by
        unfold Device.rxGetRxstatus
        rw [hstatus]
      have hword : rxstat ≠ 0 := hwords _ (hstatus ▸ List.mem_cons_self)
      have hmore : ∀ w ∈ more, w ≠ 0 := by
        intro w hw
        exact hwords w (hstatus ▸ List.mem_cons_of_mem _ hw)
      rw [hget] at hpoll
      dsimp only at hpoll
      rw [if_neg hword] at hpoll
      split at hpoll
      · -- a packet with an error is dropped
        obtain ⟨hcount, hrest⟩ := ih hmore hpoll
        refine ⟨?_, napi_continue hstatus (fun _ => rfl) hrest⟩
        rw [hcount, List.length_cons]
        exact Nat.add_right_comm n 1 more.length
      · split at hpoll
        · -- without memory the loop ends
          cases hpoll
          refine ⟨?_, napi_starved level budget hstatus⟩
          rw [List.length_cons]
          exact Nat.add_right_comm n 1 more.length
        · obtain ⟨e, hreceive, hpoll⟩ := Option.bind_eq_some_iff.mp hpoll
          have hline : e.rxStatus = more := (receive_napi hreceive .off).2
          obtain ⟨hcount, hrest⟩ := ih (hline ▸ hmore) hpoll
          refine ⟨?_, napi_continue hstatus (fun p => (receive_napi hreceive p).1) hrest⟩
          rw [hcount, hline, List.length_cons]
          exact Nat.add_right_comm n 1 more.length

/-- A packet with an error has come in. -/
def busyDevice : Device where
  rxStatus := [0x00408000]
  rxData := List.replicate 17 0
  intSts := intRsfl
  intEn := 0x01000200
  napiScheduled := true
  stats := ⟨0, 0, 0, 0, 0, 0, 0⟩
  tx := opened
  txData := []
  sent := []
  received := []

theorem poll_plays_error :
    ∃ (d' : Device) (tr : _), Run (NapiStep true) (busyDevice.napi (.look 16)) tr (d'.napi .off) ∧
      1 + d'.rxStatus.length = 1 := by
  have hwords : ∀ w ∈ busyDevice.rxStatus, w ≠ 0 := by
    intro w hw
    rw [List.mem_singleton.mp hw]
    decide
  obtain ⟨hcount, tr, hrun, -⟩ := poll_plays (f := ⟨id, id⟩) true hwords
    (show poll ⟨id, id⟩ (fun _ _ => none) 16 0 busyDevice = some (1, _) from rfl)
  exact ⟨_, tr, hrun, hcount⟩

end Plays

end Nic
