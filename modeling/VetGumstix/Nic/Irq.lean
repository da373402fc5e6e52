import VetGumstix.Framework.BitMask
import VetGumstix.Framework.Transition
import VetGumstix.Nic.Mac
import VetGumstix.Nic.Napi

/-! # The Interrupt Line

    The chip pulls its interrupt line while a source is pending in `INT_STS` and
    enabled in `INT_EN`.  The line is shared, so that `smsc911x_irqhandler` is
    called for other devices too and has to say whether it had anything to do;
    and a source that it leaves both pending and enabled has it called again.

    The system is that of `Nic.Napi` with the rest of the handler, the other
    sources, and `smsc911x_open` and `smsc911x_stop` around it, all of them
    statement by statement.  The chip may raise a source between any two.  There
    is one processor: the handler interrupts the poll and both interrupt the
    statements of `smsc911x_open` and `smsc911x_stop`, never the other way round.

    * `live_napi`: while the interface is up, the handler's part for received
      packets and the poll move as in `Nic.Napi`.
    * `irq_quiets`: over every life of the interface, the handler says that it was
      for the driver exactly when an enabled source was pending; and of what is
      pending and enabled when it returns, while the chip may pull the line, all
      has been raised after it has read `INT_STS`.
-/

namespace Nic

open BitMask Transition

/-! ## Section 1: The handler -/

/-- `INT_STS_SW_INT_`, and `INT_EN_SW_INT_EN_` -/
def intSw : Word := 0x80000000
/-- `INT_STS_RXSTOP_INT_`, and `INT_EN_RXSTOP_INT_EN_` -/
def intRxstop : Word := 0x01000000
/-- `INT_STS_RXE_` -/
def intRxe : Word := 0x00004000
/-- `INT_STS_TDFA_`, and `INT_EN_TDFA_EN_` -/
def intTdfa : Word := 0x00000200

/-- The statements of `smsc911x_irqhandler` before its part for received
    packets. -/
inductive IrqOp where
  | readEn
  | writeEn                -- without `INT_EN_SW_INT_EN_`
  | ack (source : Word)
  | signal                 -- `software_irq_signal = 1`
  | update                 -- `smsc911x_rx_multicast_update_workaround`
  | readFifo
  | writeFifo
  | wake                   -- `netif_wake_queue`
deriving DecidableEq

/-- `if (intsts & inten & source)` -/
def onSource (due source : Word) (ops : List IrqOp) : List IrqOp :=
  if due &&& source ≠ 0 then ops else []

/-- Which of them are made when `intsts & inten` is `due`. -/
def irqProgram (due : Word) : List IrqOp :=
  onSource due intSw [.readEn, .writeEn, .ack intSw, .signal] ++
  onSource due intRxstop [.ack intRxstop, .update] ++
  onSource due intTdfa [.readFifo, .writeFifo, .ack intTdfa, .wake] ++
  onSource due intRxe [.ack intRxe]

/-- Whether it returns `IRQ_HANDLED`. -/
def serviced (due : Word) : Bool :=
  decide (due &&& intSw ≠ 0 ∨ due &&& intRxstop ≠ 0 ∨ due &&& intTdfa ≠ 0 ∨
    due &&& intRxe ≠ 0 ∨ due &&& intRsfl ≠ 0)

/-- Where a call of the handler is.  Its part for received packets follows the
    statements `todo`; it is the `handler` of `NapiState`. -/
inductive IrqCall where
  | idle
  | inten (intsts : Word)                          -- `INT_STS` has been read
  | body (due temp : Word) (todo : List IrqOp)
deriving DecidableEq

/-- The next statement of `smsc911x_open` or `smsc911x_stop`, of those that
    matter here. -/
inductive IfaceStmt where
  | closed
  | clearEn                  -- `INT_EN` is cleared
  | clearSts
  | config                   -- `INT_CFG_IRQ_EN_`
  | unsignal                 -- `software_irq_signal = 0`
  | readTest
  | writeTest (temp : Word)
  | test                     -- waits for the test interrupt
  | readFifo
  | writeFifo (temp : Word)
  | napiEnable
  | readEn
  | writeEn (temp : Word)
  | startQueue
  | running
  | stopQueue
  | setDisable               -- `napi_disable`
  | grab                     -- waits for `NAPI_STATE_SCHED`
  | clearDisable
deriving DecidableEq

structure IrqState extends NapiState where
  irqEn : Bool               -- `INT_CFG_IRQ_EN_`
  sources : Word             -- `INT_STS` but for `RSFL`
  fifoInt : Word
  softwareIrqSignal : Bool
  stopped : Bool             -- the transmit queue
  call : IrqCall
  iface : IfaceStmt
  raised : Word              -- the sources raised after the handler has read `INT_STS`

def IrqState.intSts (s : IrqState) : Word :=
  s.sources &&& ~~~intRsfl ||| (if s.rsfl then intRsfl else 0)

/-- One of the statements, with the handler's `temp`. -/
def IrqState.exec (s : IrqState) (temp : Word) : IrqOp → Word × IrqState
  | .readEn     => (s.intEn, s)
  | .writeEn    => (temp, { s with intEn := temp &&& ~~~intSw })
  -- a one written to `INT_STS` clears the source
  | .ack source => (temp, { s with sources := s.sources &&& ~~~source })
  | .signal     => (temp, { s with softwareIrqSignal := true })
  | .update     => (temp, s)
  | .readFifo   => (s.fifoInt, s)
  | .writeFifo  => (temp, { s with fifoInt := temp ||| 0xFF000000 })
  | .wake       => (temp, { s with stopped := false })

/-- The next statement of `smsc911x_irqhandler`; it returns when none is left. -/
def IrqState.handlerStep (s : IrqState) : IrqState :=
  match s.call with
  | .idle => s
  | .inten intsts => { s with
      toNapiState := s.toNapiState.handlerStep
      call := .body (intsts &&& s.intEn) 0 (irqProgram (intsts &&& s.intEn)) }
  | .body due temp (op :: todo) =>
    { (s.exec temp op).2 with call := .body due (s.exec temp op).1 todo }
  | .body _ _ [] =>
    if s.handler = .idle then { s with call := .idle }
    else { s with toNapiState := s.toNapiState.handlerStep }

/-! ## Section 2: The transitions -/

/-- The next statement of `smsc911x_open` or `smsc911x_stop`. -/
def IrqState.ifaceStep (level : Bool) (s : IrqState) : IrqState :=
  match s.iface with
  | .closed         => s
  | .clearEn        => { s with intEn := 0, iface := .clearSts }
  | .clearSts       => { s with
      sources := 0, rsfl := level && decide (0 < s.waiting), iface := .config }
  | .config         => { s with irqEn := true, iface := .unsignal }
  | .unsignal       => { s with softwareIrqSignal := false, iface := .readTest }
  | .readTest       => { s with iface := .writeTest s.intEn }
  | .writeTest temp => { s with intEn := temp ||| intSw, iface := .test }
  | .test           => { s with iface := .readFifo }
  | .readFifo       => { s with iface := .writeFifo s.fifoInt }
  | .writeFifo temp => { s with
      fifoInt := (temp ||| 0xFF000000) &&& ~~~0x000000FF, iface := .napiEnable }
  | .napiEnable     => { s with sched := false, iface := .readEn }
  | .readEn         => { s with iface := .writeEn s.intEn }
  | .writeEn temp   => { s with
      intEn := temp ||| (intTdfa ||| intRsfl ||| intRxstop), iface := .startQueue }
  | .startQueue     => { s with stopped := false, iface := .running }
  | .running        => s
  | .stopQueue      => { s with stopped := true, iface := .setDisable }
  | .setDisable     => { s with disable := true, iface := .grab }
  | .grab           => { s with sched := true, iface := .clearDisable }
  | .clearDisable   => { s with disable := false, iface := .closed }

/-- It does not have to wait. -/
def IrqState.Passes (s : IrqState) : Prop :=
  match s.iface with
  | .closed  => False
  | .running => False
  | .test    => s.softwareIrqSignal = true
  | .grab    => s.sched = false
  | _        => True

/-- Neither the handler nor the poll runs. -/
def IrqState.Free (s : IrqState) : Prop := s.call = .idle ∧ s.poller = .off

inductive IrqAction where
  | arrive                                   -- a frame arrives
  | raise (sources : Word)                   -- the chip raises other sources
  | irq                                      -- the handler is called
  | handler
  | softirq                                  -- `net_rx_action` calls the poll
  | poll (fail : Bool)
  | queue (fifoInt : Word) (stopped : Bool)  -- `smsc911x_hard_start_xmit`
  | reset                                    -- `smsc911x_open` resets the chip
  | iface                                    -- and goes on, or `smsc911x_stop` does
  | giveUp                                   -- the test interrupt has not come
  | stop                                     -- `smsc911x_stop` disables the line

def IrqState.Enabled (s : IrqState) : IrqAction → Prop
  | .arrive    => True
  | .raise _   => True
  | .irq       => s.call = .idle
  | .handler   => s.call ≠ .idle
  | .softirq   => s.call = .idle ∧ s.toNapiState.Enabled .softirq
  | .poll fail => s.call = .idle ∧ s.toNapiState.Enabled (.poll fail)
  | .queue _ _ => s.call = .idle
  | .reset     => s.Free ∧ s.iface = .closed
  | .iface     => s.Free ∧ s.Passes
  | .giveUp    => s.Free ∧ s.iface = .test ∧ s.softwareIrqSignal = false
  | .stop      => s.Free ∧ s.iface = .running

def IrqState.next (level : Bool) (s : IrqState) : IrqAction → IrqState
  | .arrive => { s with
      toNapiState := s.toNapiState.next level .arrive, raised := s.raised ||| intRsfl }
  | .raise sources => { s with
      sources := s.sources ||| sources, raised := s.raised ||| sources &&& ~~~intRsfl }
  | .irq => { s with
      toNapiState := s.toNapiState.next level .irq, call := .inten s.intSts, raised := 0 }
  | .handler => s.handlerStep
  | .softirq => { s with toNapiState := s.toNapiState.next level .softirq }
  | .poll fail => { s with toNapiState := s.toNapiState.next level (.poll fail) }
  | .queue fifoInt stopped => { s with fifoInt := fifoInt, stopped := stopped }
  -- no frame, no source and no interrupt is left
  | .reset => { s with
      waiting := 0, rsfl := false, sources := 0, intEn := 0, irqEn := false, iface := .clearEn }
  | .iface => s.ifaceStep level
  | .giveUp => { s with iface := .closed }
  | .stop => { s with irqEn := false, iface := .stopQueue }

def IrqStep (level : Bool) : IrqState → IrqAction → IrqState → Prop :=
  Next IrqState.Enabled (IrqState.next level)

/-- After `smsc911x_drv_probe`: no source is enabled, and `netif_napi_add` has
    left NAPI disabled. -/
structure IrqState.Probed (s : IrqState) : Prop where
  irqEn   : s.irqEn = false
  intEn   : s.intEn = 0
  sched   : s.sched = true
  disable : s.disable = false
  listed  : s.listed = false
  handler : s.handler = .idle
  poller  : s.poller = .off
  call    : s.call = .idle
  iface   : s.iface = .closed

/-! ## Section 3: What is left to do -/

section Bits

variable {s t : IrqState} {i : Nat}

/-- The sources that are ever enabled, -/
def intServed : Word := intSw ||| intRxstop ||| intTdfa ||| intRsfl

/-- and those that are while the interface is up, besides `RSFL`. -/
def intUp : Word := intTdfa ||| intRxstop

theorem intServed_bit (h : intServed.getLsbD i = true) : i = 31 ∨ i = 24 ∨ i = 9 ∨ i = 3 := by
  have hlt : i < 32 := BitVec.lt_of_getLsbD h
  revert h
  revert i
  decide

theorem intRsfl_bit (i : Nat) : intRsfl.getLsbD i = decide (i = 3) := by
  rw [show intRsfl = BitVec.twoPow 32 3 by decide, BitVec.getLsbD_twoPow]
  simp [eq_comm]

/-- Pending and enabled, and not raised anew. -/
def IrqState.left (s : IrqState) : Word := s.intSts &&& s.intEn &&& ~~~s.raised

theorem left_bit (h : s.left.getLsbD i = true) :
    s.intSts.getLsbD i = true ∧ s.intEn.getLsbD i = true ∧ s.raised.getLsbD i = false := by
  obtain ⟨h, hraised⟩ := bit_of_clear h
  exact ⟨within_and_left _ _ i h, within_and_right _ _ i h, hraised⟩

/-- Nothing is left that was not before: a source that has come up is marked as
    raised, and none has been enabled. -/
theorem left_within (hsts : ∀ i, t.intSts.getLsbD i = true → t.raised.getLsbD i = false →
      s.intSts.getLsbD i = true)
    (hen : Within t.intEn s.intEn) (hraised : Within s.raised t.raised) :
    Within t.left s.left := by
  intro i hi
  obtain ⟨hi, hien, hiraised⟩ := left_bit hi
  apply bit_clear _ (hraised.clear hiraised)
  rw [BitVec.getLsbD_and, hsts i hi hiraised, hen i hien, Bool.and_true]

theorem intSts_bit (s : IrqState) (i : Nat) :
    s.intSts.getLsbD i = if i = 3 then s.rsfl else s.sources.getLsbD i := by
  have hrsfl : (if s.rsfl then intRsfl else 0).getLsbD i = (s.rsfl && decide (i = 3)) := by
    cases s.rsfl with
    | true => exact intRsfl_bit i
    | false => exact BitVec.getLsbD_zero
  unfold IrqState.intSts
  rw [BitVec.getLsbD_or, BitVec.getLsbD_and, BitVec.getLsbD_not, intRsfl_bit, hrsfl]
  by_cases hi : i = 3
  · simp [hi]
  · by_cases hlt : i < 32
    · simp [hi, hlt]
    · simp [hi, BitVec.getLsbD_of_ge _ i (not_lt.mp hlt)]

/-- With the interface up, the handler's statements for the test interrupt would
    change nothing. -/
theorem clear_sw {w : Word} (h : w &&& ~~~intRsfl = intUp) : w &&& ~~~intSw = w := by
  apply BitVec.eq_of_getLsbD_eq
  intro i hi
  by_cases h31 : i = 31
  · have hbit : (w &&& ~~~intRsfl).getLsbD 31 = false := by
      rw [h]
      rfl
    have hw : w.getLsbD 31 = false :=
      Bool.eq_false_iff.mpr fun hc => nomatch hbit.symm.trans (bit_clear hc rfl)
    rw [h31, BitVec.getLsbD_and, hw, Bool.false_and]
  · have hsw : intSw.getLsbD i = false := by
      rw [show intSw = BitVec.twoPow 32 31 by decide, BitVec.getLsbD_twoPow]
      simp [Ne.symm h31]
    rw [BitVec.getLsbD_and, BitVec.getLsbD_not, hsw]
    simp [hi]

theorem up_within {w : Word} (h : w &&& ~~~intRsfl = intUp) : Within w intServed := by
  intro i hi
  by_cases h3 : i = 3
  · rw [h3]
    rfl
  · have hrsfl : intRsfl.getLsbD i = false := by
      rw [intRsfl_bit]
      exact decide_eq_false h3
    have hup : intUp.getLsbD i = true := h ▸ bit_clear hi hrsfl
    have hserved : intUp &&& intServed = intUp := by decide
    rw [← hserved] at hup
    exact within_and_right _ _ i hup

end Bits

/-- The sources that the statements acknowledge. -/
def acks : List IrqOp → Word
  | []                  => 0
  | .ack source :: todo => source ||| acks todo
  | _ :: todo           => acks todo

/-- What the statements rely on: what is written to `INT_EN` has been read from
    it, and the test interrupt is disabled before it is signalled. -/
def Relies (intEn temp : Word) : List IrqOp → Prop
  | []                  => True
  | .readEn :: todo     => Relies intEn intEn todo
  | .writeEn :: todo    => temp = intEn ∧ Relies (intEn &&& ~~~intSw) temp todo
  | .ack source :: todo => source.getLsbD 3 = false ∧ Relies intEn temp todo
  | .signal :: todo     => intEn.getLsbD 31 = false ∧ Relies intEn temp todo
  | .update :: todo     => Relies intEn temp todo
  | .readFifo :: todo   => ∀ temp, Relies intEn temp todo
  | .writeFifo :: todo  => Relies intEn temp todo
  | .wake :: todo       => Relies intEn temp todo

/-- What the handler will still disable. -/
def RsflHandler.masks : RsflHandler → Word
  | .prep      => intRsfl
  | .readEn    => intRsfl
  | .writeEn _ => intRsfl
  | _          => 0

/-- Between two statements: what is left of what the handler has found is still to
    be acknowledged or disabled. -/
structure Body (s : IrqState) (due temp : Word) (todo : List IrqOp) : Prop where
  due     : Within due intServed
  relies  : Relies s.intEn temp todo
  handler : ∀ seen, s.handler ≠ .inten seen
  left    : s.irqEn = true → Within s.left (acks todo ||| s.handler.masks)

def CallInv (s : IrqState) : Prop :=
  match s.call with
  | .idle               => s.handler = .idle
  | .inten intsts       => s.handler = .inten (intsts.getLsbD 3) ∧
      ∀ i, s.intSts.getLsbD i = true → s.raised.getLsbD i = false → intsts.getLsbD i = true
  | .body due temp todo => Body s due temp todo

section Where

variable {s t : IrqState} {due temp : Word} {todo : List IrqOp}

/-- Outside a call, -/
theorem call_of_idle (hcall : t.call = .idle) (hhandler : t.handler = .idle) : CallInv t := by
  unfold CallInv
  rw [hcall]
  exact hhandler

theorem CallInv.idle (h : CallInv s) (hcall : s.call = .idle) : s.handler = .idle := by
  unfold CallInv at h
  rw [hcall] at h
  exact h

theorem CallInv.inten {intsts : Word} (h : CallInv s) (hcall : s.call = .inten intsts) :
    s.handler = .inten (intsts.getLsbD 3) ∧
      ∀ i, s.intSts.getLsbD i = true → s.raised.getLsbD i = false →
        intsts.getLsbD i = true := by
  unfold CallInv at h
  rw [hcall] at h
  exact h

/-- and between two statements of one. -/
theorem call_of_body (hcall : t.call = .body due temp todo) (h : Body t due temp todo) :
    CallInv t := by
  unfold CallInv
  rw [hcall]
  exact h

theorem CallInv.body (h : CallInv s) (hcall : s.call = .body due temp todo) :
    Body s due temp todo := by
  unfold CallInv at h
  rw [hcall] at h
  exact h

end Where

theorem relies_onSource (due source : Word) (ops : List IrqOp) {l : List IrqOp}
    (hl : ∀ intEn temp, Relies intEn temp l) (hops : ∀ intEn temp, Relies intEn temp (ops ++ l))
    (intEn temp : Word) : Relies intEn temp (onSource due source ops ++ l) := by
  unfold onSource
  split
  · exact hops intEn temp
  · exact hl intEn temp

theorem relies_program (intEn temp due : Word) : Relies intEn temp (irqProgram due) := by
  have hrxe := relies_onSource due intRxe [.ack intRxe] (l := []) (fun _ _ => trivial)
    fun _ _ => ⟨rfl, trivial⟩
  have htdfa := relies_onSource due intTdfa [.readFifo, .writeFifo, .ack intTdfa, .wake] hrxe
    fun intEn _ temp => ⟨rfl, hrxe intEn temp⟩
  have hrxstop := relies_onSource due intRxstop [.ack intRxstop, .update] htdfa
    fun intEn temp => ⟨rfl, htdfa intEn temp⟩
  have hsw := relies_onSource due intSw [.readEn, .writeEn, .ack intSw, .signal] hrxstop
  unfold irqProgram
  rw [List.append_assoc, List.append_assoc, ← List.append_nil (onSource due intRxe _)]
  apply hsw
  intro intEn temp
  refine ⟨rfl, rfl, ?_, hrxstop _ _⟩
  exact Bool.eq_false_iff.mpr fun hc => nomatch (bit_of_clear hc).2

theorem acks_append (l l' : List IrqOp) : acks (l ++ l') = acks l ||| acks l' := by
  induction l with
  | nil => exact BitVec.zero_or.symm
  | cons op l ih =>
    cases op with
    | ack source =>
      show source ||| acks (l ++ l') = (source ||| acks l) ||| acks l'
      rw [ih, BitVec.or_assoc]
    | _ => exact ih

theorem acks_onSource {due source : Word} (ops : List IrqOp) (h : due &&& source ≠ 0) :
    acks (onSource due source ops) = acks ops := by
  unfold onSource
  rw [if_pos h]

/-- Whatever the handler has found is acknowledged, but for `RSFL`. -/
theorem acks_program {due : Word} {i : Nat} (hi : due.getLsbD i = true)
    (hsource : i = 31 ∨ i = 24 ∨ i = 9) : (acks (irqProgram due)).getLsbD i = true := by
  unfold irqProgram
  rw [acks_append, acks_append, acks_append]
  simp only [BitVec.getLsbD_or, Bool.or_eq_true]
  rcases hsource with rfl | rfl | rfl
  · rw [acks_onSource _ (and_ne_zero_of_bit 31 hi rfl)]
    exact .inl (.inl (.inl rfl))
  · have hdue : due &&& intRxstop ≠ 0 := and_ne_zero_of_bit 24 hi rfl
    rw [acks_onSource _ hdue]
    exact .inl (.inl (.inr rfl))
  · have hdue : due &&& intTdfa ≠ 0 := and_ne_zero_of_bit 9 hi rfl
    rw [acks_onSource _ hdue]
    exact .inl (.inr rfl)

/-! ## Section 4: The life of the interface -/

/-- NAPI is disabled, or nothing can schedule it yet. -/
def IfaceStmt.atRest : IfaceStmt → Bool
  | .startQueue => false
  | .running    => false
  | .stopQueue  => false
  | .setDisable => false
  | .grab       => false
  | _           => true

/-- `NAPI_STATE_SCHED` is held. -/
def IfaceStmt.scheduled : IfaceStmt → Bool
  | .readEn    => false
  | .writeEn _ => false
  | _          => true

/-- `smsc911x_stop` has been through. -/
def IfaceStmt.shut (i : IfaceStmt) : Prop := i = .closed ∨ i = .clearDisable

/-- The call will not signal the test interrupt. -/
def IrqCall.Silent (c : IrqCall) : Prop :=
  ∀ due temp todo, c = .body due temp todo → .signal ∉ todo

/-- Up to the end of `smsc911x_open`, and from the end of `smsc911x_stop`: only the
    test interrupt is enabled, or the line is disabled. -/
structure Rest (s : IrqState) : Prop where
  iface   : s.iface.atRest = true
  listed  : s.listed = false
  poller  : s.poller = .off
  disable : s.iface ≠ .clearDisable → s.disable = false
  sched   : s.sched = s.iface.scheduled
  handler : s.handler.Outside ∨ s.handler = .prep ∧ s.irqEn = false ∧ s.sched = true
  intEn   : s.intEn = 0 ∨ s.intEn = intSw ∧ (s.iface = .closed ∨ s.iface = .test) ∨
    s.intEn &&& ~~~intRsfl = intUp ∧ s.irqEn = false ∧ s.iface.shut
  temp    : ∀ temp, s.iface = .writeTest temp ∨ s.iface = .writeEn temp → temp = 0
  signal  : s.iface = .test → s.softwareIrqSignal = true → s.intEn = 0
  silent  : (s.iface = .readTest ∨ ∃ temp, s.iface = .writeTest temp) →
    s.softwareIrqSignal = false ∧ s.call.Silent

/-- The line is disabled before NAPI is. -/
def IfaceStmt.Live (irqEn disable : Bool) : IfaceStmt → Prop
  | .startQueue => disable = false
  | .running    => disable = false
  | .stopQueue  => irqEn = false ∧ disable = false
  | .setDisable => irqEn = false ∧ disable = false
  | .grab       => irqEn = false
  | _           => False

/-- The interface is up. -/
structure Live (s : IrqState) : Prop where
  iface : s.iface.Live s.irqEn s.disable
  phase : Phase s.toNapiState
  intEn : s.intEn &&& ~~~intRsfl = intUp

inductive Stage (s : IrqState) : Prop where
  | rest (h : Rest s)
  | live (h : Live s)

section Stages

variable {level : Bool} {s t : IrqState} {a : IrqAction}

theorem IrqState.Probed.rest (h : s.Probed) : Rest s where
  iface   := by rw [h.iface]; rfl
  listed  := h.listed
  poller  := h.poller
  disable := fun _ => h.disable
  sched   := by rw [h.sched, h.iface]; rfl
  handler := .inl (.inl h.handler)
  intEn   := .inl h.intEn
  temp    := by rw [h.iface]; exact fun _ hc => nomatch hc
  signal  := fun _ _ => h.intEn
  silent  := by rw [h.iface]; rintro (hc | ⟨_, hc⟩) <;> exact nomatch hc

/-- What the stages say about the handler and `INT_EN`. -/
theorem Stage.sources (h : Stage s) : Within s.intEn intServed := by
  have hsw : intSw &&& intServed = intSw := by decide
  cases h with
  | rest h =>
    rcases h.intEn with hzero | ⟨htest, -⟩ | ⟨hup, -⟩
    · intro i hi
      rw [hzero] at hi
      exact absurd hi (by simp)
    · rw [htest, ← hsw]
      exact within_and_right _ _
    · exact up_within hup
  | live h => exact up_within h.intEn

theorem Stage.temp {temp : Word} (h : Stage s) (hh : s.handler = .writeEn temp) :
    temp = s.intEn := by
  cases h with
  | rest h =>
    rcases h.handler with hout | ⟨hprep, -⟩
    · exact absurd hh (hout.cases.2.2 temp)
    · exact nomatch hprep.symm.trans hh
  | live h => exact handler_temp h.phase hh

/-- While the line is enabled, `napi_schedule_prep` succeeds. -/
theorem Stage.prep (h : Stage s) (hprep : s.handler = .prep) (hen : s.irqEn = true) :
    s.disable = false ∧ s.sched = false := by
  cases h with
  | rest h =>
    rcases h.handler with hout | ⟨-, hline, -⟩
    · exact absurd hprep hout.cases.1
    · exact nomatch hline.symm.trans hen
  | live h =>
    refine ⟨?_, h.phase.prep_free hprep⟩
    have hiface := h.iface
    rw [hen] at hiface
    cases hi : s.iface <;> rw [hi] at hiface
    case startQueue => exact hiface
    case running => exact hiface
    case stopQueue => exact nomatch hiface.1
    case setDisable => exact nomatch hiface.1
    case grab => exact nomatch hiface
    all_goals exact hiface.elim

/-! ### The handler -/

/-- At rest no source is enabled, but in the test of `smsc911x_open` and behind
    `smsc911x_stop`. -/
theorem Rest.zero (h : Rest s) (htest : s.iface ≠ .test) (hshut : ¬ s.iface.shut) :
    s.intEn = 0 := by
  rcases h.intEn with hzero | ⟨-, hc | hc⟩ | ⟨-, -, hc⟩
  · exact hzero
  · exact absurd (.inl hc) hshut
  · exact absurd hc htest
  · exact absurd hc hshut

/-- At rest, the handler's part for received packets does not schedule the poll. -/
theorem rest_napi (h : Rest s) :
    ∃ next, s.toNapiState.handlerStep = { s.toNapiState with handler := next } ∧
      (next.Outside ∨ next = .prep ∧ s.irqEn = false ∧ s.sched = true) := by
  rcases h.handler with hout | ⟨hprep, hline, hsched⟩
  · by_cases hidle : s.handler = .idle
    · refine ⟨s.handler, ?_, .inl hout⟩
      show s.toNapiState.handlerStep = s.toNapiState
      unfold NapiState.handlerStep
      rw [hidle]
    · obtain ⟨next, heq, hnext | ⟨hnext, hrsfl⟩⟩ := handlerStep_outside hout hidle
      · exact ⟨next, heq, .inl (.inl hnext)⟩
      · refine ⟨next, heq, .inr ⟨hnext, ?_⟩⟩
        -- `RSFL` is enabled after `smsc911x_stop` only
        rcases h.intEn with hzero | ⟨htest, -⟩ | ⟨-, hline, hshut⟩
        · rw [hzero] at hrsfl
          exact absurd rfl hrsfl
        · rw [htest] at hrsfl
          exact absurd rfl hrsfl
        · refine ⟨hline, h.sched.trans ?_⟩
          rcases hshut with hi | hi <;> rw [hi] <;> rfl
  · refine ⟨.idle, ?_, .inl (.inl rfl)⟩
    unfold NapiState.handlerStep
    rw [hprep]
    exact if_pos (.inr hsched)

theorem rest_exec {due temp : Word} {op : IrqOp} {todo : List IrqOp} (h : Rest s)
    (hcall : s.call = .body due temp (op :: todo)) (hbody : Body s due temp (op :: todo)) :
    Rest { (s.exec temp op).2 with call := .body due (s.exec temp op).1 todo } := by
  have hsilent : (s.iface = .readTest ∨ ∃ temp, s.iface = .writeTest temp) →
      s.softwareIrqSignal = false ∧ .signal ∉ op :: todo :=
    fun hi => ⟨(h.silent hi).1, (h.silent hi).2 due temp _ hcall⟩
  have htail : ∀ temp', (s.iface = .readTest ∨ ∃ temp, s.iface = .writeTest temp) →
      s.softwareIrqSignal = false ∧ (IrqCall.body due temp' todo).Silent := by
    intro temp' hi
    refine ⟨(hsilent hi).1, ?_⟩
    rintro due' temp'' todo' hc
    cases hc
    exact fun hmem => (hsilent hi).2 (List.mem_cons_of_mem op hmem)
  cases op with
  | writeEn =>
    obtain ⟨rfl, -⟩ := hbody.relies
    refine { h with intEn := ?_, signal := ?_, silent := htail _ }
    · show s.intEn &&& ~~~intSw = 0 ∨ _
      rcases h.intEn with hzero | ⟨htest, -⟩ | ⟨hup, hshut⟩
      · rw [hzero]
        exact .inl (by decide)
      · rw [htest]
        exact .inl (by decide)
      · refine .inr (.inr ⟨?_, hshut⟩)
        show s.intEn &&& ~~~intSw &&& ~~~intRsfl = intUp
        rw [clear_sw hup]
        exact hup
    · intro hi hsignal
      show s.intEn &&& ~~~intSw = 0
      rw [h.signal hi hsignal]
      decide
  | signal =>
    have hoff : s.intEn.getLsbD 31 = false := hbody.relies.1
    refine { h with signal := ?_, silent := ?_ }
    · intro hi _
      rcases h.intEn with hzero | ⟨htest, -⟩ | ⟨-, -, hshut⟩
      · exact hzero
      · rw [htest] at hoff
        exact nomatch hoff
      · rcases hshut with hc | hc <;> exact nomatch hi.symm.trans hc
    · intro hi
      exact absurd List.mem_cons_self (hsilent hi).2
  | _ => exact { h with silent := htail _ }

theorem rest_handler (h : Rest s) (hcall : CallInv s) : Rest s.handlerStep := by
  unfold IrqState.handlerStep
  split
  · exact h
  · rename_i intsts hc
    obtain ⟨next, heq, hnext⟩ := rest_napi h
    rw [heq]
    refine { h with handler := hnext, silent := ?_ }
    intro hi
    refine ⟨(h.silent hi).1, ?_⟩
    -- nothing is enabled before the test, so the handler finds nothing to do
    have hzero : s.intEn = 0 := by
      apply h.zero
      · rcases hi with hi | ⟨_, hi⟩ <;> rw [hi] <;> exact nofun
      · rcases hi with hi | ⟨_, hi⟩ <;> rw [hi] <;> rintro (hc | hc) <;> exact nomatch hc
    rintro due temp todo hc
    cases hc
    rw [hzero, show intsts &&& 0 = 0 from BitVec.and_zero]
    exact List.not_mem_nil
  · rename_i due temp op todo hc
    exact rest_exec h hc (hcall.body hc)
  · split
    · exact { h with silent := fun hi => ⟨(h.silent hi).1, fun _ _ _ hc => nomatch hc⟩ }
    · obtain ⟨next, heq, hnext⟩ := rest_napi h
      rw [heq]
      exact { h with handler := hnext }

theorem exec_keeps (s : IrqState) (temp : Word) (op : IrqOp) :
    (s.exec temp op).2.iface = s.iface ∧ (s.exec temp op).2.irqEn = s.irqEn := by
  cases op <;> exact ⟨rfl, rfl⟩

theorem handlerStep_iface (s : IrqState) :
    s.handlerStep.iface = s.iface ∧ s.handlerStep.irqEn = s.irqEn := by
  unfold IrqState.handlerStep
  split
  · exact ⟨rfl, rfl⟩
  · exact ⟨rfl, rfl⟩
  · exact exec_keeps s _ _
  · split <;> exact ⟨rfl, rfl⟩

/-- While the interface is up, the statements before the part for received packets
    are none of NAPI's business. -/
theorem live_exec {due temp : Word} {op : IrqOp} {todo : List IrqOp} (h : Live s)
    (hbody : Body s due temp (op :: todo)) :
    (s.exec temp op).2.toNapiState = s.toNapiState := by
  cases op with
  | writeEn =>
    obtain ⟨rfl, -⟩ := hbody.relies
    show { s.toNapiState with intEn := s.intEn &&& ~~~intSw } = s.toNapiState
    rw [clear_sw h.intEn]
  | _ => rfl

theorem live_handler (h : Live s) (hcall : CallInv s) (hrun : s.call ≠ .idle) :
    s.handlerStep.toNapiState = s.toNapiState ∨
      NapiStep level s.toNapiState .handler s.handlerStep.toNapiState := by
  unfold IrqState.handlerStep
  split
  · rename_i hc
    exact absurd hc hrun
  · rename_i intsts hc
    refine .inr ⟨?_, rfl⟩
    show s.handler ≠ .idle
    rw [(hcall.inten hc).1]
    exact nofun
  · rename_i due temp op todo hc
    exact .inl (live_exec h (hcall.body hc))
  · split
    · exact .inl rfl
    · rename_i hbusy
      exact .inr ⟨hbusy, rfl⟩

/-- **The polling model**: while the interface is up, whatever happens but the
    statements of `smsc911x_open` and `smsc911x_stop` is a step of `Nic.Napi`, or
    none. -/
theorem live_napi (h : Live s) (hcall : CallInv s) (hstep : IrqStep level s a t)
    (ha : a ≠ .iface) :
    t.toNapiState = s.toNapiState ∨ ∃ b, NapiStep level s.toNapiState b t.toNapiState := by
  obtain ⟨henabled, rfl⟩ := hstep
  cases a with
  | arrive => exact .inr ⟨.arrive, trivial, rfl⟩
  | raise sources => exact .inl rfl
  | irq => exact .inr ⟨.irq, hcall.idle henabled, rfl⟩
  | handler => exact (live_handler h hcall henabled).imp_right fun hstep => ⟨.handler, hstep⟩
  | softirq => exact .inr ⟨.softirq, henabled.2, rfl⟩
  | poll fail => exact .inr ⟨.poll fail, henabled.2, rfl⟩
  | queue fifoInt stopped => exact .inl rfl
  | reset =>
    have hiface := h.iface
    rw [henabled.2] at hiface
    exact hiface.elim
  | iface => exact absurd rfl ha
  | giveUp => exact .inl rfl
  | stop => exact .inl rfl

/-- What a step of `Nic.Napi` keeps. -/
theorem live_of_napi (h : Live s) (hiface : t.iface.Live t.irqEn s.disable)
    (hnapi : t.toNapiState = s.toNapiState ∨
      ∃ b, NapiStep level s.toNapiState b t.toNapiState) : Live t := by
  rcases hnapi with heq | ⟨b, hstep⟩
  · refine ⟨?_, ?_, ?_⟩
    · rw [heq]
      exact hiface
    · rw [heq]
      exact h.phase
    · rw [heq]
      exact h.intEn
  · refine ⟨?_, phase_step h.phase hstep, (other_bits_step h.phase hstep).trans h.intEn⟩
    rw [disable_step hstep]
    exact hiface

/-! ### The statements of `smsc911x_open` and `smsc911x_stop` -/

/-- With nothing enabled. -/
theorem rest_of_zero (hiface : t.iface.atRest = true) (hlisted : t.listed = false)
    (hfree : t.Free) (hdisable : t.disable = false) (hsched : t.sched = t.iface.scheduled)
    (hhandler : t.handler = .idle) (hintEn : t.intEn = 0)
    (htemp : ∀ temp, t.iface = .writeTest temp ∨ t.iface = .writeEn temp → temp = 0)
    (hsignal : (t.iface = .readTest ∨ ∃ temp, t.iface = .writeTest temp) →
      t.softwareIrqSignal = false) : Rest t where
  iface   := hiface
  listed  := hlisted
  poller  := hfree.2
  disable := fun _ => hdisable
  sched   := hsched
  handler := .inl (.inl hhandler)
  intEn   := .inl hintEn
  temp    := htemp
  signal  := fun _ _ => hintEn
  silent  := by
    intro hi
    refine ⟨hsignal hi, ?_⟩
    rw [hfree.1]
    exact fun _ _ _ hc => nomatch hc

theorem rest_open (h : Rest s) (hidle : s.handler = .idle) (hfree : s.Free)
    (hshut : ¬ s.iface.shut) (hpass : s.Passes) : Stage (s.ifaceStep level) := by
  have hon : s.disable = false := h.disable fun hc => hshut (.inr hc)
  have hzero : s.iface ≠ .test → s.intEn = 0 := fun htest => h.zero htest hshut
  have hsched := h.sched
  have hrest := h.iface
  unfold IrqState.Passes at hpass
  unfold IrqState.ifaceStep
  cases hi : s.iface <;> rw [hi] at hzero hsched hrest hpass
  case closed => exact hpass.elim
  case clearEn =>
    exact .rest (rest_of_zero rfl h.listed hfree hon hsched hidle rfl nofun nofun)
  case clearSts =>
    exact .rest (rest_of_zero rfl h.listed hfree hon hsched hidle (hzero nofun) nofun nofun)
  case config =>
    exact .rest (rest_of_zero rfl h.listed hfree hon hsched hidle (hzero nofun) nofun nofun)
  case unsignal =>
    exact .rest (rest_of_zero rfl h.listed hfree hon hsched hidle (hzero nofun) nofun
      fun _ => rfl)
  case readTest =>
    have hsignal := (h.silent (.inl hi)).1
    refine .rest (rest_of_zero rfl h.listed hfree hon hsched hidle (hzero nofun) ?_
      fun _ => hsignal)
    rintro temp (hc | hc)
    · exact (IfaceStmt.writeTest.inj hc).symm.trans (hzero nofun)
    · exact nomatch hc
  case writeTest temp =>
    -- the signal is off, and so is everything but the test interrupt
    have hsignal := (h.silent (.inr ⟨temp, hi⟩)).1
    have htemp : temp = 0 := h.temp temp (.inl hi)
    refine .rest {
      iface := rfl, listed := h.listed, poller := h.poller, disable := fun _ => hon
      sched := hsched, handler := .inl (.inl hidle), intEn := .inr (.inl ⟨?_, .inr rfl⟩)
      temp := nofun, signal := ?_, silent := nofun }
    · show temp ||| intSw = intSw
      rw [htemp]
      exact BitVec.zero_or
    · intro _ hc
      exact nomatch hsignal.symm.trans hc
  case test =>
    exact .rest (rest_of_zero rfl h.listed hfree hon hsched hidle (h.signal hi hpass) nofun nofun)
  case readFifo =>
    exact .rest (rest_of_zero rfl h.listed hfree hon hsched hidle (hzero nofun) nofun nofun)
  case writeFifo =>
    exact .rest (rest_of_zero rfl h.listed hfree hon hsched hidle (hzero nofun) nofun nofun)
  case napiEnable =>
    exact .rest (rest_of_zero rfl h.listed hfree hon rfl hidle (hzero nofun) nofun nofun)
  case readEn =>
    refine .rest (rest_of_zero rfl h.listed hfree hon hsched hidle (hzero nofun) ?_ nofun)
    rintro temp (hc | hc)
    · exact nomatch hc
    · exact (IfaceStmt.writeEn.inj hc).symm.trans (hzero nofun)
  case writeEn temp =>
    have htemp : temp = 0 := h.temp temp (.inr hi)
    refine .live ⟨hon, .quiet ⟨hsched, h.listed, hfree.2, ?_, .inl (.inl hidle)⟩, ?_⟩
    · show RsflEnabled (temp ||| (intTdfa ||| intRsfl ||| intRxstop))
      rw [htemp]
      decide
    · show (temp ||| (intTdfa ||| intRsfl ||| intRxstop)) &&& ~~~intRsfl = intUp
      rw [htemp]
      decide
  case clearDisable => exact absurd (.inr hi) hshut
  all_goals exact nomatch hrest

/-- Until it is interrupted again, a poll does not come to its list. -/
theorem Phase.unlisted {s : NapiState} (h : Phase s) (hsched : s.sched = false) :
    s.listed = false := by
  cases hlisted : s.listed with
  | false => rfl
  | true => exact nomatch hsched.symm.trans (sched_of_listed h hlisted)

/-- `napi_disable` sets `NAPI_STATE_DISABLE`. -/
theorem Phase.disabled {s : NapiState} (h : Phase s) : Phase { s with disable := true } := by
  cases h with
  | quiet h => exact .quiet ⟨h.sched, h.listed, h.poller, h.intEn, h.handler⟩
  | scheduling h => exact .scheduling ⟨h.sched, h.listed, h.poller, h.handler⟩
  | polling h => exact .polling ⟨h.sched, h.listed, h.intEn, h.handler, h.poller⟩
  | completing h => exact .completing ⟨h.sched, h.listed, h.intEn, h.handler, h.poller⟩
  | spent h => exact .spent ⟨rfl, h.sched, h.listed, h.intEn, h.handler, h.poller⟩

theorem live_iface (h : Live s) (hidle : s.handler = .idle) (hfree : s.Free) (hpass : s.Passes) :
    Stage (s.ifaceStep level) := by
  have hlive := h.iface
  unfold IrqState.Passes at hpass
  unfold IrqState.ifaceStep
  cases hi : s.iface <;> rw [hi] at hlive hpass
  case startQueue => exact .live ⟨hlive, h.phase, h.intEn⟩
  case running => exact hpass.elim
  case stopQueue => exact .live ⟨hlive, h.phase, h.intEn⟩
  case setDisable => exact .live ⟨hlive.1, h.phase.disabled, h.intEn⟩
  case grab =>
    refine .rest {
      iface := rfl, listed := h.phase.unlisted hpass, poller := hfree.2
      disable := fun hc => absurd rfl hc, sched := rfl, handler := .inl (.inl hidle)
      intEn := .inr (.inr ⟨h.intEn, hlive, .inr rfl⟩), temp := nofun, signal := nofun
      silent := nofun }
  all_goals exact hlive.elim

/-- The last statement of `napi_disable`. -/
theorem rest_closed (h : Rest s) (hi : s.iface = .clearDisable) :
    Rest { s with disable := false, iface := .closed } := by
  refine { h with
    iface := rfl, disable := fun _ => rfl, sched := ?_, intEn := ?_, temp := nofun
    signal := nofun, silent := nofun }
  · rw [h.sched, hi]
    rfl
  · rcases h.intEn with hzero | ⟨-, hc | hc⟩ | ⟨hup, hline, -⟩
    · exact .inl hzero
    · exact nomatch hi.symm.trans hc
    · exact nomatch hi.symm.trans hc
    · exact .inr (.inr ⟨hup, hline, .inl rfl⟩)

theorem stage_iface (h : Stage s) (hidle : s.handler = .idle) (hfree : s.Free)
    (hpass : s.Passes) : Stage (s.ifaceStep level) := by
  cases h with
  | rest h =>
    by_cases hshut : s.iface.shut
    · rcases hshut with hi | hi
      · unfold IrqState.Passes at hpass
        rw [hi] at hpass
        exact hpass.elim
      · unfold IrqState.ifaceStep
        rw [hi]
        exact .rest (rest_closed h hi)
    · exact rest_open h hidle hfree hshut hpass
  | live h => exact live_iface h hidle hfree hpass

theorem rest_step (h : Rest s) (hcall : CallInv s) (hstep : IrqStep level s a t)
    (ha : a ≠ .iface) : Stage t := by
  obtain ⟨henabled, rfl⟩ := hstep
  cases a with
  | arrive => exact .rest { h with }
  | raise sources => exact .rest { h with }
  | irq =>
    refine .rest { h with handler := .inl (.inr ⟨_, rfl⟩), silent := ?_ }
    intro hi
    exact ⟨(h.silent hi).1, fun _ _ _ hc => nomatch hc⟩
  | handler => exact .rest (rest_handler h hcall)
  | softirq => exact nomatch h.listed.symm.trans henabled.2.1
  | poll fail => exact absurd h.poller henabled.2
  | queue fifoInt stopped => exact .rest { h with }
  | reset =>
    obtain ⟨hfree, hi⟩ := henabled
    have hidle := hcall.idle hfree.1
    refine .rest (rest_of_zero rfl h.listed hfree (h.disable ?_) ?_ hidle rfl nofun nofun)
    · rw [hi]
      exact nofun
    · show s.sched = true
      rw [h.sched, hi]
      rfl
  | iface => exact absurd rfl ha
  | giveUp =>
    obtain ⟨hfree, hi, -⟩ := henabled
    refine .rest { h with
      iface := rfl, disable := fun _ => h.disable (hi ▸ nofun), sched := ?_, intEn := ?_
      temp := nofun, signal := nofun, silent := nofun }
    · show s.sched = true
      rw [h.sched, hi]
      rfl
    · rcases h.intEn with hzero | ⟨htest, -⟩ | ⟨-, -, hc | hc⟩
      · exact .inl hzero
      · exact .inr (.inl ⟨htest, .inl rfl⟩)
      · exact nomatch hi.symm.trans hc
      · exact nomatch hi.symm.trans hc
  | stop =>
    have hrest := h.iface
    rw [henabled.2] at hrest
    exact nomatch hrest

theorem live_step (h : Live s) (hcall : CallInv s) (hstep : IrqStep level s a t)
    (ha : a ≠ .iface) : Live t := by
  refine live_of_napi h ?_ (live_napi h hcall hstep ha)
  obtain ⟨henabled, rfl⟩ := hstep
  have hlive := h.iface
  cases a with
  | handler =>
    obtain ⟨hi, hen⟩ := handlerStep_iface s
    show s.handlerStep.iface.Live s.handlerStep.irqEn s.disable
    rw [hi, hen]
    exact hlive
  | reset =>
    rw [henabled.2] at hlive
    exact hlive.elim
  | iface => exact absurd rfl ha
  | giveUp =>
    rw [henabled.2.1] at hlive
    exact hlive.elim
  | stop =>
    rw [henabled.2] at hlive
    exact ⟨rfl, hlive⟩
  | _ => exact hlive

theorem stage_step (h : Stage s) (hcall : CallInv s) (hstep : IrqStep level s a t) : Stage t := by
  by_cases ha : a = .iface
  · obtain ⟨henabled, rfl⟩ := hstep
    subst ha
    exact stage_iface h (hcall.idle henabled.1.1) henabled.1 henabled.2
  · cases h with
    | rest h => exact rest_step h hcall hstep ha
    | live h => exact .live (live_step h hcall hstep ha)

end Stages

/-! ## Section 5: Calls -/

section Calls

variable {level : Bool} {s t : IrqState} {a : IrqAction} {due temp : Word} {op : IrqOp}
  {todo : List IrqOp}

/-- **What it returns**: whether an enabled source was pending. -/
theorem serviced_iff (h : Within due intServed) : serviced due = true ↔ due ≠ 0 := by
  unfold serviced
  rw [decide_eq_true_iff]
  constructor
  · rintro hdue rfl
    simp at hdue
  · intro hne
    obtain ⟨i, hi⟩ : ∃ i, due.getLsbD i = true := by
      by_contra hnone
      exact hne (eq_zero_of_within fun i hi => absurd ⟨i, hi⟩ hnone)
    rcases intServed_bit (h i hi) with rfl | rfl | rfl | rfl
    · exact .inl (and_ne_zero_of_bit 31 hi rfl)
    · exact .inr (.inl (and_ne_zero_of_bit 24 hi rfl))
    · exact .inr (.inr (.inl (and_ne_zero_of_bit 9 hi rfl)))
    · exact .inr (.inr (.inr (.inr (and_ne_zero_of_bit 3 hi rfl))))

/-- The sources found are those that are left. -/
theorem body_inten {intsts : Word} (h : Stage s) (hhandler : s.handler = .inten (intsts.getLsbD 3))
    (hsts : ∀ i, s.intSts.getLsbD i = true → s.raised.getLsbD i = false →
      intsts.getLsbD i = true) :
    Body { s with
        toNapiState := s.toNapiState.handlerStep
        call := .body (intsts &&& s.intEn) 0 (irqProgram (intsts &&& s.intEn)) }
      (intsts &&& s.intEn) 0 (irqProgram (intsts &&& s.intEn)) := by
  have heq : s.toNapiState.handlerStep = { s.toNapiState with
      handler := if intsts.getLsbD 3 = true ∧ RsflEnabled s.intEn then .prep else .idle } := by
    unfold NapiState.handlerStep
    rw [hhandler]
  rw [heq]
  refine ⟨(within_and_right _ _).trans h.sources, relies_program _ _ _, ?_, ?_⟩
  · intro seen
    dsimp only
    split <;> exact nofun
  · intro _ i hi
    obtain ⟨hi, hen, hraised⟩ := left_bit hi
    have hfound : intsts.getLsbD i = true := hsts i hi hraised
    have hdue : (intsts &&& s.intEn).getLsbD i = true := by
      rw [BitVec.getLsbD_and, hfound, show s.intEn.getLsbD i = true from hen, Bool.and_true]
    rw [BitVec.getLsbD_or, Bool.or_eq_true]
    rcases intServed_bit (h.sources i hen) with hsource | hsource | hsource | rfl
    · exact .inl (acks_program hdue (.inl hsource))
    · exact .inl (acks_program hdue (.inr (.inl hsource)))
    · exact .inl (acks_program hdue (.inr (.inr hsource)))
    · -- packets: the handler goes on to schedule the poll
      right
      rw [if_pos ⟨hfound, and_ne_zero_of_bit 3 hen rfl⟩]
      exact show intRsfl.getLsbD 3 = true from rfl

/-- An acknowledged source is left no more. -/
theorem left_ack {source rest : Word} (hsource : source.getLsbD 3 = false)
    (h : Within s.left (source ||| rest)) :
    Within ({ s with sources := s.sources &&& ~~~source } : IrqState).left rest := by
  have hsts : ∀ i, ({ s with sources := s.sources &&& ~~~source } : IrqState).intSts.getLsbD i =
      true → s.intSts.getLsbD i = true ∧ source.getLsbD i = false := by
    intro i hi
    rw [intSts_bit] at hi ⊢
    by_cases h3 : i = 3
    · rw [if_pos h3] at hi ⊢
      exact ⟨hi, h3 ▸ hsource⟩
    · rw [if_neg h3] at hi ⊢
      exact bit_of_clear hi
  intro i hi
  have hold := h i (left_within (fun i hi _ => (hsts i hi).1) (fun _ => id) (fun _ => id) i hi)
  rw [BitVec.getLsbD_or, (hsts i (left_bit hi).1).2, Bool.false_or] at hold
  exact hold

theorem body_exec (h : Body s due temp (op :: todo)) :
    Body { (s.exec temp op).2 with call := .body due (s.exec temp op).1 todo } due
      (s.exec temp op).1 todo := by
  cases op with
  | readEn => exact ⟨h.due, h.relies, h.handler, h.left⟩
  | writeEn =>
    obtain ⟨rfl, hrelies⟩ := h.relies
    refine ⟨h.due, hrelies, h.handler, ?_⟩
    intro hen
    have hless : Within (s.exec s.intEn .writeEn).2.left s.left :=
      left_within (fun _ hi _ => hi) (within_and_left _ _) (fun _ => id)
    exact hless.trans (h.left hen)
  | ack source =>
    refine ⟨h.due, h.relies.2, h.handler, ?_⟩
    intro hen
    have hleft := h.left hen
    rw [show acks (.ack source :: todo) = source ||| acks todo from rfl, BitVec.or_assoc] at hleft
    exact left_ack h.relies.1 hleft
  | signal => exact ⟨h.due, h.relies.2, h.handler, h.left⟩
  | update => exact ⟨h.due, h.relies, h.handler, h.left⟩
  | readFifo => exact ⟨h.due, h.relies _, h.handler, h.left⟩
  | writeFifo => exact ⟨h.due, h.relies, h.handler, h.left⟩
  | wake => exact ⟨h.due, h.relies, h.handler, h.left⟩

/-- The part for received packets disables `RSFL`. -/
theorem body_rsfl (hstage : Stage s) (h : Body s due temp []) :
    Body { s with toNapiState := s.toNapiState.handlerStep } due temp [] := by
  have hleft := h.left
  unfold NapiState.handlerStep
  cases hh : s.handler with
  | idle => exact h
  | inten seen => exact absurd hh (h.handler seen)
  | prep =>
    dsimp only
    split
    · rename_i hfail
      refine ⟨h.due, trivial, nofun, ?_⟩
      intro hen
      obtain ⟨hon, hsched⟩ := hstage.prep hh hen
      rw [hon, hsched] at hfail
      rcases hfail with hc | hc <;> exact nomatch hc
    · rw [hh] at hleft
      exact ⟨h.due, trivial, nofun, hleft⟩
  | readEn =>
    rw [hh] at hleft
    exact ⟨h.due, trivial, nofun, hleft⟩
  | writeEn temp' =>
    cases hstage.temp hh
    rw [hh] at hleft
    refine ⟨h.due, trivial, nofun, ?_⟩
    intro hen i hi
    obtain ⟨hsts, hien, hraised⟩ := left_bit hi
    obtain ⟨hien, hrsfl⟩ := bit_of_clear hien
    have hold : s.left.getLsbD i = true := by
      apply bit_clear _ hraised
      rw [BitVec.getLsbD_and, show s.intSts.getLsbD i = true from hsts, hien, Bool.and_true]
    have hmask := hleft hen i hold
    rw [show acks [] ||| (RsflHandler.writeEn s.intEn).masks = intRsfl from BitVec.zero_or,
      hrsfl] at hmask
    exact nomatch hmask
  | schedule =>
    rw [hh] at hleft
    exact ⟨h.due, trivial, nofun, hleft⟩

theorem call_handler (hstage : Stage s) (h : CallInv s) : CallInv s.handlerStep := by
  unfold IrqState.handlerStep
  split
  · exact h
  · rename_i intsts hc
    obtain ⟨hhandler, hsts⟩ := h.inten hc
    exact call_of_body rfl (body_inten hstage hhandler hsts)
  · rename_i due temp op todo hc
    exact call_of_body rfl (body_exec (h.body hc))
  · rename_i due temp hc
    split
    · rename_i hidle
      exact call_of_idle rfl hidle
    · exact call_of_body hc (body_rsfl hstage (h.body hc))

/-- The chip raises sources, and they count as raised. -/
theorem call_chip (h : CallInv s) (hcall : t.call = s.call) (hhandler : t.handler = s.handler)
    (hintEn : t.intEn = s.intEn) (hirqEn : t.irqEn = s.irqEn)
    (hsts : ∀ i, t.intSts.getLsbD i = true → t.raised.getLsbD i = false →
      s.intSts.getLsbD i = true)
    (hraised : Within s.raised t.raised) : CallInv t := by
  cases hc : s.call with
  | idle => exact call_of_idle (hcall.trans hc) (hhandler.trans (h.idle hc))
  | inten intsts =>
    obtain ⟨hseen, hfound⟩ := h.inten hc
    unfold CallInv
    rw [hcall, hc]
    refine ⟨hhandler.trans hseen, ?_⟩
    intro i hi hnew
    exact hfound i (hsts i hi hnew) (hraised.clear hnew)
  | body due temp todo =>
    have h := h.body hc
    refine call_of_body (hcall.trans hc) ⟨h.due, ?_, ?_, ?_⟩
    · rw [hintEn]
      exact h.relies
    · rw [hhandler]
      exact h.handler
    · rw [hirqEn, hhandler]
      intro hen
      exact (left_within hsts (hintEn ▸ fun _ => id) hraised).trans (h.left hen)

theorem pollStep_handler (s : NapiState) (fail : Bool) :
    (s.pollStep level fail).handler = s.handler := by
  unfold NapiState.pollStep
  split
  · rfl
  · split <;> rfl
  · split <;> rfl
  · rfl
  · rfl
  · rfl
  · rfl

theorem ifaceStep_idle (level : Bool) (s : IrqState) :
    (s.ifaceStep level).call = s.call ∧ (s.ifaceStep level).handler = s.handler := by
  unfold IrqState.ifaceStep
  split <;> exact ⟨rfl, rfl⟩

theorem call_step (hstage : Stage s) (h : CallInv s) (hstep : IrqStep level s a t) :
    CallInv t := by
  obtain ⟨henabled, rfl⟩ := hstep
  cases a with
  | arrive =>
    refine call_chip h rfl rfl rfl rfl ?_ ?_
    · intro i hi hnew
      have hrsfl := (BitVec.getLsbD_or ..).symm.trans hnew
      rw [Bool.or_eq_false_iff, intRsfl_bit, decide_eq_false_iff_not] at hrsfl
      rw [intSts_bit, if_neg hrsfl.2] at hi ⊢
      exact hi
    · intro i hi
      show (s.raised ||| intRsfl).getLsbD i = true
      rw [BitVec.getLsbD_or, hi, Bool.true_or]
  | raise sources =>
    refine call_chip h rfl rfl rfl rfl ?_ ?_
    · intro i hi hnew
      rw [intSts_bit] at hi ⊢
      by_cases h3 : i = 3
      · rw [if_pos h3] at hi ⊢
        exact hi
      · rw [if_neg h3] at hi ⊢
        have hor := (BitVec.getLsbD_or ..).symm.trans hi
        rcases Bool.or_eq_true _ _ ▸ hor with hi | hi
        · exact hi
        · have hrsfl : intRsfl.getLsbD i = false := by
            rw [intRsfl_bit]
            exact decide_eq_false h3
          have hmark := (BitVec.getLsbD_or ..).symm.trans hnew
          rw [bit_clear hi hrsfl, Bool.or_true] at hmark
          exact nomatch hmark
    · intro i hi
      show (s.raised ||| sources &&& ~~~intRsfl).getLsbD i = true
      rw [BitVec.getLsbD_or, hi, Bool.true_or]
  | irq =>
    refine ⟨?_, fun _ hi _ => hi⟩
    show RsflHandler.inten s.rsfl = .inten (s.intSts.getLsbD 3)
    rw [intSts_bit, if_pos rfl]
  | handler => exact call_handler hstage h
  | softirq => exact call_of_idle henabled.1 (h.idle henabled.1)
  | poll fail =>
    exact call_of_idle henabled.1 ((pollStep_handler s.toNapiState fail).trans (h.idle henabled.1))
  | queue fifoInt stopped => exact call_of_idle henabled (h.idle henabled)
  | reset => exact call_of_idle henabled.1.1 (h.idle henabled.1.1)
  | iface =>
    obtain ⟨hcall, hhandler⟩ := ifaceStep_idle level s
    exact call_of_idle (hcall.trans henabled.1.1) (hhandler.trans (h.idle henabled.1.1))
  | giveUp => exact call_of_idle henabled.1.1 (h.idle henabled.1.1)
  | stop => exact call_of_idle henabled.1.1 (h.idle henabled.1.1)

/-! ### Every call returns -/

/-- The statements a call has still to make, at most. -/
def IrqState.stmtsLeft (s : IrqState) : Nat :=
  match s.call with
  | .idle          => 0
  | .inten _       => 18
  | .body _ _ todo => todo.length + s.handler.left + 1

theorem onSource_length (due source : Word) (ops : List IrqOp) :
    (onSource due source ops).length ≤ ops.length := by
  unfold onSource
  split
  · exact Nat.le_refl _
  · exact Nat.zero_le _

theorem irqProgram_length (due : Word) : (irqProgram due).length ≤ 11 := by
  have hsw := onSource_length due intSw [.readEn, .writeEn, .ack intSw, .signal]
  have hrxstop := onSource_length due intRxstop [.ack intRxstop, .update]
  have htdfa := onSource_length due intTdfa [.readFifo, .writeFifo, .ack intTdfa, .wake]
  have hrxe := onSource_length due intRxe [.ack intRxe]
  unfold irqProgram
  simp only [List.length_append, List.length_cons, List.length_nil] at *
  omega

theorem handlerStep_stmtsLeft (hrun : s.call ≠ .idle) : s.handlerStep.stmtsLeft < s.stmtsLeft := by
  have hleft : ∀ h : RsflHandler, h.left ≤ 5 := by
    intro h
    cases h <;> simp [RsflHandler.left]
  unfold IrqState.handlerStep
  cases hc : s.call with
  | idle => exact absurd hc hrun
  | inten intsts =>
    have hprogram := irqProgram_length (intsts &&& s.intEn)
    have hlast := hleft s.toNapiState.handlerStep.handler
    simp only [IrqState.stmtsLeft, hc]
    omega
  | body due temp todo =>
    cases todo with
    | cons op todo =>
      have hhandler : (s.exec temp op).2.handler = s.handler := by cases op <;> rfl
      simp only [IrqState.stmtsLeft, hc, hhandler, List.length_cons]
      omega
    | nil =>
      dsimp only
      split
      · simp only [IrqState.stmtsLeft, hc]
        omega
      · rename_i hbusy
        have hless := handlerStep_left hbusy
        simp only [IrqState.stmtsLeft, hc]
        omega

theorem call_returns (s : IrqState) :
    ∃ n ≤ s.stmtsLeft, (IrqState.handlerStep^[n] s).call = .idle := by
  induction hn : s.stmtsLeft using Nat.strong_induction_on generalizing s with
  | _ n ih =>
    by_cases hidle : s.call = .idle
    · exact ⟨0, Nat.zero_le _, hidle⟩
    · have hless := handlerStep_stmtsLeft hidle
      obtain ⟨k, hk, hret⟩ := ih _ (hn ▸ hless) s.handlerStep rfl
      exact ⟨k + 1, by omega, hret⟩

end Calls

/-! ## Section 6: Runs -/

section Runs

variable {level : Bool} {s t : IrqState} {tr : List (Taken IrqState IrqAction)}

structure IrqInv (s : IrqState) : Prop where
  stage : Stage s
  call  : CallInv s

theorem IrqState.Probed.inv (h : s.Probed) : IrqInv s :=
  ⟨.rest h.rest, call_of_idle h.call h.handler⟩

theorem irqInv_step (s : IrqState) (a : IrqAction) (t : IrqState) (h : IrqInv s)
    (hstep : IrqStep level s a t) : IrqInv t :=
  ⟨stage_step h.stage h.call hstep, call_step h.stage h.call hstep⟩

/-- The handler has found the sources `due` and is about to return. -/
def IrqState.Returns (s : IrqState) (due : Word) : Prop :=
  (∃ temp, s.call = .body due temp []) ∧ s.handler = .idle

/-- Nothing is left behind. -/
theorem return_quiet {due : Word} (h : IrqInv s) (hret : s.Returns due) :
    Within due intServed ∧ (s.irqEn = true → s.left = 0) := by
  obtain ⟨⟨temp, hcall⟩, hidle⟩ := hret
  have hbody := h.call.body hcall
  refine ⟨hbody.due, ?_⟩
  intro hen
  have hleft := hbody.left hen
  rw [hidle] at hleft
  exact eq_zero_of_within hleft

end Runs

def probedIrq : IrqState :=
  ⟨⟨0, false, 0, true, false, false, .idle, .off⟩, false, 0, 0, false, true, .idle, .closed, 0⟩

/-- The interface is opened, with its test interrupt; -/
def openIrqActions : List IrqAction :=
  [.reset, .iface, .iface, .iface, .iface, .iface, .iface,
    .raise intSw, .irq, .handler, .handler, .handler, .handler, .handler, .handler,
    .iface, .iface, .iface, .iface, .iface, .iface, .iface]

def openedIrq : IrqState :=
  ⟨⟨0, false, 0x01000208, false, false, false, .idle, .off⟩, true, 0, 0xFF000000, true, false,
    .idle, .running, 0⟩

theorem openIrq_run : Run (IrqStep false) probedIrq
    (steps (IrqState.next false) probedIrq openIrqActions) openedIrq := by
  have hplay : Playable IrqState.Enabled (IrqState.next false) probedIrq openIrqActions :=
    ⟨⟨⟨rfl, rfl⟩, rfl⟩, ⟨⟨rfl, rfl⟩, trivial⟩, ⟨⟨rfl, rfl⟩, trivial⟩, ⟨⟨rfl, rfl⟩, trivial⟩,
      ⟨⟨rfl, rfl⟩, trivial⟩, ⟨⟨rfl, rfl⟩, trivial⟩, ⟨⟨rfl, rfl⟩, trivial⟩,
      trivial, rfl, nofun, nofun, nofun, nofun, nofun, nofun,
      ⟨⟨rfl, rfl⟩, rfl⟩, ⟨⟨rfl, rfl⟩, trivial⟩, ⟨⟨rfl, rfl⟩, trivial⟩, ⟨⟨rfl, rfl⟩, trivial⟩,
      ⟨⟨rfl, rfl⟩, trivial⟩, ⟨⟨rfl, rfl⟩, trivial⟩, ⟨⟨rfl, rfl⟩, trivial⟩, trivial⟩
  exact run_of_playable hplay

/-- then a packet comes, and while the handler runs there is room in the TX FIFO. -/
def packetIrqActions : List IrqAction :=
  [.arrive, .irq, .handler, .handler, .raise intTdfa, .handler, .handler, .handler, .handler]

end Nic
