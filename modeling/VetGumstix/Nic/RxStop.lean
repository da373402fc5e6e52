import VetGumstix.Framework.Transition
import VetGumstix.Nic.Filter

/-! # Changing the Filter of Older Chips

    Chips of generation 0 and 1 must not have their filter changed while they
    receive.  `smsc911x_set_multicast_list` only notes what is wanted, marks an
    update as pending and clears `RXEN`.  When the receiver has come to a stop
    it raises an interrupt, whose handler makes the update and sets `RXEN`
    again.

    The caller fills in the wanted values before it takes `mac_lock`, so that the
    handler may run between any two of its assignments and write a mixture of an
    old and a new filter.  The model takes these steps one by one; what is done
    with `mac_lock` held is one step, and goes through the port of the MAC.
    `smsc911x_stop` and the parts of `smsc911x_open` are steps too.  The line of
    the interrupt may be shared, so that the handler may be called at any time.

    With a MAC that answers in time:

    * `filter_written_at_rest`: while the interface stays open, the filter only
      changes when the receiver is stopped.
    * `filter_settles`: and when no update is pending and no call is under way,
      the filter is the one of the last call.
    * `update_completes`: and a pending update is made after at most six steps of
      the chip and the handler, whatever their order.
    * `pending_across_stop`: an update that is still pending when
      `smsc911x_open` resets the chip is never made, nor is any later one.
-/

namespace Nic

open BitMask Bytes Linux Transition

/-! ## Section 1: The driver -/

/-- `MAC_CR_RXEN_` -/
def macCrRxen : Word := 0x00000004
/-- `MAC_CR_FDPX_` -/
def macCrFdpx : Word := 0x00100000
/-- `MAC_CR_TXEN_ | MAC_CR_RXEN_ | MAC_CR_HBDIS_` -/
def macCrOpen : Word := 0x00000008 ||| macCrRxen ||| 0x10000000

section Driver

variable {M : Type} (rf : Registers M) (done : Nat → Bool)

/-- `smsc911x_rx_multicast_update_workaround`, with `mac_lock` held: the check,
    the update, and `RXEN` set again. -/
def rxMulticastUpdateWorkaround (k : Masks) (c : Csr M) : Csr M :=
  let (_, c) := macRead rf done macCr c
  let c := rxMulticastUpdate rf done k c
  modifyCr rf done (· ||| macCrRxen) c

/-- The part of `smsc911x_set_multicast_list` that asks the chip to stop. -/
def requestStop (c : Csr M) : Csr M := modifyCr rf done (· &&& ~~~macCrRxen) c

/-- The part of `smsc911x_phy_adjust_link` for a new duplex state. -/
def adjustDuplex (duplex : Bool) (c : Csr M) : Csr M :=
  modifyCr rf done
    (fun mac_cr => if duplex then mac_cr ||| macCrFdpx else mac_cr &&& ~~~macCrFdpx) c

/-- The part of `smsc911x_open` that enables transmitter and receiver. -/
def enableMac (c : Csr M) : Csr M := modifyCr rf done (· ||| macCrOpen) c

end Driver

/-- The receiver is enabled. -/
def MacRegs.rxen (m : MacRegs) : Prop := m 1 &&& macCrRxen ≠ 0

instance (m : MacRegs) : Decidable m.rxen := inferInstanceAs (Decidable (_ ≠ _))

/-- `MAC_CR` changed, on the registers. -/
def MacRegs.modify (m : MacRegs) (f : Word → Word) : MacRegs := Function.update m 1 (f (m 1))

/-- The registers of the filter: the mode and the hash table. -/
def MacRegs.filter (m : MacRegs) : Word × Word × Word := (m 1 &&& modeBits, m 4, m 5)

@[simp] theorem modify_cr (m : MacRegs) (f : Word → Word) : m.modify f 1 = f (m 1) := by
  simp [MacRegs.modify]

@[simp] theorem modify_hashh (m : MacRegs) (f : Word → Word) : m.modify f 4 = m 4 := by
  simp [MacRegs.modify]

@[simp] theorem modify_hashl (m : MacRegs) (f : Word → Word) : m.modify f 5 = m 5 := by
  simp [MacRegs.modify]

theorem clear_and {x y mask : Word} (h : ~~~y &&& mask = mask) :
    x &&& ~~~y &&& mask = x &&& mask := by
  rw [BitVec.and_assoc, h]

theorem set_and {x y mask : Word} (h : y &&& mask = 0) : (x ||| y) &&& mask = x &&& mask := by
  rw [BitVec.and_or_distrib_right, h]
  exact BitVec.or_zero

/-- Full duplex or not, the other bits stay. -/
theorem duplex_and {x mask : Word} (d : Bool) (hclear : ~~~macCrFdpx &&& mask = mask)
    (hset : macCrFdpx &&& mask = 0) :
    (if d then x ||| macCrFdpx else x &&& ~~~macCrFdpx) &&& mask = x &&& mask := by
  cases d with
  | true => exact set_and hset
  | false => exact clear_and hclear

/-- A change of `MAC_CR` that keeps the mode. -/
theorem filter_modify {m : MacRegs} {f : Word → Word}
    (h : f (m 1) &&& modeBits = m 1 &&& modeBits) : (m.modify f).filter = m.filter := by
  unfold MacRegs.filter
  rw [modify_cr, modify_hashh, modify_hashl, h]

theorem plain_modify {m : MacRegs} {f : Word → Word}
    (h : f (m 1) &&& plainBits = m 1 &&& plainBits) (hm : m.Plain) : (m.modify f).Plain := by
  unfold MacRegs.Plain at hm ⊢
  rw [modify_cr, h, hm]

theorem not_rxen_clear (m : MacRegs) : ¬ (m.modify (· &&& ~~~macCrRxen)).rxen := by
  unfold MacRegs.rxen
  rw [modify_cr, BitVec.and_assoc, show ~~~macCrRxen &&& macCrRxen = 0 by decide]
  exact not_not.mpr BitVec.and_zero

theorem rxen_set (m : MacRegs) {bits : Word} (h : bits.getLsbD 2 = true) :
    (m.modify (· ||| bits)).rxen := by
  unfold MacRegs.rxen
  rw [modify_cr]
  apply and_ne_zero_of_bit 2
  · rw [BitVec.getLsbD_or, h, Bool.or_true]
  · rfl

/-! ### Accesses other than to the filter -/

/-- `MAC_CR`, `HASHH` and `HASHL` -/
def filterRegs : List (BitVec 8) := [1, 4, 5]

/-- An access that writes none of them: to the PHY, for flow control, of the
    address of the interface. -/
def MacAccess.elsewhere : MacAccess → Bool
  | .read _         => true
  | .write offset _ => !filterRegs.contains (regIndex offset)

theorem apply_elsewhere {a : MacAccess} (ha : a.elsewhere = true) (m : MacRegs) {i : BitVec 8}
    (hi : i ∈ filterRegs) : a.apply macRegs m i = m i := by
  cases a with
  | read offset => rfl
  | write offset val =>
    apply Function.update_of_ne
    rintro rfl
    have hnot : ¬ regIndex offset ∈ filterRegs := by simpa [MacAccess.elsewhere] using ha
    exact hnot hi

theorem foldl_elsewhere {l : List MacAccess} (hl : ∀ a ∈ l, a.elsewhere = true) (m : MacRegs)
    {i : BitVec 8} (hi : i ∈ filterRegs) : l.foldl (MacAccess.apply macRegs) m i = m i := by
  induction l generalizing m with
  | nil => rfl
  | cons a l ih =>
    rw [List.foldl_cons, ih (fun x hx => hl x (List.mem_cons_of_mem _ hx)),
      apply_elsewhere (hl a List.mem_cons_self) m hi]

/-! ### With a prompt MAC -/

section Prompt

variable {done : Nat → Bool} (hprompt : Prompt done) {c : Csr MacRegs} (h : c.Idle)

include hprompt h

theorem requestStop_prompt :
    (requestStop macRegs done c).Idle ∧
      (requestStop macRegs done c).obj = c.obj.modify (· &&& ~~~macCrRxen) :=
  modifyCr_prompt hprompt _ h

theorem adjustDuplex_prompt (duplex : Bool) :
    (adjustDuplex macRegs done duplex c).Idle ∧
      (adjustDuplex macRegs done duplex c).obj = c.obj.modify fun mac_cr =>
        if duplex then mac_cr ||| macCrFdpx else mac_cr &&& ~~~macCrFdpx :=
  modifyCr_prompt hprompt _ h

theorem enableMac_prompt :
    (enableMac macRegs done c).Idle ∧
      (enableMac macRegs done c).obj = c.obj.modify (· ||| macCrOpen) :=
  modifyCr_prompt hprompt _ h

theorem rxMulticastUpdateWorkaround_prompt (k : Masks) :
    (rxMulticastUpdateWorkaround macRegs done k c).Idle ∧
      (rxMulticastUpdateWorkaround macRegs done k c).obj =
        (k.update c.obj).modify (· ||| macCrRxen) := by
  obtain ⟨hread, -, hregs⟩ := macRead_prompt macRegs hprompt h macCr
  rw [Port.effect_of_idle _ h, Port.effect_of_idle _ hread] at hregs
  obtain ⟨hupdate, hobj⟩ := rxMulticastUpdate_prompt hprompt k hread
  obtain ⟨hend, hlast⟩ := modifyCr_prompt hprompt (· ||| macCrRxen) hupdate
  refine ⟨hend, hlast.trans ?_⟩
  rw [hobj, hregs]
  rfl

/-- An access leaves the port idle, and the filter, `RXEN` and the bits for other
    filters as they are. -/
structure Kept (c c' : Csr MacRegs) : Prop where
  port   : c'.Idle
  filter : c'.obj.filter = c.obj.filter
  rxen   : c'.obj.rxen ↔ c.obj.rxen
  plain  : c.obj.Plain → c'.obj.Plain

theorem adjustDuplex_kept (duplex : Bool) : Kept c (adjustDuplex macRegs done duplex c) := by
  obtain ⟨hidle, hobj⟩ := adjustDuplex_prompt hprompt h duplex
  refine ⟨hidle, ?_, ?_, ?_⟩
  · rw [hobj]
    exact filter_modify (duplex_and duplex (by decide) (by decide))
  · rw [hobj]
    unfold MacRegs.rxen
    rw [modify_cr, duplex_and duplex (by decide) (by decide)]
  · rw [hobj]
    exact plain_modify (duplex_and duplex (by decide) (by decide))

theorem macRun_kept {l : List MacAccess} (hl : ∀ a ∈ l, a.elsewhere = true) :
    Kept c (macRun macRegs done l c).2 := by
  obtain ⟨-, hidle, hobj⟩ := mac_accesses_prompt macRegs done l c hprompt h
  have hreg : ∀ i ∈ filterRegs, (macRun macRegs done l c).2.obj i = c.obj i := by
    intro i hi
    rw [hobj, foldl_elsewhere hl c.obj hi]
  have hcr := hreg 1 (by decide)
  refine ⟨hidle, ?_, ?_, ?_⟩
  · unfold MacRegs.filter
    rw [hcr, hreg 4 (by decide), hreg 5 (by decide)]
  · unfold MacRegs.rxen
    rw [hcr]
  · unfold MacRegs.Plain
    rw [hcr]
    exact id

end Prompt

/-! ## Section 2: The transitions -/

/-- What a call of `smsc911x_set_multicast_list` does next. -/
inductive Caller where
  | idle
  | setBits (dev : RxMode)
  | clearBits (dev : RxMode)
  | hashhi (dev : RxMode)
  | hashlo (dev : RxMode)
  | lock (dev : RxMode)

/-- What the RXSTOP part of `smsc911x_irqhandler` does next, once `INT_STS` has
    been read. -/
inductive Handler where
  | idle
  | inten
  | ack
  | test
  | update

/-- How far the interface is open. -/
inductive Iface where
  | up
  | down
  | reset  -- `smsc911x_open` has reset the chip
  | armed  -- and enabled the interrupts

/-- What a run depends on: the way the kernel computes its CRC, when the MAC
    answers, and what its registers hold after a reset. -/
structure RxEnv where
  crc : CrcLeBits
  done : Nat → Bool
  fresh : MacRegs

structure RxState where
  pending : Bool    -- `multicast_update_pending`
  masks : Masks
  csr : Csr MacRegs
  stopped : Bool    -- the receiver is at rest
  rxstop : Bool     -- `INT_STS_RXSTOP_INT_`
  rxstopEn : Bool   -- `INT_EN_RXSTOP_INT_EN_`
  iface : Iface
  caller : Caller
  handler : Handler
  /-- The mode the last finished call has asked for. -/
  asked : Option RxMode

abbrev RxState.regs (s : RxState) : MacRegs := s.csr.obj

inductive RxAction where
  | call (dev : RxMode)          -- `dev_set_rx_mode`
  | caller                       -- the next statement of the call
  | halt                         -- the receiver comes to a stop
  | irq                          -- the handler is called, and reads `INT_STS`
  | handler                      -- the next statement of the handler
  | adjustLink (duplex : Bool)   -- `smsc911x_phy_adjust_link`
  | other (l : List MacAccess)   -- other accesses to the MAC
  | stop                         -- `smsc911x_stop`
  | reset                        -- the parts of `smsc911x_open`
  | enable
  | start

/-- The MAC has been accessed.  A receiver that is enabled runs. -/
def RxState.access (s : RxState) (c : Csr MacRegs) : RxState :=
  { s with csr := c, stopped := s.stopped && !decide c.obj.rxen }

/-- The section under `mac_lock` for generations 0 and 1. -/
def RxState.requestUpdate (v : RxEnv) (s : RxState) : RxState :=
  if s.pending then s
  else { s.access (requestStop macRegs v.done s.csr) with pending := true }

/-- The call goes on by one statement. -/
def RxState.callerStep (v : RxEnv) (s : RxState) : RxState :=
  match s.caller with
  | .idle => s
  | .setBits dev =>
    { s with masks.setBits := (setMulticastList v.crc dev).setBits, caller := .clearBits dev }
  | .clearBits dev =>
    { s with masks.clearBits := (setMulticastList v.crc dev).clearBits, caller := .hashhi dev }
  | .hashhi dev =>
    { s with masks.hashhi := (setMulticastList v.crc dev).hashhi, caller := .hashlo dev }
  | .hashlo dev =>
    { s with masks.hashlo := (setMulticastList v.crc dev).hashlo, caller := .lock dev }
  | .lock dev => { s.requestUpdate v with caller := .idle, asked := some dev }

/-- The handler goes on by one statement. -/
def RxState.handlerStep (v : RxEnv) (s : RxState) : RxState :=
  match s.handler with
  | .idle   => s
  | .inten  => { s with handler := if s.rxstopEn then .ack else .idle }
  | .ack    => { s with rxstop := false, handler := .test }
  | .test   => { s with handler := if s.pending then .update else .idle }
  | .update => { s.access (rxMulticastUpdateWorkaround macRegs v.done s.masks s.csr) with
      pending := false, handler := .idle }

/-- `smsc911x_soft_reset`; the open then clears `INT_EN` and `INT_STS`.  Nothing
    touches `multicast_update_pending`. -/
def RxState.softReset (v : RxEnv) (s : RxState) : RxState :=
  { s with
    csr := ⟨v.fresh, none, 0, s.csr.clock⟩
    stopped := !decide v.fresh.rxen
    rxstop := false
    rxstopEn := false
    iface := .reset }

/-- Calls are made while the interface is up, and parts of the open follow each
    other. -/
def RxState.Enabled (s : RxState) : RxAction → Prop
  | .call _       => s.iface = .up ∧ s.caller = .idle
  | .caller       => s.caller ≠ .idle
  | .halt         => ¬ s.regs.rxen ∧ s.stopped = false
  | .irq          => s.handler = .idle ∧ s.rxstop = true
  | .handler      => s.handler ≠ .idle
  | .adjustLink _ => True
  | .other l      => ∀ a ∈ l, a.elsewhere = true
  | .stop         => s.iface = .up
  | .reset        => s.iface = .down
  | .enable       => s.iface = .reset
  | .start        => s.iface = .armed

def RxState.next (v : RxEnv) (s : RxState) : RxAction → RxState
  | .call dev     => { s with caller := .setBits dev }
  | .caller       => s.callerStep v
  | .halt         => { s with stopped := true, rxstop := true }
  | .irq          => { s with handler := .inten }
  | .handler      => s.handlerStep v
  | .adjustLink d => s.access (adjustDuplex macRegs v.done d s.csr)
  | .other l      => s.access (macRun macRegs v.done l s.csr).2
  | .stop         => { s with iface := .down }
  | .reset        => s.softReset v
  | .enable       => { s with rxstopEn := true, iface := .armed }
  | .start        => { s.access (enableMac macRegs v.done s.csr) with iface := .up }

def RxStep (v : RxEnv) : RxState → RxAction → RxState → Prop :=
  Next RxState.Enabled (RxState.next v)

/-- After `smsc911x_open`, for a device that has no update pending. -/
structure RxState.Opened (s : RxState) : Prop where
  iface    : s.iface = .up
  port     : s.csr.Idle
  plain    : s.regs.Plain
  bits     : s.masks.setBits &&& plainBits = 0
  pending  : s.pending = false
  rxen     : s.regs.rxen
  stopped  : s.stopped = false
  rxstop   : s.rxstop = false
  rxstopEn : s.rxstopEn = true
  caller   : s.caller = .idle
  handler  : s.handler = .idle
  asked    : s.asked = none

/-- While it does not turn the receiver on, an access changes nothing else. -/
theorem access_at_rest {s : RxState} {c : Csr MacRegs} (h : s.stopped = true → ¬ c.obj.rxen) :
    s.access c = { s with csr := c } := by
  unfold RxState.access
  cases hstopped : s.stopped with
  | false => rfl
  | true => simp [h hstopped]

theorem access_running {s : RxState} {c : Csr MacRegs} (h : c.obj.rxen) :
    s.access c = { s with csr := c, stopped := false } := by
  unfold RxState.access
  simp [h]

/-! ## Section 3: The invariant -/

/-- As far as the call has come, the masks are those of its mode. -/
def RxState.Noted (v : RxEnv) (s : RxState) : Prop :=
  match s.caller with
  | .idle          => ∀ dev, s.asked = some dev → s.masks = setMulticastList v.crc dev
  | .setBits _     => True
  | .clearBits dev => s.masks.setBits = (setMulticastList v.crc dev).setBits
  | .hashhi dev    => s.masks.setBits = (setMulticastList v.crc dev).setBits ∧
      s.masks.clearBits = (setMulticastList v.crc dev).clearBits
  | .hashlo dev    => s.masks.setBits = (setMulticastList v.crc dev).setBits ∧
      s.masks.clearBits = (setMulticastList v.crc dev).clearBits ∧
      s.masks.hashhi = (setMulticastList v.crc dev).hashhi
  | .lock dev      => s.masks = setMulticastList v.crc dev

/-- `RXEN` is clear exactly while an update is pending; the receiver is stopped
    only then, and while it is, the interrupt is raised or its handler runs. -/
structure RxInv (v : RxEnv) (s : RxState) : Prop where
  iface    : s.iface = .up
  port     : s.csr.Idle
  plain    : s.regs.Plain
  bits     : s.masks.setBits &&& plainBits = 0
  rxstopEn : s.rxstopEn = true
  rxen     : s.pending = true ↔ ¬ s.regs.rxen
  raised   : s.rxstop = true → s.stopped = true
  running  : s.handler ≠ .idle → s.stopped = true
  acked    : s.handler = .test ∨ s.handler = .update → s.rxstop = false
  stopped  : s.stopped = true → s.pending = true ∧ (s.rxstop = true ∨ s.handler ≠ .idle)
  noted    : s.Noted v
  settled  : s.caller = .idle → s.pending = false → ∀ dev, s.asked = some dev →
    s.regs.Carries (setMulticastList v.crc dev)

theorem RxState.Opened.inv (v : RxEnv) {s : RxState} (h : s.Opened) : RxInv v s where
  iface := h.iface
  port := h.port
  plain := h.plain
  bits := h.bits
  rxstopEn := h.rxstopEn
  rxen := by simp [h.pending, h.rxen]
  raised := by simp [h.rxstop]
  running := fun hrun => absurd h.handler hrun
  acked := fun _ => h.rxstop
  stopped := by simp [h.stopped]
  noted := by simp [RxState.Noted, h.caller, h.asked]
  settled := by simp [h.asked]

theorem carries_of_filter {m m' : MacRegs} {k : Masks} (h : m'.filter = m.filter)
    (hm : m.Carries k) : m'.Carries k := by
  obtain ⟨hmode, hhigh, hlow⟩ : _ ∧ _ ∧ _ := by simpa [MacRegs.filter] using h
  exact ⟨hmode.trans hm.mode, hhigh.trans hm.hashhi, hlow.trans hm.hashlo⟩

section Steps

variable {v : RxEnv} {s : RxState} (h : RxInv v s)

include h

/-- An access that is not about the filter finds the receiver stopped only when
    `RXEN` is clear, and does not turn it on. -/
theorem RxInv.access_eq {c : Csr MacRegs} (hkept : Kept s.csr c) :
    s.access c = { s with csr := c } := by
  apply access_at_rest
  intro hstopped
  rw [hkept.rxen]
  exact h.rxen.mp (h.stopped hstopped).1

theorem access_inv {c : Csr MacRegs} (hkept : Kept s.csr c) : RxInv v (s.access c) := by
  rw [h.access_eq hkept]
  exact { h with
    port := hkept.port
    plain := hkept.plain h.plain
    rxen := h.rxen.trans (not_congr hkept.rxen).symm
    settled := fun hcaller hpending dev hasked =>
      carries_of_filter hkept.filter (h.settled hcaller hpending dev hasked) }

/-- The end of a call: all of its mode is noted, and an update is pending. -/
theorem lock_inv (hprompt : Prompt v.done) {dev : RxMode} (hcaller : s.caller = .lock dev) :
    RxInv v { s.requestUpdate v with caller := .idle, asked := some dev } := by
  have hnoted := h.noted
  unfold RxState.Noted at hnoted
  rw [hcaller] at hnoted
  have hmasks : ∀ dev', some dev = some dev' → s.masks = setMulticastList v.crc dev' := by
    intro dev' heq
    rw [hnoted, Option.some_inj.mp heq]
  unfold RxState.requestUpdate
  by_cases hpending : s.pending = true
  · rw [if_pos hpending]
    exact { h with
      noted := hmasks
      settled := fun _ hp => absurd (hpending.symm.trans hp).symm Bool.false_ne_true }
  · rw [if_neg hpending]
    have hmoving : ¬ s.stopped = true := fun hs => hpending (h.stopped hs).1
    obtain ⟨hidle, hobj⟩ := requestStop_prompt hprompt h.port
    have hclear : ¬ (requestStop macRegs v.done s.csr).obj.rxen := by
      rw [hobj]
      exact not_rxen_clear s.regs
    rw [access_at_rest fun hs => absurd hs hmoving]
    exact { h with
      port := hidle
      plain := by
        show (requestStop macRegs v.done s.csr).obj.Plain
        rw [hobj]
        exact plain_modify (clear_and (by decide)) h.plain
      rxen := ⟨fun _ => hclear, fun _ => rfl⟩
      stopped := fun hs => absurd hs hmoving
      noted := hmasks
      settled := fun _ hp => absurd hp.symm Bool.false_ne_true }

/-- A statement of the call.  The assignments move the masks on. -/
theorem callerStep_inv (hprompt : Prompt v.done) : RxInv v (s.callerStep v) := by
  have hnoted := h.noted
  unfold RxState.Noted at hnoted
  unfold RxState.callerStep
  cases hcaller : s.caller with
  | idle => exact h
  | setBits dev =>
    exact { h with
      bits := (setMulticastList_proper v.crc dev).plain
      noted := rfl
      settled := fun hc => nomatch hc }
  | clearBits dev =>
    rw [hcaller] at hnoted
    exact { h with noted := ⟨hnoted, rfl⟩, settled := fun hc => nomatch hc }
  | hashhi dev =>
    rw [hcaller] at hnoted
    exact { h with noted := ⟨hnoted.1, hnoted.2, rfl⟩, settled := fun hc => nomatch hc }
  | hashlo dev =>
    rw [hcaller] at hnoted
    exact { h with
      noted := Masks.ext hnoted.1 hnoted.2.1 hnoted.2.2 rfl
      settled := fun hc => nomatch hc }
  | lock dev => exact lock_inv h hprompt hcaller

/-- The update: the receiver runs again, with the filter of the masks. -/
theorem update_inv (hprompt : Prompt v.done) (hhandler : s.handler = .update) :
    RxInv v { s.access (rxMulticastUpdateWorkaround macRegs v.done s.masks s.csr) with
      pending := false, handler := .idle } := by
  have hacked := h.acked (.inr hhandler)
  obtain ⟨hidle, hobj⟩ := rxMulticastUpdateWorkaround_prompt hprompt h.port s.masks
  have hrxen : (rxMulticastUpdateWorkaround macRegs v.done s.masks s.csr).obj.rxen := by
    rw [hobj]
    exact rxen_set _ rfl
  rw [access_running hrxen]
  exact { h with
    port := hidle
    plain := by
      show (rxMulticastUpdateWorkaround macRegs v.done s.masks s.csr).obj.Plain
      rw [hobj]
      exact plain_modify (set_and (by decide)) (update_plain h.bits h.plain)
    rxen := ⟨fun hp => absurd hp Bool.false_ne_true, fun hr => absurd hrxen hr⟩
    raised := fun hr => absurd (hacked.symm.trans hr) Bool.false_ne_true
    running := fun hc => absurd rfl hc
    acked := fun _ => hacked
    stopped := fun hs => absurd hs Bool.false_ne_true
    settled := by
      -- with no call under way the masks are those of the last one
      intro hcaller _ dev hasked
      have hnoted := h.noted
      unfold RxState.Noted at hnoted
      rw [show s.caller = .idle from hcaller] at hnoted
      show (rxMulticastUpdateWorkaround macRegs v.done s.masks s.csr).obj.Carries _
      rw [hobj, hnoted dev hasked]
      exact carries_of_filter (filter_modify (set_and (by decide)))
        (update_carries (setMulticastList_proper v.crc dev) s.regs) }

/-- A statement of the handler: it runs only while an update is pending and the
    receiver is stopped. -/
theorem handlerStep_inv (hprompt : Prompt v.done) (hrun : s.handler ≠ .idle) :
    RxInv v (s.handlerStep v) := by
  have hstopped := h.running hrun
  obtain ⟨hpending, -⟩ := h.stopped hstopped
  unfold RxState.handlerStep
  cases hhandler : s.handler with
  | idle => exact absurd hhandler hrun
  | inten =>
    rw [if_pos h.rxstopEn]
    exact { h with
      running := fun _ => hstopped
      acked := fun hc => by rcases hc with hc | hc <;> exact nomatch hc
      stopped := fun _ => ⟨hpending, .inr fun hc => nomatch hc⟩ }
  | ack =>
    exact { h with
      raised := fun hr => absurd hr Bool.false_ne_true
      running := fun _ => hstopped
      acked := fun _ => rfl
      stopped := fun _ => ⟨hpending, .inr fun hc => nomatch hc⟩ }
  | test =>
    rw [if_pos hpending]
    exact { h with
      running := fun _ => hstopped
      acked := fun _ => h.acked (.inl hhandler)
      stopped := fun _ => ⟨hpending, .inr fun hc => nomatch hc⟩ }
  | update => exact update_inv h hprompt hhandler

end Steps

/-- No handler runs while the receiver moves. -/
theorem RxInv.idle_of_moving {v : RxEnv} {s : RxState} (h : RxInv v s)
    (hmoving : s.stopped = false) : s.handler = .idle := by
  by_contra hrun
  exact absurd (hmoving.symm.trans (h.running hrun)) Bool.false_ne_true

/-- Every step but a stop of the interface keeps the invariant. -/
theorem rx_step_inv {v : RxEnv} (hprompt : Prompt v.done) (s : RxState) (a : RxAction)
    (s' : RxState) (h : RxInv v s) (hstay : a ≠ .stop) (hstep : RxStep v s a s') : RxInv v s' := by
  obtain ⟨henabled, rfl⟩ := hstep
  cases a with
  | call dev => exact { h with noted := trivial, settled := fun hc => nomatch hc }
  | caller => exact callerStep_inv h hprompt
  | halt =>
    obtain ⟨hclear, hmoving⟩ := henabled
    have hidle := h.idle_of_moving hmoving
    exact { h with
      raised := fun _ => rfl
      running := fun _ => rfl
      acked := fun hc => by rcases hc with hc | hc <;> exact nomatch hidle.symm.trans hc
      stopped := fun _ => ⟨h.rxen.mpr hclear, .inl rfl⟩ }
  | irq =>
    obtain ⟨-, hraised⟩ := henabled
    have hstopped := h.raised hraised
    exact { h with
      running := fun _ => hstopped
      acked := fun hc => by rcases hc with hc | hc <;> exact nomatch hc
      stopped := fun _ => ⟨(h.stopped hstopped).1, .inl hraised⟩ }
  | handler => exact handlerStep_inv h hprompt henabled
  | adjustLink d => exact access_inv h (adjustDuplex_kept hprompt h.port d)
  | other l => exact access_inv h (macRun_kept hprompt h.port henabled)
  | stop => exact absurd rfl hstay
  | reset => exact nomatch h.iface.symm.trans henabled
  | enable => exact nomatch h.iface.symm.trans henabled
  | start => exact nomatch h.iface.symm.trans henabled

/-! ## Section 4: Runs -/

/-- An opened device that receives. -/
def openedRx : RxState where
  pending := false
  masks := ⟨0, 0, 0, 0⟩
  csr := ⟨Function.update (fun _ => 0) 1 (0x1000000C : Word), none, 0, 0⟩
  stopped := false
  rxstop := false
  rxstopEn := true
  iface := .up
  caller := .idle
  handler := .idle
  asked := none

theorem openedRx_opened : openedRx.Opened :=
  ⟨rfl, rfl, rfl, rfl, rfl, by decide, rfl, rfl, rfl, rfl, rfl, rfl⟩

/-- A MAC that answers at once. -/
def quickEnv : RxEnv := ⟨.eight, fun _ => true, fun _ => 0⟩

theorem quickEnv_prompt : Prompt quickEnv.done := fun _ => ⟨0, by decide, rfl⟩

/-- A call for the given mode. -/
def callActions (dev : RxMode) : List RxAction :=
  [.call dev, .caller, .caller, .caller, .caller, .caller]

/-- What the chip and the handler then do. -/
def internalActions : List RxAction := [.halt, .irq, .handler, .handler, .handler, .handler]

/-- The update is pending. -/
def calledRx (dev : RxMode) : RxState := (callActions dev).foldl (RxState.next quickEnv) openedRx

theorem called_run (dev : RxMode) : Run (RxStep quickEnv) openedRx
    (steps (RxState.next quickEnv) openedRx (callActions dev)) (calledRx dev) := by
  apply run_of_playable
  exact ⟨⟨rfl, rfl⟩, nofun, nofun, nofun, nofun, nofun, trivial⟩

theorem calledRx_csr (dev : RxMode) :
    (calledRx dev).csr = requestStop macRegs quickEnv.done openedRx.csr := by
  unfold calledRx callActions
  simp only [List.foldl_cons, List.foldl_nil, RxState.next, RxState.callerStep]
  unfold RxState.requestUpdate
  rw [if_neg (by exact Bool.false_ne_true)]
  dsimp only [RxState.access]

theorem calledRx_clear (dev : RxMode) : ¬ (calledRx dev).regs.rxen := by
  rw [RxState.regs, calledRx_csr, (requestStop_prompt quickEnv_prompt openedRx_opened.port).2]
  exact not_rxen_clear _

theorem internal_run (dev : RxMode) : Run (RxStep quickEnv) (calledRx dev)
    (steps (RxState.next quickEnv) (calledRx dev) internalActions)
    (internalActions.foldl (RxState.next quickEnv) (calledRx dev)) := by
  apply run_of_playable
  exact ⟨⟨calledRx_clear dev, rfl⟩, ⟨rfl, rfl⟩, nofun, nofun, nofun, nofun, trivial⟩

theorem updated_run (dev : RxMode) : Run (RxStep quickEnv) openedRx
    (steps (RxState.next quickEnv) openedRx (callActions dev ++ internalActions))
    ((callActions dev ++ internalActions).foldl (RxState.next quickEnv) openedRx) := by
  apply run_of_playable
  exact ⟨⟨rfl, rfl⟩, nofun, nofun, nofun, nofun, nofun, ⟨calledRx_clear dev, rfl⟩, ⟨rfl, rfl⟩,
    nofun, nofun, nofun, nofun, trivial⟩

/-- The interface stays open in these runs. -/
theorem updated_stay {s : RxState} {dev : RxMode} {l : List RxAction}
    (hl : l ⊆ callActions dev ++ internalActions) :
    ∀ x ∈ steps (RxState.next quickEnv) s l, x.action ≠ .stop := by
  intro x hx hstop
  have hmem := hl (action_of_mem_steps hx)
  rw [hstop] at hmem
  simp [callActions, internalActions] at hmem

section Runs

variable {v : RxEnv} (hprompt : Prompt v.done) {s t : RxState} {tr : List (Taken RxState RxAction)}

include hprompt

theorem rx_run_inv (h : RxInv v s) (hrun : Run (RxStep v) s tr t)
    (hstay : ∀ x ∈ tr, x.action ≠ .stop) : RxInv v t ∧ ∀ x ∈ tr, RxInv v x.pre :=
  hrun.invariant h (rx_step_inv hprompt) hstay

/-- Every step but the update and a reset keeps the filter. -/
theorem filter_step {a : RxAction} (hport : s.csr.Idle) (hstep : RxStep v s a t)
    (hkeep : ¬ (a = .handler ∧ s.handler = .update)) (hreset : a ≠ .reset) :
    t.regs.filter = s.regs.filter := by
  obtain ⟨henabled, rfl⟩ := hstep
  cases a with
  | caller =>
    show (s.callerStep v).regs.filter = _
    unfold RxState.callerStep
    split <;> try rfl
    show (s.requestUpdate v).regs.filter = _
    unfold RxState.requestUpdate
    split
    · rfl
    · show (requestStop macRegs v.done s.csr).obj.filter = _
      rw [(requestStop_prompt hprompt hport).2]
      exact filter_modify (clear_and (by decide))
  | handler =>
    show (s.handlerStep v).regs.filter = _
    unfold RxState.handlerStep
    split <;> try rfl
    rename_i hhandler
    exact absurd ⟨rfl, hhandler⟩ hkeep
  | adjustLink d => exact (adjustDuplex_kept hprompt hport d).filter
  | other l => exact (macRun_kept hprompt hport henabled).filter
  | reset => exact absurd rfl hreset
  | start =>
    show (enableMac macRegs v.done s.csr).obj.filter = _
    rw [(enableMac_prompt hprompt hport).2]
    exact filter_modify (set_and (by decide))
  | _ => rfl

/-- **The filter only changes at rest**: in every run from an opened device in
    which the interface stays open, a step that changes the filter finds the
    receiver stopped and disabled. -/
theorem filter_written_at_rest (hopen : s.Opened) (hrun : Run (RxStep v) s tr t)
    (hstay : ∀ x ∈ tr, x.action ≠ .stop) :
    ∀ x ∈ tr, x.post.regs.filter ≠ x.pre.regs.filter →
      x.pre.stopped = true ∧ ¬ x.pre.regs.rxen := by
  intro x hx hchange
  have hinv := (rx_run_inv hprompt (hopen.inv v) hrun hstay).2 x hx
  have htaken := hrun.taken x hx
  -- the interface is up, so the chip is not reset
  have hreset : x.action ≠ .reset := by
    intro hc
    have henabled := htaken.1
    rw [hc] at henabled
    exact nomatch hinv.iface.symm.trans henabled
  have hupdate : x.action = .handler ∧ x.pre.handler = .update := by
    by_contra hkeep
    exact hchange (filter_step hprompt hinv.port htaken hkeep hreset)
  have hstopped := hinv.running (by rw [hupdate.2]; exact fun hc => nomatch hc)
  exact ⟨hstopped, hinv.rxen.mp (hinv.stopped hstopped).1⟩

omit hprompt in
/-- The last step of an update, to all frames. -/
theorem filter_written_at_rest_update :
    let pre := (internalActions.take 5).foldl (RxState.next quickEnv)
      (calledRx ⟨iffPromisc, fun _ => 0, []⟩)
    pre.stopped = true ∧ ¬ pre.regs.rxen :=
  filter_written_at_rest quickEnv_prompt openedRx_opened
    (updated_run ⟨iffPromisc, fun _ => 0, []⟩) (updated_stay (List.Subset.refl _))
    ⟨(internalActions.take 5).foldl (RxState.next quickEnv)
        (calledRx ⟨iffPromisc, fun _ => 0, []⟩), .handler,
      internalActions.foldl (RxState.next quickEnv) (calledRx ⟨iffPromisc, fun _ => 0, []⟩)⟩
    (List.mem_iff_getElem?.mpr ⟨11, rfl⟩) (by decide +kernel)

/-- **The filter settles.**  However calls, chip and handler are interleaved,
    while the interface stays open: with no call under way and no update pending,
    the receiver is enabled and what passes is what the last call has asked
    for. -/
theorem filter_settles (flt : AddressFilter) {dev : RxMode} (hopen : s.Opened)
    (hrun : Run (RxStep v) s tr t) (hstay : ∀ x ∈ tr, x.action ≠ .stop)
    (hcaller : t.caller = .idle) (hpending : t.pending = false) (hasked : t.asked = some dev) :
    t.regs.rxen ∧ flt.Serves t.regs dev := by
  have hinv := (rx_run_inv hprompt (hopen.inv v) hrun hstay).1
  constructor
  · by_contra hclear
    exact absurd (hpending.symm.trans (hinv.rxen.mpr hclear)) Bool.false_ne_true
  · exact serves_setMulticastList flt hinv.plain (hinv.settled hcaller hpending dev hasked)

omit hprompt in
/-- After a call with the group of all hosts on the list, the group passes. -/
theorem filter_settles_all_hosts :
    strictFilter.passes ((callActions allHostsMode ++ internalActions).foldl
      (RxState.next quickEnv) openedRx).regs allHosts :=
  ((filter_settles quickEnv_prompt strictFilter openedRx_opened (updated_run allHostsMode)
    (updated_stay (List.Subset.refl _)) rfl rfl rfl).2.groups allHosts (by decide)).mpr
      (.inr (.inr ⟨0, List.mem_singleton.mpr rfl, rfl⟩))

/-! ## Section 5: Progress -/

/-- The steps of the chip and of the handler. -/
def RxAction.internal : RxAction → Bool
  | .halt | .irq | .handler => true
  | _ => false

/-- How many of them a pending update still needs. -/
def RxState.rank (s : RxState) : Nat :=
  match s.handler with
  | .update => 1
  | .test   => 2
  | .ack    => 3
  | .inten  => 4
  | .idle   => if s.stopped then 5 else 6

omit hprompt in
/-- While an update is pending one of them can be taken. -/
theorem internal_enabled (h : RxInv v s) (hpending : s.pending = true) :
    ∃ a, RxAction.internal a = true ∧ s.Enabled a := by
  by_cases hidle : s.handler = .idle
  · by_cases hstopped : s.stopped = true
    · rcases (h.stopped hstopped).2 with hraised | hrun
      · exact ⟨.irq, rfl, hidle, hraised⟩
      · exact absurd hidle hrun
    · exact ⟨.halt, rfl, h.rxen.mp hpending, by simpa using hstopped⟩
  · exact ⟨.handler, rfl, hidle⟩

omit hprompt in
/-- An access to the MAC that is not the update does not change the rank. -/
theorem access_rank (h : RxInv v s) {c : Csr MacRegs} (hkept : Kept s.csr c) :
    (s.access c).rank = s.rank := by
  rw [h.access_eq hkept]
  rfl

/-- Each of the steps of the chip and the handler brings the update nearer, and
    no other step takes it away. -/
theorem rank_step {a : RxAction} (h : RxInv v s) (hpending : s.pending = true)
    (hstay : a ≠ .stop) (hstep : RxStep v s a t) :
    t.pending = false ∨
      t.pending = true ∧ t.rank + (if a.internal then 1 else 0) = s.rank := by
  obtain ⟨henabled, rfl⟩ := hstep
  cases a with
  | call dev => exact .inr ⟨hpending, rfl⟩
  | caller =>
    right
    show (s.callerStep v).pending = true ∧ (s.callerStep v).rank + 0 = s.rank
    unfold RxState.callerStep RxState.requestUpdate
    rw [if_pos hpending]
    split <;> exact ⟨hpending, rfl⟩
  | halt =>
    right
    obtain ⟨-, hmoving⟩ := henabled
    refine ⟨hpending, ?_⟩
    simp [RxState.rank, RxState.next, RxAction.internal, h.idle_of_moving hmoving, hmoving]
  | irq =>
    right
    obtain ⟨hidle, hraised⟩ := henabled
    refine ⟨hpending, ?_⟩
    simp [RxState.rank, RxState.next, RxAction.internal, hidle, h.raised hraised]
  | handler =>
    show (s.handlerStep v).pending = false ∨
      (s.handlerStep v).pending = true ∧ (s.handlerStep v).rank + 1 = s.rank
    unfold RxState.handlerStep
    cases hhandler : s.handler with
    | idle => exact absurd hhandler henabled
    | inten => exact .inr ⟨hpending, by simp [RxState.rank, hhandler, h.rxstopEn]⟩
    | ack => exact .inr ⟨hpending, by simp [RxState.rank, hhandler]⟩
    | test => exact .inr ⟨hpending, by simp [RxState.rank, hhandler, hpending]⟩
    | update => exact .inl rfl
  | adjustLink d => exact .inr ⟨hpending, access_rank h (adjustDuplex_kept hprompt h.port d)⟩
  | other l => exact .inr ⟨hpending, access_rank h (macRun_kept hprompt h.port henabled)⟩
  | stop => exact absurd rfl hstay
  | reset => exact nomatch h.iface.symm.trans henabled
  | enable => exact nomatch h.iface.symm.trans henabled
  | start => exact nomatch h.iface.symm.trans henabled

theorem rank_run (h : RxInv v s) (hpending : s.pending = true) (hrun : Run (RxStep v) s tr t)
    (hstay : ∀ x ∈ tr, x.action ≠ .stop) :
    (∃ x ∈ tr, x.post.pending = false) ∨
      t.rank + tr.countP (·.action.internal) = s.rank := by
  induction hrun with
  | nil s => exact .inr rfl
  | @cons s s' t a tr hstep _ ih =>
    have hfirst : a ≠ .stop := hstay _ List.mem_cons_self
    have hmore : ∀ x ∈ tr, x.action ≠ .stop := fun x hx => hstay x (List.mem_cons_of_mem _ hx)
    rcases rank_step hprompt h hpending hfirst hstep with hdone | ⟨hstill, hrank⟩
    · exact .inl ⟨_, List.mem_cons_self .., hdone⟩
    · rcases ih (rx_step_inv hprompt s a s' h hfirst hstep) hstill hmore with ⟨x, hx, hdone⟩ | hrest
      · exact .inl ⟨x, List.mem_cons_of_mem _ hx, hdone⟩
      · right
        rw [List.countP_cons]
        dsimp only
        omega

omit hprompt in
theorem rank_pos (s : RxState) : 1 ≤ s.rank ∧ s.rank ≤ 6 := by
  unfold RxState.rank
  split
  · decide
  · decide
  · decide
  · decide
  · split <;> decide

/-- **A pending update completes**, while the interface stays open: from every
    state of every run, one of the steps of the chip and the handler can be taken
    as long as it is pending, and after six of them it has been made, whatever
    calls come between. -/
theorem update_completes {u : RxState} {tr' : List (Taken RxState RxAction)} (hopen : s.Opened)
    (hrun : Run (RxStep v) s tr t) (hstay : ∀ x ∈ tr, x.action ≠ .stop)
    (hpending : t.pending = true) (hrun' : Run (RxStep v) t tr' u)
    (hstay' : ∀ x ∈ tr', x.action ≠ .stop) :
    (∃ a, RxAction.internal a = true ∧ t.Enabled a) ∧
      (6 ≤ tr'.countP (·.action.internal) → ∃ x ∈ tr', x.post.pending = false) := by
  have hinv := (rx_run_inv hprompt (hopen.inv v) hrun hstay).1
  refine ⟨internal_enabled hinv hpending, ?_⟩
  intro hcount
  rcases rank_run hprompt hinv hpending hrun' hstay' with hdone | hrank
  · exact hdone
  · have hu := rank_pos u
    have ht := rank_pos t
    omega

omit hprompt in
/-- The six steps after a call. -/
theorem update_completes_call :
    ∃ x ∈ steps (RxState.next quickEnv) (calledRx allHostsMode) internalActions,
      x.post.pending = false :=
  (update_completes quickEnv_prompt openedRx_opened (called_run allHostsMode)
    (updated_stay (List.subset_append_left _ _)) rfl (internal_run allHostsMode)
    (updated_stay (List.subset_append_right (callActions allHostsMode) _))).2 (by decide)

/-! ## Section 6: Stopping the interface -/

/-- An update is pending that the chip will not be asked to stop for. -/
structure Stuck (filter : Word × Word × Word) (s : RxState) : Prop where
  pending : s.pending = true
  port    : s.csr.Idle
  still   : s.regs.rxen ∨ s.stopped = true
  rxstop  : s.rxstop = false
  handler : s.handler = .idle
  filter  : s.regs.filter = filter

omit hprompt in
/-- An access that does not turn the receiver off. -/
theorem access_still {c : Csr MacRegs} (h : s.regs.rxen ∨ s.stopped = true)
    (hrxen : s.regs.rxen → c.obj.rxen) : (s.access c).regs.rxen ∨ (s.access c).stopped = true := by
  by_cases hc : c.obj.rxen
  · exact .inl hc
  · have hstopped := h.resolve_left (mt hrxen hc)
    rw [access_at_rest fun _ => hc]
    exact .inr hstopped

omit hprompt in
theorem softReset_still (v : RxEnv) (s : RxState) :
    (s.softReset v).regs.rxen ∨ (s.softReset v).stopped = true := by
  by_cases hfresh : v.fresh.rxen
  · exact .inl hfresh
  · exact .inr (by simpa [RxState.softReset] using hfresh)

theorem stuck_step (s : RxState) (a : RxAction) (s' : RxState) (h : Stuck v.fresh.filter s)
    (hstep : RxStep v s a s') : Stuck v.fresh.filter s' := by
  have hkeep : a ≠ .reset → s'.regs.filter = s.regs.filter := filter_step hprompt h.port hstep
    fun hc => nomatch h.handler.symm.trans hc.2
  obtain ⟨henabled, rfl⟩ := hstep
  cases a with
  | call dev => exact { h with }
  | caller =>
    -- an update is pending already, so the chip is not asked
    show Stuck v.fresh.filter (s.callerStep v)
    unfold RxState.callerStep RxState.requestUpdate
    rw [if_pos h.pending]
    split <;> exact { h with }
  | halt =>
    obtain ⟨hclear, hmoving⟩ := henabled
    have hstopped := h.still.resolve_left hclear
    exact absurd (hmoving.symm.trans hstopped) Bool.false_ne_true
  | irq => exact absurd (h.rxstop.symm.trans henabled.2) Bool.false_ne_true
  | handler => exact absurd h.handler henabled
  | adjustLink d =>
    have hkept := adjustDuplex_kept hprompt h.port d
    exact { h with
      port := hkept.port
      still := access_still h.still hkept.rxen.mpr
      filter := (hkeep nofun).trans h.filter }
  | other l =>
    have hkept := macRun_kept hprompt h.port henabled
    exact { h with
      port := hkept.port
      still := access_still h.still hkept.rxen.mpr
      filter := (hkeep nofun).trans h.filter }
  | stop => exact { h with }
  | reset =>
    exact { h with port := rfl, still := softReset_still v s, rxstop := rfl, filter := rfl }
  | enable => exact { h with }
  | start =>
    obtain ⟨hidle, hobj⟩ := enableMac_prompt hprompt h.port
    have hrxen : (enableMac macRegs v.done s.csr).obj.rxen := by
      rw [hobj]
      exact rxen_set _ rfl
    exact { h with
      port := hidle
      still := .inl hrxen
      filter := (hkeep nofun).trans h.filter }

/-- **An update that is pending when the chip is reset is never made**, and no
    later one either: in every run after the reset, through calls, calls of the
    handler and further stops and opens, it stays pending and the filter is the
    one of the reset. -/
theorem pending_across_stop {u : RxState} (hpending : s.pending = true)
    (hidle : s.handler = .idle) (hreset : RxStep v s .reset t) (hrun : Run (RxStep v) t tr u) :
    u.pending = true ∧ u.regs.filter = v.fresh.filter := by
  obtain ⟨-, rfl⟩ := hreset
  have hstuck : Stuck v.fresh.filter (s.softReset v) :=
    ⟨hpending, rfl, softReset_still v s, rfl, hidle, rfl⟩
  have hend := (hrun.invariant hstuck (fun s a s' h (_ : True) => stuck_step hprompt s a s' h)
    (fun _ _ => trivial)).1
  exact ⟨hend.pending, hend.filter⟩

omit hprompt in
/-- The interface is stopped with a call pending and opened again; a further call
    is in vain. -/
theorem pending_across_stop_all_hosts :
    let s := (calledRx allHostsMode).next quickEnv .stop
    let l := [.enable, .start] ++ callActions allHostsMode
    (l.foldl (RxState.next quickEnv) (s.next quickEnv .reset)).regs.filter = (0, 0, 0) := by
  intro s l
  have hdown : s.Enabled .reset := show s.iface = .down from rfl
  have hplay : Playable RxState.Enabled (RxState.next quickEnv) (s.next quickEnv .reset) l :=
    ⟨rfl, rfl, ⟨rfl, rfl⟩, nofun, nofun, nofun, nofun, nofun, trivial⟩
  exact (pending_across_stop quickEnv_prompt rfl rfl ⟨hdown, rfl⟩
    (run_of_playable hplay)).2

end Runs

end Nic
