import VetGumstix.Framework.Bytes
import VetGumstix.Nic.Mac

/-! # The EEPROM

    A serial EEPROM lies behind a command port of the chip: `E2P_CMD` takes
    commands and shows whether one is pending, `E2P_DATA` holds the byte.  The
    driver enables writing (`EWEN`), erases and writes one byte, and disables
    writing again (`EWDS`).  It does not look whether enabling has worked.  The
    kernel's `ethtool` code calls it again for each byte to be written.

    * `setEeprom_sound`: however long the commands take, a call that is begun with
      the port idle touches no other byte; and when there is an EEPROM and the
      call reports success, the byte is written.
    * `ethtool_round_trip`: with a prompt EEPROM, what is set over `ethtool` is
      what is got afterwards.
    * `getEeprom_exact_iff`: but what is got is what the EEPROM holds only when it
      is got from the start; else it comes from uninitialised memory.
-/

namespace Nic

open Bytes BitMask

/-! ## Section 1: The chip -/

/-- `E2P_CMD_EPC_CMD_` -/
def e2pCmdEpcCmd : Word := 0x70000000
/-- `E2P_CMD_EPC_CMD_READ_` -/
def e2pCmdRead : Word := 0x00000000
/-- `E2P_CMD_EPC_CMD_EWDS_` -/
def e2pCmdEwds : Word := 0x10000000
/-- `E2P_CMD_EPC_CMD_EWEN_` -/
def e2pCmdEwen : Word := 0x20000000
/-- `E2P_CMD_EPC_CMD_WRITE_` -/
def e2pCmdWrite : Word := 0x30000000
/-- `E2P_CMD_EPC_CMD_ERASE_` -/
def e2pCmdErase : Word := 0x50000000
/-- `E2P_CMD_EPC_TIMEOUT_` -/
def e2pCmdEpcTimeout : Word := 0x00000200
/-- `GPIO_CFG_EEPR_EN_`: the pins of the EEPROM are used for something else. -/
def gpioCfgEeprEn : Word := 0x00700000

/-- The EEPROM and the chip in front of it.  Nothing is assumed about what the
    chip makes of a command when no EEPROM answers. -/
structure Eeprom where
  mem : BitVec 8 → Byte
  writable : Bool
  present : Bool
  gpioCfg : Word
  timeout : Bool         -- `E2P_CMD_EPC_TIMEOUT_`
  /-- `E2P_DATA` and the time-out bit after a command that no EEPROM answers. -/
  unanswered : BusyWord → Byte → Byte × Bool

def Eeprom.Reachable (e : Eeprom) : Prop := e.present = true ∧ e.gpioCfg &&& gpioCfgEeprEn = 0

instance (e : Eeprom) : Decidable e.Reachable := inferInstanceAs (Decidable (_ ∧ _))

/-- The port with the EEPROM behind it. -/
abbrev E2p := Port Eeprom BusyWord Byte

/-- A command, for an EEPROM that can be reached. -/
def Eeprom.command (op : Word) (a : BitVec 8) (data : Byte) (e : Eeprom) : Byte × Eeprom :=
  if op = e2pCmdRead then (e.mem a, e)
  else if op = e2pCmdEwds then (data, { e with writable := false })
  else if op = e2pCmdEwen then (data, { e with writable := true })
  else if op = e2pCmdWrite then
    (data, if e.writable then { e with mem := Function.update e.mem a data } else e)
  else if op = e2pCmdErase then
    (data, if e.writable then { e with mem := Function.update e.mem a 0xFF } else e)
  else (data, e)  -- what the driver does not send

def eepromAct : Port.Action Eeprom BusyWord Byte := fun cmd data e =>
  if e.Reachable then
    { e with timeout := false }.command (cmd.1 &&& e2pCmdEpcCmd) (cmd.1.extractLsb' 0 8) data
  else ((e.unanswered cmd data).1, { e with timeout := (e.unanswered cmd data).2 })

/-- The registers of the chip that the EEPROM functions use. -/
inductive E2pReg where
  | e2pCmd
  | e2pData
  | byteTest
  | gpioCfg

section Driver

variable (done : Nat → Bool)

/-- `smsc911x_reg_read` -/
def e2pRead (reg : E2pReg) (c : E2p) : Word × E2p :=
  let c := c.tick eepromAct done
  match reg with
  | .e2pCmd =>
    ((c.pending.map Subtype.val).getD (if c.obj.timeout then e2pCmdEpcTimeout else 0), c)
  | .e2pData => (c.data.setWidth 32, c)
  | .byteTest => (0x87654321, c)
  | .gpioCfg => (c.obj.gpioCfg, c)

/-- `smsc911x_reg_write` -/
def e2pWrite (reg : E2pReg) (val : Word) (c : E2p) : E2p :=
  let c := c.tick eepromAct done
  match reg with
  | .e2pCmd => if h : val &&& cmdBusy ≠ 0 then c.start ⟨val, h⟩ else c
  | .e2pData => c.put (val.setWidth 8)
  | .byteTest => c
  | .gpioCfg => { c with obj := { c.obj with gpioCfg := val } }

/-! ## Section 2: The driver -/

/-- `-EBUSY` -/
def ebusy : Int := -16
/-- `-EAGAIN` -/
def eagain : Int := -11
/-- `-EINVAL` -/
def einval : Int := -22

/-- `smsc911x_eeprom_enable_access` -/
def eepromEnableAccess (c : E2p) : E2p :=
  let (temp, c) := e2pRead done .gpioCfg c
  e2pWrite done .gpioCfg (temp &&& ~~~gpioCfgEeprEn) c

/-- The loop of `smsc911x_eeprom_send_cmd` -/
def eepromSendLoop : Nat → E2p → Int × E2p
  | 0, c => (eagain, c)
  | timeout + 1, c =>
    let (e2cmd, c) := e2pRead done .e2pCmd c
    if e2cmd &&& cmdBusy ≠ 0 then eepromSendLoop timeout c
    else if e2cmd &&& e2pCmdEpcTimeout ≠ 0 then (einval, c)
    else (0, c)

/-- `smsc911x_eeprom_send_cmd` -/
def eepromSendCmd (op : Word) (c : E2p) : Int × E2p :=
  let (e2cmd, c) := e2pRead done .e2pCmd c
  if e2cmd &&& cmdBusy ≠ 0 then (ebusy, c)
  else eepromSendLoop done 100 (e2pWrite done .e2pCmd (op ||| cmdBusy) c)

/-- `smsc911x_eeprom_read_location`; `data` is the caller's array. -/
def eepromReadLocation (address : BitVec 8) (data : ByteMem) (c : E2p) : Int × ByteMem × E2p :=
  let (ret, c) := eepromSendCmd done (e2pCmdRead ||| address.setWidth 32) c
  if ret = 0 then
    let (val, c) := e2pRead done .e2pData c
    (ret, Function.update data address.toNat (val.setWidth 8), c)
  else (ret, data, c)

/-- `smsc911x_eeprom_write_location` -/
def eepromWriteLocation (address : BitVec 8) (data : Byte) (c : E2p) : Int × E2p :=
  let (ret, c) := eepromSendCmd done (e2pCmdErase ||| address.setWidth 32) c
  if ret = 0 then
    let c := e2pWrite done .e2pData (data.setWidth 32) c
    let (_, c) := e2pRead done .byteTest c
    eepromSendCmd done (e2pCmdWrite ||| address.setWidth 32) c
  else (ret, c)

/-- `SMSC911X_EEPROM_SIZE` -/
def eepromSize : Nat := 128

/-- The loop of `smsc911x_ethtool_get_eeprom`, with `k` locations left from `i`
    on -/
def getEepromLoop : Nat → Nat → ByteMem → E2p → Int × ByteMem × E2p
  | 0, _, data, c => (0, data, c)
  | k + 1, i, data, c =>
    let (ret, data, c) := eepromReadLocation done (BitVec.ofNat 8 i) data c
    if ret < 0 then (ret, data, c) else getEepromLoop k (i + 1) data c

/-- `smsc911x_ethtool_get_eeprom`: the result, the bytes for the caller and the
    port.  `stack` is what the local array happens to hold. -/
def ethtoolGetEeprom (stack : ByteMem) (offset len : Nat) (c : E2p) : Int × List Byte × E2p :=
  let c := eepromEnableAccess done c
  let len := min len eepromSize
  let (ret, data, c) := getEepromLoop done len 0 stack c
  if ret < 0 then (ret, [], c) else (0, readBytes data offset len, c)

/-- `smsc911x_ethtool_set_eeprom` -/
def ethtoolSetEeprom (offset : Nat) (data : Byte) (c : E2p) : Int × E2p :=
  let c := eepromEnableAccess done c
  let (_, c) := eepromSendCmd done e2pCmdEwen c
  let (ret, c) := eepromWriteLocation done (BitVec.ofNat 8 offset) data c
  let (_, c) := eepromSendCmd done e2pCmdEwds c
  (ret, c)

/-- The checks of `ethtool_get_any_eeprom` and `ethtool_set_eeprom` in the
    kernel, in 32 bits. -/
def eepromRangeOk (offset len : Nat) : Prop :=
  ¬ (offset + len) % 2 ^ 32 ≤ offset ∧ ¬ eepromSize < (offset + len) % 2 ^ 32

instance (offset len : Nat) : Decidable (eepromRangeOk offset len) :=
  inferInstanceAs (Decidable (_ ∧ _))

/-- `ETHTOOL_GEEPROM`; all that may be asked for fits one page, so that the
    driver is called once. -/
def getAnyEeprom (stack : ByteMem) (offset len : Nat) (c : E2p) : Int × List Byte × E2p :=
  if eepromRangeOk offset len then ethtoolGetEeprom done stack offset len c
  else (einval, [], c)

/-- The loop of `ethtool_set_eeprom`.  The driver says that it has written one
    byte, and is called again. -/
def setEepromLoop : Nat → List Byte → E2p → Int × E2p
  | _, [], c => (0, c)
  | offset, b :: data, c =>
    let (ret, c) := ethtoolSetEeprom done offset b c
    if ret ≠ 0 then (ret, c) else setEepromLoop (offset + 1) data c

/-- `ETHTOOL_SEEPROM` -/
def setAnyEeprom (offset : Nat) (data : List Byte) (c : E2p) : Int × E2p :=
  if eepromRangeOk offset data.length then setEepromLoop done offset data c
  else (einval, c)

end Driver

/-! ## Section 3: Commands -/

theorem busyCmd_busy (op : Word) : (op ||| cmdBusy) &&& cmdBusy ≠ 0 := by
  apply and_ne_zero_of_bit 31
  · rw [BitVec.getLsbD_or, show cmdBusy.getLsbD 31 = true from rfl, Bool.or_true]
  · rfl

/-- A command for a location, as it is written to `E2P_CMD`. -/
def busyCmd (op : Word) (a : BitVec 8) : BusyWord :=
  ⟨op ||| a.setWidth 32 ||| cmdBusy, busyCmd_busy _⟩

/-- The chip finds the command and the location in the word. -/
theorem eepromAct_busyCmd {op : Word} (hop : op &&& e2pCmdEpcCmd = op)
    (hlow : op.extractLsb' 0 8 = 0#8) (a : BitVec 8) (data : Byte) {e : Eeprom}
    (he : e.Reachable) :
    eepromAct (busyCmd op a) data e = { e with timeout := false }.command op a data := by
  have hfield : (op ||| a.setWidth 32 ||| cmdBusy) &&& e2pCmdEpcCmd = op := by
    have ha : a.setWidth 32 &&& e2pCmdEpcCmd = 0#32 := by
      apply BitVec.eq_of_toNat_eq
      have hlt := a.isLt
      rw [toNat_and_field _ _ 28 3 rfl, BitVec.toNat_setWidth, Nat.mod_eq_of_lt (by omega)]
      show _ = 0
      omega
    have hbusy : cmdBusy &&& e2pCmdEpcCmd = 0#32 := rfl
    rw [BitVec.and_or_distrib_right, BitVec.and_or_distrib_right, hop, ha, hbusy, BitVec.or_zero,
      BitVec.or_zero]
  have haddr : (op ||| a.setWidth 32 ||| cmdBusy).extractLsb' 0 8 = a := by
    have hbusy : cmdBusy.extractLsb' 0 8 = 0#8 := rfl
    rw [BitVec.extractLsb'_or, BitVec.extractLsb'_or, hlow, hbusy, BitVec.zero_or, BitVec.or_zero]
    apply BitVec.eq_of_toNat_eq
    have hlt := a.isLt
    rw [BitVec.extractLsb'_toNat, BitVec.toNat_setWidth, Nat.shiftRight_zero]
    omega
  unfold eepromAct
  rw [if_pos he]
  show Eeprom.command ((op ||| a.setWidth 32 ||| cmdBusy) &&& e2pCmdEpcCmd)
    ((op ||| a.setWidth 32 ||| cmdBusy).extractLsb' 0 8) data _ = _
  rw [hfield, haddr]

section Send

variable {done : Nat → Bool} {c : E2p}

/-- The word in `E2P_CMD` shows whether a command is pending, -/
theorem e2p_busy_iff (c : E2p) :
    (c.pending.map Subtype.val).getD (if c.obj.timeout then e2pCmdEpcTimeout else 0) &&& cmdBusy = 0
      ↔ c.Idle := by
  unfold Port.Idle
  cases hp : c.pending with
  | none => cases c.obj.timeout <;> exact ⟨fun _ => rfl, fun _ => rfl⟩
  | some w => simpa using w.2

/-- and when none is, whether the last one has failed. -/
theorem e2p_timeout_iff (h : c.Idle) :
    (c.pending.map Subtype.val).getD (if c.obj.timeout then e2pCmdEpcTimeout else 0) &&&
      e2pCmdEpcTimeout ≠ 0 ↔ c.obj.timeout = true := by
  rw [show c.pending = none from h]
  cases c.obj.timeout <;> simp [e2pCmdEpcTimeout]

theorem eepromSendLoop_eq (n : Nat) :
    eepromSendLoop done n c =
      let r := c.wait eepromAct done n
      (if r.1 then (if r.2.obj.timeout then einval else 0) else eagain, r.2) := by
  induction n generalizing c with
  | zero => rfl
  | succ n ih =>
    unfold eepromSendLoop e2pRead Port.wait
    simp only [ne_eq, e2p_busy_iff]
    by_cases hidle : (c.tick eepromAct done).Idle
    · have htimeout := e2p_timeout_iff hidle
      simp only [ne_eq] at htimeout
      simp only [hidle, not_true_eq_false, if_false, if_true, htimeout]
      split <;> rfl
    · simp only [hidle, not_false_eq_true, if_true, if_false]
      exact ih

/-- How a command may end that is sent to the port `c`. -/
inductive Sending (cmd : BusyWord) (c : E2p) (r : Int × E2p) : Prop where
  /-- It has been carried out, without a time-out. -/
  | finished : r.1 = 0 → r.2.Idle →
      r.2.obj = (eepromAct cmd (c.result eepromAct) (c.effect eepromAct)).2 →
      r.2.data = (eepromAct cmd (c.result eepromAct) (c.effect eepromAct)).1 → Sending cmd c r
  /-- It will be carried out, or has timed out. -/
  | failed : r.1 < 0 → (r.2.Idle → r.2.obj.timeout = true) →
      (r.2.obj = c.effect eepromAct ∨ r.2.obj = r.2.effect eepromAct) →
      r.2.effect eepromAct = (eepromAct cmd (c.result eepromAct) (c.effect eepromAct)).2 →
      Sending cmd c r
  /-- The port was busy. -/
  | refused : r.1 < 0 → ¬ c.Idle → (r.2.obj = c.obj ∨ r.2.obj = c.effect eepromAct) →
      r.2.effect eepromAct = c.effect eepromAct → Sending cmd c r

/-- **A command**: it is reported as done only when it is. -/
theorem eepromSendCmd_spec (done : Nat → Bool) (op : Word) (a : BitVec 8) (c : E2p) :
    Sending (busyCmd op a) c (eepromSendCmd done (op ||| a.setWidth 32) c) := by
  have hbusy := e2p_busy_iff (c.tick eepromAct done)
  unfold eepromSendCmd e2pRead
  dsimp only
  by_cases hidle : (c.tick eepromAct done).Idle
  · have hsettled : (c.tick eepromAct done).obj = c.effect eepromAct ∧
        (c.tick eepromAct done).data = c.result eepromAct := by
      rw [← Port.effect_of_idle eepromAct hidle, ← Port.result_of_idle eepromAct hidle,
        Port.effect_tick, Port.result_tick]
      exact ⟨rfl, rfl⟩
    have hwrite : e2pWrite done .e2pCmd (op ||| a.setWidth 32 ||| cmdBusy)
        (c.tick eepromAct done) =
          ((c.tick eepromAct done).tick eepromAct done).start (busyCmd op a) :=
      dif_pos (busyCmd_busy _)
    have heffect : (((c.tick eepromAct done).tick eepromAct done).start (busyCmd op a)).effect
        eepromAct = (eepromAct (busyCmd op a) (c.result eepromAct) (c.effect eepromAct)).2 := by
      rw [Port.effect_start, Port.tick_idle hidle, hsettled.1, hsettled.2]
    have hstart : (((c.tick eepromAct done).tick eepromAct done).start (busyCmd op a)).obj =
        c.effect eepromAct := by
      rw [Port.tick_idle hidle]
      exact hsettled.1
    have hresult : (((c.tick eepromAct done).tick eepromAct done).start (busyCmd op a)).result
        eepromAct = (eepromAct (busyCmd op a) (c.result eepromAct) (c.effect eepromAct)).1 := by
      rw [Port.result_start, Port.tick_idle hidle, hsettled.1, hsettled.2]
    rw [if_neg (not_not.mpr (hbusy.mpr hidle)), hwrite, eepromSendLoop_eq]
    generalize ((c.tick eepromAct done).tick eepromAct done).start (busyCmd op a) = p at *
    dsimp only
    by_cases hok : (p.wait eepromAct done 100).1 = true
    · have hend := Port.wait_idle hok
      have hobj : (p.wait eepromAct done 100).2.obj =
          (eepromAct (busyCmd op a) (c.result eepromAct) (c.effect eepromAct)).2 := by
        rw [← Port.effect_of_idle eepromAct hend, Port.effect_wait, heffect]
      have hdata : (p.wait eepromAct done 100).2.data =
          (eepromAct (busyCmd op a) (c.result eepromAct) (c.effect eepromAct)).1 := by
        rw [← Port.result_of_idle eepromAct hend, Port.result_wait, hresult]
      rw [if_pos hok]
      cases htimeout : (p.wait eepromAct done 100).2.obj.timeout with
      | false => exact .finished rfl hend hobj hdata
      | true =>
        exact .failed (show einval < 0 by decide) (fun _ => htimeout)
          (.inr (Port.effect_of_idle eepromAct hend).symm)
          ((Port.effect_of_idle eepromAct hend).trans hobj)
    · have hbusy := Port.wait_busy (by decide) (Bool.not_eq_true _ ▸ hok)
      have hobj : (p.wait eepromAct done 100).2.obj = p.obj ∨
          (p.wait eepromAct done 100).2.obj = p.effect eepromAct := Port.obj_wait 100
      rw [hstart] at hobj
      rw [if_neg hok]
      exact .failed (show eagain < 0 by decide) (fun hend => absurd hend hbusy)
        (hobj.imp_right fun h => h.trans (Port.effect_wait 100).symm)
        ((Port.effect_wait 100).trans heffect)
  · rw [if_pos (mt hbusy.mp hidle)]
    exact .refused (show ebusy < 0 by decide) (fun h => hidle h.tick) Port.obj_tick
      Port.effect_tick

variable {cmd : BusyWord} {r : Int × E2p}

theorem Sending.nonpos (h : Sending cmd c r) : r.1 = 0 ∨ r.1 < 0 := by
  cases h with
  | finished hret => exact .inl hret
  | failed hret => exact .inr hret
  | refused hret => exact .inr hret

theorem Sending.of_zero (h : Sending cmd c r) (hret : r.1 = 0) :
    r.2.Idle ∧ r.2.obj = (eepromAct cmd (c.result eepromAct) (c.effect eepromAct)).2 ∧
      r.2.data = (eepromAct cmd (c.result eepromAct) (c.effect eepromAct)).1 := by
  cases h with
  | finished _ hidle hobj hdata => exact ⟨hidle, hobj, hdata⟩
  | failed hneg => exact absurd hret (Int.ne_of_lt hneg)
  | refused hneg => exact absurd hret (Int.ne_of_lt hneg)

/-- In the end a command has been carried out, or nothing has. -/
theorem Sending.effect_cases (h : Sending cmd c r) :
    r.2.effect eepromAct = (eepromAct cmd (c.result eepromAct) (c.effect eepromAct)).2 ∨
      r.2.effect eepromAct = c.effect eepromAct := by
  cases h with
  | finished _ hidle hobj => exact .inl ((Port.effect_of_idle eepromAct hidle).trans hobj)
  | failed _ _ _ heffect => exact .inl heffect
  | refused _ _ _ heffect => exact .inr heffect

/-- When it returns, all has been done that will be, or nothing of it. -/
theorem Sending.obj_cases (h : Sending cmd c r) :
    r.2.obj = c.obj ∨ r.2.obj = c.effect eepromAct ∨ r.2.obj = r.2.effect eepromAct := by
  cases h with
  | finished _ hidle => exact .inr (.inr (Port.effect_of_idle eepromAct hidle).symm)
  | failed _ _ hobj => exact .inr hobj
  | refused _ _ hobj => exact hobj.imp_right .inl

/-- From an idle port it is not refused. -/
theorem Sending.effect_of_idle (h : Sending cmd c r) (hidle : c.Idle) :
    r.2.effect eepromAct = (eepromAct cmd c.data c.obj).2 := by
  have hobj := Port.effect_of_idle eepromAct hidle
  have hdata := Port.result_of_idle eepromAct hidle
  cases h with
  | finished _ hend hobj' => rw [Port.effect_of_idle eepromAct hend, hobj', hobj, hdata]
  | failed _ _ _ heffect => rw [heffect, hobj, hdata]
  | refused _ hbusy => exact absurd hidle hbusy

/-- The EEPROM answers within the 100 looks. -/
def E2pPrompt (done : Nat → Bool) : Prop := ∀ n, ∃ k < 100, done (n + k) = true

theorem eepromSendCmd_idle (hprompt : E2pPrompt done) (hidle : c.Idle) (op : Word) :
    (eepromSendCmd done op c).2.Idle := by
  have htick : (c.tick eepromAct done).Idle := hidle.tick
  have hbusy := (e2p_busy_iff (c.tick eepromAct done)).mpr htick
  have hwrite : e2pWrite done .e2pCmd (op ||| cmdBusy) (c.tick eepromAct done) =
      ((c.tick eepromAct done).tick eepromAct done).start ⟨op ||| cmdBusy, busyCmd_busy op⟩ :=
    dif_pos (busyCmd_busy _)
  unfold eepromSendCmd e2pRead
  dsimp only
  rw [if_neg (not_not.mpr hbusy), hwrite, eepromSendLoop_eq]
  obtain ⟨k, hk, hdone⟩ := hprompt (((c.tick eepromAct done).tick eepromAct done).start
    ⟨op ||| cmdBusy, busyCmd_busy op⟩).clock
  exact Port.wait_idle (Port.wait_of_done eepromAct hk hdone)

end Send

/-! ## Section 4: What a command changes -/

section Object

variable (cmd : BusyWord) (op : Word) (a : BitVec 8) (data : Byte) (e : Eeprom)

theorem command_keeps :
    (e.command op a data).2.present = e.present ∧ (e.command op a data).2.gpioCfg = e.gpioCfg ∧
      (e.command op a data).2.timeout = e.timeout ∧
      ∀ b, b ≠ a → (e.command op a data).2.mem b = e.mem b := by
  unfold Eeprom.command
  split_ifs
  · exact ⟨rfl, rfl, rfl, fun _ _ => rfl⟩
  · exact ⟨rfl, rfl, rfl, fun _ _ => rfl⟩
  · exact ⟨rfl, rfl, rfl, fun _ _ => rfl⟩
  · exact ⟨rfl, rfl, rfl, fun _ hb => Function.update_of_ne hb ..⟩
  · exact ⟨rfl, rfl, rfl, fun _ _ => rfl⟩
  · exact ⟨rfl, rfl, rfl, fun _ hb => Function.update_of_ne hb ..⟩
  · exact ⟨rfl, rfl, rfl, fun _ _ => rfl⟩
  · exact ⟨rfl, rfl, rfl, fun _ _ => rfl⟩

/-- No command moves the EEPROM or its pins. -/
theorem eepromAct_reachable : (eepromAct cmd data e).2.Reachable ↔ e.Reachable := by
  by_cases he : e.Reachable
  · obtain ⟨hpresent, hgpio, -, -⟩ := command_keeps (cmd.1 &&& e2pCmdEpcCmd)
      (cmd.1.extractLsb' 0 8) data { e with timeout := false }
    unfold eepromAct
    rw [if_pos he]
    unfold Eeprom.Reachable
    rw [hpresent, hgpio]
  · unfold eepromAct
    rw [if_neg he]
    exact Iff.rfl

variable {op}

theorem eepromAct_elsewhere (hop : op &&& e2pCmdEpcCmd = op) (hlow : op.extractLsb' 0 8 = 0#8)
    {b : BitVec 8} (hb : b ≠ a) : (eepromAct (busyCmd op a) data e).2.mem b = e.mem b := by
  by_cases he : e.Reachable
  · rw [eepromAct_busyCmd hop hlow a data he]
    exact (command_keeps op a data { e with timeout := false }).2.2.2 b hb
  · unfold eepromAct
    rw [if_neg he]

/-- `EWEN` and `EWDS` change no byte. -/
theorem eepromAct_enable (hop : op = e2pCmdEwen ∨ op = e2pCmdEwds) :
    (eepromAct (busyCmd op 0) data e).2.mem = e.mem ∧
      (e.Reachable → (eepromAct (busyCmd op 0) data e).2.writable = decide (op = e2pCmdEwen)) := by
  by_cases he : e.Reachable
  · rcases hop with rfl | rfl
    · rw [eepromAct_busyCmd (by decide) (by decide) 0 data he]
      exact ⟨rfl, fun _ => rfl⟩
    · rw [eepromAct_busyCmd (by decide) (by decide) 0 data he]
      exact ⟨rfl, fun _ => rfl⟩
  · unfold eepromAct
    rw [if_neg he]
    exact ⟨rfl, fun hc => absurd hc he⟩

end Object

/-! ## Section 5: Writing a byte -/

section Set

variable {done : Nat → Bool} {c : E2p}

theorem eepromEnableAccess_idle (done : Nat → Bool) (h : c.Idle) :
    (eepromEnableAccess done c).Idle ∧ (eepromEnableAccess done c).obj =
      { c.obj with gpioCfg := c.obj.gpioCfg &&& ~~~gpioCfgEeprEn } := by
  unfold eepromEnableAccess e2pRead e2pWrite
  dsimp only
  rw [Port.tick_idle h, Port.tick_idle (p := { c with clock := c.clock + 1 }) h]
  exact ⟨h, rfl⟩

theorem byte_of_word (b : Byte) : (b.setWidth 32).setWidth 8 = b := by
  rw [BitVec.setWidth_setWidth_of_le b (by decide), BitVec.setWidth_eq]

/-- Writing `E2P_DATA` between two commands, and reading `BYTE_TEST`. -/
theorem put_between (done : Nat → Bool) (h : c.Idle) (data : Byte) :
    let c' := (e2pRead done .byteTest (e2pWrite done .e2pData (data.setWidth 32) c)).2
    c'.Idle ∧ c'.obj = c.obj ∧ c'.data = data := by
  have hput : (e2pWrite done .e2pData (data.setWidth 32) c).Idle := h.tick
  unfold e2pRead
  dsimp only
  rw [Port.tick_idle hput]
  unfold e2pWrite
  dsimp only
  rw [Port.tick_idle h]
  exact ⟨h, rfl, byte_of_word data⟩

/-- Outside location `a` the EEPROM holds what `m` says, and will once the port
    has settled. -/
def KeptOutside (a : BitVec 8) (m : BitVec 8 → Byte) (c : E2p) : Prop :=
  ∀ b, b ≠ a → c.obj.mem b = m b ∧ (c.effect eepromAct).mem b = m b

theorem keptOutside_of_idle {a : BitVec 8} {m : BitVec 8 → Byte} (h : c.Idle)
    (hmem : ∀ b, b ≠ a → c.obj.mem b = m b) : KeptOutside a m c := by
  intro b hb
  rw [Port.effect_of_idle eepromAct h]
  exact ⟨hmem b hb, hmem b hb⟩

theorem KeptOutside.send {a : BitVec 8} {m : BitVec 8 → Byte} {cmd : BusyWord} {r : Int × E2p}
    (hkept : KeptOutside a m c) (hsend : Sending cmd c r)
    (hcmd : ∀ data e b, b ≠ a → (eepromAct cmd data e).2.mem b = e.mem b) :
    KeptOutside a m r.2 := by
  intro b hb
  obtain ⟨hobj, hsettled⟩ := hkept b hb
  have heffect : (r.2.effect eepromAct).mem b = m b := by
    rcases hsend.effect_cases with h | h
    · rw [h, hcmd _ _ b hb, hsettled]
    · rw [h, hsettled]
  refine ⟨?_, heffect⟩
  rcases hsend.obj_cases with h | h | h
  · rw [h, hobj]
  · rw [h, hsettled]
  · rw [h, heffect]

/-- **One location**: no other byte changes, at any time. -/
theorem eepromWriteLocation_kept (done : Nat → Bool) {a : BitVec 8} {m : BitVec 8 → Byte}
    (hkept : KeptOutside a m c) (data : Byte) :
    KeptOutside a m (eepromWriteLocation done a data c).2 := by
  have hcmd : ∀ {op : Word}, op &&& e2pCmdEpcCmd = op → op.extractLsb' 0 8 = 0#8 →
      ∀ data e b, b ≠ a → (eepromAct (busyCmd op a) data e).2.mem b = e.mem b := by
    intro op hop hlow data e b hb
    exact eepromAct_elsewhere a data e hop hlow hb
  have herase := eepromSendCmd_spec done e2pCmdErase a c
  have hfirst := hkept.send herase (hcmd (by decide) (by decide))
  unfold eepromWriteLocation
  dsimp only
  by_cases hret : (eepromSendCmd done (e2pCmdErase ||| a.setWidth 32) c).1 = 0
  · rw [if_pos hret]
    obtain ⟨hidle, hobj, -⟩ := put_between done (herase.of_zero hret).1 data
    have hbetween : KeptOutside a m (e2pRead done .byteTest (e2pWrite done .e2pData
        (data.setWidth 32) (eepromSendCmd done (e2pCmdErase ||| a.setWidth 32) c).2)).2 := by
      apply keptOutside_of_idle hidle
      intro b hb
      rw [hobj]
      exact (hfirst b hb).1
    exact hbetween.send (eepromSendCmd_spec done e2pCmdWrite a _) (hcmd (by decide) (by decide))
  · rw [if_neg hret]
    exact hfirst

/-- When the result is 0, and the EEPROM was there and could be written to, it
    holds the byte. -/
theorem eepromWriteLocation_written (done : Nat → Bool) {a : BitVec 8} {data : Byte}
    (hreach : (c.effect eepromAct).Reachable) (hwritable : (c.effect eepromAct).writable = true)
    (hret : (eepromWriteLocation done a data c).1 = 0) :
    let r := eepromWriteLocation done a data c
    r.2.Idle ∧ r.2.obj.Reachable ∧
      r.2.obj.mem = Function.update (c.effect eepromAct).mem a data := by
  have herase := eepromSendCmd_spec done e2pCmdErase a c
  unfold eepromWriteLocation at hret ⊢
  dsimp only at hret ⊢
  by_cases hfirst : (eepromSendCmd done (e2pCmdErase ||| a.setWidth 32) c).1 = 0
  · -- erased: the write goes to an idle port
    rw [if_pos hfirst] at hret ⊢
    obtain ⟨hidle, hobj, -⟩ := herase.of_zero hfirst
    generalize eepromSendCmd done (e2pCmdErase ||| a.setWidth 32) c = r1 at hret hidle hobj ⊢
    obtain ⟨hidle', hobj', hdata'⟩ := put_between done hidle data
    have hreach1 : r1.2.obj.Reachable := by
      rw [hobj]
      exact (eepromAct_reachable _ _ _).mpr hreach
    have herased : r1.2.obj = { c.effect eepromAct with
        timeout := false, mem := Function.update (c.effect eepromAct).mem a 0xFF } := by
      rw [hobj, eepromAct_busyCmd (by decide) (by decide) a _ hreach]
      exact if_pos hwritable
    have hwritten : (eepromAct (busyCmd e2pCmdWrite a) data r1.2.obj).2.mem =
        Function.update (c.effect eepromAct).mem a data := by
      rw [eepromAct_busyCmd (by decide) (by decide) a _ hreach1, herased]
      show (if (c.effect eepromAct).writable = true then _ else _ : Eeprom).mem = _
      rw [if_pos hwritable]
      exact Function.update_idem ..
    obtain ⟨hend, hobj2, -⟩ := (eepromSendCmd_spec done e2pCmdWrite a
      (e2pRead done .byteTest (e2pWrite done .e2pData (data.setWidth 32) r1.2)).2).of_zero hret
    rw [Port.effect_of_idle eepromAct hidle', Port.result_of_idle eepromAct hidle', hobj',
      hdata'] at hobj2
    rw [hobj2]
    exact ⟨hend, (eepromAct_reachable _ _ _).mpr hreach1, hwritten⟩
  · rw [if_neg hfirst] at hret
    exact absurd hret hfirst

/-- `EWEN` and `EWDS` are sent without a location. -/
theorem sending_enable (done : Nat → Bool) {op : Word} (c : E2p)
    (hop : op = e2pCmdEwen ∨ op = e2pCmdEwds) :
    Sending (busyCmd op 0) c (eepromSendCmd done op c) := by
  have hzero : op ||| (0 : BitVec 8).setWidth 32 = op := by
    rcases hop with rfl | rfl <;> rfl
  have hspec := eepromSendCmd_spec done op 0 c
  rw [hzero] at hspec
  exact hspec

/-- The pins are free for the EEPROM. -/
theorem eeprEn_cleared (w : Word) : w &&& ~~~gpioCfgEeprEn &&& gpioCfgEeprEn = 0 := by
  rw [BitVec.and_assoc, show ~~~gpioCfgEeprEn &&& gpioCfgEeprEn = 0 from rfl]
  exact BitVec.and_zero

/-- After `smsc911x_eeprom_enable_access` an EEPROM that is there is reached. -/
theorem enableAccess_reachable (done : Nat → Bool) (hidle : c.Idle)
    (hpresent : c.obj.present = true) : (eepromEnableAccess done c).obj.Reachable := by
  rw [(eepromEnableAccess_idle done hidle).2]
  exact ⟨hpresent, eeprEn_cleared _⟩

/-- Setting a byte from an idle port: no other byte changes. -/
theorem ethtoolSetEeprom_kept (done : Nat → Bool) (offset : Nat) (data : Byte) (hidle : c.Idle) :
    KeptOutside (BitVec.ofNat 8 offset) c.obj.mem (ethtoolSetEeprom done offset data c).2 := by
  obtain ⟨hidle0, hobj0⟩ := eepromEnableAccess_idle done hidle
  have hstart : KeptOutside (BitVec.ofNat 8 offset) c.obj.mem (eepromEnableAccess done c) := by
    apply keptOutside_of_idle hidle0
    intro b _
    rw [hobj0]
  have henabled := hstart.send (sending_enable done _ (.inl rfl)) fun data e b _ =>
    congrFun (eepromAct_enable data e (.inl rfl)).1 b
  have hwritten := eepromWriteLocation_kept done henabled data
  exact hwritten.send (r := eepromSendCmd done e2pCmdEwds _) (sending_enable done _ (.inr rfl))
    fun data e b _ => congrFun (eepromAct_enable data e (.inr rfl)).1 b

/-- When there is an EEPROM, a result of 0 says that the byte has been written.
    The command to protect it again has been sent. -/
theorem ethtoolSetEeprom_written (done : Nat → Bool) (offset : Nat) (data : Byte)
    (hidle : c.Idle) (hpresent : c.obj.present = true)
    (hret : (ethtoolSetEeprom done offset data c).1 = 0) :
    let r := ethtoolSetEeprom done offset data c
    r.2.obj.mem (BitVec.ofNat 8 offset) = data ∧
      (r.2.effect eepromAct).mem (BitVec.ofNat 8 offset) = data ∧
      (r.2.effect eepromAct).writable = false := by
  intro r
  have hidle0 := (eepromEnableAccess_idle done hidle).1
  have hreach0 := enableAccess_reachable done hidle hpresent
  have heffect1 := (sending_enable done (eepromEnableAccess done c) (.inl rfl)).effect_of_idle
    hidle0
  have hr : r = ((eepromWriteLocation done (BitVec.ofNat 8 offset) data
      (eepromSendCmd done e2pCmdEwen (eepromEnableAccess done c)).2).1,
    (eepromSendCmd done e2pCmdEwds (eepromWriteLocation done (BitVec.ofNat 8 offset) data
      (eepromSendCmd done e2pCmdEwen (eepromEnableAccess done c)).2).2).2) := rfl
  -- the EEPROM can be written to, once `EWEN` has been carried out
  have hreach1 := (eepromAct_reachable (busyCmd e2pCmdEwen 0) (eepromEnableAccess done c).data
    _).mpr hreach0
  have hwritable1 := (eepromAct_enable (eepromEnableAccess done c).data _ (.inl rfl)).2 hreach0
  rw [← heffect1] at hreach1 hwritable1
  rw [show ethtoolSetEeprom done offset data c = _ from hr] at hret
  obtain ⟨hidle2, hreach2, hmem2⟩ := eepromWriteLocation_written done hreach1 hwritable1 hret
  generalize eepromWriteLocation done (BitVec.ofNat 8 offset) data
    (eepromSendCmd done e2pCmdEwen (eepromEnableAccess done c)).2 = w at hr hidle2 hreach2 hmem2
  have hdisable := sending_enable done w.2 (.inr rfl)
  obtain ⟨hmem3, hwritable3⟩ := eepromAct_enable w.2.data w.2.obj (.inr rfl)
  have heffect3 := hdisable.effect_of_idle hidle2
  have hwritten : w.2.obj.mem (BitVec.ofNat 8 offset) = data := by
    rw [hmem2, Function.update_self]
  rw [hr]
  dsimp only
  refine ⟨?_, ?_, ?_⟩
  · rcases hdisable.obj_cases with hobj | hobj | hobj
    · rw [hobj, hwritten]
    · rw [hobj, Port.effect_of_idle eepromAct hidle2, hwritten]
    · rw [hobj, heffect3, hmem3, hwritten]
  · rw [heffect3, hmem3, hwritten]
  · rw [heffect3]
    exact hwritable3 hreach2

end Set

/-! ## Section 6: A prompt EEPROM -/

section Prompt

variable {done : Nat → Bool} {c : E2p} (hprompt : E2pPrompt done)

include hprompt

theorem eepromSendCmd_prompt (hidle : c.Idle) (hreach : c.obj.Reachable) (op : Word)
    (a : BitVec 8) :
    let r := eepromSendCmd done (op ||| a.setWidth 32) c
    r.1 = 0 ∧ r.2.Idle ∧ r.2.obj = (eepromAct (busyCmd op a) c.data c.obj).2 ∧
      r.2.data = (eepromAct (busyCmd op a) c.data c.obj).1 := by
  have hend := eepromSendCmd_idle hprompt hidle (op ||| a.setWidth 32)
  have hspec := eepromSendCmd_spec done op a c
  have heffect := hspec.effect_of_idle hidle
  rw [Port.effect_of_idle eepromAct hend] at heffect
  intro r
  cases hspec with
  | finished hret _ _ hdata =>
    rw [Port.effect_of_idle eepromAct hidle, Port.result_of_idle eepromAct hidle] at hdata
    exact ⟨hret, hend, heffect, hdata⟩
  | failed _ htimeout _ _ =>
    -- a command that reaches the EEPROM does not time out
    have hno : (eepromAct (busyCmd op a) c.data c.obj).2.timeout = false := by
      unfold eepromAct
      rw [if_pos hreach]
      exact (command_keeps _ _ _ _).2.2.1
    rw [← heffect, htimeout hend] at hno
    exact nomatch hno
  | refused _ hbusy _ _ => exact absurd hidle hbusy

/-- `EWEN` and `EWDS` leave the EEPROM within reach. -/
theorem enable_prompt (hidle : c.Idle) (hreach : c.obj.Reachable) {op : Word}
    (hop : op = e2pCmdEwen ∨ op = e2pCmdEwds) :
    (eepromSendCmd done op c).2.Idle ∧ (eepromSendCmd done op c).2.obj.Reachable := by
  have hend := eepromSendCmd_idle hprompt hidle op
  have heffect := (sending_enable done c hop).effect_of_idle hidle
  rw [Port.effect_of_idle eepromAct hend] at heffect
  refine ⟨hend, ?_⟩
  rw [heffect]
  exact (eepromAct_reachable _ _ _).mpr hreach

theorem eepromWriteLocation_prompt (hidle : c.Idle) (hreach : c.obj.Reachable) (a : BitVec 8)
    (data : Byte) :
    let r := eepromWriteLocation done a data c
    r.1 = 0 ∧ r.2.Idle ∧ r.2.obj.Reachable := by
  intro r
  obtain ⟨hret, hidle1, hobj1, -⟩ := eepromSendCmd_prompt hprompt hidle hreach e2pCmdErase a
  have hr : r = eepromSendCmd done (e2pCmdWrite ||| a.setWidth 32)
      (e2pRead done .byteTest (e2pWrite done .e2pData (data.setWidth 32)
        (eepromSendCmd done (e2pCmdErase ||| a.setWidth 32) c).2)).2 := if_pos hret
  obtain ⟨hidle2, hobj2, -⟩ := put_between done hidle1 data
  have hreach2 : (e2pRead done .byteTest (e2pWrite done .e2pData (data.setWidth 32)
      (eepromSendCmd done (e2pCmdErase ||| a.setWidth 32) c).2)).2.obj.Reachable := by
    rw [hobj2, hobj1]
    exact (eepromAct_reachable _ _ _).mpr hreach
  obtain ⟨hret3, hidle3, hobj3, -⟩ := eepromSendCmd_prompt hprompt hidle2 hreach2 e2pCmdWrite a
  rw [hr]
  refine ⟨hret3, hidle3, ?_⟩
  rw [hobj3]
  exact (eepromAct_reachable _ _ _).mpr hreach2

/-- With an EEPROM that is present the access makes it reachable. -/
theorem ethtoolSetEeprom_prompt (hidle : c.Idle) (hpresent : c.obj.present = true) (offset : Nat)
    (data : Byte) :
    let r := ethtoolSetEeprom done offset data c
    r.1 = 0 ∧ r.2.Idle ∧ r.2.obj.present = true ∧
      r.2.obj.mem = Function.update c.obj.mem (BitVec.ofNat 8 offset) data := by
  intro r
  have hidle0 := (eepromEnableAccess_idle done hidle).1
  have hreach0 := enableAccess_reachable done hidle hpresent
  obtain ⟨hidle1, hreach1⟩ := enable_prompt hprompt hidle0 hreach0 (.inl rfl)
  obtain ⟨hret, hidle2, hreach2⟩ :=
    eepromWriteLocation_prompt hprompt hidle1 hreach1 (BitVec.ofNat 8 offset) data
  obtain ⟨hidle3, hreach3⟩ := enable_prompt hprompt hidle2 hreach2 (.inr rfl)
  have hend : r.2.Idle := hidle3
  refine ⟨hret, hend, hreach3.1, ?_⟩
  funext b
  by_cases hb : b = BitVec.ofNat 8 offset
  · rw [hb, Function.update_self]
    exact (ethtoolSetEeprom_written done offset data hidle hpresent hret).1
  · rw [Function.update_of_ne hb]
    exact (ethtoolSetEeprom_kept done offset data hidle b hb).1

omit hprompt in
/-- **A byte is set**, from an idle port and however long the commands take: no
    other byte changes.  When there is an EEPROM, a result of 0 says that the byte
    has been written and stays, and that the EEPROM is protected again once the
    port has settled.  When it answers in time, this is the result, and the port
    has settled. -/
theorem setEeprom_sound (done : Nat → Bool) (offset : Nat) (data : Byte) (c : E2p)
    (hidle : c.Idle) :
    let a := BitVec.ofNat 8 offset
    let r := ethtoolSetEeprom done offset data c
    KeptOutside a c.obj.mem r.2 ∧
      (c.obj.present = true → r.1 = 0 →
        r.2.obj.mem a = data ∧ (r.2.effect eepromAct).mem a = data ∧
          (r.2.effect eepromAct).writable = false) ∧
      (c.obj.present = true → E2pPrompt done → r.1 = 0 ∧ r.2.Idle) := by
  intro a r
  refine ⟨ethtoolSetEeprom_kept done offset data hidle, ?_, ?_⟩
  · intro hpresent hret
    exact ethtoolSetEeprom_written done offset data hidle hpresent hret
  · intro hpresent hprompt
    obtain ⟨hret, hend, -, -⟩ := ethtoolSetEeprom_prompt hprompt hidle hpresent offset data
    exact ⟨hret, hend⟩

/-- An erased EEPROM, with its pins used for something else. -/
def blankE2p : E2p :=
  ⟨⟨fun _ => 0xFF, false, true, 0x00100000, false, fun _ data => (data, true)⟩, none, 0, 0⟩

omit hprompt in
theorem blankE2p_idle : blankE2p.Idle := rfl

omit hprompt in
theorem always_prompt : E2pPrompt fun _ => true := fun _ => ⟨0, by decide, rfl⟩

omit hprompt in
theorem setEeprom_sound_blank :
    let r := ethtoolSetEeprom (fun _ => true) 3 0x7B blankE2p
    r.1 = 0 ∧ r.2.obj.mem 3 = 0x7B ∧ r.2.obj.mem 4 = 0xFF := by
  intro r
  obtain ⟨hkept, hset, hends⟩ := setEeprom_sound (fun _ => true) 3 0x7B blankE2p blankE2p_idle
  obtain ⟨hret, -⟩ := hends rfl always_prompt
  exact ⟨hret, (hset rfl hret).1, (hkept 4 (by decide)).1⟩

end Prompt

/-! ## Section 7: Reading -/

section Get

variable {done : Nat → Bool} {c : E2p}

theorem eepromAct_read (a : BitVec 8) (data : Byte) (e : Eeprom) :
    (eepromAct (busyCmd e2pCmdRead a) data e).2.mem = e.mem ∧
      (e.Reachable → (eepromAct (busyCmd e2pCmdRead a) data e).1 = e.mem a) := by
  by_cases he : e.Reachable
  · rw [eepromAct_busyCmd (by decide) (by decide) a data he]
    exact ⟨rfl, fun _ => rfl⟩
  · unfold eepromAct
    rw [if_neg he]
    exact ⟨rfl, fun hc => absurd hc he⟩

/-- **One location read** of an EEPROM that is there: no byte changes, and a
    result of 0 says that the byte has been read. -/
theorem eepromReadLocation_spec (done : Nat → Bool) (a : BitVec 8) (data : ByteMem) (c : E2p)
    (hreach : (c.effect eepromAct).Reachable) :
    let r := eepromReadLocation done a data c
    (r.2.2.effect eepromAct).Reachable ∧
      (r.2.2.effect eepromAct).mem = (c.effect eepromAct).mem ∧
      (r.1 = 0 ∧ r.2.1 = Function.update data a.toNat ((c.effect eepromAct).mem a) ∨ r.1 < 0) := by
  intro r
  have hspec := eepromSendCmd_spec done e2pCmdRead a c
  have hafter : ((eepromSendCmd done (e2pCmdRead ||| a.setWidth 32) c).2.effect
      eepromAct).Reachable ∧
      ((eepromSendCmd done (e2pCmdRead ||| a.setWidth 32) c).2.effect eepromAct).mem =
        (c.effect eepromAct).mem := by
    rcases hspec.effect_cases with heffect | heffect
    · rw [heffect, (eepromAct_read a _ _).1]
      exact ⟨(eepromAct_reachable _ _ _).mpr hreach, rfl⟩
    · rw [heffect]
      exact ⟨hreach, rfl⟩
  by_cases hret : (eepromSendCmd done (e2pCmdRead ||| a.setWidth 32) c).1 = 0
  · have hr : r = ((eepromSendCmd done (e2pCmdRead ||| a.setWidth 32) c).1,
        Function.update data a.toNat (((eepromSendCmd done (e2pCmdRead ||| a.setWidth 32)
          c).2.tick eepromAct done).data.setWidth 32 |>.setWidth 8),
        (eepromSendCmd done (e2pCmdRead ||| a.setWidth 32) c).2.tick eepromAct done) := if_pos hret
    obtain ⟨hidle, -, hdata⟩ := hspec.of_zero hret
    rw [hr, byte_of_word]
    dsimp only
    rw [Port.effect_tick]
    refine ⟨hafter.1, hafter.2, .inl ⟨hret, ?_⟩⟩
    rw [Port.tick_idle hidle]
    show Function.update data a.toNat (eepromSendCmd done _ c).2.data = _
    rw [hdata, (eepromAct_read a _ _).2 hreach]
  · have hr : r = ((eepromSendCmd done (e2pCmdRead ||| a.setWidth 32) c).1, data,
        (eepromSendCmd done (e2pCmdRead ||| a.setWidth 32) c).2) := if_neg hret
    rw [hr]
    refine ⟨hafter.1, hafter.2, .inr ?_⟩
    rcases hspec.nonpos with hzero | hneg
    · exact absurd hzero hret
    · exact hneg

/-- What the EEPROM holds, by address. -/
def Eeprom.bytes (e : Eeprom) : ByteMem := fun i => e.mem (BitVec.ofNat 8 i)

/-- **The loop**: the first locations are read, and the rest of the array stays
    as it was. -/
theorem getEepromLoop_spec (done : Nat → Bool) {k i : Nat} (hbound : i + k ≤ 256)
    (data : ByteMem) (c : E2p) (hreach : (c.effect eepromAct).Reachable) :
    let r := getEepromLoop done k i data c
    (r.2.2.effect eepromAct).mem = (c.effect eepromAct).mem ∧
      (r.1 = 0 ∧ r.2.1 = writeBytes data i (readBytes (c.effect eepromAct).bytes i k) ∨
        r.1 < 0) := by
  induction k generalizing i data c with
  | zero =>
    refine ⟨rfl, .inl ⟨rfl, ?_⟩⟩
    funext j
    simp [getEepromLoop, writeBytes, readBytes]
  | succ k ih =>
    intro r
    obtain ⟨hreach', hmem, ⟨hret, hdata⟩ | hneg⟩ :=
      eepromReadLocation_spec done (BitVec.ofNat 8 i) data c hreach
    · have hgo : ¬ (eepromReadLocation done (BitVec.ofNat 8 i) data c).1 < 0 := by
        rw [hret]
        decide
      have hr : r = getEepromLoop done k (i + 1)
          (eepromReadLocation done (BitVec.ofNat 8 i) data c).2.1
          (eepromReadLocation done (BitVec.ofNat 8 i) data c).2.2 := if_neg hgo
      obtain ⟨hmem', hrest⟩ := ih (show i + 1 + k ≤ 256 by omega)
        (eepromReadLocation done (BitVec.ofNat 8 i) data c).2.1
        (eepromReadLocation done (BitVec.ofNat 8 i) data c).2.2 hreach'
      rw [hr]
      refine ⟨hmem'.trans hmem, ?_⟩
      rcases hrest with ⟨hret', hdata'⟩ | hneg
      · refine .inl ⟨hret', ?_⟩
        have hindex : (BitVec.ofNat 8 i).toNat = i := Nat.mod_eq_of_lt (by omega)
        have hbytes : ∀ e e' : Eeprom, e.mem = e'.mem → e.bytes = e'.bytes := by
          intro e e' h
          unfold Eeprom.bytes
          rw [h]
        have hread : readBytes (c.effect eepromAct).bytes i (k + 1) =
            (c.effect eepromAct).bytes i :: readBytes (c.effect eepromAct).bytes (i + 1) k := by
          rw [Nat.add_comm k 1, readBytes_add]
          rfl
        rw [hdata', hdata, hindex, hbytes _ _ hmem, hread, writeBytes_cons]
        rfl
      · exact .inr hneg
    · have hr : r = eepromReadLocation done (BitVec.ofNat 8 i) data c := if_pos hneg
      rw [hr]
      exact ⟨hmem, .inr hneg⟩

theorem eepromReadLocation_prompt (hprompt : E2pPrompt done) (hidle : c.Idle)
    (hreach : c.obj.Reachable) (a : BitVec 8) (data : ByteMem) :
    let r := eepromReadLocation done a data c
    r.1 = 0 ∧ r.2.2.Idle ∧ r.2.2.obj.Reachable := by
  intro r
  obtain ⟨hret, hend, hobj, -⟩ := eepromSendCmd_prompt hprompt hidle hreach e2pCmdRead a
  have hr : r = ((eepromSendCmd done (e2pCmdRead ||| a.setWidth 32) c).1,
      Function.update data a.toNat (((eepromSendCmd done (e2pCmdRead ||| a.setWidth 32)
        c).2.tick eepromAct done).data.setWidth 32 |>.setWidth 8),
      (eepromSendCmd done (e2pCmdRead ||| a.setWidth 32) c).2.tick eepromAct done) := if_pos hret
  rw [hr]
  refine ⟨hret, hend.tick, ?_⟩
  rw [Port.tick_idle hend]
  show (eepromSendCmd done (e2pCmdRead ||| a.setWidth 32) c).2.obj.Reachable
  rw [hobj]
  exact (eepromAct_reachable _ _ _).mpr hreach

theorem getEepromLoop_prompt (hprompt : E2pPrompt done) (k i : Nat) (hidle : c.Idle)
    (hreach : c.obj.Reachable) (data : ByteMem) : (getEepromLoop done k i data c).1 = 0 := by
  induction k generalizing i c data with
  | zero => rfl
  | succ k ih =>
    obtain ⟨hret, hend, hreach'⟩ :=
      eepromReadLocation_prompt hprompt hidle hreach (BitVec.ofNat 8 i) data
    have hgo : ¬ (eepromReadLocation done (BitVec.ofNat 8 i) data c).1 < 0 := by
      rw [hret]
      decide
    exact (congrArg Prod.fst (if_neg hgo)).trans (ih (i + 1) hend hreach' _)

/-- What `smsc911x_ethtool_get_eeprom` returns: it reads as many locations as
    are asked for, from 0 on, and hands on as many from `offset` on. -/
theorem ethtoolGetEeprom_prompt (hprompt : E2pPrompt done) (hidle : c.Idle)
    (hpresent : c.obj.present = true) (stack : ByteMem) (offset : Nat) {len : Nat}
    (hlen : len ≤ eepromSize) :
    let r := ethtoolGetEeprom done stack offset len c
    r.1 = 0 ∧
      r.2.1 = readBytes (writeBytes stack 0 (readBytes c.obj.bytes 0 len)) offset len := by
  obtain ⟨hidle0, hobj0⟩ := eepromEnableAccess_idle done hidle
  have hreach0 := enableAccess_reachable done hidle hpresent
  have hret := getEepromLoop_prompt hprompt len 0 hidle0 hreach0 stack
  have hbytes : ((eepromEnableAccess done c).effect eepromAct).bytes = c.obj.bytes := by
    rw [Port.effect_of_idle eepromAct hidle0, hobj0]
    rfl
  obtain ⟨-, ⟨-, hdata⟩ | hneg⟩ := getEepromLoop_spec done
    (show 0 + len ≤ 256 by unfold eepromSize at hlen; omega) stack (eepromEnableAccess done c)
    (Port.effect_of_idle eepromAct hidle0 ▸ hreach0)
  · intro r
    have hgo : ¬ (getEepromLoop done len 0 stack (eepromEnableAccess done c)).1 < 0 := by
      rw [hret]
      decide
    have hr : r = (0, readBytes (getEepromLoop done len 0 stack (eepromEnableAccess done c)).2.1
        offset len, (getEepromLoop done len 0 stack (eepromEnableAccess done c)).2.2) := by
      show ethtoolGetEeprom done stack offset len c = _
      unfold ethtoolGetEeprom
      rw [Nat.min_eq_left hlen]
      exact if_neg hgo
    rw [hr, hdata, hbytes]
    exact ⟨rfl, rfl⟩
  · exact absurd hret (by omega)

end Get

/-! ## Section 8: Over `ethtool` -/

theorem eepromRange {offset len : Nat} (hoffset : offset < 2 ^ 32) (hlen : len < 2 ^ 32)
    (h : eepromRangeOk offset len) : 0 < len ∧ offset + len ≤ eepromSize := by
  obtain ⟨hwrap, hsize⟩ := h
  unfold eepromSize at *
  omega

section Ethtool

variable {done : Nat → Bool} {c : E2p} (hprompt : E2pPrompt done) (hidle : c.Idle)
  (hpresent : c.obj.present = true)

include hprompt hidle hpresent

theorem setEepromLoop_prompt {offset : Nat} {data : List Byte}
    (hbound : offset + data.length ≤ 256) :
    let r := setEepromLoop done offset data c
    r.1 = 0 ∧ r.2.Idle ∧ r.2.obj.present = true ∧
      ∀ i < 256, r.2.obj.bytes i = writeBytes c.obj.bytes offset data i := by
  induction data generalizing offset c with
  | nil =>
    refine ⟨rfl, hidle, hpresent, ?_⟩
    intro i _
    simp [setEepromLoop, writeBytes]
  | cons b data ih =>
    rw [List.length_cons] at hbound
    obtain ⟨hret, hend, hpresent', hmem⟩ :=
      ethtoolSetEeprom_prompt hprompt hidle hpresent offset b
    intro r
    have hr : r = setEepromLoop done (offset + 1) data (ethtoolSetEeprom done offset b c).2 :=
      if_neg (not_not.mpr hret)
    obtain ⟨hret', hend', hpresent'', hbytes⟩ :=
      ih hend hpresent' (show offset + 1 + data.length ≤ 256 by omega)
    rw [hr]
    refine ⟨hret', hend', hpresent'', ?_⟩
    intro i hi
    -- one byte more, at `offset`
    have hone : (ethtoolSetEeprom done offset b c).2.obj.bytes i =
        Function.update c.obj.bytes offset b i := by
      show (ethtoolSetEeprom done offset b c).2.obj.mem (BitVec.ofNat 8 i) = _
      rw [hmem]
      by_cases hio : i = offset
      · rw [hio, Function.update_self, Function.update_self]
      · have hne : BitVec.ofNat 8 i ≠ BitVec.ofNat 8 offset := by
          intro hc
          have hnat := congrArg BitVec.toNat hc
          rw [BitVec.toNat_ofNat, BitVec.toNat_ofNat] at hnat
          omega
        rw [Function.update_of_ne hne, Function.update_of_ne hio]
        rfl
    rw [hbytes i hi, writeBytes_cons]
    unfold writeBytes
    rw [hone]

/-- **What is set is got**: with an EEPROM that is there and answers in time,
    bytes set at any place are found there when the EEPROM is got from the
    start, and the others are as before. -/
theorem ethtool_round_trip (offset : Nat) (data : List Byte) (hoffset : offset < 2 ^ 32)
    (hlen : data.length < 2 ^ 32) (hrange : eepromRangeOk offset data.length) :
    let s := setAnyEeprom done offset data c
    s.1 = 0 ∧ ∀ stack n, n < 2 ^ 32 → eepromRangeOk 0 n →
      (getAnyEeprom done stack 0 n s.2).1 = 0 ∧
        (getAnyEeprom done stack 0 n s.2).2.1 =
          readBytes (writeBytes c.obj.bytes offset data) 0 n := by
  obtain ⟨-, hsize⟩ := eepromRange hoffset hlen hrange
  have hbound : offset + data.length ≤ 256 := by
    unfold eepromSize at hsize
    omega
  obtain ⟨hret, hend, hpresent', hbytes⟩ := setEepromLoop_prompt hprompt hidle hpresent hbound
  intro s
  have hs : s = setEepromLoop done offset data c := if_pos hrange
  rw [hs]
  refine ⟨hret, ?_⟩
  intro stack n hn hrange'
  obtain ⟨-, hsize'⟩ := eepromRange (by decide) hn hrange'
  rw [Nat.zero_add] at hsize'
  obtain ⟨hret', hdata⟩ := ethtoolGetEeprom_prompt hprompt hend hpresent' stack 0 hsize'
  unfold getAnyEeprom
  rw [if_pos hrange']
  refine ⟨hret', hdata.trans ?_⟩
  rw [readBytes_writeBytes readBytes_length]
  apply List.map_congr_left
  intro i hi
  have hlt := List.mem_range.mp hi
  unfold eepromSize at hsize'
  exact hbytes (0 + i) (by omega)

omit hprompt hidle hpresent in
/-- Two bytes set at 5, and eight got. -/
theorem ethtool_round_trip_blank :
    let s := setAnyEeprom (fun _ => true) 5 [0x12, 0x34] blankE2p
    s.1 = 0 ∧ (getAnyEeprom (fun _ => true) (fun _ => 0) 0 8 s.2).2.1 =
      [0xFF, 0xFF, 0xFF, 0xFF, 0xFF, 0x12, 0x34, 0xFF] := by
  intro s
  obtain ⟨hret, hget⟩ := ethtool_round_trip always_prompt blankE2p_idle rfl 5 [0x12, 0x34]
    (by decide) (by decide) (by decide)
  refine ⟨hret, ?_⟩
  rw [(hget (fun _ => 0) 8 (by decide) (by decide)).2]
  decide

/-- **Right only from the start.**  What is got from the EEPROM is what it holds,
    whatever was on the stack, exactly when it is got from offset 0. -/
theorem getEeprom_exact_iff (offset len : Nat) (hoffset : offset < 2 ^ 32) (hlen : len < 2 ^ 32)
    (hrange : eepromRangeOk offset len) :
    (∀ stack, (getAnyEeprom done stack offset len c).2.1 = readBytes c.obj.bytes offset len) ↔
      offset = 0 := by
  obtain ⟨hpos, hsize⟩ := eepromRange hoffset hlen hrange
  have hget : ∀ stack, (getAnyEeprom done stack offset len c).2.1 =
      readBytes (writeBytes stack 0 (readBytes c.obj.bytes 0 len)) offset len := by
    intro stack
    unfold getAnyEeprom
    rw [if_pos hrange]
    exact (ethtoolGetEeprom_prompt hprompt hidle hpresent stack offset (by omega)).2
  constructor
  · intro hall
    by_contra hne
    -- the last byte comes from the stack
    have hlast := hall fun i => c.obj.bytes i + 1
    rw [hget] at hlast
    have hbyte := congrArg (·[len - 1]?) hlast
    simp only [readBytes_getElem? (show len - 1 < len by omega), Option.some.injEq] at hbyte
    rw [writeBytes_outside (by rw [readBytes_length]; omega)] at hbyte
    exact absurd hbyte (by simp)
  · rintro rfl stack
    rw [hget, readBytes_writeBytes readBytes_length]

omit hprompt hidle hpresent in
/-- Four bytes from 16 on. -/
theorem getEeprom_exact_iff_middle :
    ¬ ∀ stack, (getAnyEeprom (fun _ => true) stack 16 4 blankE2p).2.1 =
      readBytes blankE2p.obj.bytes 16 4 := by
  intro hall
  have hzero := (getEeprom_exact_iff always_prompt blankE2p_idle rfl 16 4 (by decide) (by decide)
    (by decide)).mp hall
  exact absurd hzero (by decide)

end Ethtool

end Nic
