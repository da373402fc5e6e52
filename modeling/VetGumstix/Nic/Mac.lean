import VetGumstix.Framework.BitMask
import VetGumstix.Framework.Port

/-! # The MAC Registers

    The registers of the MAC lie behind a command port: `smsc911x_mac_read` and
    `smsc911x_mac_write` write a command to `MAC_CSR_CMD` and look at its busy
    bit, at most 40 times.  A read that fails returns `0xFFFFFFFF`; a write that
    fails says nothing.

    * `mac_accesses_in_order`: however long the MAC takes, what happens to its
      registers is some of the accesses, in their order and none of them twice.
    * `mac_accesses_prompt`: when the MAC answers within the 40 looks, the
      accesses are those of a register file.
    * `modifyCr_garbage`: when it does not, a read-modify-write of `MAC_CR` may
      write what it makes of the `0xFFFFFFFF`.
-/

namespace Nic

open BitMask

abbrev Word := BitVec 32

/-! ## Section 1: The port -/

/-- Registers; a read may change them too. -/
structure Registers (M : Type) where
  read : BitVec 8 → M → Word × M
  write : BitVec 8 → Word → M → M

/-- `MAC_CSR_CMD_CSR_BUSY_`, and `E2P_CMD_EPC_BUSY_` -/
def cmdBusy : Word := 0x80000000
/-- `MAC_CSR_CMD_R_NOT_W_` -/
def macCsrCmdRNotW : Word := 0x40000000

/-- A command word with the busy bit set. -/
abbrev BusyWord := { w : Word // w &&& cmdBusy ≠ 0 }

/-- The registers of the chip that `smsc911x_mac_read` and `smsc911x_mac_write`
    use. -/
inductive CsrReg where
  | macCsrCmd
  | macCsrData
  | byteTest

/-- The port with the registers `M` behind it. -/
abbrev Csr (M : Type) := Port M BusyWord Word

variable {M : Type}

/-- What the chip makes of a command. -/
def csrAct (rf : Registers M) : Port.Action M BusyWord Word := fun cmd data m =>
  if cmd.1 &&& macCsrCmdRNotW ≠ 0 then rf.read (cmd.1.extractLsb' 0 8) m
  else (data, rf.write (cmd.1.extractLsb' 0 8) data m)

section Driver

variable (rf : Registers M) (done : Nat → Bool)

/-- `smsc911x_reg_read`.  The command register shows the command as long as it
    is pending. -/
def csrRead (reg : CsrReg) (c : Csr M) : Word × Csr M :=
  let c := c.tick (csrAct rf) done
  match reg with
  | .macCsrCmd  => ((c.pending.map Subtype.val).getD 0, c)
  | .macCsrData => (c.data, c)
  | .byteTest   => (0x87654321, c)

/-- `smsc911x_reg_write` -/
def csrWrite (reg : CsrReg) (val : Word) (c : Csr M) : Csr M :=
  let c := c.tick (csrAct rf) done
  match reg with
  | .macCsrCmd  => if h : val &&& cmdBusy ≠ 0 then c.start ⟨val, h⟩ else c
  | .macCsrData => c.put val
  | .byteTest   => c

/-- `-EIO` -/
def eio : Int := -5

/-- `smsc911x_mac_complete`, with `i` looks left -/
def macComplete : Nat → Csr M → Int × Csr M
  | 0, c     => (eio, c)
  | i + 1, c =>
    let (val, c) := csrRead rf done .macCsrCmd c
    if val &&& cmdBusy = 0 then (0, c) else macComplete i c

/-- `smsc911x_mac_read` -/
def macRead (offset : Word) (c : Csr M) : Word × Csr M :=
  let (temp, c) := csrRead rf done .macCsrCmd c
  if temp &&& cmdBusy ≠ 0 then (0xFFFFFFFF, c)
  else
    let c := csrWrite rf done .macCsrCmd ((offset &&& 0xFF) ||| cmdBusy ||| macCsrCmdRNotW) c
    let (_, c) := csrRead rf done .byteTest c
    let (ret, c) := macComplete rf done 40 c
    if ret = 0 then csrRead rf done .macCsrData c else (0xFFFFFFFF, c)

/-- `smsc911x_mac_write` -/
def macWrite (offset val : Word) (c : Csr M) : Csr M :=
  let (temp, c) := csrRead rf done .macCsrCmd c
  if temp &&& cmdBusy ≠ 0 then c
  else
    let c := csrWrite rf done .macCsrData val c
    let c := csrWrite rf done .macCsrCmd ((offset &&& 0xFF) ||| cmdBusy) c
    let (_, c) := csrRead rf done .byteTest c
    (macComplete rf done 40 c).2

end Driver

/-! ## Section 2: Command words -/

theorem readCmd_busy (offset : Word) :
    ((offset &&& 0xFF) ||| cmdBusy ||| macCsrCmdRNotW) &&& cmdBusy ≠ 0 := by
  apply and_ne_zero_of_bit 31
  · rw [BitVec.getLsbD_or, BitVec.getLsbD_or, show cmdBusy.getLsbD 31 = true from rfl,
      Bool.or_true, Bool.true_or]
  · rfl

theorem writeCmd_busy (offset : Word) : ((offset &&& 0xFF) ||| cmdBusy) &&& cmdBusy ≠ 0 := by
  apply and_ne_zero_of_bit 31
  · rw [BitVec.getLsbD_or, show cmdBusy.getLsbD 31 = true from rfl, Bool.or_true]
  · rfl

/-- The commands of the driver, as the chip reads them. -/
def readCmd (offset : Word) : BusyWord := ⟨_, readCmd_busy offset⟩

def writeCmd (offset : Word) : BusyWord := ⟨_, writeCmd_busy offset⟩

/-- The register a command is for. -/
def regIndex (offset : Word) : BitVec 8 := offset.extractLsb' 0 8

/-- The bits above the low byte do not matter. -/
theorem extract_cmd (offset : Word) {hi : Word} (h : hi.extractLsb' 0 8 = 0#8) :
    ((offset &&& 0xFF) ||| hi).extractLsb' 0 8 = regIndex offset := by
  have hmask : (0xFF : Word).extractLsb' 0 8 = BitVec.allOnes 8 := rfl
  rw [BitVec.extractLsb'_or, BitVec.extractLsb'_and, h, hmask, BitVec.and_allOnes,
    BitVec.or_zero]
  rfl

theorem csrAct_readCmd (rf : Registers M) (offset data : Word) (m : M) :
    csrAct rf (readCmd offset) data m = rf.read (regIndex offset) m := by
  have hdir : (readCmd offset).1 &&& macCsrCmdRNotW ≠ 0 := by
    apply and_ne_zero_of_bit 30
    · show ((offset &&& 0xFF) ||| cmdBusy ||| macCsrCmdRNotW).getLsbD 30 = true
      rw [BitVec.getLsbD_or, show macCsrCmdRNotW.getLsbD 30 = true from rfl, Bool.or_true]
    · rfl
  have hindex : (readCmd offset).1.extractLsb' 0 8 = regIndex offset := by
    show ((offset &&& 0xFF) ||| cmdBusy ||| macCsrCmdRNotW).extractLsb' 0 8 = _
    rw [BitVec.or_assoc]
    exact extract_cmd offset rfl
  unfold csrAct
  rw [if_pos hdir, hindex]

theorem csrAct_writeCmd (rf : Registers M) (offset data : Word) (m : M) :
    csrAct rf (writeCmd offset) data m = (data, rf.write (regIndex offset) data m) := by
  have hdir : (writeCmd offset).1 &&& macCsrCmdRNotW = 0 := by
    show ((offset &&& 0xFF) ||| cmdBusy) &&& macCsrCmdRNotW = 0
    simp [cmdBusy, macCsrCmdRNotW, BitVec.and_or_distrib_right, BitVec.and_assoc]
  have hindex : (writeCmd offset).1.extractLsb' 0 8 = regIndex offset := extract_cmd offset rfl
  unfold csrAct
  rw [if_neg (not_not.mpr hdir), hindex]

/-! ## Section 3: One access -/

section Access

variable {rf : Registers M} {done : Nat → Bool} {c : Csr M}

/-- The busy bit shows whether a command is pending. -/
theorem busy_iff (c : Csr M) :
    (c.pending.map Subtype.val).getD 0 &&& cmdBusy = 0 ↔ c.Idle := by
  unfold Port.Idle
  cases hp : c.pending with
  | none => simp
  | some w => simpa using w.2

theorem macComplete_eq (n : Nat) :
    macComplete rf done n c =
      (if (c.wait (csrAct rf) done n).1 then 0 else eio, (c.wait (csrAct rf) done n).2) := by
  induction n generalizing c with
  | zero => rfl
  | succ n ih =>
    unfold macComplete csrRead Port.wait
    simp only [busy_iff]
    by_cases hidle : (c.tick (csrAct rf) done).Idle
    · simp [hidle]
    · simp only [hidle, if_false]
      exact ih

/-- A command on its way: written, and the chip accessed once more. -/
def issued (rf : Registers M) (done : Nat → Bool) (cmd : BusyWord) (c : Csr M) : Csr M :=
  ((c.tick (csrAct rf) done).start cmd).tick (csrAct rf) done

theorem macRead_busy {offset : Word} (h : ¬ (c.tick (csrAct rf) done).Idle) :
    macRead rf done offset c = (0xFFFFFFFF, c.tick (csrAct rf) done) := by
  unfold macRead csrRead
  simp only [ne_eq, busy_iff, h, not_false_eq_true, if_true]

theorem macRead_idle (offset : Word) (h : (c.tick (csrAct rf) done).Idle) :
    macRead rf done offset c =
      let r := (issued rf done (readCmd offset) (c.tick (csrAct rf) done)).wait (csrAct rf) done 40
      if r.1 then ((r.2.tick (csrAct rf) done).data, r.2.tick (csrAct rf) done)
      else (0xFFFFFFFF, r.2) := by
  unfold macRead csrRead csrWrite
  simp only [ne_eq, busy_iff, h, not_true_eq_false, if_false, macComplete_eq]
  rw [dif_pos (readCmd_busy offset)]
  show (if (if ((issued rf done (readCmd offset) (c.tick (csrAct rf) done)).wait
    (csrAct rf) done 40).1 then (0 : Int) else eio) = 0 then _ else _) = _
  by_cases hok : ((issued rf done (readCmd offset) (c.tick (csrAct rf) done)).wait
    (csrAct rf) done 40).1 = true
  · simp only [hok, if_true]
    rfl
  · simp only [hok]
    rfl

theorem macWrite_busy {offset val : Word} (h : ¬ (c.tick (csrAct rf) done).Idle) :
    macWrite rf done offset val c = c.tick (csrAct rf) done := by
  unfold macWrite csrRead
  simp only [ne_eq, busy_iff, h, not_false_eq_true, if_true]

theorem macWrite_idle (offset val : Word) (h : (c.tick (csrAct rf) done).Idle) :
    macWrite rf done offset val c =
      ((issued rf done (writeCmd offset) (((c.tick (csrAct rf) done).tick
        (csrAct rf) done).put val)).wait (csrAct rf) done 40).2 := by
  unfold macWrite csrRead csrWrite
  simp only [ne_eq, busy_iff, h, not_true_eq_false, if_false, macComplete_eq]
  rw [dif_pos (writeCmd_busy offset)]
  rfl

/-- What a command will have done that is issued to an idle port. -/
theorem effect_issued (h : c.Idle) (cmd : BusyWord) :
    (issued rf done cmd c).effect (csrAct rf) = (csrAct rf cmd c.data c.obj).2 := by
  unfold issued
  rw [Port.effect_tick, Port.effect_start, Port.tick_idle h]

theorem result_issued (h : c.Idle) (cmd : BusyWord) :
    (issued rf done cmd c).result (csrAct rf) = (csrAct rf cmd c.data c.obj).1 := by
  unfold issued
  rw [Port.result_tick, Port.result_start, Port.tick_idle h]

/-- How an access to the registers may end that would take them from `m` to
    `m'`: done, with the port idle; or given up on, with the port busy, and the
    access still to come or never made. -/
inductive Ended (rf : Registers M) (m m' : M) (c : Csr M) : Prop where
  | finished : c.Idle → c.effect (csrAct rf) = m' → Ended rf m m' c
  | late     : ¬ c.Idle → c.effect (csrAct rf) = m' → Ended rf m m' c
  | lost     : ¬ c.Idle → c.effect (csrAct rf) = m → Ended rf m m' c

/-- **A read** returns what the register will be found to hold, or the failure
    value with the port left busy. -/
theorem macRead_spec (rf : Registers M) (done : Nat → Bool) (offset : Word) (c : Csr M) :
    let m := c.effect (csrAct rf)
    let r := macRead rf done offset c
    Ended rf m (rf.read (regIndex offset) m).2 r.2 ∧
      r.1 = if r.2.Idle then (rf.read (regIndex offset) m).1 else 0xFFFFFFFF := by
  intro m r
  by_cases hidle : (c.tick (csrAct rf) done).Idle
  · have hobj : (c.tick (csrAct rf) done).obj = m := by
      rw [← Port.effect_of_idle (csrAct rf) hidle, Port.effect_tick]
    have heffect : (issued rf done (readCmd offset) (c.tick (csrAct rf) done)).effect (csrAct rf) =
        (rf.read (regIndex offset) m).2 := by
      rw [effect_issued hidle, csrAct_readCmd, hobj]
    have hresult : (issued rf done (readCmd offset) (c.tick (csrAct rf) done)).result (csrAct rf) =
        (rf.read (regIndex offset) m).1 := by
      rw [result_issued hidle, csrAct_readCmd, hobj]
    have hr : r = _ := macRead_idle offset hidle
    generalize issued rf done (readCmd offset) (c.tick (csrAct rf) done) = p at *
    by_cases hok : (p.wait (csrAct rf) done 40).1 = true
    · -- the port has settled, and one more access fetches the data
      have hend : ((p.wait (csrAct rf) done 40).2.tick (csrAct rf) done).Idle :=
        (Port.wait_idle hok).tick
      simp only [hok, if_true] at hr
      rw [hr]
      refine ⟨.finished hend ?_, ?_⟩
      · rw [Port.effect_tick, Port.effect_wait, heffect]
      · rw [if_pos hend, ← Port.result_of_idle (csrAct rf) hend, Port.result_tick,
          Port.result_wait, hresult]
    · have hbusy := Port.wait_busy (by decide) (Bool.not_eq_true _ ▸ hok)
      simp only [hok] at hr
      rw [hr]
      refine ⟨.late hbusy ?_, ?_⟩
      · exact (Port.effect_wait 40).trans heffect
      · exact (if_neg hbusy).symm
  · have hr : r = (0xFFFFFFFF, c.tick (csrAct rf) done) := macRead_busy hidle
    rw [hr]
    refine ⟨.lost hidle Port.effect_tick, ?_⟩
    rw [if_neg hidle]

/-- **A write** is lost only when it finds the port busy. -/
theorem macWrite_spec (rf : Registers M) (done : Nat → Bool) (offset val : Word) (c : Csr M) :
    let m := c.effect (csrAct rf)
    Ended rf m (rf.write (regIndex offset) val m) (macWrite rf done offset val c) := by
  intro m
  by_cases hidle : (c.tick (csrAct rf) done).Idle
  · have hput : (((c.tick (csrAct rf) done).tick (csrAct rf) done).put val).Idle := hidle.tick
    have hobj : (((c.tick (csrAct rf) done).tick (csrAct rf) done).put val).obj = m := by
      show ((c.tick (csrAct rf) done).tick (csrAct rf) done).obj = m
      rw [← Port.effect_of_idle (csrAct rf) hidle.tick, Port.effect_tick, Port.effect_tick]
    have heffect : (issued rf done (writeCmd offset)
        (((c.tick (csrAct rf) done).tick (csrAct rf) done).put val)).effect (csrAct rf) =
        rf.write (regIndex offset) val m := by
      rw [effect_issued hput, csrAct_writeCmd, hobj]
      rfl
    rw [macWrite_idle offset val hidle]
    generalize issued rf done (writeCmd offset) _ = p at *
    by_cases hok : (p.wait (csrAct rf) done 40).1 = true
    · exact .finished (Port.wait_idle hok) ((Port.effect_wait 40).trans heffect)
    · have hbusy := Port.wait_busy (by decide) (Bool.not_eq_true _ ▸ hok)
      exact .late hbusy ((Port.effect_wait 40).trans heffect)
  · rw [macWrite_busy hidle]
    exact .lost hidle Port.effect_tick

/-- A read that the MAC completes at one of the 40 looks. -/
theorem macRead_in_time (rf : Registers M) {k : Nat} (h : (c.tick (csrAct rf) done).Idle)
    (hk : k < 40) (hdone : done (c.clock + 3 + k) = true) (offset : Word) :
    let m := c.effect (csrAct rf)
    let r := macRead rf done offset c
    r.2.Idle ∧ r.1 = (rf.read (regIndex offset) m).1 ∧
      r.2.effect (csrAct rf) = (rf.read (regIndex offset) m).2 := by
  intro m r
  have hidle : r.2.Idle := by
    have hok : ((issued rf done (readCmd offset) (c.tick (csrAct rf) done)).wait
      (csrAct rf) done 40).1 = true := Port.wait_of_done (csrAct rf) hk hdone
    show (macRead rf done offset c).2.Idle
    rw [macRead_idle offset h]
    simp only [hok, if_true]
    exact (Port.wait_idle hok).tick
  obtain ⟨hended, hvalue⟩ := macRead_spec rf done offset c
  refine ⟨hidle, hvalue.trans (if_pos hidle), ?_⟩
  cases hended with
  | finished _ heffect => exact heffect
  | late hbusy _ => exact absurd hidle hbusy
  | lost hbusy _ => exact absurd hidle hbusy

/-- The MAC answers within the 40 looks. -/
def Prompt (done : Nat → Bool) : Prop := ∀ n, ∃ k < 40, done (n + k) = true

/-- With a prompt MAC an access from an idle port never fails. -/
theorem macRead_prompt (rf : Registers M) (hprompt : Prompt done) (h : c.Idle) (offset : Word) :
    let m := c.effect (csrAct rf)
    let r := macRead rf done offset c
    r.2.Idle ∧ r.1 = (rf.read (regIndex offset) m).1 ∧
      r.2.effect (csrAct rf) = (rf.read (regIndex offset) m).2 := by
  obtain ⟨k, hk, hdone⟩ := hprompt (c.clock + 3)
  exact macRead_in_time rf h.tick hk hdone offset

theorem macWrite_prompt (rf : Registers M) (hprompt : Prompt done) (h : c.Idle)
    (offset val : Word) :
    let m := c.effect (csrAct rf)
    let r := macWrite rf done offset val c
    r.Idle ∧ r.effect (csrAct rf) = rf.write (regIndex offset) val m := by
  intro m r
  have hidle : r.Idle := by
    obtain ⟨k, hk, hdone⟩ := hprompt (issued rf done (writeCmd offset)
      (((c.tick (csrAct rf) done).tick (csrAct rf) done).put val)).clock
    show (macWrite rf done offset val c).Idle
    rw [macWrite_idle offset val h.tick]
    exact Port.wait_idle (Port.wait_of_done (csrAct rf) hk hdone)
  refine ⟨hidle, ?_⟩
  cases macWrite_spec rf done offset val c with
  | finished _ heffect => exact heffect
  | late hbusy _ => exact absurd hidle hbusy
  | lost hbusy _ => exact absurd hidle hbusy

/-- A write that finds the port idle is never lost, however long the MAC
    takes. -/
theorem macWrite_not_lost (h : (c.tick (csrAct rf) done).Idle) (offset val : Word) :
    (macWrite rf done offset val c).effect (csrAct rf) =
      rf.write (regIndex offset) val (c.effect (csrAct rf)) := by
  rw [macWrite_idle offset val h, Port.effect_wait, effect_issued, csrAct_writeCmd]
  · show rf.write _ val ((c.tick (csrAct rf) done).tick (csrAct rf) done).obj = _
    rw [← Port.effect_of_idle (csrAct rf) h.tick, Port.effect_tick, Port.effect_tick]
  · exact h.tick

end Access

/-! ## Section 4: Runs of accesses -/

/-- An access, with `mac_lock` held. -/
inductive MacAccess where
  | read (offset : Word)
  | write (offset val : Word)

section Runs

variable (rf : Registers M) (done : Nat → Bool)

/-- What an access does to the registers. -/
def MacAccess.apply (m : M) : MacAccess → M
  | .read offset      => (rf.read (regIndex offset) m).2
  | .write offset val => rf.write (regIndex offset) val m

/-- What it answers: a write nothing. -/
def MacAccess.answer (m : M) : MacAccess → List Word
  | .read offset => [(rf.read (regIndex offset) m).1]
  | .write _ _   => []

/-- The driver makes the accesses of a list, and keeps what the reads return. -/
def macRun : List MacAccess → Csr M → List Word × Csr M
  | [], c => ([], c)
  | .read offset :: l, c =>
    let (x, c) := macRead rf done offset c
    let (xs, c) := macRun l c
    (x :: xs, c)
  | .write offset val :: l, c => macRun l (macWrite rf done offset val c)

/-- The answers of a register file. -/
def answers : List MacAccess → M → List Word
  | [], _     => []
  | a :: l, m => a.answer rf m ++ answers l (a.apply rf m)

end Runs

/-- `Served rf l m xs m'`: some of the accesses `l`, in their order and none of
    them twice, take the registers from `m` to `m'`.  Each read has returned the
    register it was served, or the failure value. -/
inductive Served (rf : Registers M) : List MacAccess → M → List Word → M → Prop where
  | nil  : ∀ m, Served rf [] m [] m
  | read : ∀ {offset l m xs m'}, Served rf l (rf.read (regIndex offset) m).2 xs m' →
             Served rf (.read offset :: l) m ((rf.read (regIndex offset) m).1 :: xs) m'
  | readLate : ∀ {offset l m xs m'}, Served rf l (rf.read (regIndex offset) m).2 xs m' →
             Served rf (.read offset :: l) m (0xFFFFFFFF :: xs) m'
  | readLost : ∀ {offset l m xs m'}, Served rf l m xs m' →
             Served rf (.read offset :: l) m (0xFFFFFFFF :: xs) m'
  | write : ∀ {offset val l m xs m'}, Served rf l (rf.write (regIndex offset) val m) xs m' →
             Served rf (.write offset val :: l) m xs m'
  | writeLost : ∀ {offset val l m xs m'}, Served rf l m xs m' →
             Served rf (.write offset val :: l) m xs m'

/-- **Nothing is reordered, done twice or made up**, however long the MAC takes
    for each command. -/
theorem mac_accesses_in_order (rf : Registers M) (done : Nat → Bool) (l : List MacAccess)
    (c : Csr M) :
    Served rf l (c.effect (csrAct rf)) (macRun rf done l c).1
      ((macRun rf done l c).2.effect (csrAct rf)) := by
  induction l generalizing c with
  | nil => exact .nil _
  | cons a l ih =>
    cases a with
    | read offset =>
      obtain ⟨hended, hvalue⟩ := macRead_spec rf done offset c
      have hrest := ih (macRead rf done offset c).2
      show Served rf _ _ ((macRead rf done offset c).1 :: _) _
      rw [hvalue]
      cases hended with
      | finished hidle heffect =>
        rw [heffect] at hrest
        rw [if_pos hidle]
        exact .read hrest
      | late hbusy heffect =>
        rw [heffect] at hrest
        rw [if_neg hbusy]
        exact .readLate hrest
      | lost hbusy heffect =>
        rw [heffect] at hrest
        rw [if_neg hbusy]
        exact .readLost hrest
    | write offset val =>
      have hrest := ih (macWrite rf done offset val c)
      cases macWrite_spec rf done offset val c with
      | finished _ heffect =>
        rw [heffect] at hrest
        exact .write hrest
      | late _ heffect =>
        rw [heffect] at hrest
        exact .write hrest
      | lost _ heffect =>
        rw [heffect] at hrest
        exact .writeLost hrest

/-- **A prompt MAC is a register file**: the reads return what its registers
    hold, and at the end they hold what the writes put there. -/
theorem mac_accesses_prompt (rf : Registers M) (done : Nat → Bool) (l : List MacAccess)
    (c : Csr M) (hprompt : Prompt done) (hidle : c.Idle) :
    (macRun rf done l c).1 = answers rf l c.obj ∧
      (macRun rf done l c).2.Idle ∧
      (macRun rf done l c).2.obj = l.foldl (MacAccess.apply rf) c.obj := by
  induction l generalizing c with
  | nil => exact ⟨rfl, hidle, rfl⟩
  | cons a l ih =>
    cases a with
    | read offset =>
      obtain ⟨hnext, hvalue, heffect⟩ := macRead_prompt rf hprompt hidle offset
      rw [Port.effect_of_idle _ hidle] at hvalue heffect
      rw [Port.effect_of_idle _ hnext] at heffect
      obtain ⟨hxs, hend, hobj⟩ := ih _ hnext
      rw [heffect] at hxs hobj
      refine ⟨?_, hend, hobj⟩
      show (macRead rf done offset c).1 :: (macRun rf done l (macRead rf done offset c).2).1 = _
      rw [hvalue, hxs]
      rfl
    | write offset val =>
      obtain ⟨hnext, heffect⟩ := macWrite_prompt rf hprompt hidle offset val
      rw [Port.effect_of_idle _ hidle, Port.effect_of_idle _ hnext] at heffect
      obtain ⟨hxs, hend, hobj⟩ := ih _ hnext
      rw [heffect] at hxs hobj
      exact ⟨hxs, hend, hobj⟩

/-- The registers of the MAC without anything behind them. -/
abbrev MacRegs := BitVec 8 → Word

def macRegs : Registers MacRegs where
  read i m := (m i, m)
  write i x m := Function.update m i x

/-- The port after a reset. -/
def resetCsr : Csr MacRegs := ⟨fun _ => 0, none, 0, 0⟩

/-- `HASHH` written and read. -/
theorem mac_accesses_prompt_hashh :
    (macRun macRegs (fun _ => true) [.write 0x04 7, .read 0x04] resetCsr).1 = [7] :=
  (mac_accesses_prompt macRegs (fun _ => true) [.write 0x04 7, .read 0x04] resetCsr
    (fun _ => ⟨0, by decide, rfl⟩) rfl).1.trans (by decide)

/-! ## Section 5: Read, modify, write -/

/-- `MAC_CR` -/
def macCr : Word := 0x01

/-- `mac_cr = smsc911x_mac_read(pdata, MAC_CR)`, a change, and
    `smsc911x_mac_write(pdata, MAC_CR, mac_cr)`. -/
def modifyCr (rf : Registers M) (done : Nat → Bool) (f : Word → Word) (c : Csr M) : Csr M :=
  let (mac_cr, c) := macRead rf done macCr c
  macWrite rf done macCr (f mac_cr) c

theorem modifyCr_prompt {done : Nat → Bool} (hprompt : Prompt done) (f : Word → Word)
    {c : Csr MacRegs} (h : c.Idle) :
    (modifyCr macRegs done f c).Idle ∧ (modifyCr macRegs done f c).obj =
      Function.update c.obj (regIndex macCr) (f (c.obj (regIndex macCr))) := by
  obtain ⟨hread, hvalue, hregs⟩ := macRead_prompt macRegs hprompt h macCr
  obtain ⟨hwrite, heffect⟩ := macWrite_prompt macRegs hprompt hread macCr
    (f (macRead macRegs done macCr c).1)
  rw [Port.effect_of_idle _ h] at hvalue hregs
  rw [Port.effect_of_idle _ hwrite, hregs, hvalue] at heffect
  refine ⟨hwrite, ?_⟩
  show (macWrite macRegs done macCr (f (macRead macRegs done macCr c).1) _).obj = _
  rw [hvalue]
  exact heffect

/-- A command the MAC does not complete in time stays pending. -/
theorem wait_issued (rf : Registers M) {done : Nat → Bool} {c : Csr M} (cmd : BusyWord)
    (hidle : c.Idle) (hslow : ∀ k < 41, done (c.clock + 1 + k) = false) :
    (issued rf done cmd c).wait (csrAct rf) done 40 =
      (false, { c with pending := some cmd, clock := c.clock + 42 }) := by
  have hissued : issued rf done cmd c = { c with pending := some cmd, clock := c.clock + 2 } := by
    unfold issued
    rw [Port.tick_idle hidle]
    exact Port.tick_of_not_done (csrAct rf) (hslow 0 (by decide))
  have hlater : ∀ k < 40, done (c.clock + 2 + k) = false := by
    intro k hk
    rw [show c.clock + 2 + k = c.clock + 1 + (k + 1) by omega]
    exact hslow (k + 1) (by omega)
  rw [hissued]
  exact Port.wait_of_not_done (Option.some_ne_none _) hlater

theorem macRead_slow (rf : Registers M) {done : Nat → Bool} {c : Csr M} (offset : Word)
    (hidle : c.Idle) (hslow : ∀ k < 41, done (c.clock + 2 + k) = false) :
    macRead rf done offset c =
      (0xFFFFFFFF, { c with pending := some (readCmd offset), clock := c.clock + 43 }) := by
  have hfirst : c.tick (csrAct rf) done = { c with clock := c.clock + 1 } := Port.tick_idle hidle
  have hwait := wait_issued rf (readCmd offset)
    (show ({ c with clock := c.clock + 1 } : Csr M).Idle from hidle) hslow
  rw [macRead_idle offset hidle.tick, hfirst, hwait]
  rfl

theorem macWrite_slow (rf : Registers M) {done : Nat → Bool} {c : Csr M} (offset val : Word)
    (hidle : c.Idle) (hslow : ∀ k < 41, done (c.clock + 3 + k) = false) :
    macWrite rf done offset val c =
      { c with data := val, pending := some (writeCmd offset), clock := c.clock + 44 } := by
  have hsecond : (c.tick (csrAct rf) done).tick (csrAct rf) done =
      { c with clock := c.clock + 2 } := by
    rw [Port.tick_idle hidle.tick, Port.tick_idle hidle]
  rw [macWrite_idle offset val hidle.tick, hsecond]
  exact congrArg Prod.snd (wait_issued rf (writeCmd offset)
    (show (Port.put val { c with clock := c.clock + 2 }).Idle from hidle) hslow)

/-- Of two writes in a row, when the first takes too long, the second is
    dropped. -/
theorem macWrite_dropped (rf : Registers M) {done : Nat → Bool} {c : Csr M}
    (offset val offset' val' : Word) (hidle : c.Idle)
    (hslow : ∀ k < 42, done (c.clock + 3 + k) = false) :
    macWrite rf done offset' val' (macWrite rf done offset val c) =
      { c with data := val, pending := some (writeCmd offset), clock := c.clock + 45 } := by
  have hfirst := macWrite_slow rf offset val hidle (fun k hk => hslow k (by omega))
  have htick : (macWrite rf done offset val c).tick (csrAct rf) done =
      { c with data := val, pending := some (writeCmd offset), clock := c.clock + 45 } := by
    rw [hfirst]
    exact Port.tick_of_not_done (csrAct rf) (hslow 41 (by decide))
  have hbusy : ¬ ((macWrite rf done offset val c).tick (csrAct rf) done).Idle := by
    rw [htick]
    exact Option.some_ne_none _
  rw [macWrite_busy hbusy, htick]

/-- **The failure value is written back.**  When the read of `MAC_CR` takes one
    access longer than the driver looks, the write goes through, with what the
    change makes of `0xFFFFFFFF`. -/
theorem modifyCr_garbage (rf : Registers M) (done : Nat → Bool) (f : Word → Word) (c : Csr M)
    (hidle : c.Idle) (hslow : ∀ k < 41, done (c.clock + 2 + k) = false)
    (hthen : done (c.clock + 43) = true) :
    (modifyCr rf done f c).effect (csrAct rf) =
      rf.write (regIndex macCr) (f 0xFFFFFFFF) (rf.read (regIndex macCr) c.obj).2 := by
  have hread := macRead_slow rf macCr hidle hslow
  unfold modifyCr
  rw [hread]
  dsimp only
  rw [macWrite_not_lost, Port.effect, Port.settle]
  · show rf.write _ _ (csrAct rf (readCmd macCr) c.data c.obj).2 = _
    rw [csrAct_readCmd]
  · -- the read completes at the first access of the write
    exact Port.tick_of_done (csrAct rf) hthen

/-- Full duplex, set by `smsc911x_phy_adjust_link` after a slow read, comes with
    every other bit. -/
theorem modifyCr_garbage_duplex :
    (modifyCr macRegs (fun n => decide (43 ≤ n)) (· ||| 0x00100000) resetCsr).effect
      (csrAct macRegs) 1 = 0xFFFFFFFF := by
  rw [modifyCr_garbage macRegs (fun n => decide (43 ≤ n)) (· ||| 0x00100000) resetCsr rfl
    (by decide) (by decide)]
  decide

end Nic
