import VetGumstix.Nic.Mac

/-! # The PHY Registers

    The registers of the PHY lie behind a second port, whose command and data
    registers `MII_ACC` and `MII_DATA` are registers of the MAC, so that every
    look at them is a command of the first port.  `smsc911x_mii_read` and
    `smsc911x_mii_write` look at the busy bit of `MII_ACC` at most 100 times.

    * `miiRead_sound`: a read that returns no error returns the register of the
      PHY, however long MAC and PHY take.
    * `miiWrite_sound`: with a prompt MAC a write that returns 0 has been made
      when it returns.
    * `miiWrite_unmade`: with a slow one it may return 0 and never be made.
-/

namespace Nic

open BitMask

/-! ## Section 1: The second port -/

/-- The registers of the PHYs, by address and index. -/
structure PhyRegisters (P : Type) where
  read : BitVec 5 → BitVec 5 → P → BitVec 16 × P
  write : BitVec 5 → BitVec 5 → BitVec 16 → P → P

/-- `MII_ACC_MII_WRITE_` -/
def miiAccMiiWrite : Word := 0x00000002
/-- `MII_ACC_MII_BUSY_` -/
def miiAccMiiBusy : Word := 0x00000001
/-- `MII_ACC` -/
def miiAcc : Word := 0x06
/-- `MII_DATA` -/
def miiData : Word := 0x07

variable {P : Type}

/-- What the MAC makes of a word in `MII_ACC`. -/
def miiAct (ph : PhyRegisters P) : Port.Action P Word (BitVec 16) := fun acc data p =>
  if acc &&& miiAccMiiWrite ≠ 0 then
    (data, ph.write (acc.extractLsb' 11 5) (acc.extractLsb' 6 5) data p)
  else ph.read (acc.extractLsb' 11 5) (acc.extractLsb' 6 5) p

/-- The MAC with the port to the PHY. -/
structure Mac (P : Type) where
  regs : MacRegs
  mii : Port P Word (BitVec 16)

section Hardware

variable (ph : PhyRegisters P) (pdone : Nat → Bool)

/-- A write to `MII_ACC` starts a transfer; it shows busy until the transfer is
    over. -/
def macWithMii : Registers (Mac P) where
  read i m :=
    let mii := m.mii.tick (miiAct ph) pdone
    if i = 6 then ((mii.pending.map (· ||| miiAccMiiBusy)).getD 0, { m with mii := mii })
    else if i = 7 then (mii.data.setWidth 32, { m with mii := mii })
    else (m.regs i, m)
  write i x m :=
    if i = 6 then { m with mii := m.mii.start x }
    else if i = 7 then { m with mii := m.mii.put (x.setWidth 16) }
    else { m with regs := Function.update m.regs i x }

end Hardware

/-! ## Section 2: The driver -/

section Driver

variable (rf : Registers (Mac P)) (done : Nat → Bool)

/-- The word for `MII_ACC`. -/
def miiAddr (phyaddr regidx : Word) : Word :=
  ((phyaddr &&& 0x1F) <<< 11) ||| ((regidx &&& 0x1F) <<< 6)

/-- The loop of `smsc911x_mii_read`, with `i` looks left. -/
def miiReadLoop : Nat → Csr (Mac P) → Int × Csr (Mac P)
  | 0, c     => (eio, c)
  | i + 1, c =>
    let (acc, c) := macRead rf done miiAcc c
    if acc &&& miiAccMiiBusy = 0 then
      let (reg, c) := macRead rf done miiData c
      (reg.toInt, c)
    else miiReadLoop i c

/-- `smsc911x_mii_read` -/
def miiRead (phyaddr regidx : Word) (c : Csr (Mac P)) : Int × Csr (Mac P) :=
  let (acc, c) := macRead rf done miiAcc c
  if acc &&& miiAccMiiBusy ≠ 0 then (eio, c)
  else miiReadLoop rf done 100 (macWrite rf done miiAcc (miiAddr phyaddr regidx) c)

/-- The loop of `smsc911x_mii_write`, with `i` looks left. -/
def miiWriteLoop : Nat → Csr (Mac P) → Int × Csr (Mac P)
  | 0, c     => (eio, c)
  | i + 1, c =>
    let (acc, c) := macRead rf done miiAcc c
    if acc &&& miiAccMiiBusy = 0 then (0, c) else miiWriteLoop i c

/-- `smsc911x_mii_write` -/
def miiWrite (phyaddr regidx : Word) (val : BitVec 16) (c : Csr (Mac P)) : Int × Csr (Mac P) :=
  let (acc, c) := macRead rf done miiAcc c
  if acc &&& miiAccMiiBusy ≠ 0 then (eio, c)
  else
    let c := macWrite rf done miiData (val.setWidth 32) c
    let c := macWrite rf done miiAcc (miiAddr phyaddr regidx ||| miiAccMiiWrite) c
    miiWriteLoop rf done 100 c

end Driver

/-! ## Section 3: The words of `MII_ACC` -/

/-- The address and the index as the MAC reads them. -/
def miiField (x : Word) : BitVec 5 := x.extractLsb' 0 5

/-- Bits below the index do not matter. -/
theorem miiAddr_fields (phyaddr regidx low : Word) (h : ∀ i, 6 ≤ i → low.getLsbD i = false) :
    (miiAddr phyaddr regidx ||| low).extractLsb' 11 5 = miiField phyaddr ∧
      (miiAddr phyaddr regidx ||| low).extractLsb' 6 5 = miiField regidx := by
  constructor
  · apply BitVec.eq_of_getLsbD_eq
    intro i hi
    have hlow := h (11 + i) (by omega)
    simp only [miiAddr, miiField, BitVec.getLsbD_extractLsb', BitVec.getLsbD_or,
      BitVec.getLsbD_shiftLeft, BitVec.getLsbD_and, hlow]
    interval_cases i <;> simp
  · apply BitVec.eq_of_getLsbD_eq
    intro i hi
    have hlow := h (6 + i) (by omega)
    simp only [miiAddr, miiField, BitVec.getLsbD_extractLsb', BitVec.getLsbD_or,
      BitVec.getLsbD_shiftLeft, BitVec.getLsbD_and, hlow]
    interval_cases i <;> simp

theorem miiAct_read (ph : PhyRegisters P) (phyaddr regidx : Word) (data : BitVec 16) (p : P) :
    miiAct ph (miiAddr phyaddr regidx) data p =
      ph.read (miiField phyaddr) (miiField regidx) p := by
  have hdir : miiAddr phyaddr regidx &&& miiAccMiiWrite = 0 := by
    apply BitVec.eq_of_getLsbD_eq
    intro i hi
    by_cases hbit : i = 1
    · rw [hbit]
      simp [miiAddr]
    · have hmask : miiAccMiiWrite.getLsbD i = false := by
        interval_cases i <;> first | rfl | exact absurd rfl hbit
      rw [BitVec.getLsbD_and, hmask, Bool.and_false]
      exact (BitVec.getLsbD_zero).symm
  have hfields := miiAddr_fields phyaddr regidx 0 (by simp)
  rw [show miiAddr phyaddr regidx ||| 0 = miiAddr phyaddr regidx from BitVec.or_zero] at hfields
  unfold miiAct
  rw [if_neg (not_not.mpr hdir), hfields.1, hfields.2]

theorem miiAct_write (ph : PhyRegisters P) (phyaddr regidx : Word) (data : BitVec 16) (p : P) :
    miiAct ph (miiAddr phyaddr regidx ||| miiAccMiiWrite) data p =
      (data, ph.write (miiField phyaddr) (miiField regidx) data p) := by
  have hdir : (miiAddr phyaddr regidx ||| miiAccMiiWrite) &&& miiAccMiiWrite ≠ 0 := by
    apply and_ne_zero_of_bit 1
    · rw [BitVec.getLsbD_or, show miiAccMiiWrite.getLsbD 1 = true from rfl, Bool.or_true]
    · rfl
  have hlow : ∀ i, 6 ≤ i → miiAccMiiWrite.getLsbD i = false := by
    intro i hi
    by_cases hlt : i < 32
    · interval_cases i <;> rfl
    · exact BitVec.getLsbD_of_ge _ _ (Nat.le_of_not_lt hlt)
  obtain ⟨hphy, hreg⟩ := miiAddr_fields phyaddr regidx miiAccMiiWrite hlow
  unfold miiAct
  rw [if_pos hdir, hphy, hreg]

/-! ## Section 4: A look at `MII_ACC` -/

section Looks

variable {ph : PhyRegisters P} {pdone done : Nat → Bool} {c : Csr (Mac P)}

/-- The busy bit of `MII_ACC` shows whether a transfer is pending. -/
theorem miiBusy_iff (p : Port P Word (BitVec 16)) :
    (p.pending.map (· ||| miiAccMiiBusy)).getD 0 &&& miiAccMiiBusy = 0 ↔ p.Idle := by
  unfold Port.Idle
  cases p.pending with
  | none => simp
  | some acc =>
    have hbit : (acc ||| miiAccMiiBusy) &&& miiAccMiiBusy ≠ 0 := by
      apply and_ne_zero_of_bit 0
      · rw [BitVec.getLsbD_or, show miiAccMiiBusy.getLsbD 0 = true from rfl, Bool.or_true]
      · rfl
    simpa using hbit

/-- The MAC, once its port has settled. -/
abbrev macOf (ph : PhyRegisters P) (pdone : Nat → Bool) (c : Csr (Mac P)) : Mac P :=
  c.effect (csrAct (macWithMii ph pdone))

theorem read_miiAcc (m : Mac P) :
    (macWithMii ph pdone).read (regIndex miiAcc) m =
      (((m.mii.tick (miiAct ph) pdone).pending.map (· ||| miiAccMiiBusy)).getD 0,
        { m with mii := m.mii.tick (miiAct ph) pdone }) := rfl

theorem read_miiData (m : Mac P) :
    (macWithMii ph pdone).read (regIndex miiData) m =
      ((m.mii.tick (miiAct ph) pdone).data.setWidth 32,
        { m with mii := m.mii.tick (miiAct ph) pdone }) := rfl

/-- The MAC keeps the low 16 bits. -/
theorem write_miiData (val : BitVec 16) (m : Mac P) :
    (macWithMii ph pdone).write (regIndex miiData) (val.setWidth 32) m =
      { m with mii := m.mii.put val } := by
  have hwidth : (val.setWidth 32).setWidth 16 = val := by
    rw [BitVec.setWidth_setWidth_of_le _ (by decide), BitVec.setWidth_eq]
  show { m with mii := m.mii.put ((val.setWidth 32).setWidth 16) } = _
  rw [hwidth]

/-- A look changes nothing about what the PHY will hold. -/
theorem look_effect (ph : PhyRegisters P) (pdone done : Nat → Bool) (c : Csr (Mac P))
    (offset : Word) (h : offset = miiAcc ∨ offset = miiData) :
    let m' := macOf ph pdone (macRead (macWithMii ph pdone) done offset c).2
    m'.mii.effect (miiAct ph) = (macOf ph pdone c).mii.effect (miiAct ph) ∧
      m'.mii.result (miiAct ph) = (macOf ph pdone c).mii.result (miiAct ph) := by
  have htick : ((macWithMii ph pdone).read (regIndex offset) (macOf ph pdone c)).2.mii =
      (macOf ph pdone c).mii.tick (miiAct ph) pdone := by
    rcases h with rfl | rfl <;> rfl
  intro m'
  have hcases : m'.mii = (macOf ph pdone c).mii.tick (miiAct ph) pdone ∨
      m'.mii = (macOf ph pdone c).mii := by
    cases (macRead_spec (macWithMii ph pdone) done offset c).1 with
    | finished _ heffect => exact .inl ((congrArg Mac.mii heffect).trans htick)
    | late _ heffect => exact .inl ((congrArg Mac.mii heffect).trans htick)
    | lost _ heffect => exact .inr (congrArg Mac.mii heffect)
  rcases hcases with hmii | hmii
  · rw [hmii]
    exact ⟨Port.effect_tick, Port.result_tick⟩
  · rw [hmii]
    exact ⟨rfl, rfl⟩

/-- **A clear busy bit can be relied on**: both ports have settled.  The failure
    value of `smsc911x_mac_read` shows busy. -/
theorem look_clear (h : (macRead (macWithMii ph pdone) done miiAcc c).1 &&& miiAccMiiBusy = 0) :
    (macRead (macWithMii ph pdone) done miiAcc c).2.Idle ∧
      (macOf ph pdone (macRead (macWithMii ph pdone) done miiAcc c).2).mii.Idle := by
  obtain ⟨hended, hvalue⟩ := macRead_spec (macWithMii ph pdone) done miiAcc c
  rw [hvalue] at h
  by_cases hidle : (macRead (macWithMii ph pdone) done miiAcc c).2.Idle
  · rw [if_pos hidle, read_miiAcc, miiBusy_iff] at h
    refine ⟨hidle, ?_⟩
    cases hended with
    | finished _ heffect =>
      rw [macOf, heffect, read_miiAcc]
      exact h
    | late hbusy _ => exact absurd hidle hbusy
    | lost hbusy _ => exact absurd hidle hbusy
  · rw [if_neg hidle] at h
    exact absurd h (by decide)

/-! ## Section 5: The loops -/

/-- At most `n` looks, until one of them is clear. -/
def miiLooks (rf : Registers (Mac P)) (done : Nat → Bool) :
    Nat → Csr (Mac P) → Bool × Csr (Mac P)
  | 0, c     => (false, c)
  | n + 1, c =>
    if (macRead rf done miiAcc c).1 &&& miiAccMiiBusy = 0 then (true, (macRead rf done miiAcc c).2)
    else miiLooks rf done n (macRead rf done miiAcc c).2

theorem miiReadLoop_eq (rf : Registers (Mac P)) (n : Nat) :
    miiReadLoop rf done n c =
      if (miiLooks rf done n c).1 then
        ((macRead rf done miiData (miiLooks rf done n c).2).1.toInt,
          (macRead rf done miiData (miiLooks rf done n c).2).2)
      else (eio, (miiLooks rf done n c).2) := by
  induction n generalizing c with
  | zero => rfl
  | succ n ih =>
    unfold miiReadLoop miiLooks
    by_cases hclear : (macRead rf done miiAcc c).1 &&& miiAccMiiBusy = 0
    · simp only [hclear, if_true]
    · simp only [hclear, if_false]
      exact ih

theorem miiWriteLoop_eq (rf : Registers (Mac P)) (n : Nat) :
    miiWriteLoop rf done n c =
      (if (miiLooks rf done n c).1 then 0 else eio, (miiLooks rf done n c).2) := by
  induction n generalizing c with
  | zero => rfl
  | succ n ih =>
    unfold miiWriteLoop miiLooks
    by_cases hclear : (macRead rf done miiAcc c).1 &&& miiAccMiiBusy = 0
    · simp only [hclear, if_true]
    · simp only [hclear, if_false]
      exact ih

/-- The looks change nothing about what the PHY will hold; a clear one shows
    that it holds it, and leaves both ports idle. -/
theorem looks_spec (ph : PhyRegisters P) (pdone done : Nat → Bool) (n : Nat) (c : Csr (Mac P)) :
    let r := miiLooks (macWithMii ph pdone) done n c
    (macOf ph pdone r.2).mii.effect (miiAct ph) = (macOf ph pdone c).mii.effect (miiAct ph) ∧
      (macOf ph pdone r.2).mii.result (miiAct ph) = (macOf ph pdone c).mii.result (miiAct ph) ∧
      (r.1 = true → r.2.Idle ∧ (macOf ph pdone r.2).mii.Idle) := by
  induction n generalizing c with
  | zero => exact ⟨rfl, rfl, fun h => absurd h Bool.false_ne_true⟩
  | succ n ih =>
    obtain ⟨heffect, hresult⟩ := look_effect ph pdone done c miiAcc (.inl rfl)
    unfold miiLooks
    by_cases hclear : (macRead (macWithMii ph pdone) done miiAcc c).1 &&& miiAccMiiBusy = 0
    · rw [if_pos hclear]
      exact ⟨heffect, hresult, fun _ => look_clear hclear⟩
    · rw [if_neg hclear]
      obtain ⟨hrest, hrest', hidle⟩ := ih (macRead (macWithMii ph pdone) done miiAcc c).2
      exact ⟨hrest.trans heffect, hrest'.trans hresult, hidle⟩

/-- A look with a prompt MAC is one access to the second port. -/
theorem look_prompt (ph : PhyRegisters P) (pdone : Nat → Bool) (hprompt : Prompt done)
    (hidle : c.Idle) :
    let r := macRead (macWithMii ph pdone) done miiAcc c
    r.2.Idle ∧ (macOf ph pdone r.2).mii = (macOf ph pdone c).mii.tick (miiAct ph) pdone ∧
      (r.1 &&& miiAccMiiBusy = 0 ↔ ((macOf ph pdone c).mii.tick (miiAct ph) pdone).Idle) := by
  intro r
  obtain ⟨hnext, hvalue, heffect⟩ := macRead_prompt (macWithMii ph pdone) hprompt hidle miiAcc
  refine ⟨hnext, ?_, ?_⟩
  · rw [macOf, heffect]
    rfl
  · show (macRead (macWithMii ph pdone) done miiAcc c).1 &&& miiAccMiiBusy = 0 ↔ _
    rw [hvalue, read_miiAcc, miiBusy_iff]

/-- With a prompt MAC the looks see the end of a transfer that is over in
    time. -/
theorem looks_prompt (ph : PhyRegisters P) {n k : Nat} (hprompt : Prompt done)
    (hidle : c.Idle) (hk : k < n) (hdone : pdone ((macOf ph pdone c).mii.clock + k) = true) :
    (miiLooks (macWithMii ph pdone) done n c).1 = true ∧
      (miiLooks (macWithMii ph pdone) done n c).2.Idle := by
  induction n generalizing c k with
  | zero => exact absurd hk (Nat.not_lt_zero k)
  | succ n ih =>
    obtain ⟨hnext, hmii, hbusy⟩ := look_prompt ph pdone hprompt hidle
    unfold miiLooks
    by_cases hclear : (macRead (macWithMii ph pdone) done miiAcc c).1 &&& miiAccMiiBusy = 0
    · rw [if_pos hclear]
      exact ⟨rfl, hnext⟩
    · rw [if_neg hclear]
      cases k with
      | zero =>
        -- the transfer ends at this look
        exact absurd (hbusy.mpr (Port.tick_of_done _ hdone)) hclear
      | succ k =>
        apply ih hnext (Nat.lt_of_succ_lt_succ hk)
        rw [hmii]
        show pdone ((macOf ph pdone c).mii.clock + 1 + k) = true
        rw [Nat.add_assoc, Nat.add_comm 1 k]
        exact hdone

/-! ## Section 6: Reading and writing -/

/-- A transfer that is started while the first port is idle is started, however
    long the MAC takes. -/
theorem macWrite_miiAcc (ph : PhyRegisters P) (pdone done : Nat → Bool) (hidle : c.Idle)
    (acc : Word) :
    (macOf ph pdone (macWrite (macWithMii ph pdone) done miiAcc acc c)).mii =
      (macOf ph pdone c).mii.start acc := by
  rw [macOf, macWrite_not_lost hidle.tick]
  rfl

theorem macWrite_miiData (ph : PhyRegisters P) (pdone done : Nat → Bool) (hidle : c.Idle)
    (val : BitVec 16) :
    (macOf ph pdone (macWrite (macWithMii ph pdone) done miiData (val.setWidth 32) c)).mii =
      (macOf ph pdone c).mii.put val := by
  rw [macOf, macWrite_not_lost hidle.tick, write_miiData]

theorem toInt_setWidth (x : BitVec 16) : (x.setWidth 32).toInt = x.toNat := by
  have hx := x.isLt
  rw [BitVec.toInt_eq_toNat_of_lt, BitVec.toNat_setWidth, Nat.mod_eq_of_lt (by omega)]
  rw [BitVec.toNat_setWidth, Nat.mod_eq_of_lt (by omega)]
  omega

/-- `MII_DATA`, once the transfer is over: the failure value is negative. -/
theorem macRead_miiData (done : Nat → Bool) (hmii : (macOf ph pdone c).mii.Idle) :
    let r := macRead (macWithMii ph pdone) done miiData c
    r.1.toInt =
      if r.2.Idle then (((macOf ph pdone c).mii.result (miiAct ph)).toNat : Int) else -1 := by
  intro r
  have hvalue : r.1 = _ := (macRead_spec (macWithMii ph pdone) done miiData c).2
  have hdata : ((macOf ph pdone c).mii.tick (miiAct ph) pdone).data =
      (macOf ph pdone c).mii.result (miiAct ph) := by
    rw [← Port.result_of_idle (miiAct ph) hmii.tick, Port.result_tick]
  by_cases hend : r.2.Idle
  · rw [hvalue, if_pos hend, if_pos hend, read_miiData, hdata, toInt_setWidth]
  · rw [hvalue, if_neg hend, if_neg hend]
    rfl

end Looks

/-- PHY registers that are only registers. -/
def phyRegs : PhyRegisters (BitVec 5 → BitVec 5 → BitVec 16) where
  read a i p := (p a i, p)
  write a i x p := Function.update p a (Function.update (p a) i x)

/-- Both ports after a reset. -/
def resetMac : Csr (Mac (BitVec 5 → BitVec 5 → BitVec 16)) :=
  ⟨⟨fun _ => 0, ⟨fun _ _ => 0x7849, none, 0, 0⟩⟩, none, 0, 0⟩

/-- The PHY answers within the 100 looks. -/
def PhyPrompt (pdone : Nat → Bool) : Prop := ∀ n, ∃ k < 100, pdone (n + k) = true

section Transfers

variable (ph : PhyRegisters P) (pdone done : Nat → Bool) (phyaddr regidx : Word)

/-- After a first look that is clear, the PHY is at rest. -/
theorem obj_of_clear {c : Csr (Mac P)}
    (h : (macRead (macWithMii ph pdone) done miiAcc c).1 &&& miiAccMiiBusy = 0) :
    (macOf ph pdone (macRead (macWithMii ph pdone) done miiAcc c).2).mii.obj =
      (macOf ph pdone c).mii.effect (miiAct ph) := by
  rw [← Port.effect_of_idle (miiAct ph) (look_clear h).2]
  exact (look_effect ph pdone done c miiAcc (.inl rfl)).1

/-- The loop of a read after the transfer has been started. -/
theorem miiReadLoop_sound (n : Nat) (c : Csr (Mac P)) :
    let r := miiReadLoop (macWithMii ph pdone) done n c
    0 ≤ r.1 → r.1 = ((macOf ph pdone c).mii.result (miiAct ph)).toNat ∧
      (macOf ph pdone r.2).mii.effect (miiAct ph) = (macOf ph pdone c).mii.effect (miiAct ph) := by
  intro r hr
  obtain ⟨heffect, hresult, hmii⟩ := looks_spec ph pdone done n c
  have hloop : r = _ := miiReadLoop_eq (macWithMii ph pdone) n
  by_cases hseen : (miiLooks (macWithMii ph pdone) done n c).1 = true
  · rw [if_pos hseen] at hloop
    have hvalue := macRead_miiData done (hmii hseen).2
    have hlook := look_effect ph pdone done (miiLooks (macWithMii ph pdone) done n c).2 miiData
      (.inr rfl)
    rw [hloop] at hr ⊢
    dsimp only at hr ⊢
    rw [hvalue] at hr ⊢
    by_cases hend : (macRead (macWithMii ph pdone) done miiData
        (miiLooks (macWithMii ph pdone) done n c).2).2.Idle
    · rw [if_pos hend, hresult]
      exact ⟨rfl, hlook.1.trans heffect⟩
    · rw [if_neg hend] at hr
      exact absurd hr (by decide)
  · rw [if_neg hseen] at hloop
    rw [hloop] at hr
    exact absurd hr (show ¬ (0 : Int) ≤ eio by decide)

/-- It returns a value when MAC and PHY answer in time. -/
theorem miiReadLoop_prompt {c : Csr (Mac P)} (hprompt : Prompt done) (hphy : PhyPrompt pdone)
    (hidle : c.Idle) : 0 ≤ (miiReadLoop (macWithMii ph pdone) done 100 c).1 := by
  obtain ⟨k, hk, hdone⟩ := hphy (macOf ph pdone c).mii.clock
  obtain ⟨hseen, hnext⟩ := looks_prompt ph hprompt hidle hk hdone
  obtain ⟨hend, -, -⟩ := macRead_prompt (macWithMii ph pdone) hprompt hnext miiData
  have hmii := ((looks_spec ph pdone done 100 c).2.2 hseen).2
  rw [miiReadLoop_eq, if_pos hseen]
  dsimp only
  rw [macRead_miiData done hmii, if_pos hend]
  exact Int.natCast_nonneg _

/-- **What is read is the register**: whatever time MAC and PHY take for each of
    their commands, a result that is not negative is what the register held.
    When they answer in time there is such a result. -/
theorem miiRead_sound (c : Csr (Mac P)) :
    let p := (macOf ph pdone c).mii.effect (miiAct ph)
    let r := miiRead (macWithMii ph pdone) done phyaddr regidx c
    (0 ≤ r.1 →
      r.1 = (ph.read (miiField phyaddr) (miiField regidx) p).1.toNat ∧
      (macOf ph pdone r.2).mii.effect (miiAct ph) =
        (ph.read (miiField phyaddr) (miiField regidx) p).2) ∧
    (Prompt done → PhyPrompt pdone → c.Idle → (macOf ph pdone c).mii.Idle → 0 ≤ r.1) := by
  intro p r
  by_cases hclear : (macRead (macWithMii ph pdone) done miiAcc c).1 &&& miiAccMiiBusy = 0
  · have hidle := (look_clear hclear).1
    have hobj := obj_of_clear ph pdone done hclear
    have hr : r = miiReadLoop (macWithMii ph pdone) done 100
        (macWrite (macWithMii ph pdone) done miiAcc (miiAddr phyaddr regidx)
          (macRead (macWithMii ph pdone) done miiAcc c).2) := if_neg (not_not.mpr hclear)
    have hloop := miiReadLoop_sound ph pdone done 100 (macWrite (macWithMii ph pdone) done miiAcc
      (miiAddr phyaddr regidx) (macRead (macWithMii ph pdone) done miiAcc c).2)
    rw [macWrite_miiAcc ph pdone done hidle, Port.result_start, Port.effect_start, miiAct_read,
      hobj] at hloop
    rw [hr]
    refine ⟨hloop, ?_⟩
    intro hprompt hphy _ _
    exact miiReadLoop_prompt ph pdone done hprompt hphy (macWrite_prompt _ hprompt hidle _ _).1
  · have hr : r = (eio, (macRead (macWithMii ph pdone) done miiAcc c).2) := if_pos hclear
    rw [hr]
    refine ⟨fun h => absurd h (show ¬ (0 : Int) ≤ eio by decide), ?_⟩
    intro hprompt _ hidle hmii
    -- a MAC and a PHY at rest do not show busy
    exact absurd ((look_prompt ph pdone hprompt hidle).2.2.mpr hmii.tick) hclear

/-- `MII_BMSR` -/
theorem miiRead_sound_status :
    0 ≤ (miiRead (macWithMii phyRegs fun _ => true) (fun _ => true) 1 1 resetMac).1 ∧
    (miiRead (macWithMii phyRegs fun _ => true) (fun _ => true) 1 1 resetMac).1 = 0x7849 := by
  have h := miiRead_sound phyRegs (fun _ => true) (fun _ => true) 1 1 resetMac
  have hret := h.2 (fun _ => ⟨0, by decide, rfl⟩) (fun _ => ⟨0, by decide, rfl⟩) rfl rfl
  exact ⟨hret, (h.1 hret).1.trans (by decide)⟩

/-- The loop of a write after the transfer has been started. -/
theorem miiWriteLoop_sound (n : Nat) (c : Csr (Mac P)) :
    let r := miiWriteLoop (macWithMii ph pdone) done n c
    (r.1 = 0 ∧ r.2.Idle ∧ (macOf ph pdone r.2).mii.Idle ∨ r.1 = eio) ∧
      (macOf ph pdone r.2).mii.effect (miiAct ph) = (macOf ph pdone c).mii.effect (miiAct ph) := by
  intro r
  have hloop : r = _ := miiWriteLoop_eq (macWithMii ph pdone) n
  obtain ⟨heffect, -, hrest⟩ := looks_spec ph pdone done n c
  rw [hloop]
  refine ⟨?_, heffect⟩
  by_cases hseen : (miiLooks (macWithMii ph pdone) done n c).1 = true
  · exact .inl ⟨if_pos hseen, hrest hseen⟩
  · exact .inr (if_neg hseen)

/-- **What is written arrives**, with a prompt MAC: when the result is 0, both
    ports are idle and the register of the PHY has been written.  After `-EIO`
    it may be, later, or not. -/
theorem miiWrite_sound (val : BitVec 16) (c : Csr (Mac P)) (hprompt : Prompt done)
    (hidle : c.Idle) :
    let p := (macOf ph pdone c).mii.effect (miiAct ph)
    let p' := ph.write (miiField phyaddr) (miiField regidx) val p
    let r := miiWrite (macWithMii ph pdone) done phyaddr regidx val c
    (r.1 = 0 ∧ r.2.Idle ∧ r.2.obj.mii.Idle ∧ r.2.obj.mii.obj = p' ∨
      r.1 = eio ∧ ((macOf ph pdone r.2).mii.effect (miiAct ph) = p ∨
        (macOf ph pdone r.2).mii.effect (miiAct ph) = p')) ∧
    (PhyPrompt pdone → (macOf ph pdone c).mii.Idle → r.1 = 0) := by
  intro p p' r
  by_cases hclear : (macRead (macWithMii ph pdone) done miiAcc c).1 &&& miiAccMiiBusy = 0
  · have hfirst := (look_clear hclear).1
    have hobj := obj_of_clear ph pdone done hclear
    have hmii := macWrite_miiData ph pdone done hfirst val
    have hdata := (macWrite_prompt (macWithMii ph pdone) hprompt hfirst miiData
      (val.setWidth 32)).1
    have hr : r = miiWriteLoop (macWithMii ph pdone) done 100
        (macWrite (macWithMii ph pdone) done miiAcc (miiAddr phyaddr regidx ||| miiAccMiiWrite)
          (macWrite (macWithMii ph pdone) done miiData (val.setWidth 32)
            (macRead (macWithMii ph pdone) done miiAcc c).2)) := if_neg (not_not.mpr hclear)
    generalize macWrite (macWithMii ph pdone) done miiData _ _ = c₂ at hmii hdata hr
    have hlast := (macWrite_prompt (macWithMii ph pdone) hprompt hdata miiAcc
      (miiAddr phyaddr regidx ||| miiAccMiiWrite)).1
    -- what the transfer does, once it is over
    have heffect : (macOf ph pdone (macWrite (macWithMii ph pdone) done miiAcc
        (miiAddr phyaddr regidx ||| miiAccMiiWrite) c₂)).mii.effect (miiAct ph) = p' := by
      rw [macWrite_miiAcc ph pdone done hdata, Port.effect_start, miiAct_write, hmii]
      exact congrArg (ph.write _ _ val) hobj
    obtain ⟨hret, hloop⟩ := miiWriteLoop_sound ph pdone done 100
      (macWrite (macWithMii ph pdone) done miiAcc (miiAddr phyaddr regidx ||| miiAccMiiWrite) c₂)
    rw [heffect] at hloop
    rw [hr]
    constructor
    · rcases hret with ⟨hzero, hcsr, hphy⟩ | herr
      · -- the last look was clear: nothing is left to settle
        rw [macOf, Port.effect_of_idle _ hcsr] at hphy hloop
        rw [Port.effect_of_idle _ hphy] at hloop
        exact .inl ⟨hzero, hcsr, hphy, hloop⟩
      · exact .inr ⟨herr, .inr hloop⟩
    · intro hphy _
      obtain ⟨k, hk, hdone⟩ := hphy (macOf ph pdone (macWrite (macWithMii ph pdone) done miiAcc
        (miiAddr phyaddr regidx ||| miiAccMiiWrite) c₂)).mii.clock
      rw [miiWriteLoop_eq]
      exact if_pos (looks_prompt ph hprompt hlast hk hdone).1
  · have hr : r = (eio, (macRead (macWithMii ph pdone) done miiAcc c).2) := if_pos hclear
    rw [hr]
    refine ⟨.inr ⟨rfl, .inl (look_effect ph pdone done c miiAcc (.inl rfl)).1⟩, ?_⟩
    intro _ hmii
    exact absurd ((look_prompt ph pdone hprompt hidle).2.2.mpr hmii.tick) hclear

/-- A reset by `MII_BMCR` -/
theorem miiWrite_sound_control :
    let r := miiWrite (macWithMii phyRegs fun _ => true) (fun _ => true) 1 0 0x8000 resetMac
    r.1 = 0 ∧ r.2.obj.mii.obj 1 0 = 0x8000 := by
  have hsound := miiWrite_sound phyRegs (fun _ => true) (fun _ => true) 1 0 0x8000
    resetMac (fun _ => ⟨0, by decide, rfl⟩) rfl
  -- the transfer itself is not to be evaluated
  generalize miiWrite (macWithMii phyRegs fun _ => true) (fun _ => true) 1 0 0x8000 resetMac = r
    at hsound ⊢
  obtain ⟨hends, hret⟩ := hsound
  have hzero := hret (fun _ => ⟨0, by decide, rfl⟩) rfl
  rcases hends with ⟨-, -, -, hwritten⟩ | ⟨herr, -⟩
  · exact ⟨hzero, (congrFun (congrFun hwritten 1) 0).trans (by decide)⟩
  · exact absurd (hzero.symm.trans herr) (by decide)

/-- **A write that is never made.**  When the MAC takes a little longer for
    `MII_DATA` than the driver looks, the command for `MII_ACC` finds it busy and
    is dropped; the loop then sees no transfer going on, and returns 0. -/
theorem miiWrite_unmade (val : BitVec 16) (c : Csr (Mac P)) {k : Nat}
    (hclear : (macRead (macWithMii ph pdone) done miiAcc c).1 &&& miiAccMiiBusy = 0)
    (hslow : ∀ j < 42,
      done ((macRead (macWithMii ph pdone) done miiAcc c).2.clock + 3 + j) = false)
    (hthen : done ((macRead (macWithMii ph pdone) done miiAcc c).2.clock + 45) = true)
    (hk : k < 40) (hnext : done ((macRead (macWithMii ph pdone) done miiAcc c).2.clock + 48 + k)
      = true) :
    let r := miiWrite (macWithMii ph pdone) done phyaddr regidx val c
    r.1 = 0 ∧ (macOf ph pdone r.2).mii.effect (miiAct ph) =
      (macOf ph pdone c).mii.effect (miiAct ph) := by
  intro r
  obtain ⟨hfirst, hrest⟩ := look_clear hclear
  have hobj := obj_of_clear ph pdone done hclear
  have hr : r = miiWriteLoop (macWithMii ph pdone) done 100
      (macWrite (macWithMii ph pdone) done miiAcc (miiAddr phyaddr regidx ||| miiAccMiiWrite)
        (macWrite (macWithMii ph pdone) done miiData (val.setWidth 32)
          (macRead (macWithMii ph pdone) done miiAcc c).2)) := if_neg (not_not.mpr hclear)
  generalize (macRead (macWithMii ph pdone) done miiAcc c).2 = c₁ at *
  rw [macWrite_dropped (macWithMii ph pdone) _ _ _ _ hfirst hslow, miiWriteLoop_eq] at hr
  -- the port with the command for `MII_DATA` pending, and what it will do
  let c₃ : Csr (Mac P) := { c₁ with
    data := val.setWidth 32, pending := some (writeCmd miiData), clock := c₁.clock + 45 }
  have hmac : macOf ph pdone c₃ = { c₁.obj with mii := c₁.obj.mii.put val } := by
    show (csrAct (macWithMii ph pdone) (writeCmd miiData) (val.setWidth 32) c₁.obj).2 = _
    rw [csrAct_writeCmd, write_miiData]
  rw [macOf, Port.effect_of_idle _ hfirst] at hrest hobj
  -- the first look of the loop completes it, and finds no transfer
  obtain ⟨-, hvalue, -⟩ := macRead_in_time (macWithMii ph pdone)
    (Port.tick_of_done (p := c₃) _ hthen) hk hnext miiAcc
  have hseen : (macRead (macWithMii ph pdone) done miiAcc c₃).1 &&& miiAccMiiBusy = 0 := by
    rw [hvalue, read_miiAcc, miiBusy_iff]
    show ((macOf ph pdone c₃).mii.tick _ _).Idle
    rw [hmac]
    exact Port.Idle.tick hrest
  have hlooks : miiLooks (macWithMii ph pdone) done 100 c₃ =
      (true, (macRead (macWithMii ph pdone) done miiAcc c₃).2) := if_pos hseen
  have heffect := (look_effect ph pdone done c₃ miiAcc (.inl rfl)).1
  rw [hmac, Port.effect_of_idle _ (show (c₁.obj.mii.put val).Idle from hrest)] at heffect
  rw [hr, hlooks]
  exact ⟨rfl, heffect.trans hobj⟩

end Transfers

/-- The same reset, which never reaches the PHY. -/
theorem miiWrite_unmade_control :
    let r := miiWrite (macWithMii phyRegs fun _ => true) (fun n => decide (n < 8 ∨ 50 ≤ n)) 1 0
      0x8000 resetMac
    r.1 = 0 ∧ (macOf phyRegs (fun _ => true) r.2).mii.effect (miiAct phyRegs) 1 0 = 0x7849 := by
  have h := miiWrite_unmade phyRegs (fun _ => true) (fun n => decide (n < 8 ∨ 50 ≤ n)) 1 0 0x8000
    resetMac (k := 0) (by decide) (by decide) (by decide) (by decide) (by decide)
  exact ⟨h.1, congrFun (congrFun h.2 1) 0⟩

end Nic
