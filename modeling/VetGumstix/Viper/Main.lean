import VetGumstix.Viper.Card
import VetGumstix.Viper.Simulator

/-! # `main`: Halting and Restarting the Card

    `main` halts both CPUs of the card, dumps the firmware, generates the
    nonces and their checksums, restarts the CPUs and asks the driver for the
    attestation of each.  A CPU is halted by bit `0x10000` of its state
    register, `0x140` for CPU A and `0x240` for CPU B.

    Every ioctl may fail.  Of the failures before the restart only those of the
    first four are looked at, and each of them ends the program at once.

    `untilRestart_restores`: a run that comes to the restart hands the card back
    as it was, but for its window.

    `card_left_running`: the program ends with both CPUs running exactly when
    it is refused, or fails before it has halted CPU A, or halts both CPUs.
-/

namespace Viper

/-! ## Section 1: The outside -/

/-- The commands of the driver that `main` issues besides the two of the
    shared memory. -/
inductive Command where
  | swatt
  | swattB
  | swattReadSha1

/-- The part of `acenic_ioc_req` that the attestation uses. -/
structure Request where
  nonceNum : Nat
  nonce    : Nat → Word
  checksum : Nat → Word
  sha1     : Nat → Word

/-- What a run of `main` depends on.  `ioctl` is the driver's answer to a
    command other than a read or a write, `true` when it fails; `fwBin` is what
    `read_swatt_code` finds of the buffer that `save_swatt_code` wrote. -/
structure Env where
  argc       : Nat
  nameLength : Nat
  euid       : Nat
  expNum     : Word
  fails      : Nat → Bool
  fwBin      : Buffer → Buffer
  rnd        : Nat → BitVec 8
  ioctl      : Command → AlteonSt × Request → (AlteonSt × Request) × Bool

/-- How `main` ends. -/
inductive Exit where
  | die (why : String)
  /-- `exit(-1)` -/
  | exit
  | ioctlFails
  | attestationFails
  | finish (sha1 : Nat → Word)

/-- The status the program leaves. -/
def Exit.status : Exit → Int
  | .die _ => -1
  | .exit => -1
  | _ => 0

/-! ## Section 2: `main` up to the restart -/

/-- The checks `main` starts with. -/
def dieWhy (env : Env) : Option String :=
  if env.argc ≠ 3 then some "Usage: %s <i/f name>"
  else if 16 ≤ env.nameLength then some "i/f name too long"
  else if env.euid ≠ 0 then some "must be root to access shared memory"
  else none

/-- Halt the CPU with state register `offset`.  The error is the state in which
    `main` calls `exit(-1)`. -/
def stopCpu (fails : Nat → Bool) (nic : AlteonSt) (offset : Word) :
    Except AlteonSt (AlteonSt × Word) :=
  match readSmem fails nic offset with
  | (nic, _, false) => .error nic
  | (nic, oState, true) =>
    let oState := ntohl oState
    match writeSmem fails nic offset (ntohl (oState ||| 0x10000)) with
    | (nic, false) => .error nic
    | (nic, true) => .ok (nic, oState)

/-- `/* Stop both CPUs */` -/
def stopCpus (fails : Nat → Bool) (nic : AlteonSt) : Except AlteonSt (AlteonSt × Word × Word) :=
  match stopCpu fails nic 0x140 with
  | .error nic => .error nic
  | .ok (nic, oState) =>
    match stopCpu fails nic 0x240 with
    | .error nic => .error nic
    | .ok (nic, oStateB) => .ok (nic, oState, oStateB)

/-- `/* Read out CPU states */`: nothing uses the words. -/
def readStates (fails : Nat → Bool) (nic : AlteonSt) : AlteonSt :=
  [0x144, 0x244, 0x1f4, 0x2f4].foldl (fun nic offset => (readSmem fails nic offset).1) nic

/-- What `main` holds when it comes to the restart. -/
structure Prepared where
  nic        : AlteonSt
  oState     : Word
  oStateB    : Word
  nonceCount : Nat
  pool       : Nat → Word
  checksum   : Nat → Word × Word

/-- The dump, the nonces and the checksums.  The globals are zero at first. -/
def prepare (env : Env) (nic : AlteonSt) (oState oStateB : Word) : Prepared :=
  let nic := readStates env.fails nic
  let (nic, buf) := dumpFirmware env.fails nic swattBase 3072
  let buf := env.fwBin buf
  let gen := generateNonce viperConfig buf env.rnd fun _ => 0
  let sim := checksumSimulator viperConfig buf gen.pool gen.nonceCount gen.core.r fun _ => (0, 0)
  { nic := nic, oState := oState, oStateB := oStateB, nonceCount := gen.nonceCount,
    pool := gen.pool, checksum := sim.checksum }

/-- `main` from its start on a card to the restart. -/
def untilRestart (env : Env) (card : Card) : Except (AlteonSt × Exit) Prepared :=
  let nic : AlteonSt := ⟨card, 0, 0, 0⟩
  match dieWhy env with
  | some why => .error (nic, .die why)
  | none =>
    match stopCpus env.fails nic with
    | .error nic => .error (nic, .exit)
    | .ok (nic, oState, oStateB) => .ok (prepare env nic oState oStateB)

/-! ## Section 3: The restart and the attestation -/

/-- `/* Restart both CPUs */` -/
def restart (fails : Nat → Bool) (nic : AlteonSt) (oState oStateB : Word) : AlteonSt :=
  let nic := (writeSmem fails nic 0x140 (ntohl (oState &&& ~~~0x10000))).1
  (writeSmem fails nic 0x240 (ntohl (oStateB &&& ~~~0x10000))).1

/-- The loop that copies the nonces and the checksums into the request. -/
def Request.copy (req : Request) (p : Prepared) : Request :=
  { req with
    nonceNum := p.nonceCount
    nonce := fun i => if i < p.nonceCount then p.pool i else req.nonce i
    checksum := fun i => if i < p.nonceCount then (p.checksum i).1 else req.checksum i }

/-- `swatt`: what it leaves in `*dpr` and, when it returns `TRUE`, in `*dp`. -/
def swatt (env : Env) (s : AlteonSt × Request) (cmd : Command) (offset expNum : Word) :
    (AlteonSt × Request) × Word × Option Word :=
  match env.ioctl cmd ({ s.1 with cardoffset := offset, data := expNum }, s.2) with
  | (s, true) => (s, otherEndian s.1.data, none)
  | (s, false) => (s, otherEndian s.1.data, some (otherEndian s.1.cardoffset))

/-- The part of `main` for CPU A. -/
def attestCpuA (env : Env) (p : Prepared) (s : AlteonSt × Request) : AlteonSt × Exit :=
  match swatt env (s.1, s.2.copy p) .swatt 0x658 env.expNum with
  | (s, _, none) => (s.1, .ioctlFails)
  | (s, ra, some _) =>
    if ntohl ra = 1 then
      match swatt env s .swattReadSha1 0x658 env.expNum with
      | (s, _, none) => (s.1, .ioctlFails)
      | (s, _, some _) => (s.1, .finish s.2.sha1)
    else (s.1, .attestationFails)

/-- The part of `main` for CPU B, which goes first. -/
def attestCpuB (env : Env) (p : Prepared) (s : AlteonSt × Request) : AlteonSt × Exit :=
  match swatt env (s.1, s.2.copy p) .swattB 0x658 env.expNum with
  | (s, _, none) => (s.1, .ioctlFails)
  | (s, ra, some _) => if ntohl ra = 1 then attestCpuA env p s else (s.1, .attestationFails)

/-- `main` on a card; the request is all zero at first. -/
def main (env : Env) (card : Card) : AlteonSt × Exit :=
  match untilRestart env card with
  | .error stopped => stopped
  | .ok p =>
    attestCpuB env p (restart env.fails p.nic p.oState p.oStateB,
      ⟨0, fun _ => 0, fun _ => 0, fun _ => 0⟩)

/-! ## Section 4: The halt bits -/

/-- Both CPUs run. -/
def Card.Running (c : Card) : Prop :=
  c.reg 0x140 &&& 0x10000 = 0 ∧ c.reg 0x240 &&& 0x10000 = 0

instance (c : Card) : Decidable c.Running := inferInstanceAs (Decidable (_ ∧ _))

/-- The card with the halt bit of the state register `offset` set. -/
def Card.halt (c : Card) (offset : Word) : Card :=
  { c with reg := Function.update c.reg offset (c.reg offset ||| 0x10000) }

theorem halt_bit_set (w : Word) : (w ||| 0x10000) &&& 0x10000 ≠ 0 := by
  intro h
  have hbit := congrArg (fun v => v.getLsbD 16) h
  simp at hbit

/-- A word whose halt bit is clear is not changed by clearing it. -/
theorem clear_halt_bit {w : Word} (h : w &&& 0x10000 = 0) : w &&& ~~~0x10000 = w := by
  calc w &&& ~~~0x10000 = (w &&& 0x10000) ||| (w &&& ~~~0x10000) := by
        rw [h]
        exact BitVec.zero_or.symm
    _ = w &&& (0x10000 ||| ~~~0x10000) := BitVec.and_or_distrib_left.symm
    _ = w &&& BitVec.allOnes 32 := rfl
    _ = w := BitVec.and_allOnes

theorem Card.not_running_halt (c : Card) : ¬ (c.halt 0x140).Running := by
  intro h
  apply halt_bit_set (c.reg 0x140)
  simpa [Card.halt] using h.1

theorem Card.running_atWindow (c : Card) (w : Word) : (c.atWindow w).Running ↔ c.Running := by
  simp [Card.Running, Card.atWindow]

/-- **What the restart undoes**: the card with both CPUs halted and its window
    moved is handed back with both running. -/
theorem Card.restart_halt {c : Card} (h : c.Running) (w : Word) :
    ((((c.halt 0x140).halt 0x240).atWindow w).write 0x140 (c.reg 0x140 &&& ~~~0x10000)).write
      0x240 (c.reg 0x240 &&& ~~~0x10000) = c.atWindow w := by
  rw [clear_halt_bit h.1, clear_halt_bit h.2]
  unfold Card.halt Card.atWindow
  rw [Card.write, if_neg (by decide), Card.write, if_neg (by decide)]
  congr 1
  funext r
  by_cases hb : r = 0x240
  · subst hb
    simp
  by_cases ha : r = 0x140
  · subst ha
    simp
  · simp only [Function.update_apply, if_neg ha, if_neg hb]

/-! ## Section 5: What each part of `main` does to the card -/

section Parts

variable {fails : Nat → Bool} {nic : AlteonSt}

/-- A CPU whose halting fails is left as it was. -/
theorem stopCpu_failed (h : fails nic.ioctls = true ∨ fails (nic.ioctls + 1) = true)
    (offset : Word) : ∃ nic', stopCpu fails nic offset = .error nic' ∧ nic'.card = nic.card := by
  unfold stopCpu
  cases hread : fails nic.ioctls with
  | true =>
    rw [readSmem_failed hread]
    exact ⟨_, rfl, rfl⟩
  | false =>
    have hwrite : fails (nic.ioctls + 1) = true := by simpa [hread] using h
    rw [readSmem_ok hread]
    dsimp only
    rw [writeSmem_failed hwrite]
    exact ⟨_, rfl, rfl⟩

theorem stopCpu_ok (hread : fails nic.ioctls = false) (hwrite : fails (nic.ioctls + 1) = false)
    {offset : Word} (hoffset : ¬ inWindow offset) :
    ∃ nic', stopCpu fails nic offset = .ok (nic', nic.card.reg offset) ∧
      nic'.card = nic.card.halt offset ∧ nic'.ioctls = nic.ioctls + 2 := by
  have hreg : nic.card.read offset = nic.card.reg offset := if_neg hoffset
  unfold stopCpu
  rw [readSmem_ok hread]
  dsimp only
  rw [writeSmem_ok hwrite, ntohl_otherEndian, otherEndian_ntohl, hreg]
  exact ⟨_, rfl, if_neg hoffset, rfl⟩

variable (nic) in
/-- The first of the three outcomes of `/* Stop both CPUs */`: nothing is halted. -/
theorem stopCpus_failed_first (h : fails nic.ioctls = true ∨ fails (nic.ioctls + 1) = true) :
    ∃ nic', stopCpus fails nic = .error nic' ∧ nic'.card = nic.card := by
  obtain ⟨nic', hstop, hcard⟩ := stopCpu_failed h 0x140
  unfold stopCpus
  rw [hstop]
  exact ⟨nic', rfl, hcard⟩

variable (nic) in
/-- CPU A alone is halted. -/
theorem stopCpus_failed_second (h0 : fails nic.ioctls = false)
    (h1 : fails (nic.ioctls + 1) = false)
    (h : fails (nic.ioctls + 2) = true ∨ fails (nic.ioctls + 3) = true) :
    ∃ nic', stopCpus fails nic = .error nic' ∧ nic'.card = nic.card.halt 0x140 := by
  obtain ⟨nicA, hstopA, hcardA, hcount⟩ := stopCpu_ok h0 h1 (show ¬ inWindow 0x140 by decide)
  have hB : fails nicA.ioctls = true ∨ fails (nicA.ioctls + 1) = true := by
    rw [hcount]
    exact h
  obtain ⟨nicB, hstopB, hcardB⟩ := stopCpu_failed hB 0x240
  unfold stopCpus
  rw [hstopA]
  dsimp only
  rw [hstopB]
  exact ⟨nicB, rfl, hcardB.trans hcardA⟩

variable (nic) in
theorem stopCpus_ok (h0 : fails nic.ioctls = false) (h1 : fails (nic.ioctls + 1) = false)
    (h2 : fails (nic.ioctls + 2) = false) (h3 : fails (nic.ioctls + 3) = false) :
    ∃ nic', stopCpus fails nic = .ok (nic', nic.card.reg 0x140, nic.card.reg 0x240) ∧
      nic'.card = (nic.card.halt 0x140).halt 0x240 := by
  obtain ⟨nicA, hstopA, hcardA, hcount⟩ := stopCpu_ok h0 h1 (show ¬ inWindow 0x140 by decide)
  have hread : fails nicA.ioctls = false := by rw [hcount, h2]
  have hwrite : fails (nicA.ioctls + 1) = false := by rw [hcount, h3]
  obtain ⟨nicB, hstopB, hcardB, -⟩ := stopCpu_ok hread hwrite (show ¬ inWindow 0x240 by decide)
  have hregB : nicA.card.reg 0x240 = nic.card.reg 0x240 := by simp [hcardA, Card.halt]
  rw [hregB] at hstopB
  unfold stopCpus
  rw [hstopA]
  dsimp only
  rw [hstopB]
  exact ⟨nicB, rfl, by rw [hcardB, hcardA]⟩

/-- The reads before the dump and the dump itself move the window at most. -/
theorem prepare_windowOnly (env : Env) (nic : AlteonSt) (oState oStateB : Word) :
    WindowOnly nic.card (prepare env nic oState oStateB).nic := by
  have hstart : WindowOnly nic.card nic := ⟨_, (Card.atWindow_reg nic.card).symm⟩
  have hread : WindowOnly nic.card (readStates env.fails nic) :=
    (((hstart.readSmem _ _).readSmem _ _).readSmem _ _).readSmem _ _
  exact dumpFirmware_windowOnly hread env.fails (by decide) (by decide)

theorem restart_card (h0 : fails nic.ioctls = false) (h1 : fails (nic.ioctls + 1) = false)
    (oState oStateB : Word) :
    (restart fails nic oState oStateB).card =
      (nic.card.write 0x140 (oState &&& ~~~0x10000)).write 0x240 (oStateB &&& ~~~0x10000) := by
  unfold restart
  rw [writeSmem_ok h0]
  dsimp only
  rw [writeSmem_ok h1, otherEndian_ntohl, otherEndian_ntohl]

end Parts

/-! ## Section 6: A run that comes to the restart -/

/-- The arguments or the user are refused. -/
def Refused (env : Env) : Prop := env.argc ≠ 3 ∨ 16 ≤ env.nameLength ∨ env.euid ≠ 0

instance (env : Env) : Decidable (Refused env) := inferInstanceAs (Decidable (_ ∨ _))

theorem dieWhy_eq_none (env : Env) : dieWhy env = none ↔ ¬ Refused env := by
  unfold dieWhy Refused
  split_ifs <;> simp_all

theorem untilRestart_refused {env : Env} (h : Refused env) (card : Card) :
    ∃ why, untilRestart env card = .error (⟨card, 0, 0, 0⟩, .die why) := by
  unfold untilRestart
  cases hwhy : dieWhy env with
  | none => exact absurd h ((dieWhy_eq_none env).mp hwhy)
  | some why => exact ⟨why, rfl⟩

theorem untilRestart_of_stopCpus {env : Env} (h : ¬ Refused env) (card : Card) :
    untilRestart env card =
      match stopCpus env.fails ⟨card, 0, 0, 0⟩ with
      | .error nic => .error (nic, .exit)
      | .ok (nic, oState, oStateB) => .ok (prepare env nic oState oStateB) := by
  unfold untilRestart
  rw [(dieWhy_eq_none env).mpr h]

theorem untilRestart_failed_first {env : Env} (h : ¬ Refused env) (card : Card)
    (hfails : env.fails 0 = true ∨ env.fails 1 = true) :
    ∃ nic, untilRestart env card = .error (nic, .exit) ∧ nic.card = card := by
  obtain ⟨nic, hstop, hcard⟩ := stopCpus_failed_first ⟨card, 0, 0, 0⟩ hfails
  rw [untilRestart_of_stopCpus h, hstop]
  exact ⟨nic, rfl, hcard⟩

theorem untilRestart_failed_second {env : Env} (h : ¬ Refused env) (card : Card)
    (h0 : env.fails 0 = false) (h1 : env.fails 1 = false)
    (hfails : env.fails 2 = true ∨ env.fails 3 = true) :
    ∃ nic, untilRestart env card = .error (nic, .exit) ∧ nic.card = card.halt 0x140 := by
  obtain ⟨nic, hstop, hcard⟩ := stopCpus_failed_second ⟨card, 0, 0, 0⟩ h0 h1 hfails
  rw [untilRestart_of_stopCpus h, hstop]
  exact ⟨nic, rfl, hcard⟩

/-- What a run on `card` has come to before the restart: the CPUs are halted, and
    `main` holds what their state registers were. -/
structure Restartable (card : Card) (p : Prepared) : Prop where
  halted  : WindowOnly ((card.halt 0x140).halt 0x240) p.nic
  oState  : p.oState = card.reg 0x140
  oStateB : p.oStateB = card.reg 0x240

theorem untilRestart_ok {env : Env} (h : ¬ Refused env) (card : Card) (h0 : env.fails 0 = false)
    (h1 : env.fails 1 = false) (h2 : env.fails 2 = false) (h3 : env.fails 3 = false) :
    ∃ p, untilRestart env card = .ok p ∧ Restartable card p := by
  obtain ⟨nic, hstop, hcard⟩ := stopCpus_ok ⟨card, 0, 0, 0⟩ h0 h1 h2 h3
  rw [untilRestart_of_stopCpus h, hstop]
  refine ⟨_, rfl, ?_, rfl, rfl⟩
  rw [← hcard]
  exact prepare_windowOnly env nic _ _

/-- **The restart hands the card back** as `main` found it, but for its window. -/
theorem untilRestart_restores {env : Env} {card : Card} {p : Prepared} (hcard : card.Running)
    (hp : Restartable card p) (h0 : env.fails p.nic.ioctls = false)
    (h1 : env.fails (p.nic.ioctls + 1) = false) :
    WindowOnly card (restart env.fails p.nic p.oState p.oStateB) := by
  obtain ⟨w, hw⟩ := hp.halted
  refine ⟨w, ?_⟩
  rw [restart_card h0 h1, hw, hp.oState, hp.oStateB]
  exact Card.restart_halt hcard w

/-! ## Section 7: How `main` leaves the card -/

/-- The commands of the attestation leave the halt bits alone. -/
structure SparesHaltBits (env : Env) : Prop where
  cpuA : ∀ cmd s, (env.ioctl cmd s).1.1.card.reg 0x140 &&& 0x10000 =
    s.1.card.reg 0x140 &&& 0x10000
  cpuB : ∀ cmd s, (env.ioctl cmd s).1.1.card.reg 0x240 &&& 0x10000 =
    s.1.card.reg 0x240 &&& 0x10000

/-- When the run comes to the restart, both of its writes succeed. -/
def RestartSucceeds (env : Env) (card : Card) : Prop :=
  ∀ p, untilRestart env card = .ok p →
    env.fails p.nic.ioctls = false ∧ env.fails (p.nic.ioctls + 1) = false

namespace SparesHaltBits

variable {env : Env} {s : AlteonSt × Request}

theorem swatt (h : SparesHaltBits env) (hs : s.1.card.Running) (cmd : Command)
    (offset expNum : Word) : (swatt env s cmd offset expNum).1.1.card.Running := by
  have hA := h.cpuA cmd ({ s.1 with cardoffset := offset, data := expNum }, s.2)
  have hB := h.cpuB cmd ({ s.1 with cardoffset := offset, data := expNum }, s.2)
  have hrun : (env.ioctl cmd
      ({ s.1 with cardoffset := offset, data := expNum }, s.2)).1.1.card.Running :=
    ⟨hA.trans hs.1, hB.trans hs.2⟩
  unfold Viper.swatt
  split
  · next heq => rwa [heq] at hrun
  · next heq => rwa [heq] at hrun

theorem attestCpuA (h : SparesHaltBits env) (hs : s.1.card.Running) (p : Prepared) :
    (attestCpuA env p s).1.card.Running := by
  have hrun := h.swatt (s := (s.1, s.2.copy p)) hs .swatt 0x658 env.expNum
  unfold Viper.attestCpuA
  split
  · next heq => rwa [heq] at hrun
  · next heq =>
    rw [heq] at hrun
    have hsha := h.swatt hrun .swattReadSha1 0x658 env.expNum
    split
    · split
      · next heq' => rwa [heq'] at hsha
      · next heq' => rwa [heq'] at hsha
    · exact hrun

theorem attestCpuB (h : SparesHaltBits env) (hs : s.1.card.Running) (p : Prepared) :
    (attestCpuB env p s).1.card.Running := by
  have hrun := h.swatt (s := (s.1, s.2.copy p)) hs .swattB 0x658 env.expNum
  unfold Viper.attestCpuB
  split
  · next heq => rwa [heq] at hrun
  · next heq =>
    rw [heq] at hrun
    split
    · exact h.attestCpuA hrun p
    · exact hrun

end SparesHaltBits

/-- **A failed run may leave the card halted.**  From a card with both CPUs
    running, `main` ends with both running exactly when its arguments are
    refused, or one of the two ioctls that halt CPU A fails, or both of the
    ioctls that halt CPU B succeed.  Between the two, `exit(-1)` leaves CPU A
    halted. -/
theorem card_left_running (env : Env) (card : Card) (hcard : card.Running)
    (hspares : SparesHaltBits env) (hrestart : RestartSucceeds env card) :
    (main env card).1.card.Running ↔
      Refused env ∨ env.fails 0 = true ∨ env.fails 1 = true ∨
        (env.fails 2 = false ∧ env.fails 3 = false) := by
  unfold main
  by_cases href : Refused env
  · obtain ⟨why, hdie⟩ := untilRestart_refused href card
    rw [hdie]
    exact iff_of_true hcard (.inl href)
  by_cases hfirst : env.fails 0 = true ∨ env.fails 1 = true
  · obtain ⟨nic, hstop, hsame⟩ := untilRestart_failed_first href card hfirst
    rw [hstop]
    refine iff_of_true ?_ (by tauto)
    rw [hsame]
    exact hcard
  obtain ⟨h0, h1⟩ : env.fails 0 = false ∧ env.fails 1 = false := by simpa using hfirst
  by_cases hsecond : env.fails 2 = true ∨ env.fails 3 = true
  · -- CPU A is halted, and nothing on this path restarts it
    obtain ⟨nic, hstop, hhalted⟩ := untilRestart_failed_second href card h0 h1 hsecond
    rw [hstop]
    refine iff_of_false ?_ (by grind)
    rw [hhalted]
    exact card.not_running_halt
  · obtain ⟨h2, h3⟩ : env.fails 2 = false ∧ env.fails 3 = false := by simpa using hsecond
    obtain ⟨p, hp, hready⟩ := untilRestart_ok href card h0 h1 h2 h3
    obtain ⟨hA, hB⟩ := hrestart p hp
    obtain ⟨w, hw⟩ := untilRestart_restores hcard hready hA hB
    rw [hp]
    refine iff_of_true (hspares.attestCpuB ?_ p) (by tauto)
    show (restart env.fails p.nic p.oState p.oStateB).card.Running
    rw [hw]
    exact (card.running_atWindow w).mpr hcard

/-- A run by root with proper arguments, and a driver that answers every command
    with `1`. -/
def rootRun (fails : Nat → Bool) : Env where
  argc := 3
  nameLength := 4
  euid := 0
  expNum := 0
  fails := fails
  fwBin := id
  rnd := fun _ => 0
  ioctl := fun _ s => (({ s.1 with data := 1 }, s.2), false)

theorem rootRun_sparesHaltBits (fails : Nat → Bool) : SparesHaltBits (rootRun fails) :=
  ⟨fun _ _ => rfl, fun _ _ => rfl⟩

/-- A card at rest, with both CPUs running. -/
def idleCard : Card := ⟨fun _ => 0, fun _ => 0⟩

/-- When no ioctl fails the idle card is left running. -/
theorem card_left_running_idle : (main (rootRun succeed) idleCard).1.card.Running :=
  (card_left_running (rootRun succeed) idleCard (by decide) (rootRun_sparesHaltBits succeed)
    (fun _ _ => ⟨rfl, rfl⟩)).mpr (.inr (.inr (.inr ⟨rfl, rfl⟩)))

/-- The read of `0x240` fails, after CPU A was halted: `main` exits with `-1` and
    the CPU stays halted. -/
theorem card_left_halted :
    ∃ env card, card.Running ∧ SparesHaltBits env ∧ RestartSucceeds env card ∧
      (main env card).2.status = -1 ∧ ¬ (main env card).1.card.Running := by
  have href : ¬ Refused (rootRun (· == 2)) := by decide
  obtain ⟨nic, hstop, hcard⟩ := untilRestart_failed_second href idleCard rfl rfl (.inl rfl)
  refine ⟨rootRun (· == 2), idleCard, by decide, rootRun_sparesHaltBits _, ?_, ?_, ?_⟩
  · intro p hp
    rw [hstop] at hp
    exact absurd hp (by simp)
  · rw [main, hstop]
    rfl
  · rw [main, hstop, hcard]
    exact idleCard.not_running_halt

end Viper
