import VetGumstix.Viper.Core

/-! # `generate_nonce` and `checksum_simulator`

    The two functions of `code/app/viper/simulator.c` as step functions over
    explicit states.  Both run the block machine of `Viper.Core` between two
    visits of `__checksum_end`; they differ in what they do there.

    * The generator judges the attempt: it keeps the nonce when the attempt
      took exactly `I_NUM` blocks and reached a new word, and otherwise puts
      the saved registers and marks back.
    * The simulator replays the pool: it reports the checksum of entry `k`
      when it loads entry `k + 1`, and gives up when an entry does not take
      `I_NUM` blocks.

    `random_byte` is a parameter: the sequence of bytes its calls return.
    The `DEBUG` output and the two sums at the end of `checksum_simulator`,
    which only feed it, are left out.
-/

namespace Viper

open Machine

/-- The compile-time constants: `NONCE_NUM`, the length of the pool, and
    `LOOP_COUNT`, the limit on attempts. -/
structure Config where
  nonceNum : Nat
  loopCount : Nat
  nonceNum_pos : 0 < nonceNum

/-- The constants of the source. -/
def viperConfig : Config := ⟨300, 100000, by decide⟩

def nonceFull : Nat := 0

/-! ## Section 1: Registers -/

/-- The assignments both functions start with, over a file `g`. -/
def initRegs (g : Regs) : Regs := fun x =>
  match x.val with
  | 2  => 0x2023
  | 3  => 0x2084
  | 11 => 0x33f0
  | 12 => 0x33f1
  | 13 => 0x33f2
  | 14 => 0x33f3
  | 15 => 0x33f4
  | 16 => 0x33f5
  | 17 => 0x33f6
  | 18 => 0x33f7
  | 19 => 0x33f8
  | 20 => 0x33f9
  | 21 => 0x33fa
  | 22 => 0x33fb
  | 23 => 0x33fc
  | 24 => 0x33fd
  | 25 => 0x33fe
  | 26 => 0x33ff
  | 27 => 0x33f0
  | 28 => 0x33f1
  | 7  => 0x33f2 &&& addrMask
  | 8  => 0x33f3 &&& addrMask
  | 9  => 0x8c00
  | 10 => 0x8c00
  | 31 => 0xbffe4c
  | _  => g x

/-- A new nonce: `r7` and `r8` are replaced, `r9` is xored. -/
def applyNonce (r : Regs) (nonce : Word) : Regs :=
  let r := Function.update r 7 ((nonce >>> 16) &&& addrMask)
  let r := Function.update r 8 (nonce &&& addrMask)
  Function.update r 9 (r 9 ^^^ (nonce &&& jumpMask))

theorem applyNonce_of_ne {x : Reg} (h7 : x ≠ 7) (h8 : x ≠ 8) (h9 : x ≠ 9) (r : Regs)
    (nonce : Word) : applyNonce r nonce x = r x := by
  simp [applyNonce, h7, h8, h9]

/-- Register files that agree off `r5` and `r6` still do after a nonce. -/
theorem applyNonce_congr {r r' : Regs} (h : ∀ x, x ≠ 5 → x ≠ 6 → r x = r' x) (nonce : Word)
    (x : Reg) (h5 : x ≠ 5) (h6 : x ≠ 6) : applyNonce r nonce x = applyNonce r' nonce x := by
  have h9 := h 9 (by decide) (by decide)
  simp only [applyNonce, Function.update_apply, h x h5 h6, h9]

/-! ## Section 2: `generate_nonce` -/

/-- The state of `generate_nonce`.  `core` holds `g_reg`, `g_mm_s`, `icount`
    and the label; `randCalls` counts the calls of `random_byte`. -/
structure GenState where
  core : Core
  regState : Regs
  mm : Buffer
  pool : Nat → Word
  nonce : Word
  count : Nat
  inonce : Nat
  randCalls : Nat
  nonceCount : Nat

def istart : Nat := (0x8c00 - 0x8b00) / 4
def iend : Nat := (0x8c00 - 0x8b00 + 16*4*8 + 8 + 2048) / 4

/-- The words the coverage counts look at. -/
def coverage : List Nat := List.range' istart (iend - istart)

def mmsLeft (mms : Buffer) : Nat :=
  coverage.countP (fun i => mms.get i == 0)

def mmsUpdated (mm mms : Buffer) : Nat :=
  coverage.countP (fun i => mm.get i == 0 && mms.get i == 1)

def copyMms2mm (s : GenState) : GenState := { s with mm := s.core.marks }

def copyMm2mms (s : GenState) : GenState := { s with core := { s.core with marks := s.mm } }

def saveRegs (s : GenState) : GenState := { s with regState := s.core.r }

def restoreRegs (s : GenState) : GenState := { s with core := { s.core with r := s.regState } }

/-- `nonce_buf[inonce++] = nonce`. -/
def pushNonce (s : GenState) : GenState :=
  { s with pool := Function.update s.pool s.inonce s.nonce, inonce := s.inonce + 1 }

/-- Judge the attempt that just ended.  The flag is `true` where the source
    jumps to `__return` because no word is left. -/
def judge (s : GenState) : GenState × Bool :=
  if s.core.icount = iNum then
    let inew := mmsUpdated s.mm s.core.marks
    let ileft := mmsLeft s.core.marks
    -- `NONCE_FULL` is 0: a nonce is kept for a new word only
    if nonceFull ≤ s.inonce then
      if 1 ≤ inew then
        let s := pushNonce (saveRegs (copyMms2mm s))
        if ileft = 0 then (s, true) else (copyMm2mms s, false)
      else (copyMm2mms (restoreRegs s), false)
    else (pushNonce (saveRegs (copyMms2mm s)), false)
  else (restoreRegs (copyMm2mms s), false)

/-- `*((__u32*)u8_nonce_buf)` on a little-endian host. -/
def nonceOfBytes (b0 b1 b2 b3 : BitVec 8) : Word := b3 ++ b2 ++ b1 ++ b0

/-- Draw four bytes, and apply the nonce they make. -/
def updateNonce (rnd : Nat → BitVec 8) (s : GenState) : GenState :=
  let n := s.randCalls
  let nonce := nonceOfBytes (rnd n) (rnd (n + 1)) (rnd (n + 2)) (rnd (n + 3))
  { s with nonce := nonce, randCalls := n + 4,
           core := { s.core with r := applyNonce s.core.r nonce, pc := .jumpTable } }

/-- `__checksum_end` of the generator. -/
def genChecksumEnd (cfg : Config) (rnd : Nat → BitVec 8) (s : GenState) : GenState :=
  let (s, full) := judge s
  if full then { s with core := { s.core with pc := .ret } }
  else
    let s := { s with core := { s.core with icount := 0 }, count := s.count + 1 }
    if cfg.nonceNum ≤ s.inonce ∨ cfg.loopCount ≤ s.count then
      { s with core := { s.core with pc := .ret } }
    else updateNonce rnd s

def genStep (cfg : Config) (buf : Buffer) (rnd : Nat → BitVec 8) (s : GenState) :
    Option GenState :=
  match s.core.pc with
  | .block _     => (coreStep GenerateNonce.blocks buf s.core).map fun c => { s with core := c }
  | .jumpTable   => (coreStep GenerateNonce.blocks buf s.core).map fun c => { s with core := c }
  | .checksumEnd => some (genChecksumEnd cfg rnd s)
  | .ret         => some { s with nonceCount := s.inonce, core := { s.core with pc := .done } }
  | .done        => none

/-- The state at the first `__block0`, after `init_buf` and `save_regs`.  `g`
    is what `g_reg` held before. -/
def genInit (g : Regs) : GenState where
  core := { r := initRegs g, marks := Buffer.zero, icount := 0, pc := .block 0 }
  regState := initRegs g
  mm := Buffer.zero
  pool := fun _ => 0
  nonce := 0x33f233f3
  count := 0
  inonce := 0
  randCalls := 0
  nonceCount := 0

/-- Steps enough for every attempt and the return. -/
def genFuel (cfg : Config) : Nat := (2 * iNum + 1) * (cfg.loopCount + 1) + 1

/-- `generate_nonce`: the state it returns in. -/
def generateNonce (cfg : Config) (buf : Buffer) (rnd : Nat → BitVec 8) (g : Regs) : GenState :=
  run (genStep cfg buf rnd) (genFuel cfg) (genInit g)

/-- The states `generate_nonce` goes through. -/
def genTrace (cfg : Config) (buf : Buffer) (rnd : Nat → BitVec 8) (g : Regs) : List GenState :=
  visits (genStep cfg buf rnd) (genFuel cfg) (genInit g)

/-! ## Section 3: `checksum_simulator` -/

/-- The state of `checksum_simulator`.  `core.marks` is `g_swatt_buf_s`. -/
structure SimState where
  core : Core
  nonce : Word
  count : Nat
  inonce : Nat
  checksum : Nat → Word × Word

/-- The rows of `return_checksum`: the register reported for each index, and
    the number stored beside it. -/
def returnRows : List (Reg × Word) :=
  [(2, 0), (3, 1), (11, 2), (12, 3), (13, 4), (14, 5), (15, 6), (16, 7), (17, 8), (18, 9),
   (19, 10), (20, 11), (21, 12), (22, 13), (23, 14), (24, 15), (25, 16), (26, 17), (27, 18),
   (28, 19), (31, 20), (2, 0), (3, 1), (11, 2), (12, 3), (13, 4), (14, 5), (15, 6), (16, 7),
   (17, 8), (18, 9), (19, 10)]

/-- `return_checksum(index, nonce_index)`: no row matches an index above 31. -/
def returnChecksum (r : Regs) (ck : Nat → Word × Word) (index nonceIndex : Nat) :
    Nat → Word × Word :=
  let inonce := nonceIndex - 1
  match returnRows[index]? with
  | some (reg, j) => Function.update ck (inonce - 1) (r reg, j)
  | none          => ck

/-- `__checksum_end` of the simulator. -/
def simChecksumEnd (cfg : Config) (pool : Nat → Word) (nonceCount : Nat) (s : SimState) :
    SimState :=
  if s.core.icount ≠ iNum then { s with core := { s.core with pc := .ret } }
  else
    let s := { s with core := { s.core with icount := 0 }, count := s.count + 1 }
    -- the last entry of the pool ends here, unreported
    if nonceCount ≤ s.inonce then { s with core := { s.core with pc := .ret } }
    else
      let nonce := pool s.inonce
      let s := { s with nonce := nonce, inonce := s.inonce + 1,
                        core := { s.core with r := applyNonce s.core.r nonce } }
      let s := { s with checksum :=
                  returnChecksum s.core.r s.checksum (nonce &&& 0x1f).toNat s.inonce }
      -- a full pool ends with its last entry loaded and not run
      if cfg.nonceNum ≤ s.inonce then { s with core := { s.core with pc := .ret } }
      else { s with core := { s.core with pc := .jumpTable } }

def simStep (cfg : Config) (buf : Buffer) (pool : Nat → Word) (nonceCount : Nat)
    (s : SimState) : Option SimState :=
  match s.core.pc with
  | .block _     => (coreStep ChecksumSimulator.blocks buf s.core).map fun c => { s with core := c }
  | .jumpTable   => (coreStep ChecksumSimulator.blocks buf s.core).map fun c => { s with core := c }
  | .checksumEnd => some (simChecksumEnd cfg pool nonceCount s)
  -- the return clears the marks
  | .ret         => some { s with core := { s.core with marks := Buffer.zero, pc := .done } }
  | .done        => none

/-- The state at the first `__jump_table`.  `g` and `ck` are what `g_reg` and
    `g_checksum` held before. -/
def simInit (pool : Nat → Word) (g : Regs) (ck : Nat → Word × Word) : SimState where
  core := { r := applyNonce (initRegs g) (pool 0), marks := Buffer.zero, icount := 0,
            pc := .jumpTable }
  nonce := pool 0
  count := 0
  inonce := 1
  checksum := ck

/-- Steps enough for every pool entry and the return. -/
def simFuel (cfg : Config) : Nat := (2 * iNum + 1) * cfg.nonceNum + 1

/-- `checksum_simulator`: the state it returns in. -/
def checksumSimulator (cfg : Config) (buf : Buffer) (pool : Nat → Word) (nonceCount : Nat)
    (g : Regs) (ck : Nat → Word × Word) : SimState :=
  run (simStep cfg buf pool nonceCount) (simFuel cfg) (simInit pool g ck)

/-- The states `checksum_simulator` goes through. -/
def simTrace (cfg : Config) (buf : Buffer) (pool : Nat → Word) (nonceCount : Nat)
    (g : Regs) (ck : Nat → Word × Word) : List SimState :=
  visits (simStep cfg buf pool nonceCount) (simFuel cfg) (simInit pool g ck)

/-! ## Section 4: What a step of the generator can do -/

/-- The attempt that ended at `__checksum_end` is kept: it took exactly
    `I_NUM` blocks and marked a word no kept attempt had marked. -/
def GenState.Accepts (s : GenState) : Prop :=
  s.core.icount = iNum ∧ 1 ≤ mmsUpdated s.mm s.core.marks

instance (s : GenState) : Decidable s.Accepts :=
  inferInstanceAs (Decidable (_ ∧ _))

/-- The state after an attempt is kept. -/
def GenState.accepted (s : GenState) : GenState :=
  { s with mm := s.core.marks, regState := s.core.r,
           pool := Function.update s.pool s.inonce s.nonce, inonce := s.inonce + 1 }

/-- The state after an attempt is undone. -/
def GenState.rejected (s : GenState) : GenState :=
  { s with core := { s.core with r := s.regState, marks := s.mm } }

theorem judge_accepts {s : GenState} (h : s.Accepts) :
    judge s = (s.accepted, decide (mmsLeft s.core.marks = 0)) := by
  obtain ⟨hi, hnew⟩ := h
  have hfull : nonceFull ≤ s.inonce := Nat.zero_le _
  simp only [judge, if_pos hi, if_pos hfull, if_pos hnew]
  by_cases hl : mmsLeft s.core.marks = 0
  · rw [if_pos hl, decide_eq_true hl]
    rfl
  · rw [if_neg hl, decide_eq_false hl]
    rfl

theorem judge_rejects {s : GenState} (h : ¬ s.Accepts) : judge s = (s.rejected, false) := by
  unfold judge
  by_cases hi : s.core.icount = iNum
  · have hnew : ¬ 1 ≤ mmsUpdated s.mm s.core.marks := fun hn => h ⟨hi, hn⟩
    simp [hi, hnew, nonceFull, GenState.rejected, restoreRegs, copyMm2mms]
  · simp [hi, GenState.rejected, restoreRegs, copyMm2mms]

/-- The state `judge` leaves behind. -/
def GenState.judged (s : GenState) : GenState := if s.Accepts then s.accepted else s.rejected

theorem GenState.judged_of_accepts {s : GenState} (h : s.Accepts) : s.judged = s.accepted :=
  if_pos h

theorem GenState.judged_of_rejects {s : GenState} (h : ¬ s.Accepts) : s.judged = s.rejected :=
  if_neg h

@[simp] theorem GenState.judged_count (s : GenState) : s.judged.count = s.count := by
  unfold GenState.judged
  split <;> rfl

@[simp] theorem GenState.judged_randCalls (s : GenState) : s.judged.randCalls = s.randCalls := by
  unfold GenState.judged
  split <;> rfl

theorem judge_fst (s : GenState) : (judge s).1 = s.judged := by
  by_cases h : s.Accepts
  · rw [judge_accepts h, s.judged_of_accepts h]
  · rw [judge_rejects h, s.judged_of_rejects h]

/-- The nonce the generator draws next. -/
def GenState.drawn (rnd : Nat → BitVec 8) (s : GenState) : Word :=
  nonceOfBytes (rnd s.randCalls) (rnd (s.randCalls + 1)) (rnd (s.randCalls + 2))
    (rnd (s.randCalls + 3))

/-- The state in which the next attempt starts. -/
def GenState.nextAttempt (rnd : Nat → BitVec 8) (s : GenState) : GenState :=
  { s with nonce := s.drawn rnd, count := s.count + 1, randCalls := s.randCalls + 4,
           core := { r := applyNonce s.core.r (s.drawn rnd), marks := s.core.marks, icount := 0,
                     pc := .jumpTable } }

/-- `__checksum_end` judges the attempt, then returns or starts the next one. -/
theorem genChecksumEnd_cases (cfg : Config) (rnd : Nat → BitVec 8) (s : GenState) :
    (∃ ic ct, genChecksumEnd cfg rnd s =
      { s.judged with core := { s.judged.core with icount := ic, pc := .ret }, count := ct }) ∨
    (s.judged.inonce < cfg.nonceNum ∧ s.judged.count + 1 < cfg.loopCount ∧
      genChecksumEnd cfg rnd s = s.judged.nextAttempt rnd) := by
  rw [← judge_fst]
  unfold genChecksumEnd
  obtain ⟨t, full⟩ := judge s
  -- no word left, a limit reached, or the next attempt
  cases full with
  | true => exact .inl ⟨t.core.icount, t.count, rfl⟩
  | false =>
    by_cases hlim : cfg.nonceNum ≤ t.inonce ∨ cfg.loopCount ≤ t.count + 1
    · exact .inl ⟨0, t.count + 1, by simp [hlim]⟩
    · refine .inr ⟨Nat.lt_of_not_le fun h => hlim (.inl h),
        Nat.lt_of_not_le fun h => hlim (.inr h), ?_⟩
      simp [hlim, updateNonce, GenState.nextAttempt, GenState.drawn]

theorem genStep_cases {cfg : Config} {buf : Buffer} {rnd : Nat → BitVec 8} {s s' : GenState}
    (h : genStep cfg buf rnd s = some s') :
    (∃ c, coreStep GenerateNonce.blocks buf s.core = some c ∧ s' = { s with core := c }) ∨
    (s.core.pc = .checksumEnd ∧ s' = genChecksumEnd cfg rnd s) ∨
    (s.core.pc = .ret ∧
      s' = { s with nonceCount := s.inonce, core := { s.core with pc := .done } }) := by
  unfold genStep at h
  cases hpc : s.core.pc with
  | block k =>
    simp only [hpc, Option.map_eq_some_iff] at h
    obtain ⟨c, hc, rfl⟩ := h
    exact .inl ⟨c, hc, rfl⟩
  | jumpTable =>
    simp only [hpc, Option.map_eq_some_iff] at h
    obtain ⟨c, hc, rfl⟩ := h
    exact .inl ⟨c, hc, rfl⟩
  | checksumEnd =>
    simp only [hpc, Option.some.injEq] at h
    exact .inr (.inl ⟨rfl, h.symm⟩)
  | ret =>
    simp only [hpc, Option.some.injEq] at h
    exact .inr (.inr ⟨rfl, h.symm⟩)
  | done => simp [hpc] at h

/-- The generator takes every step of the block machine. -/
theorem genStep_core (cfg : Config) {buf : Buffer} (rnd : Nat → BitVec 8) (s : GenState)
    {c c' : Core} (h : coreStep GenerateNonce.blocks buf c = some c') :
    genStep cfg buf rnd { s with core := c } = some { s with core := c' } := by
  rcases coreStep_cases h with ⟨k, hpc, -⟩ | ⟨hpc, -⟩
  · simp [genStep, hpc, h]
  · simp [genStep, hpc, h]

/-! ## Section 5: What a step of the simulator can do -/

/-- The state in which the next pool entry starts, after the checksum of the
    current one has been reported. -/
def SimState.nextEntry (pool : Nat → Word) (s : SimState) : SimState :=
  { core := { r := applyNonce s.core.r (pool s.inonce), marks := s.core.marks, icount := 0,
              pc := .jumpTable },
    nonce := pool s.inonce, count := s.count + 1, inonce := s.inonce + 1,
    checksum := returnChecksum (applyNonce s.core.r (pool s.inonce)) s.checksum
      (pool s.inonce &&& 0x1f).toNat (s.inonce + 1) }

theorem simChecksumEnd_last (cfg : Config) (pool : Nat → Word) {n : Nat} {s : SimState}
    (hi : s.core.icount = iNum) (hn : n ≤ s.inonce) :
    simChecksumEnd cfg pool n s =
      { s with core := { s.core with icount := 0, pc := .ret }, count := s.count + 1 } := by
  simp [simChecksumEnd, hi, hn]

theorem simChecksumEnd_exit {cfg : Config} (pool : Nat → Word) {n : Nat} {s : SimState}
    (hi : s.core.icount = iNum) (hn : s.inonce < n) (hN : cfg.nonceNum ≤ s.inonce + 1) :
    simChecksumEnd cfg pool n s =
      { s.nextEntry pool with core := { (s.nextEntry pool).core with pc := .ret } } := by
  simp [simChecksumEnd, hi, Nat.not_le.mpr hn, hN, SimState.nextEntry]

theorem simChecksumEnd_next {cfg : Config} (pool : Nat → Word) {n : Nat} {s : SimState}
    (hi : s.core.icount = iNum) (hn : s.inonce < n) (hN : s.inonce + 1 < cfg.nonceNum) :
    simChecksumEnd cfg pool n s = s.nextEntry pool := by
  simp [simChecksumEnd, hi, Nat.not_le.mpr hn, Nat.not_le.mpr hN, SimState.nextEntry]

/-- The three exits of `__checksum_end`, and the next entry. -/
theorem simChecksumEnd_cases (cfg : Config) (pool : Nat → Word) (n : Nat) (s : SimState) :
    (s.core.icount ≠ iNum ∧
      simChecksumEnd cfg pool n s = { s with core := { s.core with pc := .ret } }) ∨
    (s.core.icount = iNum ∧ n ≤ s.inonce ∧ simChecksumEnd cfg pool n s =
      { s with core := { s.core with icount := 0, pc := .ret }, count := s.count + 1 }) ∨
    (s.core.icount = iNum ∧ s.inonce < n ∧ cfg.nonceNum ≤ s.inonce + 1 ∧
      simChecksumEnd cfg pool n s =
        { s.nextEntry pool with core := { (s.nextEntry pool).core with pc := .ret } }) ∨
    (s.core.icount = iNum ∧ s.inonce < n ∧ s.inonce + 1 < cfg.nonceNum ∧
      simChecksumEnd cfg pool n s = s.nextEntry pool) := by
  by_cases hi : s.core.icount = iNum
  · by_cases hn : n ≤ s.inonce
    · exact .inr (.inl ⟨hi, hn, simChecksumEnd_last cfg pool hi hn⟩)
    · have hlt : s.inonce < n := Nat.lt_of_not_le hn
      by_cases hN : cfg.nonceNum ≤ s.inonce + 1
      · exact .inr (.inr (.inl ⟨hi, hlt, hN, simChecksumEnd_exit pool hi hlt hN⟩))
      · have hlt' : s.inonce + 1 < cfg.nonceNum := Nat.lt_of_not_le hN
        exact .inr (.inr (.inr ⟨hi, hlt, hlt', simChecksumEnd_next pool hi hlt hlt'⟩))
  · exact .inl ⟨hi, by simp [simChecksumEnd, hi]⟩

theorem simChecksumEnd_marks (cfg : Config) (pool : Nat → Word) (n : Nat) (s : SimState) :
    (simChecksumEnd cfg pool n s).core.marks = s.core.marks := by
  rcases simChecksumEnd_cases cfg pool n s with
    ⟨-, he⟩ | ⟨-, -, he⟩ | ⟨-, -, -, he⟩ | ⟨-, -, -, he⟩ <;> rw [he] <;> rfl

theorem simStep_cases {cfg : Config} {buf : Buffer} {pool : Nat → Word} {n : Nat}
    {s s' : SimState} (h : simStep cfg buf pool n s = some s') :
    (∃ c, coreStep ChecksumSimulator.blocks buf s.core = some c ∧ s' = { s with core := c }) ∨
    (s.core.pc = .checksumEnd ∧ s' = simChecksumEnd cfg pool n s) ∨
    (s.core.pc = .ret ∧
      s' = { s with core := { s.core with marks := Buffer.zero, pc := .done } }) := by
  unfold simStep at h
  cases hpc : s.core.pc with
  | block k =>
    simp only [hpc, Option.map_eq_some_iff] at h
    obtain ⟨c, hc, rfl⟩ := h
    exact .inl ⟨c, hc, rfl⟩
  | jumpTable =>
    simp only [hpc, Option.map_eq_some_iff] at h
    obtain ⟨c, hc, rfl⟩ := h
    exact .inl ⟨c, hc, rfl⟩
  | checksumEnd =>
    simp only [hpc, Option.some.injEq] at h
    exact .inr (.inl ⟨rfl, h.symm⟩)
  | ret =>
    simp only [hpc, Option.some.injEq] at h
    exact .inr (.inr ⟨rfl, h.symm⟩)
  | done => simp [hpc] at h

/-- The simulator takes every step of the block machine. -/
theorem simStep_core (cfg : Config) {buf : Buffer} (pool : Nat → Word) (n : Nat) (s : SimState)
    {c c' : Core} (h : coreStep ChecksumSimulator.blocks buf c = some c') :
    simStep cfg buf pool n { s with core := c } = some { s with core := c' } := by
  rcases coreStep_cases h with ⟨k, hpc, -⟩ | ⟨hpc, -⟩
  · simp [simStep, hpc, h]
  · simp [simStep, hpc, h]

end Viper
