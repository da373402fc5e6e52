import VetGumstix.Framework.Machine
import VetGumstix.Framework.BitMask
import VetGumstix.Viper.Blocks

/-! # The Block Machine

    Between two visits of `__checksum_end`, `generate_nonce` and
    `checksum_simulator` run the same goto machine: a block, a counter test,
    the jump table on `r9`, the next block.  `coreStep` is that machine over
    a table of blocks; it halts at `__checksum_end`, and at `__return` when
    the jump table finds no target.

    The address invariant says which values `r7..r10` can take.  From it
    follow that the jump table always finds its target, that every load
    stays inside the buffers, and that an attempt reaches `__checksum_end`.
-/

namespace Viper

open Machine

/-! ## Section 1: Model -/

/-- The labels of the two functions; `done` is the state after `return`. -/
inductive Label where
  | block (k : Fin 8)
  | jumpTable
  | checksumEnd
  | ret
  | done
  deriving DecidableEq, Repr

/-- The part of the state the blocks work on: `g_reg`, the mark buffer,
    `icount` and the current label. -/
structure Core where
  r : Regs
  marks : Buffer
  icount : Nat
  pc : Label

/-- `__jump_table`. -/
def jumpTarget (r9 : Word) : Option (Fin 8) :=
  if r9 = 0x8c00 then some 0
  else if r9 = 0x8c40 then some 1
  else if r9 = 0x8c80 then some 2
  else if r9 = 0x8cc0 then some 3
  else if r9 = 0x8d00 then some 4
  else if r9 = 0x8d40 then some 5
  else if r9 = 0x8d80 then some 6
  else if r9 = 0x8dc0 then some 7
  else none

/-- Where the jump table goes: a block, or `__return` when it finds none. -/
def jumpLabel (r9 : Word) : Label :=
  match jumpTarget r9 with
  | some k => .block k
  | none   => .ret

/-- Block `k`, its two marks, and the counter test after it.  Block 7 sets
    `r10` before the test and ends the attempt either way; the other blocks
    set it only when they go on to the jump table. -/
def runBlock (tbl : BlockTable) (buf : Buffer) (k : Fin 8) (c : Core) : Core :=
  let out := (tbl.block k).exec buf c.r
  let marks := (c.marks.put out.i1 1).put out.i2 1
  if k = 7 then
    { r := Function.update out.regs 10 (tbl.block k).next, marks := marks,
      icount := c.icount + 1, pc := .checksumEnd }
  else if iNum ≤ c.icount + 1 then
    { r := out.regs, marks := marks, icount := iNum + 1, pc := .checksumEnd }
  else
    { r := Function.update out.regs 10 (tbl.block k).next, marks := marks,
      icount := c.icount + 1, pc := .jumpTable }

/-- One step of the block machine. -/
def coreStep (tbl : BlockTable) (buf : Buffer) (c : Core) : Option Core :=
  match c.pc with
  | .block k     => some (runBlock tbl buf k c)
  | .jumpTable   => some { c with pc := jumpLabel (c.r 9) }
  | .checksumEnd => none
  | .ret         => none
  | .done        => none

/-- The words a step reads and marks. -/
def Core.reads (tbl : BlockTable) (buf : Buffer) (c : Core) : List Nat :=
  match c.pc with
  | .block k => [((tbl.block k).exec buf c.r).i1, ((tbl.block k).exec buf c.r).i2]
  | _        => []

/-- A whole attempt: at most `I_NUM` blocks, each after a jump. -/
def attempt (tbl : BlockTable) (buf : Buffer) (c : Core) : Core :=
  run (coreStep tbl buf) (2 * iNum) c

/-! ### What a step can do -/

variable {tbl : BlockTable} {buf : Buffer}

theorem coreStep_cases {c c' : Core} (h : coreStep tbl buf c = some c') :
    (∃ k, c.pc = .block k ∧ c' = runBlock tbl buf k c) ∨
    (c.pc = .jumpTable ∧ c' = { c with pc := jumpLabel (c.r 9) }) := by
  unfold coreStep at h
  cases hpc : c.pc with
  | block k =>
    simp only [hpc, Option.some.injEq] at h
    exact .inl ⟨k, rfl, h.symm⟩
  | jumpTable =>
    simp only [hpc, Option.some.injEq] at h
    exact .inr ⟨rfl, h.symm⟩
  | checksumEnd => simp [hpc] at h
  | ret => simp [hpc] at h
  | done => simp [hpc] at h

/-- The block machine steps inside an attempt only. -/
theorem coreStep_running {c c' : Core} (h : coreStep tbl buf c = some c') :
    c.pc ≠ .checksumEnd ∧ c.pc ≠ .ret ∧ c.pc ≠ .done := by
  rcases coreStep_cases h with ⟨k, hpc, -⟩ | ⟨hpc, -⟩ <;> simp [hpc]

/-- The three ways out of a block: block 7 ends the attempt, the counter
    ends it, or it goes on to the jump table. -/
theorem runBlock_cases (tbl : BlockTable) (buf : Buffer) (k : Fin 8) (c : Core) :
    (k = 7 ∧ runBlock tbl buf k c =
      { r := Function.update ((tbl.block k).exec buf c.r).regs 10 (tbl.block k).next,
        marks := (c.marks.put ((tbl.block k).exec buf c.r).i1 1).put
          ((tbl.block k).exec buf c.r).i2 1,
        icount := c.icount + 1, pc := .checksumEnd }) ∨
    (k ≠ 7 ∧ iNum ≤ c.icount + 1 ∧ runBlock tbl buf k c =
      { r := ((tbl.block k).exec buf c.r).regs,
        marks := (c.marks.put ((tbl.block k).exec buf c.r).i1 1).put
          ((tbl.block k).exec buf c.r).i2 1,
        icount := iNum + 1, pc := .checksumEnd }) ∨
    (k ≠ 7 ∧ c.icount + 1 < iNum ∧ runBlock tbl buf k c =
      { r := Function.update ((tbl.block k).exec buf c.r).regs 10 (tbl.block k).next,
        marks := (c.marks.put ((tbl.block k).exec buf c.r).i1 1).put
          ((tbl.block k).exec buf c.r).i2 1,
        icount := c.icount + 1, pc := .jumpTable }) := by
  unfold runBlock
  by_cases hk : k = 7
  · exact .inl ⟨hk, by simp [hk]⟩
  · by_cases hi : iNum ≤ c.icount + 1
    · exact .inr (.inl ⟨hk, hi, by simp [hk, hi]⟩)
    · exact .inr (.inr ⟨hk, by omega, by simp [hk, hi]⟩)

/-! ## Section 2: The address invariant -/

/-- A load offset: a multiple of 4 not above `ADDR_MASK`. -/
def IsOffset (w : Word) : Prop := w.toNat % 4 = 0 ∧ w.toNat ≤ 0x7fc

/-- Which values the address registers can take at a block entry. -/
structure AddrInv (r : Regs) : Prop where
  r7  : IsOffset (r 7)
  r8  : IsOffset (r 8)
  r9  : ∃ k < 8, (r 9).toNat = blockAddr k
  r10 : ∃ k ≤ 8, (r 10).toNat = blockAddr k

theorem isOffset_and (v : Word) : IsOffset (v &&& addrMask) := by
  have h := BitMask.toNat_and_field v addrMask 2 9 rfl
  unfold IsOffset
  omega

/-- Xoring in bits of `JUMP_MASK` leads from a block address to a block address. -/
theorem target_xor {w : Word} (v : Word) (h : ∃ k < 8, w.toNat = blockAddr k) :
    ∃ k < 8, (w ^^^ (v &&& jumpMask)).toNat = blockAddr k := by
  obtain ⟨k, hk, hw⟩ := h
  have hv := BitMask.toNat_and_field v jumpMask 6 3 rfl
  have hj : v.toNat / 2 ^ 6 % 2 ^ 3 < 8 := by omega
  have hall : ∀ k < 8, ∀ j < 8, ∃ l < 8, blockAddr k ^^^ 2 ^ 6 * j = blockAddr l := by decide
  rw [BitVec.toNat_xor, hw, hv]
  exact hall k hk _ hj

/-- A block address plus an offset does not wrap, and indexes a word of the
    buffers from 64 to 703. -/
theorem wordIndex_range {a off : Word} (ha : ∃ k ≤ 8, a.toNat = blockAddr k)
    (hoff : IsOffset off) :
    (a + off).toNat = a.toNat + off.toNat ∧ swattBase.toNat ≤ (a + off).toNat ∧
    64 ≤ wordIndex (a + off) ∧ wordIndex (a + off) ≤ 703 := by
  obtain ⟨k, hk, ha⟩ := ha
  obtain ⟨-, hle⟩ := hoff
  unfold blockAddr at ha
  have hsum : (a + off).toNat = a.toNat + off.toNat := by
    rw [BitVec.toNat_add]
    omega
  have hbase : swattBase.toNat = 0x8b00 := rfl
  have hsub : (a + off - swattBase).toNat = a.toNat + off.toNat - 0x8b00 := by
    rw [BitVec.toNat_sub, hsum, hbase]
    omega
  have hidx : wordIndex (a + off) = (a.toNat + off.toNat - 0x8b00) / 4 := by
    unfold wordIndex
    rw [BitVec.toNat_udiv, hsub]
    rfl
  refine ⟨hsum, ?_, ?_, ?_⟩ <;> omega

/-- The jump table finds every block. -/
theorem jumpTarget_eq {w : Word} {k : Nat} (hk : k < 8) (hw : w.toNat = blockAddr k) :
    jumpTarget w = some ⟨k, hk⟩ := by
  have hw' : w = BitVec.ofNat 32 (blockAddr k) := by
    apply BitVec.eq_of_toNat_eq
    rw [hw, BitVec.toNat_ofNat]
    unfold blockAddr
    omega
  have hall : ∀ k : Fin 8, jumpTarget (BitVec.ofNat 32 (blockAddr k)) = some k := by decide
  rw [hw']
  exact hall ⟨k, hk⟩

theorem jumpLabel_eq {w : Word} {k : Nat} (hk : k < 8) (hw : w.toNat = blockAddr k) :
    jumpLabel w = .block ⟨k, hk⟩ := by
  simp [jumpLabel, jumpTarget_eq hk hw]

namespace AddrInv

variable {r : Regs}

theorem base1 (h : AddrInv r) (b : Block) : ∃ k ≤ 8, (b.base1 r).toNat = blockAddr k := by
  obtain ⟨k, hk, h9⟩ := h.r9
  unfold Block.base1
  cases b.wiring with
  | xorFirst => exact h.r10
  | addFirst => exact ⟨k, by omega, h9⟩

theorem base2 (h : AddrInv r) (b : Block) : ∃ k ≤ 8, (b.base2 r).toNat = blockAddr k := by
  obtain ⟨k, hk, h9⟩ := h.r9
  unfold Block.base2
  cases b.wiring with
  | xorFirst => exact ⟨k, by omega, h9⟩
  | addFirst => exact h.r10

theorem off1 (h : AddrInv r) (b : Block) : IsOffset (b.off1 r) := by
  unfold Block.off1
  cases b.wiring with
  | xorFirst => exact h.r7
  | addFirst => exact h.r8

/-- Both loads of a block stay between words 64 and 703. -/
theorem reads_range (h : AddrInv r) (b : Block) (buf : Buffer) :
    (64 ≤ (b.exec buf r).i1 ∧ (b.exec buf r).i1 ≤ 703) ∧
    (64 ≤ (b.exec buf r).i2 ∧ (b.exec buf r).i2 ≤ 703) := by
  rw [Block.exec_i1, Block.exec_i2]
  exact ⟨(wordIndex_range (h.base1 b) (h.off1 b)).2.2,
    (wordIndex_range (h.base2 b) (isOffset_and _)).2.2⟩

theorem exec (h : AddrInv r) (b : Block) (buf : Buffer) : AddrInv (b.exec buf r).regs where
  r7 := by
    rcases b.exec_r7 buf r with h7 | ⟨v, h7⟩
    · rw [h7]; exact h.r7
    · rw [h7]; exact isOffset_and v
  r8 := by
    rcases b.exec_r8 buf r with h8 | ⟨v, h8⟩
    · rw [h8]; exact h.r8
    · rw [h8]; exact isOffset_and v
  r9 := by
    obtain ⟨v, h9⟩ := b.exec_r9 buf r
    rw [h9]
    exact target_xor v h.r9
  r10 := by
    rw [b.exec_r10]
    exact h.r10

theorem setNext (h : AddrInv r) (tbl : BlockTable) (k : Fin 8) :
    AddrInv (Function.update r 10 (tbl.block k).next) where
  r7 := by simpa using h.r7
  r8 := by simpa using h.r8
  r9 := by simpa using h.r9
  r10 := ⟨k + 1, by omega, by simpa using tbl.next_eq k⟩

end AddrInv

/-! ## Section 3: Attempts -/

/-- The invariant of the block machine inside an attempt. -/
structure CoreInv (c : Core) : Prop where
  addr    : AddrInv c.r
  block   : ∀ k, c.pc = .block k → c.icount < iNum ∧ (c.r 9).toNat = blockAddr k
  jump    : c.pc = .jumpTable → c.icount < iNum
  no_ret  : c.pc ≠ .ret
  no_done : c.pc ≠ .done

theorem iNum_pos : 0 < iNum := by decide

theorem coreInv_jump {c : Core} (h : AddrInv c.r) (hi : c.icount < iNum)
    (hpc : c.pc = .jumpTable) : CoreInv c where
  addr := h
  block := by simp [hpc]
  jump := fun _ => hi
  no_ret := by simp [hpc]
  no_done := by simp [hpc]

theorem coreInv_end {c : Core} (h : AddrInv c.r) (hpc : c.pc = .checksumEnd) : CoreInv c where
  addr := h
  block := by simp [hpc]
  jump := by simp [hpc]
  no_ret := by simp [hpc]
  no_done := by simp [hpc]

theorem CoreInv.step {c c' : Core} (h : CoreInv c) (hs : coreStep tbl buf c = some c') :
    CoreInv c' := by
  rcases coreStep_cases hs with ⟨k, hpc, rfl⟩ | ⟨hpc, rfl⟩
  · have hexec := h.addr.exec (tbl.block k) buf
    rcases runBlock_cases tbl buf k c with
      ⟨-, he⟩ | ⟨-, -, he⟩ | ⟨-, hi, he⟩
    · rw [he]; exact coreInv_end (hexec.setNext tbl k) rfl
    · rw [he]; exact coreInv_end hexec rfl
    · rw [he]; exact coreInv_jump (hexec.setNext tbl k) hi rfl
  · -- the jump table finds the block whose address `r9` holds
    obtain ⟨k, hk, h9⟩ := h.addr.r9
    have hl := jumpLabel_eq hk h9
    refine ⟨h.addr, ?_, ?_, ?_, ?_⟩
    · intro j hj
      obtain rfl : ⟨k, hk⟩ = j := by simpa [hl] using hj
      exact ⟨h.jump hpc, h9⟩
    · simp [hl]
    · simp [hl]
    · simp [hl]

/-- Blocks and jumps still to come in an attempt. -/
def Core.fuel (c : Core) : Nat :=
  match c.pc with
  | .block _   => 2 * (iNum - c.icount) - 1
  | .jumpTable => 2 * (iNum - c.icount)
  | _          => 0

theorem Core.fuel_step {c c' : Core} (h : CoreInv c) (hs : coreStep tbl buf c = some c') :
    c'.fuel < c.fuel := by
  rcases coreStep_cases hs with ⟨k, hpc, rfl⟩ | ⟨hpc, rfl⟩
  · have hi := (h.block k hpc).1
    rcases runBlock_cases tbl buf k c with
      ⟨-, he⟩ | ⟨-, -, he⟩ | ⟨-, -, he⟩
    · simp only [he, Core.fuel, hpc]; omega
    · simp only [he, Core.fuel, hpc]; omega
    · simp only [he, Core.fuel, hpc]; omega
  · obtain ⟨k, hk, h9⟩ := h.addr.r9
    have hi := h.jump hpc
    simp only [Core.fuel, jumpLabel_eq hk h9, hpc]
    omega

theorem Core.fuel_le (c : Core) : c.fuel ≤ 2 * iNum := by
  unfold Core.fuel
  cases c.pc <;> simp only <;> omega

/-- **An attempt ends** at `__checksum_end`, within `2 * I_NUM` steps, and
    keeps the address invariant. -/
theorem attempt_steps (tbl : BlockTable) (buf : Buffer) {c : Core} (h : CoreInv c) :
    ∃ tr, Steps (coreStep tbl buf) c tr (attempt tbl buf c) ∧ tr.length ≤ 2 * iNum ∧
      (attempt tbl buf c).pc = .checksumEnd ∧ AddrInv (attempt tbl buf c).r := by
  obtain ⟨tr, t, htr, hhalt, hlen⟩ := exists_halting (coreStep tbl buf) Core.fuel
    (fun _ _ hi hs => CoreInv.step hi hs) (fun _ _ hi hs => Core.fuel_step hi hs) c h
  have hle : tr.length ≤ 2 * iNum := hlen.trans c.fuel_le
  -- the fuel of `attempt` is enough, so it is the halting state
  have ht : attempt tbl buf c = t := htr.run_eq hhalt hle
  have hinv : CoreInv t := (htr.invariant h (fun _ _ hi hs => CoreInv.step hi hs)).2
  refine ⟨tr, ht ▸ htr, hle, ?_, ht ▸ hinv.addr⟩
  rw [ht]
  unfold coreStep at hhalt
  cases hpc : t.pc with
  | block k => simp [hpc] at hhalt
  | jumpTable => simp [hpc] at hhalt
  | checksumEnd => rfl
  | ret => exact absurd hpc hinv.no_ret
  | done => exact absurd hpc hinv.no_done

theorem attempt_pc (tbl : BlockTable) (buf : Buffer) {c : Core} (h : CoreInv c) :
    (attempt tbl buf c).pc = .checksumEnd := by
  obtain ⟨-, -, -, hpc, -⟩ := attempt_steps tbl buf h
  exact hpc

/-! ### Attempts inside a larger machine

    Generator and simulator both hold the state of the block machine; `put` puts it
    there. -/

section Round

variable {σ : Type} {put : Core → σ}

/-- The states of an attempt before `__checksum_end`. -/
def attemptBody (put : Core → σ) (tbl : BlockTable) (buf : Buffer) (c : Core) : List σ :=
  (visits (coreStep tbl buf) (2 * iNum) c).map put

theorem attemptBody_length (put : Core → σ) (tbl : BlockTable) (buf : Buffer) (c : Core) :
    (attemptBody put tbl buf c).length ≤ 2 * iNum := by
  rw [attemptBody, List.length_map]
  exact visits_length _ _ _

theorem attemptBody_pc {c : Core} {x : σ} (hx : x ∈ attemptBody put tbl buf c) :
    ∃ d, put d = x ∧ d.pc ≠ .checksumEnd := by
  obtain ⟨d, hd, rfl⟩ := List.mem_map.mp hx
  obtain ⟨d', hstep⟩ := (steps_run _ _ c).stepped d hd
  exact ⟨d, rfl, (coreStep_running hstep).1⟩

/-- A round of the larger machine: an attempt, and what `__checksum_end` makes of
    it. -/
theorem attempt_round {step : σ → Option σ} {checksumEnd : σ → σ} {c : Core} (h : CoreInv c)
    (hcore : ∀ d d', coreStep tbl buf d = some d' → step (put d) = some (put d'))
    (hend : ∀ d, d.pc = .checksumEnd → step (put d) = some (checksumEnd (put d))) :
    Steps step (put c) (attemptBody put tbl buf c ++ [put (attempt tbl buf c)])
      (checksumEnd (put (attempt tbl buf c))) := by
  have hlift := (steps_run (coreStep tbl buf) (2 * iNum) c).lift put hcore
  exact hlift.append (.single (hend _ (attempt_pc tbl buf h)))

end Round

/-- An attempt that starts at the jump table does not depend on what `r5` and
    `r6` held before: the first block overwrites them. -/
theorem attempt_congr {c c' : Core} (hpc : c.pc = .jumpTable) (hpc' : c'.pc = .jumpTable)
    (hm : c.marks = c'.marks) (hi : c.icount = c'.icount)
    (hr : ∀ x, x ≠ 5 → x ≠ 6 → c.r x = c'.r x)
    (h9 : ∃ k < 8, (c.r 9).toNat = blockAddr k) :
    attempt tbl buf c = attempt tbl buf c' := by
  obtain ⟨k, hk, h9⟩ := h9
  have hl : jumpLabel (c.r 9) = .block ⟨k, hk⟩ := jumpLabel_eq hk h9
  have hl' : jumpLabel (c'.r 9) = .block ⟨k, hk⟩ := by
    rw [← hr 9 (by decide) (by decide)]
    exact hl
  have hexec : ∀ b : Block, b.exec buf c.r = b.exec buf c'.r := fun b => b.exec_congr buf hr
  have hrun : runBlock tbl buf ⟨k, hk⟩ { c with pc := .block ⟨k, hk⟩ } =
      runBlock tbl buf ⟨k, hk⟩ { c' with pc := .block ⟨k, hk⟩ } := by
    simp only [runBlock, hexec, hm, hi]
  -- both runs take the jump, then the same block from the same operands
  show run (coreStep tbl buf) (6 + 2) c = run (coreStep tbl buf) (6 + 2) c'
  simp only [run, coreStep, hpc, hpc', hl, hl']
  rw [hrun]

/-! ### Marks -/

theorem runBlock_marks (tbl : BlockTable) (buf : Buffer) (k : Fin 8) (c : Core) :
    (runBlock tbl buf k c).marks =
      (c.marks.put ((tbl.block k).exec buf c.r).i1 1).put ((tbl.block k).exec buf c.r).i2 1 := by
  rcases runBlock_cases tbl buf k c with ⟨-, he⟩ | ⟨-, -, he⟩ | ⟨-, -, he⟩ <;> rw [he]

/-- One step marks what it reads. -/
theorem coreStep_marks {c c' : Core} (h : coreStep tbl buf c = some c') {i : Nat}
    (hi : i < fwWords) :
    c'.marks.get i = 1 ↔ c.marks.get i = 1 ∨ i ∈ c.reads tbl buf := by
  rcases coreStep_cases h with ⟨k, hpc, rfl⟩ | ⟨hpc, rfl⟩
  · rw [runBlock_marks, Buffer.get_put _ _ _ _ hi, Buffer.get_put _ _ _ _ hi]
    simp only [Core.reads, hpc, List.mem_cons, List.not_mem_nil, or_false]
    split
    · simp_all
    · split <;> simp_all
  · simp [Core.reads, hpc]

/-- What an attempt marks is what it reads. -/
theorem marks_of_steps {c c' : Core} {tr : List Core}
    (h : Steps (coreStep tbl buf) c tr c') {i : Nat} (hi : i < fwWords) :
    c'.marks.get i = 1 ↔ c.marks.get i = 1 ∨ ∃ x ∈ tr, i ∈ x.reads tbl buf := by
  induction h with
  | nil c => simp
  | cons hs _ ih =>
    rw [ih, coreStep_marks hs hi]
    simp only [List.mem_cons, exists_eq_or_imp, or_assoc]

/-! ### The blocks of an attempt -/

/-- The blocks a trace runs, in order. -/
def blocksOf (tr : List Core) : List (Fin 8) :=
  tr.filterMap fun c =>
    match c.pc with
    | .block k => some k
    | _        => none

/-- The blocks an attempt runs, as the image steers it through the jump table. -/
def attemptBlocks (tbl : BlockTable) (buf : Buffer) (c : Core) : List (Fin 8) :=
  blocksOf (visits (coreStep tbl buf) (2 * iNum) c)

theorem blocksOf_cons_block {c : Core} {k : Fin 8} (h : c.pc = .block k) (tr : List Core) :
    blocksOf (c :: tr) = k :: blocksOf tr := by
  simp [blocksOf, h]

theorem blocksOf_cons_jump {c : Core} (h : c.pc = .jumpTable) (tr : List Core) :
    blocksOf (c :: tr) = blocksOf tr := by
  simp [blocksOf, h]

/-- **Induction on an attempt**: it goes through the jump table, or runs a block
    that goes on to the jump table, or runs its last block. -/
@[elab_as_elim]
theorem attempt_induction {P : Core → List Core → Core → Prop}
    (jump : ∀ c tr c', c.pc = .jumpTable →
      coreStep tbl buf c = some { c with pc := jumpLabel (c.r 9) } →
      P { c with pc := jumpLabel (c.r 9) } tr c' → P c (c :: tr) c')
    (next : ∀ c k tr c', c.pc = .block k → k ≠ 7 → (runBlock tbl buf k c).icount = c.icount + 1 →
      coreStep tbl buf c = some (runBlock tbl buf k c) →
      P (runBlock tbl buf k c) tr c' → P c (c :: tr) c')
    (last : ∀ c k, c.pc = .block k →
      (runBlock tbl buf k c).icount = (if k = 7 then c.icount + 1 else iNum + 1) →
      P c [c] (runBlock tbl buf k c))
    {c c' : Core} {tr : List Core} (h : Steps (coreStep tbl buf) c tr c')
    (hpc : c.pc ≠ .checksumEnd) (hend : c'.pc = .checksumEnd) : P c tr c' := by
  induction h with
  | nil c => exact absurd hend hpc
  | @cons c c₁ c' tr hs hrest ih =>
    rcases coreStep_cases hs with ⟨k, hk, rfl⟩ | ⟨hk, rfl⟩
    · -- nothing comes after a block that ends the attempt
      have hstop : (runBlock tbl buf k c).pc = .checksumEnd →
          tr = [] ∧ c' = runBlock tbl buf k c := by
        intro hpc₁
        cases hrest with
        | nil => exact ⟨rfl, rfl⟩
        | cons hs' _ => simp [coreStep, hpc₁] at hs'
      rcases runBlock_cases tbl buf k c with ⟨h7, he⟩ | ⟨h7, -, he⟩ | ⟨h7, -, he⟩
      · obtain ⟨rfl, rfl⟩ := hstop (by rw [he])
        exact last c k hk (by rw [if_pos h7, he])
      · obtain ⟨rfl, rfl⟩ := hstop (by rw [he])
        exact last c k hk (by rw [if_neg h7, he])
      · exact next c k tr c' hk h7 (by rw [he]) hs (ih (by simp [he]) hend)
    · have hne : jumpLabel (c.r 9) ≠ .checksumEnd := by
        unfold jumpLabel
        split <;> simp
      exact jump c tr c' hk hs (ih hne hend)

/-- Only block 7 ends an attempt with the count of its blocks: any other last
    block sets `icount` to `I_NUM + 1`. -/
theorem icount_of_steps {c c' : Core} {tr : List Core} (h : Steps (coreStep tbl buf) c tr c')
    (hpc : c.pc ≠ .checksumEnd) (hend : c'.pc = .checksumEnd) :
    c'.icount = iNum ↔
      c.icount + (blocksOf tr).length = iNum ∧ (blocksOf tr).getLast? = some 7 := by
  refine attempt_induction ?_ ?_ ?_ h hpc hend
  · intro c tr c' hk _ ih
    rw [blocksOf_cons_jump hk]
    exact ih
  · intro c k tr c' hk h7 hcount _ ih
    rw [ih, blocksOf_cons_block hk, hcount]
    cases hb : blocksOf tr with
    | nil => simp [h7]
    | cons j bs =>
      simp only [List.length_cons, List.getLast?_cons_cons]
      constructor
      · exact fun ⟨hlen, hj⟩ => ⟨by omega, hj⟩
      · exact fun ⟨hlen, hj⟩ => ⟨by omega, hj⟩
  · intro c k hk hcount
    rw [blocksOf_cons_block hk, hcount]
    by_cases h7 : k = 7 <;> simp [h7, blocksOf]

/-- An attempt ends with `icount = I_NUM` when it runs `I_NUM` blocks and the
    last of them is block 7. -/
theorem attempt_icount_iff (tbl : BlockTable) (buf : Buffer) {c : Core} (h : CoreInv c)
    (hpc : c.pc ≠ .checksumEnd) :
    (attempt tbl buf c).icount = iNum ↔
      c.icount + (attemptBlocks tbl buf c).length = iNum ∧
      (attemptBlocks tbl buf c).getLast? = some 7 := by
  obtain ⟨-, -, -, hend, -⟩ := attempt_steps tbl buf h
  exact icount_of_steps (steps_run _ (2 * iNum) c) hpc hend

/-- An attempt that jumps to block 7 first has run one block. -/
theorem attempt_jump_seven {c : Core} (hpc : c.pc = .jumpTable)
    (hl : jumpLabel (c.r 9) = .block 7) :
    (attempt tbl buf c).icount = c.icount + 1 := by
  have hjump : coreStep tbl buf c = some { c with pc := .block 7 } := by
    simp [coreStep, hpc, hl]
  have hblock : coreStep tbl buf { c with pc := .block 7 } =
      some (runBlock tbl buf 7 { c with pc := .block 7 }) := rfl
  rcases runBlock_cases tbl buf 7 { c with pc := .block 7 } with
    ⟨-, he⟩ | ⟨h7, -⟩ | ⟨h7, -⟩
  · rw [he] at hblock
    have hrun := (Steps.cons hjump (.single hblock)).run_eq (n := 2 * iNum) rfl
      (show 2 ≤ 2 * iNum by decide)
    rw [attempt, hrun]
  · exact absurd rfl h7
  · exact absurd rfl h7

end Viper
