import VetGumstix.Viper.Simulator

/-! # Safety of the Block Machine

    Every state `generate_nonce` and `checksum_simulator` can reach keeps the
    address invariant, whatever the firmware, the random bytes and the pool
    are.  The invariant survives `restore_regs` because the saved registers
    satisfy it too.  It gives the memory safety of both functions: loads and
    marks stay inside the buffers, the jump table finds its target, and the
    pool and the checksum table are written inside their bounds.
-/

namespace Viper

open Machine

/-! ## Section 1: What is safe at a block entry -/

/-- A load from `a + off` that does not wrap and hits word `i` of the part of
    the buffers the blocks use. -/
structure LoadSafe (a off : Word) (i : Nat) : Prop where
  no_wrap : (a + off).toNat = a.toNat + off.toNat
  above   : swattBase.toNat ≤ (a + off).toNat
  index   : i = wordIndex (a + off)
  lower   : 64 ≤ i
  upper   : i ≤ 703
  inside  : i < fwWords

/-- The address registers and the two loads at the entry of block `k`. -/
structure EntrySafe (tbl : BlockTable) (buf : Buffer) (k : Fin 8) (r : Regs) : Prop where
  addr  : AddrInv r
  load1 : LoadSafe ((tbl.block k).base1 r) ((tbl.block k).off1 r) ((tbl.block k).exec buf r).i1
  load2 : LoadSafe ((tbl.block k).base2 r)
    ((tbl.block k).off2 r ((tbl.block k).word1 buf r)) ((tbl.block k).exec buf r).i2

theorem loadSafe_of_base {a off : Word} (ha : ∃ k ≤ 8, a.toNat = blockAddr k)
    (hoff : IsOffset off) : LoadSafe a off (wordIndex (a + off)) := by
  obtain ⟨hwrap, habove, hlo, hhi⟩ := wordIndex_range ha hoff
  exact ⟨hwrap, habove, rfl, hlo, hhi, lt_of_le_of_lt hhi (by decide)⟩

theorem entrySafe_of_addrInv (tbl : BlockTable) (buf : Buffer) (k : Fin 8) {r : Regs}
    (h : AddrInv r) : EntrySafe tbl buf k r where
  addr := h
  load1 := by
    rw [Block.exec_i1]
    exact loadSafe_of_base (h.base1 _) (h.off1 _)
  load2 := by
    rw [Block.exec_i2]
    exact loadSafe_of_base (h.base2 _) (isOffset_and _)

theorem jumpTarget_of_addrInv {r : Regs} (h : AddrInv r) : ∃ k, jumpTarget (r 9) = some k := by
  obtain ⟨k, hk, h9⟩ := h.r9
  exact ⟨_, jumpTarget_eq hk h9⟩

/-! ## Section 2: Registers outside the blocks -/

theorem addrInv_initRegs (g : Regs) : AddrInv (initRegs g) where
  r7  := isOffset_and 0x33f2
  r8  := isOffset_and 0x33f3
  r9  := ⟨0, by decide, rfl⟩
  r10 := ⟨0, by decide, rfl⟩

theorem AddrInv.applyNonce {r : Regs} (h : AddrInv r) (nonce : Word) :
    AddrInv (applyNonce r nonce) where
  r7  := by simpa [Viper.applyNonce] using isOffset_and (nonce >>> 16)
  r8  := by simpa [Viper.applyNonce] using isOffset_and nonce
  r9  := by simpa [Viper.applyNonce] using target_xor nonce h.r9
  r10 := by simpa [Viper.applyNonce] using h.r10

/-! ## Section 3: The generator -/

/-- The invariant of the generator. -/
structure GenInv (cfg : Config) (s : GenState) : Prop where
  addr  : AddrInv s.core.r
  saved : AddrInv s.regState
  core  : s.core.pc ≠ .ret → s.core.pc ≠ .done → CoreInv s.core
  room  : s.core.pc ≠ .ret → s.core.pc ≠ .done → s.inonce < cfg.nonceNum

variable {cfg : Config} {buf : Buffer} {rnd : Nat → BitVec 8}

theorem coreInv_first (g : Regs) : CoreInv (genInit g).core where
  addr := addrInv_initRegs g
  block := by
    intro k hk
    obtain rfl : 0 = k := by simpa [genInit] using hk
    exact ⟨iNum_pos, rfl⟩
  jump := by simp [genInit]
  no_ret := by simp [genInit]
  no_done := by simp [genInit]

theorem genInv_init (g : Regs) : GenInv cfg (genInit g) where
  addr := addrInv_initRegs g
  saved := addrInv_initRegs g
  core := fun _ _ => coreInv_first g
  room := fun _ _ => cfg.nonceNum_pos

theorem GenInv.judged {s : GenState} (h : GenInv cfg s) :
    AddrInv s.judged.core.r ∧ AddrInv s.judged.regState := by
  unfold GenState.judged
  split
  · exact ⟨h.addr, h.addr⟩
  · exact ⟨h.saved, h.saved⟩

theorem GenInv.step {s s' : GenState} (h : GenInv cfg s)
    (hs : genStep cfg buf rnd s = some s') : GenInv cfg s' := by
  rcases genStep_cases hs with ⟨c, hc, rfl⟩ | ⟨-, rfl⟩ | ⟨-, rfl⟩
  · obtain ⟨-, hret, hdone⟩ := coreStep_running hc
    have hc' := (h.core hret hdone).step hc
    exact ⟨hc'.addr, h.saved, fun _ _ => hc', fun _ _ => h.room hret hdone⟩
  · -- `__checksum_end` keeps the registers or restores saved ones, then loads a nonce
    obtain ⟨haddr, hsaved⟩ := h.judged
    rcases genChecksumEnd_cases cfg rnd s with ⟨ic, ct, he⟩ | ⟨hroom, -, he⟩
    · rw [he]
      exact ⟨haddr, hsaved, by simp, by simp⟩
    · rw [he]
      have hnext := haddr.applyNonce (s.judged.drawn rnd)
      exact ⟨hnext, hsaved, fun _ _ => coreInv_jump hnext iNum_pos rfl, fun _ _ => hroom⟩
  · exact ⟨h.addr, h.saved, by simp, by simp⟩

/-- The pool is written at `inonce` only, with the current nonce. -/
theorem genStep_pool {s s' : GenState} (h : GenInv cfg s)
    (hs : genStep cfg buf rnd s = some s') :
    s'.pool = s.pool ∨
    (s.inonce < cfg.nonceNum ∧ s'.pool = Function.update s.pool s.inonce s.nonce) := by
  rcases genStep_cases hs with ⟨c, -, rfl⟩ | ⟨hpc, rfl⟩ | ⟨-, rfl⟩
  · exact .inl rfl
  · have hroom := h.room (by simp [hpc]) (by simp [hpc])
    have hj : s.judged.pool = s.pool ∨
        s.judged.pool = Function.update s.pool s.inonce s.nonce := by
      unfold GenState.judged
      split
      · exact .inr rfl
      · exact .inl rfl
    rcases genChecksumEnd_cases cfg rnd s with ⟨ic, ct, he⟩ | ⟨-, -, he⟩
    · rw [he]
      exact hj.imp id fun hw => ⟨hroom, hw⟩
    · rw [he]
      exact hj.imp id fun hw => ⟨hroom, hw⟩
  · exact .inl rfl

/-! ## Section 4: The simulator -/

/-- The invariant of the simulator. -/
structure SimInv (s : SimState) : Prop where
  addr   : AddrInv s.core.r
  core   : s.core.pc ≠ .ret → s.core.pc ≠ .done → CoreInv s.core
  loaded : 1 ≤ s.inonce

variable {pool : Nat → Word} {n : Nat}

theorem simInv_init (pool : Nat → Word) (g : Regs) (ck : Nat → Word × Word) :
    SimInv (simInit pool g ck) := by
  have h := (addrInv_initRegs g).applyNonce (pool 0)
  exact ⟨h, fun _ _ => coreInv_jump h iNum_pos rfl, by simp [simInit]⟩

theorem SimInv.step {s s' : SimState} (h : SimInv s)
    (hs : simStep cfg buf pool n s = some s') : SimInv s' := by
  rcases simStep_cases hs with ⟨c, hc, rfl⟩ | ⟨-, rfl⟩ | ⟨-, rfl⟩
  · obtain ⟨-, hret, hdone⟩ := coreStep_running hc
    have hc' := (h.core hret hdone).step hc
    exact ⟨hc'.addr, fun _ _ => hc', h.loaded⟩
  · have hnext := h.addr.applyNonce (pool s.inonce)
    rcases simChecksumEnd_cases cfg pool n s with
      ⟨-, he⟩ | ⟨-, -, he⟩ | ⟨-, -, -, he⟩ | ⟨-, -, -, he⟩
    · rw [he]; exact ⟨h.addr, by simp, h.loaded⟩
    · rw [he]; exact ⟨h.addr, by simp, h.loaded⟩
    · rw [he]; exact ⟨hnext, by simp, Nat.le_add_left _ _⟩
    · rw [he]; exact ⟨hnext, fun _ _ => coreInv_jump hnext iNum_pos rfl, Nat.le_add_left _ _⟩
  · exact ⟨h.addr, by simp, h.loaded⟩

/-- A row is written when entry `i + 1` has just been loaded, at row `i`. -/
theorem nextEntry_checksum (pool : Nat → Word) {s : SimState} (h : 1 ≤ s.inonce) :
    ∃ row, (s.nextEntry pool).checksum =
      Function.update s.checksum (s.inonce - 1) row := by
  -- the index has five bits, and there are 32 rows
  have hlt : (pool s.inonce &&& 0x1f).toNat < returnRows.length := by
    have hm := BitMask.toNat_and_field (pool s.inonce) 0x1f 0 5 rfl
    have hlen : returnRows.length = 32 := rfl
    omega
  have hrow : returnRows[(pool s.inonce &&& 0x1f).toNat]? =
      some (returnRows[(pool s.inonce &&& 0x1f).toNat]) := List.getElem?_eq_getElem hlt
  have hidx : s.inonce + 1 - 1 - 1 = s.inonce - 1 := by omega
  simp only [SimState.nextEntry, returnChecksum, hrow, hidx]
  exact ⟨_, rfl⟩

/-- The checksum table is written at row `inonce - 2` of the new state only,
    below the last row of the pool. -/
theorem simStep_checksum {s s' : SimState} (hn : n ≤ cfg.nonceNum) (h : SimInv s)
    (hs : simStep cfg buf pool n s = some s') :
    s'.checksum = s.checksum ∨
    ∃ i row, s'.inonce = i + 2 ∧ i + 2 ≤ cfg.nonceNum ∧
      s'.checksum = Function.update s.checksum i row := by
  have hloaded := h.loaded
  obtain ⟨row, hrow⟩ := nextEntry_checksum pool hloaded
  rcases simStep_cases hs with ⟨c, -, rfl⟩ | ⟨-, rfl⟩ | ⟨-, rfl⟩
  · exact .inl rfl
  · rcases simChecksumEnd_cases cfg pool n s with
      ⟨-, he⟩ | ⟨-, -, he⟩ | ⟨-, hlt, -, he⟩ | ⟨-, hlt, -, he⟩
    · rw [he]; exact .inl rfl
    · rw [he]; exact .inl rfl
    · rw [he]
      refine .inr ⟨s.inonce - 1, row, ?_, by omega, hrow⟩
      show s.inonce + 1 = s.inonce - 1 + 2
      omega
    · rw [he]
      refine .inr ⟨s.inonce - 1, row, ?_, by omega, hrow⟩
      show s.inonce + 1 = s.inonce - 1 + 2
      omega
  · exact .inl rfl

/-! ## Section 5: Every reachable state is safe -/

/-- **Safety of the block machine.**  In every state either function reaches,
    a block is entered with safe addresses and loads, the jump table finds a
    target, and the next step writes the pool or the checksum table in
    bounds. -/
theorem block_machine_safe (cfg : Config) (buf : Buffer) :
    (∀ (rnd : Nat → BitVec 8) (g : Regs) (tr : List GenState) (s : GenState),
      Steps (genStep cfg buf rnd) (genInit g) tr s →
        (∀ k, s.core.pc = .block k → EntrySafe GenerateNonce.blocks buf k s.core.r) ∧
        (s.core.pc = .jumpTable → ∃ k, jumpTarget (s.core.r 9) = some k) ∧
        (∀ s', genStep cfg buf rnd s = some s' → s'.pool = s.pool ∨
          (s.inonce < cfg.nonceNum ∧ s'.pool = Function.update s.pool s.inonce s.nonce))) ∧
    (∀ (pool : Nat → Word) (n : Nat) (g : Regs) (ck : Nat → Word × Word)
        (tr : List SimState) (s : SimState), n ≤ cfg.nonceNum →
      Steps (simStep cfg buf pool n) (simInit pool g ck) tr s →
        (∀ k, s.core.pc = .block k → EntrySafe ChecksumSimulator.blocks buf k s.core.r) ∧
        (s.core.pc = .jumpTable → ∃ k, jumpTarget (s.core.r 9) = some k) ∧
        (∀ s', simStep cfg buf pool n s = some s' → s'.checksum = s.checksum ∨
          ∃ i row, s'.inonce = i + 2 ∧ i + 2 ≤ cfg.nonceNum ∧
            s'.checksum = Function.update s.checksum i row)) := by
  refine ⟨?_, ?_⟩
  · intro rnd g tr s hrun
    have hinv : GenInv cfg s := (hrun.invariant (genInv_init g) fun _ _ hi hs => hi.step hs).2
    exact ⟨fun k _ => entrySafe_of_addrInv _ buf k hinv.addr,
      fun _ => jumpTarget_of_addrInv hinv.addr, fun s' hs => genStep_pool hinv hs⟩
  · intro pool n g ck tr s hn hrun
    have hinv : SimInv s := (hrun.invariant (simInv_init pool g ck) fun _ _ hi hs => hi.step hs).2
    exact ⟨fun k _ => entrySafe_of_addrInv _ buf k hinv.addr,
      fun _ => jumpTarget_of_addrInv hinv.addr, fun s' hs => simStep_checksum hn hinv hs⟩

/-- On the zero image, the generator comes to block 3 in its second attempt, after
    blocks 0, 7 and 0, 0, 2. -/
def zeroImageGen : GenState :=
  run (genStep viperConfig Buffer.zero fun _ => 0) 11 (genInit fun _ => 0)

/-- The simulator comes there in its first entry. -/
def zeroImageSim : SimState :=
  run (simStep viperConfig Buffer.zero (fun _ => 0) 1) 7
    (simInit (fun _ => 0) (fun _ => 0) fun _ => (0, 0))

theorem zero_image_entry_safe :
    EntrySafe GenerateNonce.blocks Buffer.zero 3 zeroImageGen.core.r ∧
    EntrySafe ChecksumSimulator.blocks Buffer.zero 3 zeroImageSim.core.r := by
  have hgen : zeroImageGen.core.pc = .block 3 := by decide +kernel
  have hsim : zeroImageSim.core.pc = .block 3 := by decide +kernel
  have hsafe := block_machine_safe viperConfig Buffer.zero
  refine ⟨?_, ?_⟩
  · exact (hsafe.1 (fun _ => 0) (fun _ => 0) _ zeroImageGen (steps_run _ 11 _)).1 3 hgen
  · exact (hsafe.2 (fun _ => 0) 1 (fun _ => 0) (fun _ => (0, 0)) _ zeroImageSim (by decide)
      (steps_run _ 7 _)).1 3 hsim

end Viper
