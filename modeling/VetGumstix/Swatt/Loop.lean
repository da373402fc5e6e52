import VetGumstix.Swatt.Checksum

/-! # The Checksum Loop

    One pass is the eight blocks in order; the loop makes passes until the
    counter in `r12` is zero.  `pass` and `finalChecksum` are functions of the
    checksum state and of a load function `ld`, which says what a block finds
    at its load address.

    The loads of a pass stay within 768 bytes from the label `init_checksum`.
    A program whose blocks run with a load function `ld` runs the whole loop
    with it: this is the interface between the two builds and the abstract
    loop.
-/

namespace Swatt

open Arm Machine

/-! ## Section 1: Passes -/

/-- The address of the first instruction of block `i`, with `init_checksum`
    at `base`. -/
def blockStart (base : Word) (i : Nat) : Word := base + BitVec.ofNat 32 (4 * (16 + 17 * i))

/-- Where block `i` loads from. -/
def loadAddr (base : Word) (i : Fin 8) (k : Checksum) : Word :=
  daddr (blockStart base i) (tFunction k.x)

def stepBlock (base : Word) (ld : Word → Word) (i : Fin 8) (k : Checksum) : Checksum :=
  blockUpdate i k (blockStart base i) (ld (loadAddr base i k))

/-- The first `n` blocks of a pass. -/
def runBlocks (base : Word) (ld : Word → Word) : Nat → Checksum → Checksum
  | 0, k     => k
  | n + 1, k =>
    if h : n < 8 then stepBlock base ld ⟨n, h⟩ (runBlocks base ld n k) else runBlocks base ld n k

def pass (base : Word) (ld : Word → Word) : Checksum → Checksum := runBlocks base ld 8

/-- The number of passes for a counter that is a multiple of 8: the counter
    wraps once when it starts at zero. -/
def passes (counter : Word) : Nat := if counter = 0 then 2 ^ 29 else counter.toNat / 8

/-- The checksum the loop ends with. -/
def finalChecksum (base : Word) (ld : Word → Word) (k : Checksum) : Checksum :=
  (pass base ld)^[passes k.counter] k

/-! ### The counter -/

theorem blockUpdate_counter (i : Fin 8) (k : Checksum) (a w : Word) :
    (blockUpdate i k a w).counter = k.counter - 1 := by
  match i with
  | 0 | 1 | 2 | 3 | 4 | 5 | 6 | 7 => rfl

theorem runBlocks_counter (base : Word) (ld : Word → Word) (k : Checksum) {n : Nat} (hn : n ≤ 8) :
    (runBlocks base ld n k).counter = k.counter - BitVec.ofNat 32 n := by
  induction n with
  | zero => simp [runBlocks]
  | succ n ih =>
    have hlt : n < 8 := hn
    rw [runBlocks, dif_pos hlt, stepBlock, blockUpdate_counter, ih (Nat.le_of_lt hlt),
      BitVec.ofNat_add]
    bv_omega

theorem pass_counter (base : Word) (ld : Word → Word) (k : Checksum) :
    (pass base ld k).counter = k.counter - 8 :=
  runBlocks_counter base ld k (Nat.le_refl 8)

theorem passes_pos {counter : Word} (h8 : counter.toNat % 8 = 0) : 0 < passes counter := by
  unfold passes
  split
  · decide
  · next h0 =>
    have hne : counter.toNat ≠ 0 := fun he => h0 (BitVec.eq_of_toNat_eq he)
    omega

/-- The passes count the counter down to zero. -/
theorem passes_mul {counter : Word} (h8 : counter.toNat % 8 = 0) :
    BitVec.ofNat 32 (8 * passes counter) = counter := by
  apply BitVec.eq_of_toNat_eq
  have hlt := counter.isLt
  rw [BitVec.toNat_ofNat]
  unfold passes
  split
  · next h0 => rw [h0]; rfl
  · omega

theorem iterate_pass_counter (base : Word) (ld : Word → Word) (n : Nat) (k : Checksum) :
    ((pass base ld)^[n] k).counter = k.counter - BitVec.ofNat 32 (8 * n) := by
  induction n with
  | zero => simp
  | succ n ih =>
    rw [Function.iterate_succ_apply', pass_counter, ih, Nat.mul_succ, BitVec.ofNat_add]
    bv_omega

theorem finalChecksum_counter (base : Word) (ld : Word → Word) {k : Checksum}
    (h8 : k.counter.toNat % 8 = 0) : (finalChecksum base ld k).counter = 0 := by
  rw [finalChecksum, iterate_pass_counter, passes_mul h8]
  exact BitVec.sub_self _

/-- Block 8 sets the zero flag with the counter. -/
theorem pass_zero (base : Word) (ld : Word → Word) (k : Checksum) :
    zero (pass base ld k).status = ((pass base ld k).counter == 0) := by
  have hpass : pass base ld k = xorFirstUpdate (runBlocks base ld 7 k) 7 4 6 true
      (blockStart base 7) (ld (loadAddr base 7 (runBlocks base ld 7 k))) := rfl
  rw [hpass]
  simp [xorFirstUpdate, counterSum, subtract_word]

/-! ### Load addresses -/

/-- A load address keeps the upper 24 bits of the program counter it is made
    from, and is a multiple of 4. -/
theorem daddr_window (a x : Word) :
    (daddr a x).toNat / 256 = (a + 20 : Word).toNat / 256 ∧ (daddr a x).toNat % 4 = 0 := by
  have hmask := BitMask.toNat_and_field ((a + 20 : Word) ^^^ (x >>> 24)) 0xfffffffc 2 30 rfl
  have hshift : (x >>> 24).toNat < 256 := by
    rw [BitVec.toNat_ushiftRight, Nat.shiftRight_eq_div_pow]
    have := x.isLt
    omega
  -- only the low byte of the program counter is xored
  have hlow : (x >>> 24).toNat / 2 ^ 8 = 0 := Nat.div_eq_of_lt hshift
  have hxor : ((a + 20 : Word) ^^^ (x >>> 24)).toNat / 2 ^ 8 = (a + 20 : Word).toNat / 2 ^ 8 := by
    rw [BitVec.toNat_xor, Nat.xor_div_two_pow, hlow]
    exact Nat.xor_zero _
  have hlt := ((a + 20 : Word) ^^^ (x >>> 24)).isLt
  unfold daddr
  rw [hmask]
  omega

/-- The 256 bytes a block loads from, counted from `init_checksum`. -/
def window : Fin 8 → Nat
  | 0 | 1 | 2     => 0
  | 3 | 4 | 5 | 6 => 1
  | 7             => 2

/-- The fourth instruction of block `i` reads the program counter as
    `base + 84 + 68 * i`, which lies in the window of the block. -/
theorem window_eq : ∀ i : Fin 8, (84 + 68 * i.val) / 256 = window i := by decide

theorem window_lt : ∀ i : Fin 8, window i < 3 := by decide

theorem blockStart_pc (base : Word) (i : Fin 8) :
    blockStart base i + 20 = base + BitVec.ofNat 32 (84 + 68 * i) := by
  have h20 : (20 : Word) = BitVec.ofNat 32 20 := rfl
  unfold blockStart
  rw [h20, BitVec.add_assoc, ← BitVec.ofNat_add]
  congr 2
  omega

/-- **The loads of a block** are words of its window. -/
theorem daddr_mem (base : Word) (hbase : base.toNat % 256 = 0) (i : Fin 8) (x : Word) :
    ∃ j < 64, daddr (blockStart base i) x = base + BitVec.ofNat 32 (256 * window i + 4 * j) := by
  obtain ⟨hdiv, hmod⟩ := daddr_window (blockStart base i) x
  generalize daddr (blockStart base i) x = d at hdiv hmod
  rw [blockStart_pc, BitVec.toNat_add, BitVec.toNat_ofNat, Nat.add_mod_mod] at hdiv
  have hw := window_eq i
  have hi := i.isLt
  have hd := d.isLt
  have hb := base.isLt
  -- the offset of the program counter from `base` gives the window
  generalize hoff : 84 + 68 * i.val = off at hdiv hw
  refine ⟨d.toNat % 256 / 4, by omega, ?_⟩
  have hmul : 256 * window i + 4 * (d.toNat % 256 / 4) = off / 256 * 256 + d.toNat % 256 := by
    omega
  apply BitVec.eq_of_toNat_eq
  rw [BitVec.toNat_add, BitVec.toNat_ofNat, hmul, Nat.add_mod_mod]
  rcases Nat.lt_or_ge (base.toNat + off) (2 ^ 32) with hlt | hge
  · rw [Nat.mod_eq_of_lt hlt] at hdiv
    rw [Nat.mod_eq_of_lt (by omega)]
    omega
  · -- the code wraps around the end of memory
    rw [Nat.mod_eq_sub_mod hge, Nat.mod_eq_of_lt (by omega)] at hdiv
    rw [Nat.mod_eq_sub_mod (by omega), Nat.mod_eq_of_lt (by omega)]
    omega

/-- The loads of a pass are words of the 768 bytes from `init_checksum` on. -/
theorem loadAddr_mem (base : Word) (hbase : base.toNat % 256 = 0) (i : Fin 8) (k : Checksum) :
    ∃ j < 192, loadAddr base i k = base + BitVec.ofNat 32 (4 * j) := by
  obtain ⟨j, hj, haddr⟩ := daddr_mem base hbase i (tFunction k.x)
  have hw := window_lt i
  refine ⟨64 * window i + j, by omega, haddr.trans ?_⟩
  rw [Nat.mul_add, ← Nat.mul_assoc]

/-- What a pass computes depends on these words only. -/
theorem runBlocks_congr {base : Word} (hbase : base.toNat % 256 = 0) {ld ld' : Word → Word}
    (h : ∀ j < 192, ld (base + BitVec.ofNat 32 (4 * j)) = ld' (base + BitVec.ofNat 32 (4 * j)))
    (n : Nat) (k : Checksum) : runBlocks base ld n k = runBlocks base ld' n k := by
  induction n with
  | zero => rfl
  | succ n ih =>
    by_cases hn : n < 8
    · obtain ⟨j, hj, haddr⟩ := loadAddr_mem base hbase ⟨n, hn⟩ (runBlocks base ld' n k)
      rw [runBlocks, runBlocks, dif_pos hn, dif_pos hn, ih]
      unfold stepBlock
      rw [haddr, h j hj]
    · rw [runBlocks, runBlocks, dif_neg hn, dif_neg hn, ih]

theorem finalChecksum_congr {base : Word} (hbase : base.toNat % 256 = 0) {ld ld' : Word → Word}
    (h : ∀ j < 192, ld (base + BitVec.ofNat 32 (4 * j)) = ld' (base + BitVec.ofNat 32 (4 * j)))
    (k : Checksum) : finalChecksum base ld k = finalChecksum base ld' k := by
  have hpass : pass base ld = pass base ld' := funext (runBlocks_congr hbase h 8)
  unfold finalChecksum
  rw [hpass]

/-! ## Section 2: Programs that run the loop -/

section program

variable {P : Program Label} {base : Word} {top : Nat} {ld : Word → Word} {m : Memory}

/-- On memory `m` the blocks of the program, 17 instructions each from
    position `top` on, run as blocks that load with `ld`. -/
def BlocksRun (P : Program Label) (base : Word) (top : Nat) (ld : Word → Word) (m : Memory) :
    Prop :=
  ∀ (i : Fin 8) (s : Cpu), s.mem = m → ∃ s',
    Reaches P.step ⟨s, top + 17 * i⟩ ⟨s', top + 17 * (i + 1)⟩ ∧
    checksumOf s' = stepBlock base ld i (checksumOf s) ∧ SameFrame s s'

theorem blocks_run (h : BlocksRun P base top ld m) {n : Nat} (hn : n ≤ 8) (s : Cpu)
    (hm : s.mem = m) :
    ∃ s', Reaches P.step ⟨s, top⟩ ⟨s', top + 17 * n⟩ ∧
      checksumOf s' = runBlocks base ld n (checksumOf s) ∧ SameFrame s s' := by
  induction n with
  | zero => exact ⟨s, .refl _, rfl, .refl s⟩
  | succ n ih =>
    obtain ⟨s₁, hr₁, hk₁, hf₁⟩ := ih (by omega)
    obtain ⟨s₂, hr₂, hk₂, hf₂⟩ := h ⟨n, hn⟩ s₁ (hf₁.mem.trans hm)
    refine ⟨s₂, hr₁.trans hr₂, ?_, hf₁.trans hf₂⟩
    have hlt : n < 8 := hn
    rw [hk₂, hk₁, runBlocks, dif_pos hlt]

/-- One pass counts down by 8, and block 8 leaves the zero flag for the branch
    behind it. -/
theorem pass_run (h : BlocksRun P base top ld m) (s : Cpu) (hm : s.mem = m) :
    ∃ s', Reaches P.step ⟨s, top⟩ ⟨s', top + 136⟩ ∧
      checksumOf s' = pass base ld (checksumOf s) ∧ SameFrame s s' ∧
      s'.r 12 = s.r 12 - 8 ∧ zero s'.cpsr = (s'.r 12 == 0) := by
  obtain ⟨s', hr, hk, hf⟩ := blocks_run h (Nat.le_refl 8) s hm
  have hk : checksumOf s' = pass base ld (checksumOf s) := hk
  have hcount := pass_counter base ld (checksumOf s)
  have hzero := pass_zero base ld (checksumOf s)
  rw [← hk] at hcount hzero
  exact ⟨s', hr, hk, hf, hcount, hzero⟩

/-- **The loop**, entered with the counter at `8 * (n + 1)`, makes `n + 1`
    passes and leaves.  The induction is on the passes still to come; the
    branch back is taken while the counter, a multiple of 8, is not zero. -/
theorem loop_run (h : BlocksRun P base top ld m)
    (hbne : P.code[top + 136]? = some (.b .ne .checksum)) (htop : P.target .checksum = top)
    (n : Nat) : ∀ s : Cpu, s.mem = m → n < 2 ^ 29 → s.r 12 = BitVec.ofNat 32 (8 * (n + 1)) →
    ∃ s', Reaches P.step ⟨s, top⟩ ⟨s', top + 137⟩ ∧
      checksumOf s' = (pass base ld)^[n + 1] (checksumOf s) ∧ SameFrame s s' := by
  induction n with
  | zero =>
    intro s hm _ h12
    obtain ⟨s₁, hr₁, hk₁, hf₁, hcount, hzero⟩ := pass_run h s hm
    have hz : zero s₁.cpsr = true := by
      rw [hzero, hcount, h12]
      rfl
    have hstep := P.step_branch hbne s₁
    rw [show Cond.holds .ne s₁.cpsr = false by simp [Cond.holds, hz]] at hstep
    exact ⟨s₁, hr₁.trans (.single hstep), hk₁, hf₁⟩
  | succ n ih =>
    intro s hm hn h12
    obtain ⟨s₁, hr₁, hk₁, hf₁, hcount, hzero⟩ := pass_run h s hm
    rw [h12, Nat.mul_succ 8 (n + 1), BitVec.ofNat_add] at hcount
    have hcount : s₁.r 12 = BitVec.ofNat 32 (8 * (n + 1)) :=
      hcount.trans (BitVec.add_sub_cancel _ _)
    have hz : zero s₁.cpsr = false := by
      rw [hzero, hcount, beq_eq_false_iff_ne]
      intro h0
      -- the counter does not wrap below `2 ^ 29` passes
      have h0 := congrArg BitVec.toNat h0
      rw [BitVec.toNat_ofNat] at h0
      have hzero : (0 : Word).toNat = 0 := rfl
      omega
    have hstep := P.step_branch hbne s₁
    rw [show Cond.holds .ne s₁.cpsr = true by simp [Cond.holds, hz], if_pos rfl, htop] at hstep
    obtain ⟨s₂, hr₂, hk₂, hf₂⟩ := ih s₁ (hf₁.mem.trans hm) (by omega) hcount
    refine ⟨s₂, (hr₁.trans (.single hstep)).trans hr₂, ?_, hf₁.trans hf₂⟩
    rw [hk₂, hk₁, Function.iterate_succ_apply (pass base ld) (n + 1)]

/-- The loop computes the final checksum for every counter that is a multiple
    of 8. -/
theorem loop_final (h : BlocksRun P base top ld m)
    (hbne : P.code[top + 136]? = some (.b .ne .checksum)) (htop : P.target .checksum = top)
    (s : Cpu) (hm : s.mem = m) (h8 : (s.r 12).toNat % 8 = 0) :
    ∃ s', Reaches P.step ⟨s, top⟩ ⟨s', top + 137⟩ ∧
      checksumOf s' = finalChecksum base ld (checksumOf s) ∧ SameFrame s s' := by
  have hlt := (s.r 12).isLt
  obtain ⟨n, hn⟩ := Nat.exists_eq_succ_of_ne_zero (Nat.ne_of_gt (passes_pos h8))
  have h12 : s.r 12 = BitVec.ofNat 32 (8 * (n + 1)) := by
    rw [← Nat.succ_eq_add_one, ← hn, passes_mul h8]
  have hbound : n < 2 ^ 29 := by
    unfold passes at hn
    split at hn <;> omega
  unfold finalChecksum
  rw [show (checksumOf s).counter = s.r 12 from rfl, hn]
  exact loop_run h hbne htop n s hm hbound h12

end program

end Swatt
