import VetGumstix.Swatt.Attack

/-! # The Words the Checksum Reads

    The load address of a block is the program counter with its low byte
    xored by the top byte of `x`, and the two low bits cleared.  Which 256
    bytes a block can read is therefore fixed by where the block stands:
    with `init_checksum` on a 256-byte boundary, blocks 1 to 3 read the first
    256 bytes from there, blocks 4 to 7 the next, block 8 the third.

    `loads_exact`: in every run, from any entry state, the loads of the loop
    stay in these windows, and every word of a window is read for some `x`.
    The invariant of the run says what `r11` holds in front of a load; it
    concerns two positions of each block, and a step reaches them only from
    the instruction before.
-/

namespace Swatt

open Arm Machine

section genuine

variable (lay : Layout) (base : Word)

/-! ## Section 1: The listing -/

/-- The listing has 184 instructions from `init_checksum` on. -/
theorem genuine_length : (swattARM lay base).code.length = initPos lay + 184 := by
  have hlen : (assemble (bodyItems loadWord [])).length = 184 := by decide +kernel
  rw [← hlen]
  exact program_length lay loadWord [] base

/-- Of the genuine listing, what does not stand in front of `init_checksum` is one
    of these 184. -/
theorem genuine_code {n : Nat} {i : Instr Label}
    (h : (swattARM lay base).code[n]? = some i) :
    i ∈ entryCode lay ∨ ∃ m < 184, n = initPos lay + m ∧
      (assemble (bodyItems loadWord []))[m]? = some i := by
  have hlt : n < initPos lay + 184 :=
    genuine_length lay base ▸ (List.getElem?_eq_some_iff.mp h).1
  rcases program_code lay loadWord [] base h with ⟨-, hmem⟩ | ⟨m, rfl, hm⟩
  · exact .inl hmem
  · exact .inr ⟨m, by omega, rfl, hm⟩

/-- The only branch is the one at the end of the loop. -/
theorem genuine_branch {n : Nat} {cond : Cond} {l : Label}
    (h : (swattARM lay base).code[n]? = some (.b cond l)) :
    n = initPos lay + 152 ∧ l = .checksum := by
  have hbody : ∀ m < 184, ∀ i ∈ (assemble (bodyItems loadWord []))[m]?, i.isBranch = true →
      m = 152 ∧ i = .b .ne .checksum := by decide +kernel
  rcases genuine_code lay base h with hmem | ⟨m, hm, hn, hi⟩
  · have := entryCode_straight _ hmem
    simp [Instr.isBranch] at this
  · obtain ⟨h152, hb⟩ := hbody m hm _ hi rfl
    simp only [Instr.b.injEq] at hb
    exact ⟨by omega, hb.2⟩

/-- The only loads of the loop are those of the blocks. -/
theorem genuine_load {n : Nat} {i : Instr Label} (hlo : initPos lay + 16 ≤ n)
    (hhi : n < initPos lay + 153) (h : (swattARM lay base).code[n]? = some i)
    (hload : i.isLoad = true) : ∃ j : Fin 8, n = initPos lay + (16 + 17 * j) + 5 := by
  have hbody : ∀ m < 184, 16 ≤ m → m < 153 → ∀ i ∈ (assemble (bodyItems loadWord []))[m]?,
      i.isLoad = true → ∃ j : Fin 8, m = 16 + 17 * j.val + 5 := by decide +kernel
  rcases genuine_code lay base h with hmem | ⟨m, hm, hn, hi⟩
  · -- in front of `init_checksum` nothing is loaded
    simp only [entryCode, List.mem_append, List.mem_singleton, List.mem_replicate] at hmem
    have hsave : ∀ i ∈ saveReglist, i.isLoad = false := by decide
    rcases hmem with (hmem | rfl) | ⟨-, rfl⟩
    · simp [hsave i hmem] at hload
    · simp [Instr.isLoad] at hload
    · simp [Instr.isLoad] at hload
  · obtain ⟨j, hj⟩ := hbody m hm (by omega) (by omega) i hi hload
    exact ⟨j, by omega⟩

/-! ## Section 2: The invariant -/

/-- What `r11` holds after the fourth and after the fifth instruction of a
    block. -/
structure AddressReady (st : State) : Prop where
  xored  : ∀ i : Fin 8, st.pc = initPos lay + (16 + 17 * i) + 4 →
    st.cpu.r 11 = (blockStart base i + 20) ^^^ (st.cpu.r 10 >>> 24)
  masked : ∀ i : Fin 8, st.pc = initPos lay + (16 + 17 * i) + 5 →
    st.cpu.r 11 = daddr (blockStart base i) (st.cpu.r 10)

theorem addressReady_enter (counter challenge : Word) (size : Nat) (s : Cpu) :
    AddressReady lay base (enter (swattARM lay base) counter challenge size s) := by
  have hlen := genuine_length lay base
  have hpc : ∀ p, (enter (swattARM lay base) counter challenge size s).pc = p →
      p = 0 ∨ p = initPos lay + 184 := by
    rintro p rfl
    unfold enter
    split
    · exact .inl rfl
    · exact .inr hlen
  constructor
  · intro i hi
    have := hpc _ hi
    omega
  · intro i hi
    have := hpc _ hi
    omega

theorem addressReady_step {st t : State} (h : AddressReady lay base st)
    (hstep : (swattARM lay base).step st = some t) : AddressReady lay base t := by
  rcases Program.step_cases hstep with ⟨i, hcode, -, rfl⟩ | ⟨cond, l, hcode, rfl⟩
  · -- the instruction before the position is an instruction of the block
    have hat : ∀ (j : Fin 8) (d : Nat), d < 17 → st.pc = initPos lay + (16 + 17 * j) + d →
        (blockCode j)[d]? = some i := by
      intro j d hd hpc
      have hlen : ∀ j : Fin 8, (blockCode j).length = 17 := by decide
      rw [← hcode, hpc]
      exact (genuine_block_at lay base j d (by rw [hlen]; exact hd)).symm
    constructor
    · intro j hj
      have hpc : st.pc = initPos lay + (16 + 17 * j) + 3 := by
        simp only at hj
        omega
      obtain rfl : .logic .eor 11 15 (.lsr 10 24) = i := Option.some.inj (hat j 3 (by decide) hpc)
      have haddr : (swattARM lay base).addr st.pc + 8 = blockStart base j + 20 := by
        rw [hpc, Program.addr_add, swattARM, program_addr, BitVec.add_assoc]
        rfl
      rw [haddr, exec_logic]
      simp [LogicOp.value, Operand.value]
    · intro j hj
      have hpc : st.pc = initPos lay + (16 + 17 * j) + 4 := by
        simp only at hj
        omega
      obtain rfl : .logic .and 11 11 (.imm 0xfffffffc) = i :=
        Option.some.inj (hat j 4 (by decide) hpc)
      rw [exec_logic]
      simp [LogicOp.value, Operand.value, h.xored j hpc, daddr]
  · -- the branch goes to the first instruction of block 1 or leaves the loop
    obtain ⟨hpc, rfl⟩ := genuine_branch lay base hcode
    have htop : (swattARM lay base).target .checksum = initPos lay + 16 :=
      (build_genuine lay base).top
    have hpos : ∀ p, (if cond.holds st.cpu.cpsr then (swattARM lay base).target .checksum
        else st.pc + 1) = p → p = initPos lay + 16 ∨ p = initPos lay + 153 := by
      rintro p rfl
      split
      · exact .inl htop
      · exact .inr (by omega)
    constructor
    · intro j hj
      have := hpos _ hj
      omega
    · intro j hj
      have := hpos _ hj
      omega

/-- The address a run has ready at the load of a block is in its window. -/
theorem AddressReady.load_mem {st : State} (h : AddressReady lay base st)
    (hbase : base.toNat % 256 = 0) {i : Fin 8} (hpc : st.pc = initPos lay + (16 + 17 * i) + 5)
    {a : Word} (ha : (swattARM lay base).loadsFrom st = some a) :
    ∃ j < 64, a = base + BitVec.ofNat 32 (256 * window i + 4 * j) := by
  have hlen : ∀ j : Fin 8, 5 < (blockCode j).length := by decide
  have hcode : (swattARM lay base).code[st.pc]? = some (.ldr 9 11 0) := by
    rw [hpc]
    exact genuine_block_at lay base i 5 (hlen i)
  have hr11 : st.cpu.r 11 + 0 = a := by
    simpa [Program.loadsFrom, hcode, Instr.loadAddress] using ha
  have hzero : st.cpu.r 11 + 0 = st.cpu.r 11 := BitVec.add_zero _
  rw [← hr11, hzero, h.masked i hpc]
  exact daddr_mem base hbase i _

/-! ## Section 3: Every word is within reach -/

/-- Block `i`, entered with `x` in `r10`, loads from `a`. -/
def BlockLoads (i : Fin 8) (x a : Word) : Prop :=
  ∀ s : Cpu, s.r 10 = x → ∃ st,
    Reaches (swattARM lay base).step ⟨s, initPos lay + (16 + 17 * i)⟩ st ∧
    st.pc = initPos lay + (16 + 17 * i) + 5 ∧ (swattARM lay base).loadsFrom st = some a

/-- A block loads from the address it computes from `x`. -/
theorem blockLoads_daddr (i : Fin 8) (x : Word) :
    BlockLoads lay base i x (daddr (blockStart base i) (tFunction x)) := by
  rintro s rfl
  have hat := genuine_block_at lay base i
  have hrun := (swattARM lay base).steps_straight hat.left (by decide) s
  have haddr : (swattARM lay base).addr (initPos lay + (16 + 17 * i)) = blockStart base i :=
    program_addr lay loadWord [] base _
  rw [haddr] at hrun
  have hT := exec_tFunc (blockStart base i) s
  have hlen : ∀ j : Fin 8, 5 < (blockCode j).length := by decide
  have hcode : (swattARM lay base).code[initPos lay + (16 + 17 * i) + 5]? =
      some (.ldr 9 11 0) := hat 5 (hlen i)
  have hzero : ∀ w : Word, w + 0 = w := fun _ => BitVec.add_zero _
  refine ⟨_, hrun, rfl, ?_⟩
  show ((swattARM lay base).code[initPos lay + (16 + 17 * i) + 5]?.bind fun j =>
    j.loadAddress _ (execAll (blockStart base i) tFunc s)) = _
  rw [hcode]
  show some ((execAll (blockStart base i) tFunc s).read _ 11 + 0) = _
  rw [read_eleven, hT.r11, hzero]

/-- The top byte of the T function takes every value. -/
theorem tFunction_top {b : Word} (hb : b.toNat < 256) : tFunction (b <<< 24) >>> 24 = b := by
  have hx : (b <<< 24).toNat = b.toNat * 2 ^ 24 := by
    rw [BitVec.toNat_shiftLeft, Nat.shiftLeft_eq]
    omega
  have hsq : (b <<< 24) * (b <<< 24) = 0 := by
    apply BitVec.eq_of_toNat_eq
    rw [BitVec.toNat_mul, hx, show b.toNat * 2 ^ 24 * (b.toNat * 2 ^ 24) =
      b.toNat * b.toNat * 2 ^ 16 * 2 ^ 32 by ring, Nat.mul_mod_left]
    rfl
  have hor : (0 : Word) ||| 5 = 5 := by decide
  have h5 : (5 : Word).toNat = 5 := rfl
  apply BitVec.eq_of_toNat_eq
  unfold tFunction
  rw [hsq, hor, BitVec.toNat_ushiftRight, Nat.shiftRight_eq_div_pow, BitVec.toNat_add, hx, h5]
  omega

/-- Each word of the window is the load address for some `x`. -/
theorem exists_daddr {base : Word} (hbase : base.toNat % 256 = 0) (i : Fin 8) {j : Nat}
    (hj : j < 64) : ∃ x, daddr (blockStart base i) (tFunction x) =
      base + BitVec.ofNat 32 (256 * window i + 4 * j) := by
  generalize hq : base + BitVec.ofNat 32 (256 * window i + 4 * j) = q
  have hwin := window_eq i
  have hlt := window_lt i
  have hi := i.isLt
  have hb := base.isLt
  have hqn : q.toNat = (base.toNat + (256 * window i + 4 * j)) % 2 ^ 32 := by
    rw [← hq, BitVec.toNat_add, BitVec.toNat_ofNat, Nat.add_mod_mod]
  have hpn : (blockStart base i + 20).toNat = (base.toNat + (84 + 68 * i.val)) % 2 ^ 32 := by
    rw [blockStart_pc, BitVec.toNat_add, BitVec.toNat_ofNat, Nat.add_mod_mod]
  -- program counter and address have the upper 24 bits in common
  have hdiv : (blockStart base i + 20).toNat / 2 ^ 8 = q.toNat / 2 ^ 8 := by
    rw [hpn, hqn]
    generalize 84 + 68 * i.val = off at hwin
    omega
  have hbyte : ((blockStart base i + 20) ^^^ q).toNat < 256 := by
    have hzero : ((blockStart base i + 20) ^^^ q).toNat / 2 ^ 8 = 0 := by
      rw [BitVec.toNat_xor, Nat.xor_div_two_pow, hdiv, Nat.xor_self]
    omega
  refine ⟨((blockStart base i + 20) ^^^ q) <<< 24, ?_⟩
  unfold daddr
  rw [tFunction_top hbyte, ← BitVec.xor_assoc, BitVec.xor_self, BitVec.zero_xor]
  exact wordAddr_of_aligned (by omega)

theorem exists_blockLoads (hbase : base.toNat % 256 = 0) (i : Fin 8) {j : Nat} (hj : j < 64) :
    ∃ x, BlockLoads lay base i x (base + BitVec.ofNat 32 (256 * window i + 4 * j)) := by
  obtain ⟨x, hx⟩ := exists_daddr hbase i hj
  exact ⟨x, hx ▸ blockLoads_daddr lay base i x⟩

end genuine

/-- **What the checksum reads.**  `init_checksum` is at `base`, a multiple of
    256.  In every run, from any entry state, a load between the label
    `checksum` and the end of the loop is the load of a block, from a word of
    its window.  Conversely each of the 64 words of each of the three windows
    is loaded by a block for some `x`.  So is every instruction from
    `init_checksum` to the end of the listing, 736 bytes. -/
theorem loads_exact (lay : Layout) (base : Word) (hbase : base.toNat % 256 = 0) :
    (∀ (counter challenge : Word) (size : Nat) (s : Cpu) (tr : List State) (t : State),
      Steps (swattARM lay base).step (enter (swattARM lay base) counter challenge size s) tr t →
      ∀ st ∈ tr, initPos lay + 16 ≤ st.pc → st.pc < initPos lay + 153 →
      ∀ a, (swattARM lay base).loadsFrom st = some a →
        ∃ i : Fin 8, st.pc = initPos lay + (16 + 17 * i) + 5 ∧
          ∃ j < 64, a = base + BitVec.ofNat 32 (256 * window i + 4 * j)) ∧
    (∀ w < 3, ∀ j < 64, ∃ i x, window i = w ∧
      BlockLoads lay base i x (base + BitVec.ofNat 32 (256 * w + 4 * j))) ∧
    (swattARM lay base).code.length = initPos lay + 184 ∧
    ∀ n < 184, ∃ i x, BlockLoads lay base i x ((swattARM lay base).addr (initPos lay + n)) := by
  have hwindow : ∀ w < 3, ∃ i, window i = w := by decide
  have hreach : ∀ w < 3, ∀ j < 64, ∃ i x, window i = w ∧
      BlockLoads lay base i x (base + BitVec.ofNat 32 (256 * w + 4 * j)) := by
    intro w hw j hj
    obtain ⟨i, rfl⟩ := hwindow w hw
    obtain ⟨x, hx⟩ := exists_blockLoads lay base hbase i hj
    exact ⟨i, x, rfl, hx⟩
  refine ⟨?_, hreach, genuine_length lay base, ?_⟩
  · intro counter challenge size s tr t hsteps st hst hlo hhi a ha
    have hinv := (hsteps.invariant (addressReady_enter lay base counter challenge size s)
      fun s s' => addressReady_step lay base).1 st hst
    obtain ⟨i, hcode, hload⟩ := Program.isLoad_of_loadsFrom ha
    obtain ⟨j, hpc⟩ := genuine_load lay base hlo hhi hcode hload
    exact ⟨j, hpc, hinv.load_mem lay base hbase hpc ha⟩
  · intro n hn
    obtain ⟨i, x, -, hx⟩ := hreach (n / 64) (by omega) (n % 64) (Nat.mod_lt _ (by decide))
    refine ⟨i, x, ?_⟩
    rw [swattARM, program_addr, show 4 * n = 256 * (n / 64) + 4 * (n % 64) by omega]
    exact hx

/-- The first instruction of the loop is read by a block. -/
theorem loads_exact_sample :
    (0x8000 : Word).toNat % 256 = 0 ∧ ∃ i x, BlockLoads ⟨11, 3, .inl rfl⟩ 0x8000 i x
      ((swattARM ⟨11, 3, .inl rfl⟩ 0x8000).addr (initPos ⟨11, 3, .inl rfl⟩ + 16)) :=
  ⟨by decide, (loads_exact _ 0x8000 (by decide)).2.2.2 16 (by decide)⟩

end Swatt
