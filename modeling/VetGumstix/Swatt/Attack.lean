import VetGumstix.Swatt.Run

/-! # The Data-Pointer Attack

    Both builds are builds in the sense of `Swatt.Run`: the genuine one loads
    from the address it computed, the attack from 0x500 bytes further on.
    The branches to the stubs and back take the place of the load, set no
    flags and restore `r11`, so the blocks compute the same update.

    `attack_forges`: with a copy of the genuine code 0x500 bytes away, the
    attack stores the genuine checksum.
-/

namespace Swatt

open Arm Machine

theorem mixCode_length : ∀ i : Fin 8, (mixCode i).length = 11 := by decide

theorem mixCode_isBranch : ∀ i : Fin 8, ∀ j ∈ mixCode i, j.isBranch = false := by decide

/-! ## Section 1: The genuine build -/

/-- The load of a block, behind its T function and in front of `rest`. -/
theorem exec_load (a : Word) (rest : Code) (s : Cpu) :
    execAll a (tFunc ++ ([.ldr 9 11 0] ++ rest)) s =
      execAll (a + 24) rest
        ((execAll a tFunc s).write 9 (load s.mem (daddr a (tFunction (s.r 10))))) := by
  have hT := exec_tFunc a s
  have hpc : a + BitVec.ofNat 32 (4 * tFunc.length) +
      BitVec.ofNat 32 (4 * ([.ldr 9 11 0] : Code).length) = a + 24 := by
    rw [BitVec.add_assoc]
    rfl
  have hload : execAll (a + BitVec.ofNat 32 (4 * tFunc.length)) ([.ldr 9 11 0] : Code)
      (execAll a tFunc s) =
      (execAll a tFunc s).write 9 (load s.mem (daddr a (tFunction (s.r 10)))) := by
    simp only [execAll, Instr.exec, read_eleven, hT.r11, hT.mem]
    rw [show daddr a (tFunction (s.r 10)) + 0 = daddr a (tFunction (s.r 10)) from
      BitVec.add_zero _]
  rw [execAll_append, execAll_append, hload, hpc]

/-- The instructions of a block compute its update with the word at the load
    address. -/
theorem exec_blockCode (i : Fin 8) (a : Word) (s : Cpu) :
    checksumOf (execAll a (blockCode i) s) =
      blockUpdate i (checksumOf s) a (load s.mem (daddr a (tFunction (s.r 10)))) ∧
    SameFrame s (execAll a (blockCode i) s) := by
  rw [blockCode, exec_load]
  exact exec_mixCode (exec_tFunc a s) i

section genuine

variable (lay : Layout) (base : Word)

theorem genuine_block_at (i : Fin 8) :
    (swattARM lay base).At (initPos lay + (16 + 17 * i)) (blockCode i) := by
  refine program_at lay loadWord [] base _ _ ?_
  revert i
  decide +kernel

/-- The program runs through the instructions of a block. -/
theorem genuine_block_run (i : Fin 8) (s : Cpu) :
    Reaches (swattARM lay base).step ⟨s, initPos lay + 16 + 17 * i⟩
      ⟨execAll (blockStart base i) (blockCode i) s, initPos lay + 16 + 17 * (i + 1)⟩ := by
  have hlen : ∀ i : Fin 8, (blockCode i).length = 17 := by decide
  have hnb : ∀ i : Fin 8, ∀ j ∈ blockCode i, j.isBranch = false := by decide
  have haddr : (swattARM lay base).addr (initPos lay + (16 + 17 * i)) = blockStart base i :=
    program_addr lay loadWord [] base _
  have hrun := (swattARM lay base).steps_straight (genuine_block_at lay base i) (hnb i) s
  rw [haddr, hlen] at hrun
  rw [show initPos lay + 16 + 17 * i.val = initPos lay + (16 + 17 * i.val) by omega,
    show initPos lay + 16 + 17 * (i.val + 1) = initPos lay + (16 + 17 * i.val) + 17 by omega]
  exact hrun

theorem genuine_blocks (m : Memory) :
    BlocksRun (swattARM lay base) base (initPos lay + 16) (fun a => load m (a + 0)) m := by
  intro i s hm
  obtain ⟨hk, hf⟩ := exec_blockCode i (blockStart base i) s
  refine ⟨_, genuine_block_run lay base i s, hk.trans ?_, hf⟩
  subst hm
  have hzero : loadAddr base i (checksumOf s) + 0 = loadAddr base i (checksumOf s) :=
    BitVec.add_zero _
  show _ = blockUpdate i (checksumOf s) (blockStart base i)
    (load s.mem (loadAddr base i (checksumOf s) + 0))
  rw [hzero]
  rfl

/-- Behind the stored checksum the genuine build ends with its tail. -/
theorem genuine_tail (s : Cpu) :
    ∃ a n, Halts (swattARM lay base).step ⟨s, initPos lay + 16 + 137 + 13⟩
      ⟨execAll a (enableInterrupts ++ restoreReglist) s, n⟩ := by
  have hat : (swattARM lay base).At (initPos lay + 166) (enableInterrupts ++ restoreReglist) :=
    program_at lay loadWord [] base _ 166 (by decide +kernel)
  have hend : (swattARM lay base).code.length =
      initPos lay + 166 + (enableInterrupts ++ restoreReglist).length := by
    have hlen : (assemble (bodyItems loadWord [])).length =
        166 + (enableInterrupts ++ restoreReglist).length := by decide +kernel
    rw [Nat.add_assoc, ← hlen]
    exact program_length lay loadWord [] base
  exact ⟨_, _, (swattARM lay base).halts_straight hat (by decide) hend s⟩

theorem genuine_returns (s : Cpu) :
    ∃ t, Halts (swattARM lay base).step ⟨s, initPos lay + 16 + 137 + 13⟩ t ∧
      t.cpu.mem = s.mem := by
  obtain ⟨a, n, hhalt⟩ := genuine_tail lay base s
  exact ⟨_, hhalt, execAll_mem (by decide) a s⟩

theorem build_genuine :
    Build (swattARM lay base) lay base fun m a => load m (a + 0) where
  entry := .of_drop rfl
  init := program_at lay loadWord [] base _ 0 (by decide +kernel)
  blocks := genuine_blocks lay base
  back := program_at lay loadWord [] base [.b .ne .checksum] 152 (by decide +kernel) 0 (by decide)
  top := program_target lay loadWord [] base .checksum
  save := program_at lay loadWord [] base _ 153 (by decide +kernel)
  returns := genuine_returns lay base

end genuine

/-! ## Section 2: The attack build -/

section attack

variable (lay : Layout) (base : Word)

/-- The stub loads 0x500 bytes further on and leaves `r11` as it was. -/
theorem exec_attackStub (a : Word) (s : Cpu) :
    execAll a ([.arith .add false .al 11 11 (.imm 0x500), .ldr 9 11 0,
      .arith .sub false .al 11 11 (.imm 0x500)] : Code) s =
    s.write 9 (load s.mem (s.r 11 + 0x500)) := by
  have hadd : s.r 11 + 0x500 + 0 = s.r 11 + 0x500 := BitVec.add_zero _
  have hsub : s.r 11 + 0x500 - 0x500 = s.r 11 := BitVec.add_sub_cancel _ _
  have hne : (11 : Reg) ≠ 9 := by decide
  have hself : (s.write 9 (load s.mem (s.r 11 + 0x500))).r 11 = s.r 11 := by simp
  calc execAll a _ s
      = ((s.write 11 (s.r 11 + 0x500)).write 9 (load s.mem (s.r 11 + 0x500))).write 11
          (s.r 11) := by
        simp only [execAll, Instr.exec, Operand.value, ArithOp.sum, Cond.holds, read_eleven,
          addWithCarry_word, subtract_word, Cpu.write_r, Cpu.write_mem, if_true,
          Bool.false_eq_true, if_false, hne, hadd, hsub]
    _ = (s.write 9 (load s.mem (s.r 11 + 0x500))).write 11 (s.r 11) := by
        rw [Cpu.write_comm _ _ _ _ _ hne, Cpu.write_write]
    _ = s.write 9 (load s.mem (s.r 11 + 0x500)) := by
        conv_lhs => rw [← hself]
        exact Cpu.write_self _ _

theorem attack_target (i : Fin 8) :
    (swattARMDbAttack lay base).target (.dpAttack i) = initPos lay + (167 + 4 * i) ∧
    (swattARMDbAttack lay base).target (.dpAttackRet i) = initPos lay + (16 + 17 * i + 6) := by
  have hpos : labelPos (.dpAttack i) (bodyItems loadAttack attackStubs) = 167 + 4 * i ∧
      labelPos (.dpAttackRet i) (bodyItems loadAttack attackStubs) = 16 + 17 * i + 6 := by
    revert i
    decide +kernel
  exact ⟨(program_target lay loadAttack attackStubs base _).trans (by rw [hpos.1]),
    (program_target lay loadAttack attackStubs base _).trans (by rw [hpos.2])⟩

theorem attack_block_at (i : Fin 8) :
    (swattARMDbAttack lay base).At (initPos lay + (16 + 17 * i)) (tFunc ++ [.b .al (.dpAttack i)]) ∧
    (swattARMDbAttack lay base).At (initPos lay + (167 + 4 * i))
      ([.arith .add false .al 11 11 (.imm 0x500), .ldr 9 11 0,
        .arith .sub false .al 11 11 (.imm 0x500)] ++ [.b .al (.dpAttackRet i)]) ∧
    (swattARMDbAttack lay base).At (initPos lay + (16 + 17 * i + 6)) (mixCode i) := by
  refine ⟨program_at lay loadAttack attackStubs base _ _ ?_,
    program_at lay loadAttack attackStubs base _ _ ?_,
    program_at lay loadAttack attackStubs base _ _ ?_⟩
  all_goals
    revert i
    decide +kernel

theorem attack_blocks (m : Memory) :
    BlocksRun (swattARMDbAttack lay base) base (initPos lay + 16) (fun a => load m (a + 0x500))
      m := by
  intro i s hm
  obtain ⟨hatT, hatS, hatM⟩ := attack_block_at lay base i
  obtain ⟨htS, htM⟩ := attack_target lay base i
  have haddr : (swattARMDbAttack lay base).addr (initPos lay + (16 + 17 * i)) =
      blockStart base i := program_addr lay loadAttack attackStubs base _
  have hT := exec_tFunc (blockStart base i) s
  -- the T function, and the branch to the stub
  have hrunT := (swattARMDbAttack lay base).steps_straight hatT.left (by decide) s
  have hgo := (swattARMDbAttack lay base).step_branch (hatT.right 0 Nat.zero_lt_one)
    (execAll (blockStart base i) tFunc s)
  rw [haddr] at hrunT
  -- the stub, and the branch back
  have hrunS := (swattARMDbAttack lay base).steps_straight hatS.left (by decide)
    (execAll (blockStart base i) tFunc s)
  have hback := (swattARMDbAttack lay base).step_branch (hatS.right 0 Nat.zero_lt_one)
    ((execAll (blockStart base i) tFunc s).write 9
      (load m (loadAddr base i (checksumOf s) + 0x500)))
  rw [exec_attackStub, hT.r11, hT.mem, hm] at hrunS
  -- the rest of the block
  have hrunM := (swattARMDbAttack lay base).steps_straight hatM (mixCode_isBranch i)
    ((execAll (blockStart base i) tFunc s).write 9
      (load m (loadAddr base i (checksumOf s) + 0x500)))
  have haddrM : (swattARMDbAttack lay base).addr (initPos lay + (16 + 17 * i + 6)) =
      blockStart base i + 24 := by
    rw [← Nat.add_assoc, Program.addr_add, haddr]
    rfl
  rw [haddrM, mixCode_length] at hrunM
  obtain ⟨hk, hf⟩ := exec_mixCode (w := load m (loadAddr base i (checksumOf s) + 0x500)) hT i
  refine ⟨_, ?_, hk, hf⟩
  rw [show initPos lay + 16 + 17 * i.val = initPos lay + (16 + 17 * i.val) by omega,
    show initPos lay + 16 + 17 * (i.val + 1) = initPos lay + (16 + 17 * i.val + 6) + 11 by omega]
  rw [Cond.holds, if_pos rfl, htS] at hgo
  rw [Cond.holds, if_pos rfl, htM] at hback
  exact ((((hrunT.trans (.single hgo)).trans hrunS).trans (.single hback)).trans hrunM)

/-- Behind the stored checksum the attack jumps over its stubs, to the same
    tail. -/
theorem attack_tail (s : Cpu) :
    ∃ a n, Halts (swattARMDbAttack lay base).step ⟨s, initPos lay + 16 + 137 + 13⟩
      ⟨execAll a (enableInterrupts ++ restoreReglist) s, n⟩ := by
  have hb : (swattARMDbAttack lay base).At (initPos lay + 166) [.b .al .jmpOverAttack] :=
    program_at lay loadAttack attackStubs base _ 166 (by decide +kernel)
  have hat : (swattARMDbAttack lay base).At (initPos lay + 199)
      (enableInterrupts ++ restoreReglist) :=
    program_at lay loadAttack attackStubs base _ 199 (by decide +kernel)
  have htarget : (swattARMDbAttack lay base).target .jmpOverAttack = initPos lay + 199 :=
    program_target lay loadAttack attackStubs base .jmpOverAttack
  have hjump := (swattARMDbAttack lay base).step_branch (hb 0 (by decide)) s
  rw [Cond.holds, if_pos rfl, htarget] at hjump
  have hend : (swattARMDbAttack lay base).code.length =
      initPos lay + 199 + (enableInterrupts ++ restoreReglist).length := by
    have hlen : (assemble (bodyItems loadAttack attackStubs)).length =
        199 + (enableInterrupts ++ restoreReglist).length := by decide +kernel
    rw [Nat.add_assoc, ← hlen]
    exact program_length lay loadAttack attackStubs base
  obtain ⟨hrun, hhalt⟩ := (swattARMDbAttack lay base).halts_straight hat (by decide) hend s
  exact ⟨_, _, (Reaches.single hjump).trans hrun, hhalt⟩

theorem attack_returns (s : Cpu) :
    ∃ t, Halts (swattARMDbAttack lay base).step ⟨s, initPos lay + 16 + 137 + 13⟩ t ∧
      t.cpu.mem = s.mem := by
  obtain ⟨a, n, hhalt⟩ := attack_tail lay base s
  exact ⟨_, hhalt, execAll_mem (by decide) a s⟩

theorem build_attack :
    Build (swattARMDbAttack lay base) lay base fun m a => load m (a + 0x500) where
  entry := .of_drop rfl
  init := program_at lay loadAttack attackStubs base _ 0 (by decide +kernel)
  blocks := attack_blocks lay base
  back := program_at lay loadAttack attackStubs base [.b .ne .checksum] 152 (by decide +kernel) 0
    (by decide)
  top := program_target lay loadAttack attackStubs base .checksum
  save := program_at lay loadAttack attackStubs base _ 153 (by decide +kernel)
  returns := attack_returns lay base

end attack

/-! ## Section 3: The forged checksum -/

/-- **The attack forges the genuine checksum.**  Both builds have their
    `init_checksum` at `base`, a multiple of 256, and are entered with the
    same status register, challenge and counter, a multiple of 8.  When the
    attack's memory holds, 0x500 bytes on, what the genuine memory holds in
    the 768 bytes from `base`, both runs end and store the same 13 words into
    the challenge.  `s` and `s'` are the processor states at the entry. -/
theorem attack_forges (lay lay' : Layout) (base counter challenge challenge' : Word) (s s' : Cpu)
    (hbase : base.toNat % 256 = 0) (hcounter : counter.toNat % 8 = 0)
    (haddr : s.r lay.addrReg = challenge) (haddr' : s'.r lay'.addrReg = challenge')
    (hplace : Placement base 0 (s.r 13) challenge)
    (hplace' : Placement base 0x500 (s'.r 13) challenge') (hstatus : s'.cpsr = s.cpsr)
    (hwords : ∀ j < 13, load s'.mem (challenge' + BitVec.ofNat 32 (4 * j)) =
      load s.mem (challenge + BitVec.ofNat 32 (4 * j)))
    (hcopy : ∀ j < 192, load s'.mem (base + BitVec.ofNat 32 (4 * j) + 0x500) =
      load s.mem (base + BitVec.ofNat 32 (4 * j))) :
    ∃ t t',
      Halts (swattARM lay base).step (enter (swattARM lay base) counter challenge 52 s) t ∧
      Halts (swattARMDbAttack lay' base).step
        (enter (swattARMDbAttack lay' base) counter challenge' 52 s') t' ∧
      ∀ j < 13, load t'.cpu.mem (challenge' + BitVec.ofNat 32 (4 * j)) =
        load t.cpu.mem (challenge + BitVec.ofNat 32 (4 * j)) := by
  obtain ⟨t, hhalt, ht, -⟩ := (build_genuine lay base).run hbase hcounter haddr hplace
  obtain ⟨t', hhalt', ht', -⟩ := (build_attack lay' base).run hbase hcounter haddr' hplace'
  refine ⟨t, t', hhalt, hhalt', fun j hj => ?_⟩
  -- both loops read the same 768 bytes, and start from the same challenge
  have hcopy' : ∀ j < 192, load s'.mem (base + BitVec.ofNat 32 (4 * j) + 0x500) =
      load s.mem (base + BitVec.ofNat 32 (4 * j) + 0) := by
    intro j hj
    rw [hcopy j hj]
    exact congrArg _ (BitVec.add_zero _).symm
  have hsame : ∀ k, finalChecksum base (fun a => load s'.mem (a + 0x500)) k =
      finalChecksum base (fun a => load s.mem (a + 0)) k :=
    finalChecksum_congr hbase hcopy'
  have hinit : ∀ j < 13, challengeWords s'.mem challenge' counter j =
      challengeWords s.mem challenge counter j := by
    intro j hj
    simp only [challengeWords, hwords j hj]
  rw [ht j hj, ht' j hj, hsame, initialChecksum_congr hinit, hstatus]

/-- A processor with its stack at 0x2000 and a challenge at 0x3000. -/
def sampleCpu (mem : Memory) : Cpu where
  r i := if i = 13 then 0x2000 else if i = 11 then 0x3000 else 0
  cpsr := 0x60000013
  mem := mem

/-- Words equal to their addresses, with a copy of 0x8000..0x82ff at 0x8500. -/
def copiedMemory : Memory := fun a => if 0x8500 ≤ a ∧ a < 0x8800 then a - 0x500 else a

theorem attack_forges_sample :
    ∃ t t',
      Halts (swattARM ⟨11, 3, .inl rfl⟩ 0x8000).step
        (enter (swattARM ⟨11, 3, .inl rfl⟩ 0x8000) 0x1000000 0x3000 52 (sampleCpu id)) t ∧
      Halts (swattARMDbAttack ⟨11, 5, .inl rfl⟩ 0x8000).step
        (enter (swattARMDbAttack ⟨11, 5, .inl rfl⟩ 0x8000) 0x1000000 0x3000 52
          (sampleCpu copiedMemory)) t' ∧
      ∀ j < 13, load t'.cpu.mem (0x3000 + BitVec.ofNat 32 (4 * j)) =
        load t.cpu.mem (0x3000 + BitVec.ofNat 32 (4 * j)) :=
  attack_forges _ _ 0x8000 0x1000000 0x3000 0x3000 (sampleCpu id) (sampleCpu copiedMemory)
    (by decide) (by decide) rfl rfl
    ⟨by decide +kernel, by decide +kernel, by decide +kernel⟩
    ⟨by decide +kernel, by decide +kernel, by decide +kernel⟩
    rfl (by decide +kernel) (by decide +kernel)

end Swatt
