import VetGumstix.Swatt.Loop

/-! # Whole Runs of the Checksum Code

    From the entry of the inline assembly to its end: save the registers,
    load the challenge, run the loop, store the checksum, restore the
    registers.  The parts around the loop are the same in both builds, so the
    run is described once, for any build whose blocks run with a load
    function and whose tail returns.
-/

namespace Swatt

open Arm Machine

/-! ## Section 1: The parts around the loop -/

/-- The words stored into the challenge, in the order of `save_checksum`. -/
def Checksum.stored (k : Checksum) (j : Nat) : Word :=
  if h : j < 8 then k.c ⟨j, h⟩
  else if j = 8 then k.word
  else if j = 9 then k.x
  else if j = 10 then k.tmp
  else if j = 11 then k.counter
  else k.link

/-- The checksum state behind `init_checksum` and the disabling of
    interrupts, for a challenge of 13 words. -/
def initialChecksum (words : Nat → Word) (cpsr : Word) : Checksum where
  c i := words i
  word := words 8
  x := words 9
  tmp := cpsr ||| 0xd3
  counter := words 11
  link := words 12
  status := (cpsr &&& 0xffffff00) ||| ((cpsr ||| 0xd3) &&& 0xff)

/-- `save_reglist` pushes registers one by one. -/
def pushAll (xs : List Reg) : Code := xs.map .push

theorem exec_pushAll (a : Word) (xs : List Reg) (s : Cpu) :
    (∀ x, x ≠ 13 → (execAll a (pushAll xs) s).r x = s.r x) ∧
    (execAll a (pushAll xs) s).cpsr = s.cpsr ∧
    ∀ b, (∀ i < xs.length, wordAddr (s.r 13 - BitVec.ofNat 32 (4 * (i + 1))) ≠ wordAddr b) →
      load (execAll a (pushAll xs) s).mem b = load s.mem b := by
  induction xs generalizing a s with
  | nil => exact ⟨fun _ _ => rfl, rfl, fun _ _ => rfl⟩
  | cons x xs ih =>
    obtain ⟨hr, hc, hm⟩ := ih (a + 4) ((Instr.push x : Instr Label).exec (a + 8) s)
    refine ⟨?_, hc, ?_⟩
    · intro y hy
      rw [pushAll, List.map_cons, execAll]
      exact (hr y hy).trans (by simp [Instr.exec, hy])
    · intro b hb
      rw [pushAll, List.map_cons, execAll]
      have hsp : ((Instr.push x : Instr Label).exec (a + 8) s).r 13 = s.r 13 - 4 := by
        simp [Instr.exec]
      -- the pushes after the first go further down
      have hrest : ∀ i < xs.length, wordAddr (((Instr.push x : Instr Label).exec (a + 8) s).r 13 -
          BitVec.ofNat 32 (4 * (i + 1))) ≠ wordAddr b := by
        intro i hi
        rw [hsp, sub_word_succ]
        exact hb (i + 1) (by simpa using hi)
      have hfirst : wordAddr b ≠ wordAddr (s.r 13 - 4) := (hb 0 (by simp)).symm
      refine (hm b hrest).trans ?_
      simp only [Instr.exec, Cpu.setMem_mem]
      exact load_store_of_ne _ _ hfirst

/-- What the push of `x` stores on top of `i` words: for `r13` the pointer as
    it is then. -/
def pushed (s : Cpu) (i : Nat) (x : Reg) : Word :=
  if x = 13 then s.r 13 - BitVec.ofNat 32 (4 * i) else s.r x

/-- The pushed words stand below the stack pointer, the first of them
    uppermost. -/
theorem exec_pushAll_stack (a : Word) (xs : List Reg) (hlen : xs.length < 2 ^ 30) (h15 : 15 ∉ xs)
    (s : Cpu) :
    (execAll a (pushAll xs) s).r 13 = s.r 13 - BitVec.ofNat 32 (4 * xs.length) ∧
    ∀ i x, xs[i]? = some x →
      load (execAll a (pushAll xs) s).mem (s.r 13 - BitVec.ofNat 32 (4 * (i + 1))) =
        pushed s i x := by
  induction xs generalizing a s with
  | nil => exact ⟨(BitVec.sub_zero _).symm, by simp⟩
  | cons y xs ih =>
    rw [List.length_cons] at hlen
    rw [List.mem_cons, not_or] at h15
    generalize hs' : (Instr.push y : Instr Label).exec (a + 8) s = s'
    have hcode : execAll a (pushAll (y :: xs)) s = execAll (a + 4) (pushAll xs) s' := by
      rw [← hs']
      rfl
    have hsp : s'.r 13 = s.r 13 - 4 := by
      rw [← hs']
      simp [Instr.exec]
    have hdown : ∀ n : Nat, s'.r 13 - BitVec.ofNat 32 (4 * n) =
        s.r 13 - BitVec.ofNat 32 (4 * (n + 1)) := by
      intro n
      rw [hsp, sub_word_succ]
    obtain ⟨hr, hm⟩ := ih (a + 4) (by omega) h15.2 s'
    rw [hcode]
    refine ⟨by rw [hr, hdown, List.length_cons], ?_⟩
    intro i x hx
    cases i with
    | zero =>
      -- the pushes after the first go further down
      obtain rfl : y = x := by simpa using hx
      have hkeep := (exec_pushAll (a + 4) xs s').2.2 (s.r 13 - 4) (by
        intro i hi h
        rw [hdown] at h
        exact absurd (wordAddr_sub_inj (j := i + 1 + 1) (k := 1) (by omega) (by decide) h)
          (by omega))
      refine hkeep.trans ?_
      rw [← hs']
      simp only [Instr.exec, Cpu.setMem_mem, load_store_same]
      rw [Cpu.read_of_ne _ _ _ (Ne.symm h15.1)]
      by_cases h13 : y = 13
      · subst h13
        exact (BitVec.sub_zero _).symm
      · simp [pushed, h13]
    | succ i =>
      have hword := hm i x (by simpa using hx)
      rw [hdown] at hword
      rw [hword]
      unfold pushed
      split
      · exact hdown i
      · next h13 =>
        rw [← hs']
        simp [Instr.exec, h13]

theorem exec_nops (a : Word) (n : Nat) (s : Cpu) :
    execAll a (List.replicate n .nop : Code) s = s := by
  induction n generalizing a with
  | zero => rfl
  | succ n ih => exact ih (a + 4)

/-- The code in front of `init_checksum`: `r0` points to the challenge, and
    memory changes only in the 15 words below the stack pointer. -/
theorem exec_entryCode (lay : Layout) (a : Word) (s : Cpu) :
    (execAll a (entryCode lay) s).r 0 = s.r lay.addrReg ∧
    (execAll a (entryCode lay) s).cpsr = s.cpsr ∧
    ∀ b, (∀ i < 15, wordAddr (s.r 13 - BitVec.ofNat 32 (4 * (i + 1))) ≠ wordAddr b) →
      load (execAll a (entryCode lay) s).mem b = load s.mem b := by
  obtain ⟨hr, hc, hm⟩ := exec_pushAll a [0, 1, 2, 3, 4, 5, 6, 7, 8, 9, 10, 11, 12, 13, 14] s
  have hcode : saveReglist = pushAll [0, 1, 2, 3, 4, 5, 6, 7, 8, 9, 10, 11, 12, 13, 14] := rfl
  have hreg : lay.addrReg ≠ 13 ∧ lay.addrReg ≠ 15 := by
    rcases lay.addrReg_free with h | h | h <;> rw [h] <;> decide
  unfold entryCode
  rw [execAll_append, exec_nops, execAll_append, hcode]
  simp only [execAll, Instr.exec, Operand.value, Cpu.read_of_ne _ _ _ hreg.2, Cpu.write_r,
    Cpu.write_cpsr, Cpu.write_mem, if_true]
  exact ⟨hr _ hreg.1, hc, hm⟩

/-- The registers stand below the stack pointer, `r0` uppermost. -/
theorem exec_entryCode_stack (lay : Layout) (a : Word) (s : Cpu) :
    (execAll a (entryCode lay) s).r 13 = s.r 13 - 60 ∧
    ∀ x : Reg, x.val < 15 →
      load (execAll a (entryCode lay) s).mem (s.r 13 - BitVec.ofNat 32 (4 * (x + 1))) =
        pushed s x x := by
  obtain ⟨hr, hm⟩ := exec_pushAll_stack a [0, 1, 2, 3, 4, 5, 6, 7, 8, 9, 10, 11, 12, 13, 14]
    (by decide) (by decide) s
  have hcode : saveReglist = pushAll [0, 1, 2, 3, 4, 5, 6, 7, 8, 9, 10, 11, 12, 13, 14] := rfl
  have horder : ∀ x : Reg, x.val < 15 →
      ([0, 1, 2, 3, 4, 5, 6, 7, 8, 9, 10, 11, 12, 13, 14] : List Reg)[x.val]? = some x := by decide
  unfold entryCode
  rw [execAll_append, exec_nops, execAll_append, hcode]
  refine ⟨?_, fun x hx => hm x x (horder x hx)⟩
  refine Eq.trans ?_ hr
  simp [execAll, Instr.exec]

/-- `init_checksum` and the disabling of interrupts. -/
theorem exec_initChecksum (a : Word) (s : Cpu) :
    checksumOf (execAll a (initChecksum ++ disableInterrupts) s) =
      initialChecksum (fun j => load s.mem (s.r 0 + BitVec.ofNat 32 (4 * j))) s.cpsr ∧
    (execAll a (initChecksum ++ disableInterrupts) s).r 0 = s.r 0 ∧
    (execAll a (initChecksum ++ disableInterrupts) s).mem = s.mem := by
  refine ⟨?_, ?_, execAll_mem (by decide) a s⟩
  · refine Checksum.ext (funext fun i => ?_) ?_ ?_ ?_ ?_ ?_ ?_
    · match i with
      | 0 | 1 | 2 | 3 | 4 | 5 | 6 | 7 =>
        simp [initChecksum, disableInterrupts, execAll, Instr.exec, checksumOf, cReg,
          initialChecksum, Cpu.read]
    all_goals
      simp [initChecksum, disableInterrupts, execAll, Instr.exec, checksumOf, initialChecksum,
        Cpu.read, Operand.value, LogicOp.value]
  · simp [initChecksum, disableInterrupts, execAll, Instr.exec]

/-- `save_checksum` stores the 13 words at `r0`. -/
theorem exec_saveChecksum (a : Word) (s : Cpu) :
    (execAll a saveChecksum s).mem = storeWords s.mem (s.r 0) (checksumOf s).stored 13 := by
  simp [saveChecksum, execAll, Instr.exec, storeWords, Checksum.stored, checksumOf, cReg, Cpu.read]

theorem entryCode_straight {lay : Layout} : ∀ i ∈ entryCode lay, i.isBranch = false := by
  intro i hi
  simp only [entryCode, List.mem_append, List.mem_singleton, List.mem_replicate] at hi
  rcases hi with (hi | hi) | ⟨-, hi⟩
  · revert i
    decide
  · rw [hi]
    rfl
  · rw [hi]
    rfl

/-! ## Section 2: Positions -/

section program

variable (lay : Layout) (fetch : Fin 8 → List (Item Label)) (stubs : List (Item Label))
  (base : Word)

/-- The position of `init_checksum`. -/
def initPos (lay : Layout) : Nat := (entryCode lay).length

theorem program_addr (j : Nat) :
    (program lay fetch stubs base).addr (initPos lay + j) = base + BitVec.ofNat 32 (4 * j) := by
  show base - BitVec.ofNat 32 (4 * initPos lay) + BitVec.ofNat 32 (4 * (initPos lay + j)) = _
  rw [Nat.mul_add, BitVec.ofNat_add, ← BitVec.add_assoc, BitVec.sub_add_cancel]

/-- The code from `init_checksum` on. -/
theorem program_body (m : Nat) :
    (program lay fetch stubs base).code[initPos lay + m]? =
      (assemble (bodyItems fetch stubs))[m]? := by
  show (entryCode lay ++ assemble (bodyItems fetch stubs))[(entryCode lay).length + m]? = _
  rw [List.getElem?_append_right (Nat.le_add_right _ _), Nat.add_sub_cancel_left]

/-- An instruction of the listing stands in front of `init_checksum` or behind
    it. -/
theorem program_code {n : Nat} {i : Instr Label}
    (h : (program lay fetch stubs base).code[n]? = some i) :
    (n < initPos lay ∧ i ∈ entryCode lay) ∨
      ∃ m, n = initPos lay + m ∧ (assemble (bodyItems fetch stubs))[m]? = some i := by
  by_cases hn : n < initPos lay
  · have hcode : (entryCode lay ++ assemble (bodyItems fetch stubs))[n]? = some i := h
    rw [List.getElem?_append_left hn] at hcode
    exact .inl ⟨hn, List.mem_of_getElem? hcode⟩
  · obtain ⟨m, rfl⟩ := Nat.exists_eq_add_of_le (Nat.le_of_not_lt hn)
    rw [program_body] at h
    exact .inr ⟨m, rfl, h⟩

theorem program_at (is : Code) (j : Nat)
    (h : ((assemble (bodyItems fetch stubs)).drop j).take is.length = is) :
    (program lay fetch stubs base).At (initPos lay + j) is := by
  have hsplit := List.take_append_drop is.length ((assemble (bodyItems fetch stubs)).drop j)
  rw [h] at hsplit
  refine Program.At.of_drop (Eq.trans ?_ hsplit.symm)
  show (entryCode lay ++ assemble (bodyItems fetch stubs)).drop ((entryCode lay).length + j) = _
  rw [List.drop_length_add_append]

theorem program_target (l : Label) :
    (program lay fetch stubs base).target l =
      initPos lay + labelPos l (bodyItems fetch stubs) :=
  labelPos_instrs l (entryCode lay) _

theorem program_length :
    (program lay fetch stubs base).code.length =
      initPos lay + (assemble (bodyItems fetch stubs)).length :=
  List.length_append

end program

/-! ## Section 3: Builds -/

/-- A build of the checksum code, with `init_checksum` at `base`, whose blocks
    load with `ld`. -/
structure Build (P : Program Label) (lay : Layout) (base : Word) (ld : Memory → Word → Word) :
    Prop where
  entry   : P.At 0 (entryCode lay)
  init    : P.At (initPos lay) (initChecksum ++ disableInterrupts)
  blocks  : ∀ m, BlocksRun P base (initPos lay + 16) (ld m) m
  back    : P.code[initPos lay + 16 + 136]? = some (.b .ne .checksum)
  top     : P.target .checksum = initPos lay + 16
  save    : P.At (initPos lay + 16 + 137) saveChecksum
  returns : ∀ s, ∃ t, Halts P.step ⟨s, initPos lay + 16 + 137 + 13⟩ t ∧ t.cpu.mem = s.mem

/-- Where the code, the stack and the challenge lie: the 15 words below the
    stack pointer are apart from the 13 words of the challenge, and neither
    they nor `challenge[11]`, which are written before the loop, are among the
    words the loop reads, the 768 bytes at distance `off` from `base`. -/
structure Placement (base off sp challenge : Word) : Prop where
  stack_challenge : ∀ i < 15, ∀ j < 13, wordAddr (sp - BitVec.ofNat 32 (4 * (i + 1))) ≠
    wordAddr (challenge + BitVec.ofNat 32 (4 * j))
  stack_code      : ∀ i < 15, ∀ j < 192, wordAddr (sp - BitVec.ofNat 32 (4 * (i + 1))) ≠
    wordAddr (base + BitVec.ofNat 32 (4 * j) + off)
  challenge_code  : ∀ j < 192, wordAddr (challenge + 44) ≠
    wordAddr (base + BitVec.ofNat 32 (4 * j) + off)

/-- The challenge as the assembly finds it: word 11 is the counter. -/
def challengeWords (m : Memory) (challenge counter : Word) (j : Nat) : Word :=
  if j = 11 then counter else load m (challenge + BitVec.ofNat 32 (4 * j))

theorem initialChecksum_congr {w w' : Nat → Word} (h : ∀ j < 13, w j = w' j) (cpsr : Word) :
    initialChecksum w cpsr = initialChecksum w' cpsr := by
  have hc : (fun i : Fin 8 => w i) = fun i : Fin 8 => w' i :=
    funext fun i => h i (by omega)
  simp only [initialChecksum, hc, h 8 (by decide), h 9 (by decide), h 11 (by decide),
    h 12 (by decide)]

/-- Storing the counter makes the challenge words of the assembly. -/
theorem load_counter (m : Memory) (challenge counter : Word) {j : Nat} (hj : j < 13) :
    load (store m (challenge + 44) counter) (challenge + BitVec.ofNat 32 (4 * j)) =
      challengeWords m challenge counter j := by
  unfold challengeWords
  have h44 : challenge + 44 = challenge + BitVec.ofNat 32 (4 * 11) := rfl
  split
  · next h => rw [h, h44, load_store_same]
  · next h =>
    rw [h44, load_store_of_ne]
    exact fun he => h (wordAddr_inj (by omega) (by decide) he)

section build

variable {P : Program Label} {lay : Layout} {base off challenge : Word}

/-- Up to the loop the code is straight. -/
theorem Build.steps_entry {ld : Memory → Word → Word} (h : Build P lay base ld)
    (counter challenge : Word) (s : Cpu) :
    Reaches P.step (enter P counter challenge 52 s)
      ⟨execAll (P.addr (initPos lay)) (initChecksum ++ disableInterrupts)
        (execAll (P.addr 0) (entryCode lay)
          { s with mem := store s.mem (challenge + 44) counter }), initPos lay + 16⟩ := by
  have hentry := P.steps_straight h.entry entryCode_straight
    { s with mem := store s.mem (challenge + 44) counter }
  rw [Nat.zero_add] at hentry
  exact hentry.trans (P.steps_straight h.init (by decide) _)

/-- What the code in front of the loop makes of `s`: the challenge is in the
    registers, which are saved on the stack, and memory has changed only there
    and in the counter. -/
structure Entered (challenge counter : Word) (s s' : Cpu) : Prop where
  checksum : checksumOf s' = initialChecksum (challengeWords s.mem challenge counter) s.cpsr
  r0       : s'.r 0 = challenge
  sp       : s'.r 13 = s.r 13 - 60
  stack    : ∀ x : Reg, x.val < 15 →
    load s'.mem (s.r 13 - BitVec.ofNat 32 (4 * (x + 1))) = pushed s x x
  mem      : ∀ b, (∀ i < 15, wordAddr (s.r 13 - BitVec.ofNat 32 (4 * (i + 1))) ≠ wordAddr b) →
    load s'.mem b = load (store s.mem (challenge + 44) counter) b

/-- Storing the checksum leaves memory outside the stack and the challenge as
    it was on entry. -/
theorem Entered.load_outside {counter : Word} {s s' : Cpu} (h : Entered challenge counter s s')
    (f : Nat → Word) {b : Word}
    (hstack : ∀ i < 15, wordAddr (s.r 13 - BitVec.ofNat 32 (4 * (i + 1))) ≠ wordAddr b)
    (hwords : ∀ j < 13, wordAddr (challenge + BitVec.ofNat 32 (4 * j)) ≠ wordAddr b) :
    load (storeWords s'.mem challenge f 13) b = load s.mem b := by
  rw [load_storeWords_of_ne _ _ _ hwords, h.mem b hstack]
  exact load_store_of_ne _ _ (hwords 11 (by decide)).symm

theorem Build.run_entry {ld : Memory → Word → Word} (h : Build P lay base ld) (counter : Word)
    {s : Cpu} (haddr : s.r lay.addrReg = challenge)
    (hapart : ∀ i < 15, ∀ j < 13, wordAddr (s.r 13 - BitVec.ofNat 32 (4 * (i + 1))) ≠
      wordAddr (challenge + BitVec.ofNat 32 (4 * j))) :
    ∃ s', Reaches P.step (enter P counter challenge 52 s) ⟨s', initPos lay + 16⟩ ∧
      Entered challenge counter s s' := by
  have hrun := h.steps_entry counter challenge s
  -- `enter` writes the counter into the challenge
  obtain ⟨h0, hcpsr, hmem⟩ := exec_entryCode lay (P.addr 0)
    { s with mem := store s.mem (challenge + 44) counter }
  obtain ⟨hsp, hstack⟩ := exec_entryCode_stack lay (P.addr 0)
    { s with mem := store s.mem (challenge + 44) counter }
  generalize execAll (P.addr 0) (entryCode lay)
    { s with mem := store s.mem (challenge + 44) counter } = s₁ at hrun h0 hcpsr hmem hsp hstack
  have h0 : s₁.r 0 = challenge := h0.trans haddr
  obtain ⟨hk, h0', hmem'⟩ := exec_initChecksum (P.addr (initPos lay)) s₁
  have hwords : ∀ j < 13, load s₁.mem (s₁.r 0 + BitVec.ofNat 32 (4 * j)) =
      challengeWords s.mem challenge counter j := by
    intro j hj
    rw [h0, hmem _ fun i hi => hapart i hi j hj]
    exact load_counter _ _ _ hj
  rw [initialChecksum_congr hwords, hcpsr] at hk
  refine ⟨_, hrun, hk, h0'.trans h0, ?_, ?_, ?_⟩
  · rw [execAll_r (by decide), hsp]
  · intro x hx
    rw [hmem']
    exact hstack x hx
  · intro b hb
    rw [hmem', hmem b hb]

/-- Behind the loop the checksum is stored and the build returns. -/
theorem Build.leave {ld : Memory → Word → Word} (h : Build P lay base ld) (s : Cpu) :
    ∃ t, Halts P.step ⟨s, initPos lay + 16 + 137⟩ t ∧
      t.cpu.mem = storeWords s.mem (s.r 0) (checksumOf s).stored 13 := by
  have hsave := P.steps_straight h.save (by decide) s
  obtain ⟨t, ⟨hret, hhalt⟩, hmem⟩ :=
    h.returns (execAll (P.addr (initPos lay + 16 + 137)) saveChecksum s)
  exact ⟨t, ⟨hsave.trans hret, hhalt⟩, hmem.trans (exec_saveChecksum _ s)⟩

/-- From the loop on: the final checksum is stored where `r0` points. -/
theorem Build.run_loop {ld : Memory → Word → Word} (h : Build P lay base ld) (s : Cpu)
    (h8 : (s.r 12).toNat % 8 = 0) :
    ∃ t, Halts P.step ⟨s, initPos lay + 16⟩ t ∧
      t.cpu.mem =
        storeWords s.mem (s.r 0) (finalChecksum base (ld s.mem) (checksumOf s)).stored 13 := by
  obtain ⟨s₁, hloop, hk, hf⟩ := loop_final (h.blocks s.mem) h.back h.top s rfl h8
  obtain ⟨t, ⟨hleave, hhalt⟩, hmem⟩ := h.leave s₁
  rw [hf.mem, hf.r0, hk] at hmem
  exact ⟨t, ⟨hloop.trans hleave, hhalt⟩, hmem⟩

/-- **A run of a build** ends, with the final checksum of the challenge stored
    in the challenge, and memory as it was outside the stack and the 13
    words.  `off` is where the build reads its words. -/
theorem Build.run {counter : Word} (h : Build P lay base fun m a => load m (a + off))
    (hbase : base.toNat % 256 = 0) (hcounter : counter.toNat % 8 = 0) {s : Cpu}
    (haddr : s.r lay.addrReg = challenge) (hplace : Placement base off (s.r 13) challenge) :
    ∃ t, Halts P.step (enter P counter challenge 52 s) t ∧
      (∀ j < 13, load t.cpu.mem (challenge + BitVec.ofNat 32 (4 * j)) =
        (finalChecksum base (fun a => load s.mem (a + off))
          (initialChecksum (challengeWords s.mem challenge counter) s.cpsr)).stored j) ∧
      ∀ b, (∀ i < 15, wordAddr (s.r 13 - BitVec.ofNat 32 (4 * (i + 1))) ≠ wordAddr b) →
        (∀ j < 13, wordAddr (challenge + BitVec.ofNat 32 (4 * j)) ≠ wordAddr b) →
        load t.cpu.mem b = load s.mem b := by
  obtain ⟨s₁, hentry, hs₁⟩ := h.run_entry counter haddr hplace.stack_challenge
  have h12 : s₁.r 12 = counter := congrArg Checksum.counter hs₁.checksum
  obtain ⟨t, ⟨hrun, hhalt⟩, hmem⟩ := h.run_loop s₁ (h12 ▸ hcounter)
  -- the loop reads none of the words written before it
  have hcode : ∀ j < 192, load s₁.mem (base + BitVec.ofNat 32 (4 * j) + off) =
      load s.mem (base + BitVec.ofNat 32 (4 * j) + off) := by
    intro j hj
    rw [hs₁.mem _ fun i hi => hplace.stack_code i hi j hj]
    exact load_store_of_ne _ _ (hplace.challenge_code j hj).symm
  have hsame : ∀ k, finalChecksum base (fun a => load s₁.mem (a + off)) k =
      finalChecksum base (fun a => load s.mem (a + off)) k :=
    finalChecksum_congr hbase hcode
  rw [hs₁.r0, hs₁.checksum, hsame] at hmem
  refine ⟨t, ⟨hentry.trans hrun, hhalt⟩, ?_, ?_⟩
  · intro j hj
    rw [hmem]
    exact load_storeWords _ _ _ (by decide) hj
  · intro b hstack hwords
    rw [hmem]
    exact hs₁.load_outside _ hstack hwords

end build

end Swatt
