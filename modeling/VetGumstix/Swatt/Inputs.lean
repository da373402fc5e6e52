import VetGumstix.Swatt.Attack

/-! # What the Checksum Depends On

    A block reads the checksum words, `x`, the counter, the carry and the
    status bits below the condition flags.  It overwrites `r9` and `r11`
    before it uses them, sets all four flags before it mixes the status in,
    and never touches `r14`.  So two checksum states that are `Alike` go to
    states that differ in `r14` alone, after one block and after any number
    of passes.

    * `nine_words_reach`: of the challenge, only words 0..7 and 9 matter.
    * `reproducible_iff`: of the condition flags at the entry, the carry
      matters: the first `adcs` of block 1 takes it in.
-/

namespace Swatt

open Arm Machine

/-! ## Section 1: States the loop does not tell apart -/

/-- The same checksum words, `x` and counter, and status registers that agree
    on the carry and below the flags.  `r9`, `r11` and `r14` are free. -/
structure Alike (k k' : Checksum) : Prop where
  c       : k'.c = k.c
  x       : k'.x = k.x
  counter : k'.counter = k.counter
  carry   : carry k'.status = carry k.status
  low     : k'.status &&& 0x0fffffff = k.status &&& 0x0fffffff

/-- The state with another `r14`. -/
def Checksum.withLink (k : Checksum) (l : Word) : Checksum := { k with link := l }

theorem Alike.withLink (k : Checksum) (l : Word) : Alike k (k.withLink l) :=
  ⟨rfl, rfl, rfl, rfl, rfl⟩

theorem Alike.addFirstUpdate_eq {k k' : Checksum} (h : Alike k k') (i p2 p1 : Fin 8)
    (a w : Word) :
    addFirstUpdate k' i p2 p1 a w = (addFirstUpdate k i p2 p1 a w).withLink k'.link := by
  have hsum : addFirstSum k' i p2 w = addFirstSum k i p2 w := by
    simp only [addFirstSum, h.c, h.x, h.carry]
  have hmix : addFirstMix k' i p2 p1 a w = addFirstMix k i p2 p1 a w := by
    simp only [addFirstMix, hsum, h.c, h.x, Sum.flags_congr h.low]
  simp only [addFirstUpdate, Checksum.withLink, hsum, hmix, h.c, h.x, h.counter,
    Sum.flags_congr h.low]

theorem Alike.xorFirstUpdate_eq {k k' : Checksum} (h : Alike k k') (i p2 p1 : Fin 8)
    (last : Bool) (a w : Word) :
    xorFirstUpdate k' i p2 p1 last a w =
      (xorFirstUpdate k i p2 p1 last a w).withLink k'.link := by
  have hsum : xorFirstSum k' i p2 p1 a w = xorFirstSum k i p2 p1 a w := by
    simp only [xorFirstSum, h.c, h.x, h.carry]
  have hmix : xorFirstMix k' i p2 p1 a w = xorFirstMix k i p2 p1 a w := by
    simp only [xorFirstMix, hsum, h.x, Sum.flags_congr h.low]
  have hcount : counterSum k' = counterSum k := by simp only [counterSum, h.counter]
  simp only [xorFirstUpdate, Checksum.withLink, hsum, hmix, hcount, h.c, h.x, h.counter,
    Sum.flags_congr h.low]

/-- One block leaves no difference but `r14`. -/
theorem Alike.blockUpdate_eq {k k' : Checksum} (h : Alike k k') (i : Fin 8) (a w : Word) :
    blockUpdate i k' a w = (blockUpdate i k a w).withLink k'.link := by
  match i with
  | 0 | 2 | 4 | 6 => exact h.addFirstUpdate_eq ..
  | 1 | 3 | 5 | 7 => exact h.xorFirstUpdate_eq ..

section loop

variable (base : Word) (ld : Word → Word)

theorem Alike.stepBlock_eq {k k' : Checksum} (h : Alike k k') (i : Fin 8) :
    stepBlock base ld i k' = (stepBlock base ld i k).withLink k'.link := by
  unfold stepBlock loadAddr
  rw [h.x]
  exact h.blockUpdate_eq ..

theorem Alike.runBlocks_eq {k k' : Checksum} (h : Alike k k') {n : Nat} (hn : n < 8) :
    runBlocks base ld (n + 1) k' = (runBlocks base ld (n + 1) k).withLink k'.link := by
  induction n with
  | zero => exact h.stepBlock_eq base ld 0
  | succ n ih =>
    have hlt : n + 1 < 8 := hn
    rw [runBlocks, dif_pos hlt, ih (by omega), (Alike.withLink _ _).stepBlock_eq,
      runBlocks.eq_def base ld (n + 1 + 1) k]
    simp only [dif_pos hlt]
    rfl

theorem Alike.pass_eq {k k' : Checksum} (h : Alike k k') :
    pass base ld k' = (pass base ld k).withLink k'.link :=
  h.runBlocks_eq base ld (n := 7) (by decide)

/-- The induction is on the passes; from the second on the states differ in
    `r14` only. -/
theorem Alike.passes_eq {k k' : Checksum} (h : Alike k k') (n : Nat) :
    (pass base ld)^[n + 1] k' = ((pass base ld)^[n + 1] k).withLink k'.link := by
  induction n with
  | zero => exact h.pass_eq base ld
  | succ n ih =>
    rw [Function.iterate_succ_apply' _ (n + 1) k', ih, (Alike.withLink _ _).pass_eq,
      Function.iterate_succ_apply' _ (n + 1) k]
    rfl

/-- **Alike states end alike**, with `r14` as it was in each. -/
theorem Alike.finalChecksum_eq {k k' : Checksum} (h : Alike k k')
    (h8 : k.counter.toNat % 8 = 0) :
    finalChecksum base ld k' = (finalChecksum base ld k).withLink k'.link := by
  obtain ⟨n, hn⟩ := Nat.exists_eq_succ_of_ne_zero (Nat.ne_of_gt (passes_pos h8))
  unfold finalChecksum
  rw [h.counter, hn]
  exact h.passes_eq base ld n

theorem finalChecksum_link {k : Checksum} (h8 : k.counter.toNat % 8 = 0) :
    (finalChecksum base ld k).link = k.link := by
  have h : finalChecksum base ld k = (finalChecksum base ld k).withLink k.link :=
    (Alike.withLink k k.link).finalChecksum_eq base ld h8
  rw [h]
  rfl

end loop

/-- What is stored does not show `r14` below word 12. -/
theorem stored_link (k : Checksum) (l : Word) {j : Nat} (hj : j < 12) :
    (k.withLink l).stored j = k.stored j := by
  unfold Checksum.stored
  split
  · rfl
  · split
    · rfl
    · split
      · rfl
      · split
        · rfl
        · have h11 : j = 11 := by omega
          rw [if_pos h11, if_pos h11]
          rfl

/-! ## Section 2: The challenge -/

/-- The nine words that count, words 0..7 and word 9. -/
theorem initialChecksum_alike {w w' : Nat → Word} {cpsr : Word} (h : ∀ j < 8, w' j = w j)
    (h9 : w' 9 = w 9) (h11 : w' 11 = w 11) :
    Alike (initialChecksum w cpsr) (initialChecksum w' cpsr) :=
  ⟨funext fun i => h i i.isLt, h9, h11, rfl, rfl⟩

/-- Where a challenge buffer of 64 words lies: apart from the 15 stack words,
    and like them outside the 768 code bytes. -/
structure BufferPlacement (base sp challenge : Word) : Prop where
  stack_buffer : ∀ i < 15, ∀ j < 64, wordAddr (sp - BitVec.ofNat 32 (4 * (i + 1))) ≠
    wordAddr (challenge + BitVec.ofNat 32 (4 * j))
  stack_code   : ∀ i < 15, ∀ j < 192, wordAddr (sp - BitVec.ofNat 32 (4 * (i + 1))) ≠
    wordAddr (base + BitVec.ofNat 32 (4 * j))
  buffer_code  : ∀ i < 64, ∀ j < 192, wordAddr (challenge + BitVec.ofNat 32 (4 * i)) ≠
    wordAddr (base + BitVec.ofNat 32 (4 * j))

theorem BufferPlacement.placement {base sp challenge : Word}
    (h : BufferPlacement base sp challenge) : Placement base 0 sp challenge where
  stack_challenge i hi j hj := h.stack_buffer i hi j (by omega)
  stack_code i hi j hj := by
    rw [show base + BitVec.ofNat 32 (4 * j) + 0 = base + BitVec.ofNat 32 (4 * j) from
      BitVec.add_zero _]
    exact h.stack_code i hi j hj
  challenge_code j hj := by
    rw [show base + BitVec.ofNat 32 (4 * j) + 0 = base + BitVec.ofNat 32 (4 * j) from
      BitVec.add_zero _]
    exact h.buffer_code 11 (by decide) j hj

/-- The stack below the buffer, the buffer below the code. -/
theorem BufferPlacement.of_order {base sp challenge : Word} (hbase : base.toNat % 4 = 0)
    (hsp : sp.toNat % 4 = 0) (hchallenge : challenge.toNat % 4 = 0) (hroom : 60 ≤ sp.toNat)
    (hbelow : sp.toNat ≤ challenge.toNat) (hbelow' : challenge.toNat + 256 ≤ base.toNat)
    (hend : base.toNat + 768 ≤ 2 ^ 32) : BufferPlacement base sp challenge := by
  have hb : ∀ j < 192, (base + BitVec.ofNat 32 (4 * j)).toNat = base.toNat + 4 * j := by
    intro j hj
    rw [BitVec.toNat_add, BitVec.toNat_ofNat]
    omega
  have hc : ∀ j < 64, (challenge + BitVec.ofNat 32 (4 * j)).toNat = challenge.toNat + 4 * j := by
    intro j hj
    rw [BitVec.toNat_add, BitVec.toNat_ofNat]
    omega
  have hs : ∀ i < 15, (sp - BitVec.ofNat 32 (4 * (i + 1))).toNat = sp.toNat - 4 * (i + 1) := by
    intro i hi
    have := sp.isLt
    rw [BitVec.toNat_sub, BitVec.toNat_ofNat]
    omega
  have hne : ∀ {a b : Word}, a.toNat % 4 = 0 → b.toNat % 4 = 0 → a.toNat < b.toNat →
      wordAddr a ≠ wordAddr b := by
    intro a b ha hb hlt he
    rw [wordAddr_of_aligned ha, wordAddr_of_aligned hb] at he
    exact Nat.ne_of_lt hlt (congrArg BitVec.toNat he)
  constructor
  · intro i hi j hj
    have hi' := hs i hi
    have hj' := hc j hj
    exact hne (by omega) (by omega) (by omega)
  · intro i hi j hj
    have hi' := hs i hi
    have hj' := hb j hj
    exact hne (by omega) (by omega) (by omega)
  · intro i hi j hj
    have hi' := hc i hi
    have hj' := hb j hj
    exact hne (by omega) (by omega) (by omega)

/-- The layout of `sampleCpu`. -/
theorem BufferPlacement.sample : BufferPlacement 0x8000 0x2000 0x3000 :=
  .of_order (by decide) (by decide) (by decide) (by decide) (by decide) (by decide) (by decide)

/-- A run on a buffer of 64 words: words 0..12 hold the final checksum, word
    11 ends as zero, and from word 12 on the buffer is as it was. -/
theorem run_buffer (lay : Layout) {base counter challenge : Word} {s : Cpu}
    (hbase : base.toNat % 256 = 0) (hcounter : counter.toNat % 8 = 0)
    (haddr : s.r lay.addrReg = challenge) (hplace : BufferPlacement base (s.r 13) challenge) :
    ∃ t, Halts (swattARM lay base).step (enter (swattARM lay base) counter challenge 52 s) t ∧
      (∀ j < 13, load t.cpu.mem (challenge + BitVec.ofNat 32 (4 * j)) =
        (finalChecksum base (fun a => load s.mem (a + 0))
          (initialChecksum (challengeWords s.mem challenge counter) s.cpsr)).stored j) ∧
      load t.cpu.mem (challenge + BitVec.ofNat 32 (4 * 11)) = 0 ∧
      ∀ j < 64, 12 ≤ j → load t.cpu.mem (challenge + BitVec.ofNat 32 (4 * j)) =
        load s.mem (challenge + BitVec.ofNat 32 (4 * j)) := by
  obtain ⟨t, hhalt, ht, hframe⟩ :=
    (build_genuine lay base).run hbase hcounter haddr hplace.placement
  generalize hk : initialChecksum (challengeWords s.mem challenge counter) s.cpsr = k at ht
  have h8 : k.counter.toNat % 8 = 0 := by
    rw [← hk]
    exact hcounter
  refine ⟨t, hhalt, ht, ?_, ?_⟩
  · rw [ht 11 (by decide)]
    exact finalChecksum_counter _ _ h8
  · intro j hj h12
    rcases Nat.eq_or_lt_of_le h12 with rfl | h12
    · -- word 12 is loaded into `r14` and stored from there
      rw [ht 12 (by decide)]
      refine (finalChecksum_link _ _ h8).trans ?_
      rw [← hk]
      rfl
    · refine hframe _ (fun i hi => hplace.stack_buffer i hi j hj) fun i hi he => ?_
      have := wordAddr_inj (by omega) (by omega) he
      omega

/-- **Nine challenge words reach the checksum.**  Two runs with the same load
    address, code words, counter and status register, whose challenges agree
    on words 0..7 and 9, end and leave the same words 0..11, word 11 being
    zero; words 12..63 of each buffer stay as they were. -/
theorem nine_words_reach (lay lay' : Layout) (base counter challenge challenge' : Word)
    (s s' : Cpu) (hbase : base.toNat % 256 = 0) (hcounter : counter.toNat % 8 = 0)
    (haddr : s.r lay.addrReg = challenge) (haddr' : s'.r lay'.addrReg = challenge')
    (hplace : BufferPlacement base (s.r 13) challenge)
    (hplace' : BufferPlacement base (s'.r 13) challenge') (hstatus : s'.cpsr = s.cpsr)
    (hcode : ∀ j < 192, load s'.mem (base + BitVec.ofNat 32 (4 * j)) =
      load s.mem (base + BitVec.ofNat 32 (4 * j)))
    (hwords : ∀ j < 64, j < 8 ∨ j = 9 → load s'.mem (challenge' + BitVec.ofNat 32 (4 * j)) =
      load s.mem (challenge + BitVec.ofNat 32 (4 * j))) :
    ∃ t t',
      Halts (swattARM lay base).step (enter (swattARM lay base) counter challenge 52 s) t ∧
      Halts (swattARM lay' base).step (enter (swattARM lay' base) counter challenge' 52 s') t' ∧
      (∀ j < 12, load t'.cpu.mem (challenge' + BitVec.ofNat 32 (4 * j)) =
        load t.cpu.mem (challenge + BitVec.ofNat 32 (4 * j))) ∧
      load t.cpu.mem (challenge + BitVec.ofNat 32 (4 * 11)) = 0 ∧
      (∀ j < 64, 12 ≤ j → load t.cpu.mem (challenge + BitVec.ofNat 32 (4 * j)) =
        load s.mem (challenge + BitVec.ofNat 32 (4 * j))) ∧
      ∀ j < 64, 12 ≤ j → load t'.cpu.mem (challenge' + BitVec.ofNat 32 (4 * j)) =
        load s'.mem (challenge' + BitVec.ofNat 32 (4 * j)) := by
  obtain ⟨t, hhalt, ht, hzero, hrest⟩ := run_buffer lay hbase hcounter haddr hplace
  obtain ⟨t', hhalt', ht', -, hrest'⟩ := run_buffer lay' hbase hcounter haddr' hplace'
  refine ⟨t, t', hhalt, hhalt', ?_, hzero, hrest, hrest'⟩
  intro j hj
  have halike : Alike (initialChecksum (challengeWords s.mem challenge counter) s.cpsr)
      (initialChecksum (challengeWords s'.mem challenge' counter) s.cpsr) := by
    refine initialChecksum_alike (fun j hj => ?_) ?_ rfl
    · simp only [challengeWords, hwords j (by omega) (.inl hj)]
    · exact hwords 9 (by decide) (.inr rfl)
  have hcode' : ∀ j < 192, load s'.mem (base + BitVec.ofNat 32 (4 * j) + 0) =
      load s.mem (base + BitVec.ofNat 32 (4 * j) + 0) := by
    intro j hj
    rw [show base + BitVec.ofNat 32 (4 * j) + 0 = base + BitVec.ofNat 32 (4 * j) from
      BitVec.add_zero _]
    exact hcode j hj
  have hsame : ∀ k, finalChecksum base (fun a => load s'.mem (a + 0)) k =
      finalChecksum base (fun a => load s.mem (a + 0)) k :=
    finalChecksum_congr hbase hcode'
  rw [ht j (by omega), ht' j (by omega), hsame, hstatus, halike.finalChecksum_eq _ _ hcounter,
    stored_link _ _ hj]

/-- A buffer whose words 8, 10, 11 and 12..63 differ from those of the first
    run, which are zero. -/
def spoiledMemory : Memory := fun a =>
  if 0x3000 ≤ a ∧ a < 0x3100 ∧ ¬ (a < 0x3020 ∨ a = 0x3024) then ~~~a else 0

theorem nine_words_reach_sample :
    ∃ t t',
      Halts (swattARM ⟨11, 3, .inl rfl⟩ 0x8000).step
        (enter (swattARM ⟨11, 3, .inl rfl⟩ 0x8000) 0x1000000 0x3000 52
          (sampleCpu fun _ => 0)) t ∧
      Halts (swattARM ⟨11, 3, .inl rfl⟩ 0x8000).step
        (enter (swattARM ⟨11, 3, .inl rfl⟩ 0x8000) 0x1000000 0x3000 52
          (sampleCpu spoiledMemory)) t' ∧
      ∀ j < 12, load t'.cpu.mem (0x3000 + BitVec.ofNat 32 (4 * j)) =
        load t.cpu.mem (0x3000 + BitVec.ofNat 32 (4 * j)) := by
  obtain ⟨t, t', h, h', hwords, -⟩ := nine_words_reach ⟨11, 3, .inl rfl⟩ ⟨11, 3, .inl rfl⟩ 0x8000
    0x1000000 0x3000 0x3000 (sampleCpu fun _ => 0) (sampleCpu spoiledMemory) (by decide)
    (by decide) rfl rfl .sample .sample rfl (by decide +kernel) (by decide +kernel)
  exact ⟨t, t', h, h', hwords⟩

/-! ## Section 3: The status register -/

/-- `init_checksum` and the disabling of interrupts set bits below the
    flags. -/
theorem initialChecksum_status (words : Nat → Word) (cpsr : Word) :
    (initialChecksum words cpsr).status = cpsr ||| 0xd3 := by
  have hall : cpsr &&& 0xffffff00 ||| cpsr &&& 0xff = cpsr := by
    rw [← BitVec.and_or_distrib_left]
    exact BitVec.and_allOnes
  show cpsr &&& 0xffffff00 ||| (cpsr ||| 0xd3) &&& 0xff = _
  rw [BitVec.and_or_distrib_right, ← BitVec.or_assoc, hall]
  rfl

theorem initialChecksum_carry (words : Nat → Word) (cpsr : Word) :
    carry (initialChecksum words cpsr).status = carry cpsr := by
  rw [initialChecksum_status]
  simp [carry]

theorem initialChecksum_low (words : Nat → Word) {cpsr cpsr' : Word}
    (h : cpsr' &&& 0x0fffffff = cpsr &&& 0x0fffffff) :
    (initialChecksum words cpsr').status &&& 0x0fffffff =
      (initialChecksum words cpsr).status &&& 0x0fffffff := by
  rw [initialChecksum_status, initialChecksum_status, BitVec.and_or_distrib_right, h,
    BitVec.and_or_distrib_right]

/-- Two status registers in supervisor mode that differ in the condition
    flags at most. -/
structure FlagVariants (cpsr cpsr' : Word) : Prop where
  supervisor : cpsr &&& 0x1f = 0x13
  low        : cpsr' &&& 0x0fffffff = cpsr &&& 0x0fffffff

/-- Entered with either status register and otherwise alike, the code stores
    the same eight checksum words: for every load address, memory, challenge
    and counter that is a multiple of 8. -/
def Reproducible (cpsr cpsr' : Word) : Prop :=
  ∀ (lay : Layout) (base counter challenge : Word) (s : Cpu),
    base.toNat % 256 = 0 → counter.toNat % 8 = 0 → s.r lay.addrReg = challenge →
    Placement base 0 (s.r 13) challenge →
    ∃ t t',
      Halts (swattARM lay base).step
        (enter (swattARM lay base) counter challenge 52 (s.setStatus cpsr)) t ∧
      Halts (swattARM lay base).step
        (enter (swattARM lay base) counter challenge 52 (s.setStatus cpsr')) t' ∧
      ∀ j < 8, load t'.cpu.mem (challenge + BitVec.ofNat 32 (4 * j)) =
        load t.cpu.mem (challenge + BitVec.ofNat 32 (4 * j))

/-- Flags other than the carry do not reach the checksum. -/
theorem reproducible_of_carry {cpsr cpsr' : Word} (h : FlagVariants cpsr cpsr')
    (hcarry : carry cpsr' = carry cpsr) : Reproducible cpsr cpsr' := by
  intro lay base counter challenge s hbase hcounter haddr hplace
  obtain ⟨t, hhalt, ht, -⟩ :=
    (build_genuine lay base).run (s := s.setStatus cpsr) hbase hcounter haddr hplace
  obtain ⟨t', hhalt', ht', -⟩ :=
    (build_genuine lay base).run (s := s.setStatus cpsr') hbase hcounter haddr hplace
  refine ⟨t, t', hhalt, hhalt', fun j hj => ?_⟩
  have halike : ∀ w, Alike (initialChecksum w cpsr) (initialChecksum w cpsr') := fun w =>
    ⟨rfl, rfl, rfl,
      (initialChecksum_carry w cpsr').trans (hcarry.trans (initialChecksum_carry w cpsr).symm),
      initialChecksum_low w h.low⟩
  rw [ht j (by omega), ht' j (by omega)]
  simp only [Cpu.setStatus_mem, Cpu.setStatus_cpsr]
  have h8 : (initialChecksum (challengeWords s.mem challenge counter) cpsr).counter.toNat % 8 = 0 :=
    hcounter
  rw [(halike _).finalChecksum_eq _ _ h8, stored_link _ _ (by omega)]

/-! ### The carry -/

/-- A block changes its own checksum word only. -/
theorem blockUpdate_c {i j : Fin 8} (h : j ≠ i) (k : Checksum) (a w : Word) :
    (blockUpdate i k a w).c j = k.c j := by
  match i with
  | 0 | 1 | 2 | 3 | 4 | 5 | 6 | 7 => exact Function.update_of_ne h _ _

/-- The first checksum word of a pass is that of block 1. -/
theorem runBlocks_first (base : Word) (ld : Word → Word) (k : Checksum) {n : Nat} (hn : n < 8) :
    (runBlocks base ld (n + 1) k).c 0 = (stepBlock base ld 0 k).c 0 := by
  induction n with
  | zero => rfl
  | succ n ih =>
    have hne : (0 : Fin 8) ≠ ⟨n + 1, hn⟩ := fun he => by simpa using congrArg Fin.val he
    rw [runBlocks, dif_pos hn, stepBlock, blockUpdate_c hne, ih (by omega)]

/-- On zeros, block 1 adds up the carry at the entry and the first value 5 of
    the T function. -/
theorem zero_first_word (cpsr : Word) :
    (finalChecksum 0x8000 (fun _ => 0)
      (initialChecksum (challengeWords (fun _ => 0) 0x3000 8) cpsr)).stored 0 =
      (((if carry cpsr then 6 else 5) ^^^ 0x806c) + 0x8054) ^^^
        ((cpsr ||| 0xd3) &&& 0x0fffffff) := by
  generalize hk : initialChecksum (challengeWords (fun _ => 0) 0x3000 8) cpsr = k
  have hc : ∀ i, k.c i = 0 := by
    intro i
    rw [← hk]
    show challengeWords (fun _ => 0) 0x3000 8 i = 0
    have : i.val ≠ 11 := by omega
    simp [challengeWords, this, load]
  have hx : k.x = 0 := by
    rw [← hk]
    rfl
  have hcount : k.counter = 8 := by
    rw [← hk]
    rfl
  have hcarry : carry k.status = carry cpsr := by rw [← hk, initialChecksum_carry]
  have hstatus : k.status = cpsr ||| 0xd3 := by rw [← hk, initialChecksum_status]
  have hsum : addFirstSum k 0 6 0 = ⟨if carry cpsr then 6 else 5, false, false⟩ := by
    unfold addFirstSum
    rw [hc, hc, hx, hcarry]
    cases carry cpsr <;> rfl
  have hflags : (⟨if carry cpsr then 6 else 5, false, false⟩ : Sum).flags k.status =
      (cpsr ||| 0xd3) &&& 0x0fffffff := by
    have h5 : (5#32).msb = false := by decide
    have h6 : (6#32).msb = false := by decide
    rw [hstatus]
    unfold Sum.flags withFlags
    cases carry cpsr <;> simp [flagBit, h5, h6]
  have hpasses : passes 8 = 1 := by decide
  have hstored : ∀ k : Checksum, k.stored 0 = k.c 0 := fun _ => rfl
  have hblock : stepBlock 0x8000 (fun _ => 0) 0 k =
      addFirstUpdate k 0 6 7 (blockStart 0x8000 0) 0 := rfl
  have hpc : blockStart 0x8000 0 + 44 = 0x806c := by decide
  have hload : daddr (blockStart 0x8000 0) (tFunction 0) = 0x8054 := by decide
  rw [finalChecksum, hcount, hpasses, Function.iterate_one, hstored, pass,
    runBlocks_first _ _ _ (by decide), hblock]
  simp only [addFirstUpdate, addFirstMix, hsum, hflags, hc, hx, hpc, hload, addWithCarry_word,
    Function.update_self]
  simp

/-- A run on zeros with one pass, on the processor `sampleCpu`. -/
theorem zero_run (cpsr : Word) :
    ∃ t, Halts (swattARM ⟨11, 3, .inl rfl⟩ 0x8000).step
        (enter (swattARM ⟨11, 3, .inl rfl⟩ 0x8000) 8 0x3000 52
          ((sampleCpu fun _ => 0).setStatus cpsr)) t ∧
      load t.cpu.mem (0x3000 + BitVec.ofNat 32 (4 * 0)) =
        (((if carry cpsr then 6 else 5) ^^^ 0x806c) + 0x8054) ^^^
          ((cpsr ||| 0xd3) &&& 0x0fffffff) := by
  have hcounter : (8 : Word).toNat % 8 = 0 := by decide
  have haddr : ((sampleCpu fun _ => 0).setStatus cpsr).r 11 = 0x3000 := rfl
  obtain ⟨t, hhalt, ht, -⟩ := (build_genuine ⟨11, 3, .inl rfl⟩ 0x8000).run
    (by decide) hcounter haddr BufferPlacement.sample.placement
  exact ⟨t, hhalt, (ht 0 (by decide)).trans (zero_first_word cpsr)⟩

/-- With different carries the runs on zeros store different first words. -/
theorem not_reproducible_of_carry {cpsr cpsr' : Word} (h : FlagVariants cpsr cpsr')
    (hcarry : carry cpsr' ≠ carry cpsr) : ¬ Reproducible cpsr cpsr' := by
  intro hrep
  obtain ⟨t, t', hhalt, hhalt', hwords⟩ := hrep ⟨11, 3, .inl rfl⟩ 0x8000 8 0x3000
    (sampleCpu fun _ => 0) (by decide) (by decide) rfl BufferPlacement.sample.placement
  obtain ⟨u, hu, hval⟩ := zero_run cpsr
  obtain ⟨u', hu', hval'⟩ := zero_run cpsr'
  have hlow : (cpsr' ||| 0xd3) &&& 0x0fffffff = (cpsr ||| 0xd3) &&& 0x0fffffff := by
    rw [BitVec.and_or_distrib_right, h.low, BitVec.and_or_distrib_right]
  have heq := hwords 0 (by decide)
  rw [hhalt.unique hu, hhalt'.unique hu', hval, hval', hlow, BitVec.xor_left_inj] at heq
  revert heq hcarry
  cases carry cpsr <;> cases carry cpsr' <;> decide

/-- **The checksum is reproducible** from two status registers that differ in
    the flags at most exactly when they have the same carry. -/
theorem reproducible_iff (cpsr cpsr' : Word) (h : FlagVariants cpsr cpsr') :
    Reproducible cpsr cpsr' ↔ carry cpsr' = carry cpsr := by
  refine ⟨fun hrep => ?_, reproducible_of_carry h⟩
  by_contra hcarry
  exact not_reproducible_of_carry h hcarry hrep

/-- Zero and negative flag do not matter, the carry does. -/
theorem reproducible_sample :
    FlagVariants 0x13 0xc0000013 ∧ Reproducible 0x13 0xc0000013 ∧
    FlagVariants 0x13 0x20000013 ∧ ¬ Reproducible 0x13 0x20000013 :=
  ⟨⟨by decide, by decide⟩, (reproducible_iff _ _ ⟨by decide, by decide⟩).mpr (by decide),
    ⟨by decide, by decide⟩,
    fun h => absurd ((reproducible_iff _ _ ⟨by decide, by decide⟩).mp h) (by decide)⟩

/-- One pass over zeros, entered in supervisor mode with the carry clear and
    with the carry set, stores two different first words. -/
theorem carry_reaches_checksum :
    ∃ t t',
      Halts (swattARM ⟨11, 3, .inl rfl⟩ 0x8000).step
        (enter (swattARM ⟨11, 3, .inl rfl⟩ 0x8000) 8 0x3000 52
          ((sampleCpu fun _ => 0).setStatus 0x13)) t ∧
      Halts (swattARM ⟨11, 3, .inl rfl⟩ 0x8000).step
        (enter (swattARM ⟨11, 3, .inl rfl⟩ 0x8000) 8 0x3000 52
          ((sampleCpu fun _ => 0).setStatus 0x20000013)) t' ∧
      load t.cpu.mem (0x3000 + BitVec.ofNat 32 (4 * 0)) = 0x1006e ∧
      load t'.cpu.mem (0x3000 + BitVec.ofNat 32 (4 * 0)) = 0x1006d := by
  obtain ⟨t, hhalt, ht⟩ := zero_run 0x13
  obtain ⟨t', hhalt', ht'⟩ := zero_run 0x20000013
  exact ⟨t, t', hhalt, hhalt', ht.trans (by decide), ht'.trans (by decide)⟩

end Swatt
