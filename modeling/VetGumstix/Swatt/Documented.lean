import VetGumstix.Swatt.Collision

/-! # The Documented Update

    The comment in front of `swattARM` documents the checksum function in
    pseudo-code.  A block updates `C[i]` in one of two forms,

      `C[i] + mem[daddr] xor C[i-2] + x xor PC xor C[i-1] + daddr xor status`
      `C[i] xor mem[daddr] + C[i-2] xor x + PC + C[i-1] xor daddr + status`,

    then rotates it right by one bit, adds or xors the counter, combines `x`
    with the result and counts down.  Indices are cyclic in `r1..r8`, the
    additions take in the carry of the addition before, and `status` is the
    status register as that addition left it.

    The code differs in two places.  Blocks 1, 3, 5 and 7 rotate and add the
    counter in one `addcs`, which does nothing when the carry is clear; blocks
    2, 4, 6 and 8 take `C[i-3]` where the pseudo-code has `C[i-2]`.

    `block_documented`: a block makes the documented update when the carry is
    set, or when the two words are the same.  Otherwise it makes it by
    coincidence only: of all counters one hides the missing rotation, and of
    all words at most 64 do in place of `C[i-2]`.
-/

namespace Swatt

open Arm Machine

/-! ## Section 1: The pseudo-code -/

/-- `C[i] + mem[daddr] xor C[i-2] + x xor PC xor C[i-1] + daddr xor status`.
    The last addition is not the one whose flags `status` has. -/
def documentedAddFirst (ci mem ci2 x pc ci1 daddr status : Word) : Word :=
  let t := addWithCarry ci mem (carry status)
  let t := addWithCarry (t.word ^^^ ci2) x t.carry
  (addWithCarry (t.word ^^^ pc ^^^ ci1) daddr t.carry).word ^^^ t.flags status

/-- `C[i] xor mem[daddr] + C[i-2] xor x + PC + C[i-1] xor daddr + status`, with
    the carry of the last addition. -/
def documentedXorFirst (ci mem ci2 x pc ci1 daddr status : Word) : Sum :=
  let t := addWithCarry (ci ^^^ mem) ci2 (carry status)
  let t := addWithCarry (t.word ^^^ x) pc t.carry
  let t := addWithCarry t.word ci1 t.carry
  addWithCarry (t.word ^^^ daddr) (t.flags status) t.carry

/-- Whether `C[i] + mem[daddr] xor C[i-2] + x` carries out of its last
    addition. -/
def documentedCarry (ci mem ci2 x status : Word) : Bool :=
  let t := addWithCarry ci mem (carry status)
  (addWithCarry (t.word ^^^ ci2) x t.carry).carry

/-- The new `C[i]` and `x` of the pseudo-code, for the block at address `a`
    that loads `mem`.  Blocks 1, 3, 5, 7 have the indices 0, 2, 4, 6. -/
def documentedUpdate (i : Fin 8) (k : Checksum) (a mem : Word) : Word × Word :=
  let x := tFunction k.x
  if i.val % 2 = 0 then
    let v := documentedAddFirst (k.c i) mem (k.c (i - 2)) x (a + 44) (k.c (i - 1)) (daddr a x)
      k.status
    let v := v.rotateRight 1 + k.counter
    (v, x ^^^ v)
  else
    let t := documentedXorFirst (k.c i) mem (k.c (i - 2)) x (a + 44) (k.c (i - 1)) (daddr a x)
      k.status
    let v := t.word.rotateRight 1 ^^^ k.counter
    (v, (addWithCarry x v t.carry).word)

/-- From `s` to `t` block `i`, at address `a`, makes the documented update. -/
structure Documented (i : Fin 8) (a : Word) (s t : Cpu) : Prop where
  checksum : t.r (cReg i) = (documentedUpdate i (checksumOf s) a
    (load s.mem (daddr a (tFunction (s.r 10))))).1
  x        : t.r 10 = (documentedUpdate i (checksumOf s) a
    (load s.mem (daddr a (tFunction (s.r 10))))).2
  counter  : t.r 12 = s.r 12 - 1
  others   : ∀ j, j ≠ i → t.r (cReg j) = s.r (cReg j)

/-! ## Section 2: What the code does -/

/-- Block `i`, at address `a` and from the state `s`, makes the documented
    update. -/
def BlockDocumented (i : Fin 8) (a : Word) (s : Cpu) : Prop :=
  Documented i a s (execAll a (blockCode i) s)

/-- In the state before it: a block that adds first has the addition of `x`
    carry, one that xors first finds `C[i-3]` and `C[i-2]` equal. -/
def KeepsToDocument (i : Fin 8) (k : Checksum) (mem : Word) : Prop :=
  if i.val % 2 = 0 then documentedCarry (k.c i) mem (k.c (i - 2)) (tFunction k.x) k.status = true
  else k.c (i - 3) = k.c (i - 2)

instance (i : Fin 8) (k : Checksum) (mem : Word) : Decidable (KeepsToDocument i k mem) :=
  inferInstanceAs (Decidable (ite _ _ _))

/-- Additions of the same words are equal when their carries in are. -/
theorem addWithCarry_word_inj {x y : Word} {b c : Bool} :
    (addWithCarry x y b).word = (addWithCarry x y c).word ↔ b = c := by
  refine ⟨fun h => ?_, fun h => h ▸ rfl⟩
  rw [addWithCarry_word, addWithCarry_word] at h
  have hc : (if b then 1 else 0 : Word) = if c then 1 else 0 :=
    (BitVec.add_right_inj _).mp h
  revert hc
  cases b <;> cases c <;> decide

section blocks

variable {a : Word} {s : Cpu} {i : Fin 8}

/-- The word block `i` loads. -/
def loaded (a : Word) (s : Cpu) : Word := load s.mem (daddr a (tFunction (s.r 10)))

/-- A block that adds first is as documented when it rotates, or when the mixed
    word is its own rotation plus the counter. -/
theorem addFirst_documented_iff {v : Word} (hi : i.val % 2 = 0)
    (hv : addFirstMix (checksumOf s) i (i - 2) (i - 1) a (loaded a s) = v) :
    BlockDocumented i a s ↔
      (addFirstSum (checksumOf s) i (i - 2) (loaded a s)).carry = true ∨
        v.rotateRight 1 + s.r 12 = v := by
  have h := (exec_blockCode i a s).1
  rw [blockUpdate_eq, if_pos hi] at h
  change checksumOf _ = addFirstUpdate (checksumOf s) i (i - 2) (i - 1) a (loaded a s) at h
  unfold BlockDocumented
  generalize execAll a (blockCode i) s = t at *
  generalize hc : (addFirstSum (checksumOf s) i (i - 2) (loaded a s)).carry = c
  have hdoc : documentedUpdate i (checksumOf s) a (loaded a s) =
      (v.rotateRight 1 + s.r 12, tFunction (s.r 10) ^^^ (v.rotateRight 1 + s.r 12)) := by
    rw [documentedUpdate, if_pos hi, ← hv]
    rfl
  have hci : t.r (cReg i) = if c then s.r 12 + v.rotateRight 1 else v := by
    have hci := congrFun (congrArg Checksum.c h) i
    simp only [addFirstUpdate, Function.update_self, hv, hc] at hci
    exact hci
  have hx : t.r 10 = tFunction (s.r 10) ^^^ t.r (cReg i) := by
    have hx := congrArg Checksum.x h
    simp only [addFirstUpdate, hv, hc] at hx
    rw [hci]
    exact hx
  constructor
  · -- without the carry the word is left as it was mixed
    intro hd
    have hchecksum := hd.checksum.trans (congrArg Prod.fst hdoc)
    rw [hci] at hchecksum
    cases c with
    | true => exact .inl rfl
    | false => exact .inr hchecksum.symm
  · intro hkeep
    have hvalue : t.r (cReg i) = v.rotateRight 1 + s.r 12 := by
      rw [hci, BitVec.add_comm (s.r 12)]
      rcases hkeep with hset | hsame
      · rw [if_pos hset]
      · rw [hsame, ite_self]
    refine ⟨hvalue.trans (congrArg Prod.fst hdoc).symm, ?_, congrArg Checksum.counter h, ?_⟩
    · rw [hx, hvalue]
      exact (congrArg Prod.snd hdoc).symm
    · intro j hj
      have hcj := congrFun (congrArg Checksum.c h) j
      simp only [addFirstUpdate, Function.update_of_ne hj] at hcj
      exact hcj

/-- A block that xors first is as documented when the sum with `C[i-3]` is the
    one with `C[i-2]`. -/
theorem xorFirst_documented_iff {m d : Sum} (hi : ¬ i.val % 2 = 0)
    (hm : xorFirstMix (checksumOf s) i (i - 3) (i - 1) a (loaded a s) = m)
    (hd : xorFirstMix (checksumOf s) i (i - 2) (i - 1) a (loaded a s) = d) :
    BlockDocumented i a s ↔ m.word = d.word ∧ m.carry = d.carry := by
  have h := (exec_blockCode i a s).1
  rw [blockUpdate_eq, if_neg hi] at h
  change checksumOf _ = xorFirstUpdate (checksumOf s) i (i - 3) (i - 1) (decide (i = 7)) a
    (loaded a s) at h
  unfold BlockDocumented
  generalize execAll a (blockCode i) s = t at *
  have hdoc : documentedUpdate i (checksumOf s) a (loaded a s) =
      (d.word.rotateRight 1 ^^^ s.r 12,
        (addWithCarry (tFunction (s.r 10)) (d.word.rotateRight 1 ^^^ s.r 12) d.carry).word) := by
    rw [documentedUpdate, if_neg hi, ← hd]
    rfl
  have hci : t.r (cReg i) = m.word.rotateRight 1 ^^^ s.r 12 := by
    have hci := congrFun (congrArg Checksum.c h) i
    simp only [xorFirstUpdate, Function.update_self, hm] at hci
    exact hci.trans (BitVec.xor_comm _ _)
  have hx : t.r 10 = (addWithCarry (tFunction (s.r 10)) (t.r (cReg i)) m.carry).word := by
    have hx := congrArg Checksum.x h
    simp only [xorFirstUpdate, hm] at hx
    rw [hci, BitVec.xor_comm]
    exact hx
  constructor
  · intro hmade
    have hchecksum := hmade.checksum.trans (congrArg Prod.fst hdoc)
    have hx' := hmade.x.trans (congrArg Prod.snd hdoc)
    have hword : m.word = d.word := by
      rw [hci, BitVec.xor_left_inj] at hchecksum
      exact rotateRight_one_inj.mp hchecksum
    -- the carry comes in with the addition to `x`
    rw [hx, hchecksum] at hx'
    exact ⟨hword, addWithCarry_word_inj.mp hx'⟩
  · intro hsame
    refine ⟨?_, ?_, congrArg Checksum.counter h, ?_⟩
    · rw [hci, hsame.1]
      exact (congrArg Prod.fst hdoc).symm
    · rw [hx, hci, hsame.1, hsame.2]
      exact (congrArg Prod.snd hdoc).symm
    · intro j hj
      have hcj := congrFun (congrArg Checksum.c h) j
      simp only [xorFirstUpdate, Function.update_of_ne hj] at hcj
      exact hcj

/-! ## Section 3: How rarely it is documented otherwise -/

theorem checksumOf_counter (s : Cpu) (n : Word) :
    checksumOf (s.write 12 n) = { checksumOf s with counter := n } := by
  have hc : (checksumOf (s.write 12 n)).c = (checksumOf s).c := by
    funext j
    exact (Cpu.write_r ..).trans (if_neg ((isC_cReg j).ne (by decide)))
  show Checksum.mk _ _ _ _ _ _ _ = Checksum.mk _ _ _ _ _ _ _
  exact congrArg (Checksum.mk · ..) hc

theorem checksumOf_write (s : Cpu) (j : Fin 8) (p : Word) :
    checksumOf (s.write (cReg j) p) =
      { checksumOf s with c := Function.update (checksumOf s).c j p } := by
  have hother : ∀ x : Reg, 9 ≤ x.val → (s.write (cReg j) p).r x = s.r x := by
    intro x hx
    exact (Cpu.write_r ..).trans (if_neg ((isC_cReg j).ne (.inr hx)).symm)
  have hc : (checksumOf (s.write (cReg j) p)).c = Function.update (checksumOf s).c j p := by
    funext k
    refine (Cpu.write_r ..).trans ?_
    simp only [Function.update_apply, cReg_inj]
    rfl
  have hrest : checksumOf (s.write (cReg j) p) =
      { checksumOf s with c := (checksumOf (s.write (cReg j) p)).c } := by
    unfold checksumOf
    rw [hother 9 (by decide), hother 10 (by decide), hother 11 (by decide), hother 12 (by decide),
      hother 14 (by decide)]
    rfl
  rw [hrest, hc]

theorem loaded_write (a : Word) (s : Cpu) {x : Reg} (hx : 10 ≠ x) (p : Word) :
    loaded a (s.write x p) = loaded a s := by
  unfold loaded
  rw [Cpu.write_mem, Cpu.write_r, if_neg hx]

/-- Without the carry there is one counter that hides the missing rotation. -/
theorem addFirst_one_counter (hi : i.val % 2 = 0)
    (hclear : (addFirstSum (checksumOf s) i (i - 2) (loaded a s)).carry = false) :
    ∃! n, BlockDocumented i a (s.write 12 n) := by
  generalize hv : addFirstMix (checksumOf s) i (i - 2) (i - 1) a (loaded a s) = v
  -- neither the sum nor the mixed word depends on the counter
  have hiff : ∀ n, BlockDocumented i a (s.write 12 n) ↔ v.rotateRight 1 + n = v := by
    intro n
    have hload := loaded_write a s (x := 12) (by decide) n
    have hmix : addFirstMix (checksumOf (s.write 12 n)) i (i - 2) (i - 1) a
        (loaded a (s.write 12 n)) = v := by
      rw [checksumOf_counter, hload]
      exact hv
    have hsum : (addFirstSum (checksumOf (s.write 12 n)) i (i - 2)
        (loaded a (s.write 12 n))).carry = false := by
      rw [checksumOf_counter, hload]
      exact hclear
    rw [addFirst_documented_iff hi hmix, hsum, Cpu.write_r, if_pos rfl]
    exact or_iff_right Bool.false_ne_true
  refine ⟨v - v.rotateRight 1, (hiff _).mpr (add_sub_cancel ..), ?_⟩
  intro n hn
  exact eq_sub_of_add_eq' ((hiff n).mp hn)

/-- At most 64 words in place of `C[i-3]` give the documented sum: the flags of
    the block tell them apart. -/
theorem xorFirst_few_words (hi : ¬ i.val % 2 = 0) :
    {p | BlockDocumented i a (s.write (cReg (i - 3)) p)}.ncard ≤ 64 := by
  have h0 : ∀ j : Fin 8, j ≠ j - 3 := by decide
  have h1 : ∀ j : Fin 8, j - 1 ≠ j - 3 := by decide
  have h2 : ∀ j : Fin 8, j - 2 ≠ j - 3 := by decide
  have h10 : 10 ≠ cReg (i - 3) := ((isC_cReg (i - 3)).ne (by decide)).symm
  -- with `p` for `C[i-3]`: the first addition, and what is documented for all `p`
  let first p : Sum := addWithCarry (s.r (cReg i) ^^^ loaded a s) p (carry s.cpsr)
  let last p : Sum := lastSum (first p) (tFunction (s.r 10)) (a + 44) (s.r (cReg (i - 1)))
    (daddr a (tFunction (s.r 10))) s.cpsr
  let d : Sum := xorFirstMix (checksumOf s) i (i - 2) (i - 1) a (loaded a s)
  have hdoc : ∀ p, BlockDocumented i a (s.write (cReg (i - 3)) p) → (last p).word = d.word := by
    intro p hp
    have hload := loaded_write a s h10 p
    have hm : xorFirstMix (checksumOf (s.write (cReg (i - 3)) p)) i (i - 3) (i - 1) a
        (loaded a (s.write (cReg (i - 3)) p)) = last p := by
      rw [checksumOf_write, hload]
      simp only [xorFirstMix, xorFirstSum, Function.update_of_ne (h0 i),
        Function.update_of_ne (h1 i), Function.update_self]
      rfl
    have hd : xorFirstMix (checksumOf (s.write (cReg (i - 3)) p)) i (i - 2) (i - 1) a
        (loaded a (s.write (cReg (i - 3)) p)) = d := by
      rw [checksumOf_write, hload]
      simp only [d, xorFirstMix, xorFirstSum, Function.update_of_ne (h0 i),
        Function.update_of_ne (h1 i), Function.update_of_ne (h2 i)]
    exact ((xorFirst_documented_iff hi hm hd).mp hp).1
  let marks p : Marks := ((first p).carry,
    (secondSum (first p) (tFunction (s.r 10)) (a + 44)).carry,
    (thirdSum (first p) (tFunction (s.r 10)) (a + 44) (s.r (cReg (i - 1)))).flags s.cpsr)
  apply ncard_le_of_marks (f := marks) s.cpsr
  · intro p
    exact ⟨_, rfl⟩
  · intro p hp q hq hmarks
    obtain ⟨hfirst, hrest⟩ := Prod.mk.inj hmarks
    obtain ⟨hsecond, hflags⟩ := Prod.mk.inj hrest
    have hword := lastSum_inj hfirst hsecond hflags ((hdoc p hp).trans (hdoc q hq).symm)
    exact addWithCarry_right_inj.mp hword

end blocks

/-- **When a block is as documented.**  From any state at its start, the
    program runs through the instructions of block `i` to its end.  They make
    the documented update when the addition of `x` carries (blocks 1, 3, 5, 7),
    and when `C[i-3]` and `C[i-2]` are equal (blocks 2, 4, 6, 8).  Without the
    carry the first four make it with one counter in `r12` and no other; the
    last four make it with at most 64 words in `C[i-3]`. -/
theorem block_documented (lay : Layout) (base : Word) (i : Fin 8) (s : Cpu) :
    let a := blockStart base i
    Reaches (swattARM lay base).step ⟨s, initPos lay + 16 + 17 * i⟩
      ⟨execAll a (blockCode i) s, initPos lay + 16 + 17 * (i + 1)⟩ ∧
    (KeepsToDocument i (checksumOf s) (loaded a s) → BlockDocumented i a s) ∧
    (i.val % 2 = 0 → ¬ KeepsToDocument i (checksumOf s) (loaded a s) →
      ∃! n, BlockDocumented i a (s.write 12 n)) ∧
    (¬ i.val % 2 = 0 → {p | BlockDocumented i a (s.write (cReg (i - 3)) p)}.ncard ≤ 64) := by
  intro a
  refine ⟨genuine_block_run lay base i s, ?_, ?_, xorFirst_few_words⟩
  · intro hkeep
    by_cases hi : i.val % 2 = 0
    · rw [KeepsToDocument, if_pos hi] at hkeep
      exact (addFirst_documented_iff hi rfl).mpr (.inl hkeep)
    · rw [KeepsToDocument, if_neg hi] at hkeep
      apply (xorFirst_documented_iff hi rfl rfl).mpr
      simp only [xorFirstMix, xorFirstSum, hkeep, and_self]
  · intro hi hclear
    rw [KeepsToDocument, if_pos hi] at hclear
    exact addFirst_one_counter hi (Bool.eq_false_iff.mpr hclear)

/-- Block 1 with `r1 = 0xffffffff`, where the addition of `x` carries; block 2
    with all registers zero; and block 1 with all registers zero, where one
    counter alone gives the documented word. -/
theorem block_documented_samples :
    BlockDocumented 0 (blockStart 0x8000 0)
      ⟨fun x => if x = 1 then 0xffffffff else 0, 0, fun _ => 0⟩ ∧
    BlockDocumented 1 (blockStart 0x8000 1) ⟨fun _ => 0, 0, fun _ => 0⟩ ∧
    ∃! n, BlockDocumented 0 (blockStart 0x8000 0)
      (Cpu.write ⟨fun _ => 0, 0, fun _ => 0⟩ 12 n) :=
  ⟨(block_documented ⟨11, 3, .inl rfl⟩ 0x8000 0
      ⟨fun x => if x = 1 then 0xffffffff else 0, 0, fun _ => 0⟩).2.1 (by decide +kernel),
    (block_documented ⟨11, 3, .inl rfl⟩ 0x8000 1 ⟨fun _ => 0, 0, fun _ => 0⟩).2.1 rfl,
    (block_documented ⟨11, 3, .inl rfl⟩ 0x8000 0 ⟨fun _ => 0, 0, fun _ => 0⟩).2.2.1 rfl
      (by decide +kernel)⟩

/-- Block 1 with all registers, flags and memory zero leaves its word without
    the rotation and the counter; block 2 with `r7 = 1` and `r8 = 0` adds
    `r7` for `r8`. -/
theorem documented_fails_sample :
    ¬ Documented 0 (blockStart 0x8000 0) ⟨fun _ => 0, 0, fun _ => 0⟩
      (execAll (blockStart 0x8000 0) (blockCode 0) ⟨fun _ => 0, 0, fun _ => 0⟩) ∧
    ¬ Documented 1 (blockStart 0x8000 1) ⟨fun x => if x = 7 then 1 else 0, 0, fun _ => 0⟩
      (execAll (blockStart 0x8000 1) (blockCode 1)
        ⟨fun x => if x = 7 then 1 else 0, 0, fun _ => 0⟩) := by
  constructor
  · intro h
    exact absurd h.checksum (by decide +kernel)
  · intro h
    exact absurd h.checksum (by decide +kernel)

end Swatt
