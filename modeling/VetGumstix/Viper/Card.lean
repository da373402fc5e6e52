import VetGumstix.Framework.BitMask
import VetGumstix.Framework.Machine
import VetGumstix.Viper.Blocks

/-! # The Card and its Dump

    The program reaches the card through two ioctls, which read and write a
    word of the memory it shares with the host.  A part of the shared memory
    is a window of 2 KB on the card's own memory, at the address in register
    `0x68`.  `dump_swatt_code` moves the window along while it copies the firmware
    into `g_swatt_buf`.

    The card itself is not part of the source: `Card.read` and `Card.write` say
    how it answers.  An ioctl may fail, and then changes nothing.

    `dumpSwattCode_windowOnly`: whichever ioctls fail, the dump returns and moves
    nothing on the card but the window.

    `dump_exact`: when the ioctls succeed, the dump is a copy, and the window
    is put back afterwards.
-/

namespace Viper

open Machine

/-! ## Section 1: Byte order -/

def otherEndian (val : Word) : Word :=
  ((val &&& 0xff) <<< 24) ||| ((val &&& 0xff00) <<< 8) ||| ((val &&& 0xff0000) >>> 8) |||
    ((val &&& 0xff000000) >>> 24)

/-- `htonl` on a little-endian host: the bytes in the other order. -/
def htonl (w : Word) : Word :=
  w.extractLsb' 0 8 ++ w.extractLsb' 8 8 ++ w.extractLsb' 16 8 ++ w.extractLsb' 24 8

def ntohl (w : Word) : Word := htonl w

/-- Bit `i` comes from the byte on the other side. -/
theorem htonl_getLsbD (w : Word) {i : Nat} (hi : i < 32) :
    (htonl w).getLsbD i = w.getLsbD (8 * (3 - i / 8) + i % 8) := by
  unfold htonl
  simp only [BitVec.getLsbD_append, BitVec.getLsbD_extractLsb']
  split
  · grind
  split
  · grind
  split <;> grind

theorem htonl_htonl (w : Word) : htonl (htonl w) = w := by
  apply BitVec.eq_of_getLsbD_eq
  intro i hi
  rw [htonl_getLsbD _ hi, htonl_getLsbD _ (by omega)]
  congr 1
  omega

theorem otherEndian_eq (w : Word) : otherEndian w = htonl w := by
  apply BitVec.eq_of_getLsbD_eq
  intro i hi
  rw [htonl_getLsbD _ hi]
  unfold otherEndian
  interval_cases i <;> simp

/-- The swaps cancel out. -/
@[simp] theorem ntohl_otherEndian (w : Word) : ntohl (otherEndian w) = w := by
  rw [otherEndian_eq]
  exact htonl_htonl w

@[simp] theorem htonl_otherEndian (w : Word) : htonl (otherEndian w) = w := ntohl_otherEndian w

@[simp] theorem otherEndian_ntohl (w : Word) : otherEndian (ntohl w) = w := by
  rw [otherEndian_eq]
  exact htonl_htonl w

/-! ## Section 2: The card -/

/-- The card: its registers, by offset in the shared memory, and its memory, by
    address. -/
structure Card where
  reg : Word → Word
  mem : Word → Word

/-- The offset lies in the window. -/
def inWindow (offset : Word) : Prop := 0x800 ≤ offset.toNat ∧ offset.toNat < 0x1000

instance (offset : Word) : Decidable (inWindow offset) := inferInstanceAs (Decidable (_ ∧ _))

def Card.read (c : Card) (offset : Word) : Word :=
  if inWindow offset then c.mem (c.reg 0x68 + (offset - 0x800)) else c.reg offset

def Card.write (c : Card) (offset data : Word) : Card :=
  if inWindow offset then
    { c with mem := Function.update c.mem (c.reg 0x68 + (offset - 0x800)) data }
  else { c with reg := Function.update c.reg offset data }

/-- `alteon_st`, with the card behind its socket and the number of ioctls made
    so far. -/
structure AlteonSt where
  card       : Card
  cardoffset : Word
  data       : Word
  ioctls     : Nat

/-- `ACENIC_IOCTL_READ_SMEM`; the flag is `true` when it fails. -/
def ioctlReadSmem (fails : Nat → Bool) (nic : AlteonSt) : AlteonSt × Bool :=
  if fails nic.ioctls then ({ nic with ioctls := nic.ioctls + 1 }, true)
  else ({ nic with data := nic.card.read nic.cardoffset, ioctls := nic.ioctls + 1 }, false)

/-- `ACENIC_IOCTL_WRITE_SMEM` -/
def ioctlWriteSmem (fails : Nat → Bool) (nic : AlteonSt) : AlteonSt × Bool :=
  if fails nic.ioctls then ({ nic with ioctls := nic.ioctls + 1 }, true)
  else
    ({ nic with card := nic.card.write nic.cardoffset nic.data, ioctls := nic.ioctls + 1 }, false)

/-- `read_smem`: what it leaves in `*dpr`, and whether it returns `TRUE`.  After a
    failure `*dpr` is made of what `req.data` held before. -/
def readSmem (fails : Nat → Bool) (nic : AlteonSt) (offset : Word) : AlteonSt × Word × Bool :=
  let nic := { nic with cardoffset := offset }
  let (nic, failed) := ioctlReadSmem fails nic
  (nic, otherEndian nic.data, !failed)

def writeSmem (fails : Nat → Bool) (nic : AlteonSt) (offset data : Word) : AlteonSt × Bool :=
  let nic := { nic with cardoffset := offset, data := otherEndian data }
  let (nic, failed) := ioctlWriteSmem fails nic
  (nic, !failed)

/-! ## Section 3: The dump -/

/-- The variables of the loop of `read_tbuf`. -/
structure Burst where
  nic       : AlteonSt
  frameBase : Word
  current   : Word
  buf       : Buffer

/-- Move the window, unless `current` lies in it. -/
def Burst.follow (fails : Nat → Bool) (s : Burst) : Burst :=
  if s.current &&& 0xfffff800 ≠ s.frameBase then
    let frameBase := s.current &&& 0xfffff800
    { s with frameBase := frameBase, nic := (writeSmem fails s.nic 0x68 (ntohl frameBase)).1 }
  else s

/-- Word `i` of a burst into `buf[entry]` and on. -/
def burstStep (fails : Nat → Bool) (entry : Nat) (s : Burst) (i : Nat) : Burst :=
  let s := s.follow fails
  let (nic, word, _) := readSmem fails s.nic ((s.current &&& 0x7ff) + 0x800)
  { s with nic := nic, buf := s.buf.put (entry + i) word, current := s.current + 4 }

/-- `buf[i] = ntohl(buf[i])` -/
def swapStep (entry : Nat) (buf : Buffer) (i : Nat) : Buffer :=
  buf.put (entry + i) (ntohl (buf.get (entry + i)))

/-- `read_tbuf(offset, &g_swatt_buf[entry])` -/
def readTbuf (fails : Nat → Bool) (nic : AlteonSt) (buf : Buffer) (offset : Word) (entry : Nat) :
    AlteonSt × Buffer :=
  let (nic, frameBase, _) := readSmem fails nic 0x68
  let s := (List.range 8).foldl (burstStep fails entry) ⟨nic, htonl frameBase, offset, buf⟩
  (s.nic, (List.range 8).foldl (swapStep entry) s.buf)

/-- The variables of the loop of `dump_swatt_code`; `entry` is an index of
    `g_swatt_buf`. -/
structure Dump where
  nic   : AlteonSt
  buf   : Buffer
  p     : Word
  entry : Nat

def dumpStep (fails : Nat → Bool) (tstart tlen : Word) (s : Dump) : Option Dump :=
  if s.p < tstart + tlen then
    let (nic, buf) := readTbuf fails s.nic s.buf s.p s.entry
    some { nic := nic, buf := buf, p := s.p + 32, entry := s.entry + 8 }
  else none

/-- `dump_swatt_code(tstart, tlen)`: the state in which it returns. -/
def dumpSwattCode (fails : Nat → Bool) (nic : AlteonSt) (buf : Buffer) (tstart tlen : Word) :
    Dump :=
  run (dumpStep fails tstart tlen) (tlen.toNat / 32 + 1) ⟨nic, buf, tstart, 0⟩

/-- The part of `main` that dumps the firmware, from `read_smem` of
    `o_frame_base` to the `write_smem` that puts it back. -/
def dumpFirmware (fails : Nat → Bool) (nic : AlteonSt) (tstart tlen : Word) :
    AlteonSt × Buffer :=
  let (nic, oFrameBase, _) := readSmem fails nic 0x68
  let oFrameBase := htonl oFrameBase
  let d := dumpSwattCode fails nic Buffer.zero tstart tlen
  ((writeSmem fails d.nic 0x68 (ntohl oFrameBase)).1, d.buf)

/-! ## Section 4: What an ioctl can do -/

/-- No ioctl fails. -/
def succeed : Nat → Bool := fun _ => false

/-- The card with its window at `w`. -/
def Card.atWindow (c : Card) (w : Word) : Card := { c with reg := Function.update c.reg 0x68 w }

theorem Card.atWindow_reg (c : Card) : c.atWindow (c.reg 0x68) = c := by
  simp [Card.atWindow]

theorem Card.read_atWindow (c : Card) (w : Word) : (c.atWindow w).read 0x68 = w := by
  simp [Card.read, Card.atWindow, inWindow]

theorem Card.write_atWindow (c : Card) (w w' : Word) :
    (c.atWindow w).write 0x68 w' = c.atWindow w' := by
  simp [Card.write, Card.atWindow, inWindow]

/-- A word is read through the window on its page. -/
theorem Card.read_page (c : Card) (a : Word) :
    (c.atWindow (a &&& 0xfffff800)).read ((a &&& 0x7ff) + 0x800) = c.mem a := by
  have hpage := BitMask.toNat_and_field a 0xfffff800 11 21 rfl
  have hoffset := BitMask.toNat_and_field a 0x7ff 0 11 rfl
  have ha := a.isLt
  have hadd : ((a &&& 0x7ff) + 0x800).toNat = (a &&& 0x7ff).toNat + 0x800 := by
    rw [BitVec.toNat_add, hoffset]
    exact Nat.mod_eq_of_lt (by show _ + 2048 < _; omega)
  have hwin : inWindow ((a &&& 0x7ff) + 0x800) := by
    unfold inWindow
    omega
  have hsum : (a &&& 0xfffff800) + ((a &&& 0x7ff) + 0x800 - 0x800) = a := by
    rw [BitVec.add_sub_cancel]
    apply BitVec.eq_of_toNat_eq
    rw [BitVec.toNat_add, hpage, hoffset]
    omega
  rw [Card.read, if_pos hwin]
  simp only [Card.atWindow, Function.update_self, hsum]

section Ioctls

variable {fails : Nat → Bool} {nic : AlteonSt}

theorem readSmem_ok (h : fails nic.ioctls = false) (offset : Word) :
    readSmem fails nic offset =
      ({ nic with cardoffset := offset, data := nic.card.read offset, ioctls := nic.ioctls + 1 },
        otherEndian (nic.card.read offset), true) := by
  simp [readSmem, ioctlReadSmem, h]

theorem readSmem_failed (h : fails nic.ioctls = true) (offset : Word) :
    readSmem fails nic offset =
      ({ nic with cardoffset := offset, ioctls := nic.ioctls + 1 }, otherEndian nic.data,
        false) := by
  simp [readSmem, ioctlReadSmem, h]

theorem writeSmem_ok (h : fails nic.ioctls = false) (offset data : Word) :
    writeSmem fails nic offset data =
      ({ card := nic.card.write offset (otherEndian data), cardoffset := offset,
         data := otherEndian data, ioctls := nic.ioctls + 1 }, true) := by
  simp [writeSmem, ioctlWriteSmem, h]

theorem writeSmem_failed (h : fails nic.ioctls = true) (offset data : Word) :
    writeSmem fails nic offset data =
      ({ nic with cardoffset := offset, data := otherEndian data, ioctls := nic.ioctls + 1 },
        false) := by
  simp [writeSmem, ioctlWriteSmem, h]

end Ioctls

/-- A read changes nothing on the card. -/
theorem readSmem_card (fails : Nat → Bool) (nic : AlteonSt) (offset : Word) :
    (readSmem fails nic offset).1.card = nic.card := by
  cases h : fails nic.ioctls with
  | false => rw [readSmem_ok h]
  | true => rw [readSmem_failed h]

theorem readSmem_word (nic : AlteonSt) (offset : Word) :
    (readSmem succeed nic offset).2.1 = otherEndian (nic.card.read offset) := rfl

theorem writeSmem_card (nic : AlteonSt) (offset data : Word) :
    (writeSmem succeed nic offset data).1.card = nic.card.write offset (otherEndian data) := rfl

/-! ## Section 5: The loop of the dump

    Its length depends on `tstart` and `tlen` alone, whichever ioctls fail.
-/

/-- The state after one more burst. -/
def Dump.burst (fails : Nat → Bool) (s : Dump) : Dump :=
  { nic := (readTbuf fails s.nic s.buf s.p s.entry).1,
    buf := (readTbuf fails s.nic s.buf s.p s.entry).2, p := s.p + 32, entry := s.entry + 8 }

theorem Dump.burst_p (s : Dump) (fails : Nat → Bool) {tstart : Word} {n : Nat}
    (h : s.p = tstart + BitVec.ofNat 32 (32 * n)) :
    (s.burst fails).p = tstart + BitVec.ofNat 32 (32 * (n + 1)) := by
  show s.p + 32 = _
  rw [h, Nat.mul_succ, BitVec.ofNat_add, BitVec.add_assoc]
  rfl

section Loop

variable {fails : Nat → Bool} {tstart tlen : Word} {Inv : Nat → Dump → Prop}

/-- What every burst keeps holds after `n` of them. -/
theorem dump_steps {s : Dump} (hend : tstart.toNat + tlen.toNat < 2 ^ 32)
    (hp : ∀ n s, Inv n s → s.p = tstart + BitVec.ofNat 32 (32 * n))
    (hburst : ∀ n s, Inv n s → Inv (n + 1) (s.burst fails)) (h : Inv 0 s) (n : Nat)
    (hn : 32 * n ≤ tlen.toNat) :
    ∃ tr t, Steps (dumpStep fails tstart tlen) s tr t ∧ tr.length = n ∧ Inv n t := by
  induction n with
  | zero => exact ⟨[], s, .nil s, rfl, h⟩
  | succ n ih =>
    obtain ⟨tr, t, hsteps, hlen, hinv⟩ := ih (by omega)
    have hlt : t.p < tstart + tlen := by
      rw [BitVec.lt_def, hp n t hinv, BitVec.toNat_add, BitVec.toNat_add, BitVec.toNat_ofNat]
      omega
    have hstep : dumpStep fails tstart tlen t = some (t.burst fails) := if_pos hlt
    refine ⟨tr ++ [t], _, hsteps.append (.single hstep), ?_, hburst n t hinv⟩
    rw [List.length_append, hlen, List.length_singleton]

variable (Inv) in
/-- **The rule of the dump**: it returns, and what every burst keeps holds then. -/
theorem dumpSwattCode_inv {nic : AlteonSt} {buf : Buffer} (hlen : tlen.toNat % 32 = 0)
    (hend : tstart.toNat + tlen.toNat < 2 ^ 32) (h : Inv 0 ⟨nic, buf, tstart, 0⟩)
    (hp : ∀ n s, Inv n s → s.p = tstart + BitVec.ofNat 32 (32 * n))
    (hburst : ∀ n s, Inv n s → Inv (n + 1) (s.burst fails)) :
    Halts (dumpStep fails tstart tlen) ⟨nic, buf, tstart, 0⟩
      (dumpSwattCode fails nic buf tstart tlen) ∧
    Inv (tlen.toNat / 32) (dumpSwattCode fails nic buf tstart tlen) := by
  obtain ⟨tr, t, hsteps, htr, hinv⟩ := dump_steps hend hp hburst h (tlen.toNat / 32) (by omega)
  have hstop : dumpStep fails tstart tlen t = none := by
    refine if_neg ?_
    rw [BitVec.lt_def, hp _ t hinv, BitVec.toNat_add, BitVec.toNat_add, BitVec.toNat_ofNat]
    omega
  have hrun : dumpSwattCode fails nic buf tstart tlen = t := hsteps.run_eq hstop (by omega)
  rw [hrun]
  exact ⟨⟨⟨tr, hsteps⟩, hstop⟩, hinv⟩

end Loop

/-! ## Section 6: What a dump moves -/

/-- The card is `c` but for its window. -/
def WindowOnly (c : Card) (nic : AlteonSt) : Prop := ∃ w, nic.card = c.atWindow w

namespace WindowOnly

variable {c : Card} {nic : AlteonSt}

theorem readSmem (h : WindowOnly c nic) (fails : Nat → Bool) (offset : Word) :
    WindowOnly c (readSmem fails nic offset).1 := by
  obtain ⟨w, hw⟩ := h
  exact ⟨w, (readSmem_card fails nic offset).trans hw⟩

theorem writeSmem (h : WindowOnly c nic) (fails : Nat → Bool) (data : Word) :
    WindowOnly c (writeSmem fails nic 0x68 data).1 := by
  obtain ⟨w, hw⟩ := h
  cases hf : fails nic.ioctls with
  | false =>
    rw [writeSmem_ok hf, hw, Card.write_atWindow]
    exact ⟨_, rfl⟩
  | true =>
    rw [writeSmem_failed hf]
    exact ⟨w, hw⟩

theorem burstStep {s : Burst} (h : WindowOnly c s.nic) (fails : Nat → Bool) (entry i : Nat) :
    WindowOnly c (burstStep fails entry s i).nic := by
  have hfollow : WindowOnly c (s.follow fails).nic := by
    unfold Burst.follow
    split
    · exact h.writeSmem fails _
    · exact h
  exact hfollow.readSmem fails _

theorem burstSteps {s : Burst} (h : WindowOnly c s.nic) (fails : Nat → Bool) (entry : Nat)
    (is : List Nat) : WindowOnly c (is.foldl (Viper.burstStep fails entry) s).nic := by
  induction is generalizing s with
  | nil => exact h
  | cons i is ih => exact ih (h.burstStep fails entry i)

theorem readTbuf (h : WindowOnly c nic) (fails : Nat → Bool) (buf : Buffer) (offset : Word)
    (entry : Nat) : WindowOnly c (readTbuf fails nic buf offset entry).1 := by
  have hread := h.readSmem fails 0x68
  exact hread.burstSteps (s := ⟨_, _, offset, buf⟩) fails entry (List.range 8)

end WindowOnly

/-- Whichever ioctls fail, the dump returns, and has moved the window at most. -/
theorem dumpSwattCode_windowOnly {c : Card} {nic : AlteonSt} (h : WindowOnly c nic)
    (fails : Nat → Bool) (buf : Buffer) {tstart tlen : Word} (hlen : tlen.toNat % 32 = 0)
    (hend : tstart.toNat + tlen.toNat < 2 ^ 32) :
    Halts (dumpStep fails tstart tlen) ⟨nic, buf, tstart, 0⟩
      (dumpSwattCode fails nic buf tstart tlen) ∧
    WindowOnly c (dumpSwattCode fails nic buf tstart tlen).nic := by
  refine And.imp_right And.right (dumpSwattCode_inv
    (fun n s => s.p = tstart + BitVec.ofNat 32 (32 * n) ∧ WindowOnly c s.nic) hlen hend
    ⟨by simp, h⟩ (fun n s hs => hs.1) ?_)
  rintro n s ⟨hp, hs⟩
  exact ⟨s.burst_p fails hp, hs.readTbuf fails s.buf s.p s.entry⟩

theorem dumpFirmware_windowOnly {c : Card} {nic : AlteonSt} (h : WindowOnly c nic)
    (fails : Nat → Bool) {tstart tlen : Word} (hlen : tlen.toNat % 32 = 0)
    (hend : tstart.toNat + tlen.toNat < 2 ^ 32) :
    WindowOnly c (dumpFirmware fails nic tstart tlen).1 := by
  have hdump := (dumpSwattCode_windowOnly (h.readSmem fails 0x68) fails Buffer.zero hlen hend).2
  exact hdump.writeSmem fails _

/-! ## Section 7: The dump is a copy -/

/-- The window follows the burst. -/
theorem Burst.follow_spec {c : Card} {s : Burst} (h : s.nic.card = c.atWindow s.frameBase) :
    (s.follow succeed).nic.card = c.atWindow (s.current &&& 0xfffff800) ∧
    (s.follow succeed).frameBase = s.current &&& 0xfffff800 ∧
    (s.follow succeed).current = s.current ∧ (s.follow succeed).buf = s.buf := by
  unfold Burst.follow
  split
  · refine ⟨?_, rfl, rfl, rfl⟩
    show (writeSmem succeed s.nic 0x68 _).1.card = _
    rw [writeSmem_card, h, otherEndian_ntohl, Card.write_atWindow]
  · next hin =>
    rw [not_not.mp hin]
    exact ⟨h, rfl, rfl, rfl⟩

theorem burstStep_eq (fails : Nat → Bool) (entry : Nat) (s : Burst) (i : Nat) :
    burstStep fails entry s i =
      { nic := (readSmem fails (s.follow fails).nic
          (((s.follow fails).current &&& 0x7ff) + 0x800)).1,
        frameBase := (s.follow fails).frameBase,
        current := (s.follow fails).current + 4,
        buf := (s.follow fails).buf.put (entry + i) (readSmem fails (s.follow fails).nic
          (((s.follow fails).current &&& 0x7ff) + 0x800)).2.1 } := rfl

/-- One more entry of a range is written. -/
theorem ite_range_succ {α : Type} {entry n j : Nat} {v b : α} {f : Nat → α}
    (hv : j = entry + n → v = f j) :
    (if j = entry + n then v else if entry ≤ j ∧ j < entry + n then f j else b) =
      if entry ≤ j ∧ j < entry + (n + 1) then f j else b := by
  by_cases he : j = entry + n
  · rw [if_pos he, if_pos (by omega), hv he]
  · rw [if_neg he]
    by_cases hin : entry ≤ j ∧ j < entry + n
    · rw [if_pos hin, if_pos (by omega)]
    · rw [if_neg hin, if_neg (by omega)]

/-- What holds after `n` words of a burst. -/
structure BurstInv (c : Card) (buf : Buffer) (offset : Word) (entry n : Nat) (s : Burst) :
    Prop where
  card    : s.nic.card = c.atWindow s.frameBase
  current : s.current = offset + BitVec.ofNat 32 (4 * n)
  buf     : ∀ j < fwWords, s.buf.get j =
    if entry ≤ j ∧ j < entry + n then
      otherEndian (c.mem (offset + BitVec.ofNat 32 (4 * (j - entry))))
    else buf.get j

theorem BurstInv.step {c : Card} {buf : Buffer} {offset : Word} {entry n : Nat} {s : Burst}
    (h : BurstInv c buf offset entry n s) :
    BurstInv c buf offset entry (n + 1) (burstStep succeed entry s n) := by
  obtain ⟨hcard, hbase, hcur, hbuf⟩ := Burst.follow_spec h.card
  rw [burstStep_eq, readSmem_word, hcard, hcur, hbase, hbuf, Card.read_page]
  refine ⟨?_, ?_, fun j hj => ?_⟩
  · rw [readSmem_card, hcard]
  · show s.current + 4 = _
    rw [h.current, Nat.mul_succ, BitVec.ofNat_add, BitVec.add_assoc]
    rfl
  · rw [Buffer.get_put _ _ _ _ hj, h.buf j hj, h.current]
    refine ite_range_succ (f := fun j =>
      otherEndian (c.mem (offset + BitVec.ofNat 32 (4 * (j - entry))))) fun he => ?_
    rw [he, Nat.add_sub_cancel_left]

theorem burstInv_run {c : Card} {buf : Buffer} {offset : Word} {entry : Nat} {s : Burst}
    (h : BurstInv c buf offset entry 0 s) (n : Nat) :
    BurstInv c buf offset entry n ((List.range n).foldl (burstStep succeed entry) s) := by
  induction n with
  | zero => exact h
  | succ n ih =>
    rw [List.range_succ, List.foldl_append]
    exact ih.step

/-- The second loop of `read_tbuf`. -/
theorem swapSteps_get (buf : Buffer) (entry n : Nat) {j : Nat} (hj : j < fwWords) :
    ((List.range n).foldl (swapStep entry) buf).get j =
      if entry ≤ j ∧ j < entry + n then ntohl (buf.get j) else buf.get j := by
  induction n with
  | zero => rw [if_neg (by omega)]; rfl
  | succ n ih =>
    rw [List.range_succ, List.foldl_append]
    show (swapStep entry _ n).get j = _
    rw [swapStep, Buffer.get_put _ _ _ _ hj, ih]
    refine ite_range_succ (f := fun j => ntohl (buf.get j)) fun he => ?_
    rw [← he, ih, if_neg (by omega)]

/-- **A burst** copies eight words, and moves nothing on the card but the
    window. -/
theorem readTbuf_spec {c : Card} {w : Word} {nic : AlteonSt} (h : nic.card = c.atWindow w)
    (buf : Buffer) (offset : Word) (entry : Nat) :
    (∃ w', (readTbuf succeed nic buf offset entry).1.card = c.atWindow w') ∧
    ∀ j < fwWords, (readTbuf succeed nic buf offset entry).2.get j =
      if entry ≤ j ∧ j < entry + 8 then c.mem (offset + BitVec.ofNat 32 (4 * (j - entry)))
      else buf.get j := by
  have hinit : BurstInv c buf offset entry 0
      ⟨(readSmem succeed nic 0x68).1, htonl (readSmem succeed nic 0x68).2.1, offset, buf⟩ := by
    refine ⟨?_, by simp, fun j _ => by rw [if_neg (by omega)]⟩
    show (readSmem succeed nic 0x68).1.card = c.atWindow (htonl (readSmem succeed nic 0x68).2.1)
    rw [readSmem_card, readSmem_word, h, Card.read_atWindow, htonl_otherEndian]
  have hrun := burstInv_run hinit 8
  refine ⟨⟨_, hrun.card⟩, fun j hj => ?_⟩
  have hswap := swapSteps_get ((List.range 8).foldl (burstStep succeed entry)
    ⟨(readSmem succeed nic 0x68).1, htonl (readSmem succeed nic 0x68).2.1, offset, buf⟩).buf
    entry 8 hj
  rw [hrun.buf j hj] at hswap
  refine hswap.trans ?_
  split
  · rw [ntohl_otherEndian]
  · rfl

/-- What holds after `n` bursts. -/
structure DumpInv (c : Card) (buf : Buffer) (tstart : Word) (n : Nat) (s : Dump) : Prop where
  card  : ∃ w, s.nic.card = c.atWindow w
  p     : s.p = tstart + BitVec.ofNat 32 (32 * n)
  entry : s.entry = 8 * n
  buf   : ∀ j < fwWords, s.buf.get j =
    if j < 8 * n then c.mem (tstart + BitVec.ofNat 32 (4 * j)) else buf.get j

theorem DumpInv.burst {c : Card} {buf : Buffer} {tstart : Word} {n : Nat} {s : Dump}
    (h : DumpInv c buf tstart n s) : DumpInv c buf tstart (n + 1) (s.burst succeed) := by
  obtain ⟨w, hw⟩ := h.card
  obtain ⟨hcard, hbuf⟩ := readTbuf_spec hw s.buf s.p s.entry
  refine ⟨hcard, s.burst_p succeed h.p, ?_, fun j hj => ?_⟩
  · show s.entry + 8 = _
    rw [h.entry, Nat.mul_succ]
  · refine (hbuf j hj).trans ?_
    rw [h.buf j hj, h.p, h.entry, BitVec.add_assoc, ← BitVec.ofNat_add]
    by_cases hin : 8 * n ≤ j ∧ j < 8 * n + 8
    · have hsum : 32 * n + 4 * (j - 8 * n) = 4 * j := by omega
      rw [if_pos hin, if_pos (by omega), hsum]
    · by_cases hlt : j < 8 * n
      · rw [if_neg hin, if_pos hlt, if_pos (by omega)]
      · rw [if_neg hin, if_neg hlt, if_neg (by omega)]

/-- `dump_swatt_code` returns after `tlen / 32` bursts. -/
theorem dumpSwattCode_spec {c : Card} {w : Word} {nic : AlteonSt} (hnic : nic.card = c.atWindow w)
    (buf : Buffer) {tstart tlen : Word} (hlen : tlen.toNat % 32 = 0)
    (hend : tstart.toNat + tlen.toNat < 2 ^ 32) :
    Halts (dumpStep succeed tstart tlen) ⟨nic, buf, tstart, 0⟩
      (dumpSwattCode succeed nic buf tstart tlen) ∧
    DumpInv c buf tstart (tlen.toNat / 32) (dumpSwattCode succeed nic buf tstart tlen) := by
  apply dumpSwattCode_inv (DumpInv c buf tstart) hlen hend
  · exact ⟨⟨w, hnic⟩, by simp, rfl, fun j _ => by rw [if_neg (by omega)]⟩
  · intro n s hs
    exact hs.p
  · intro n s hs
    exact hs.burst

/-- **The dump is a copy.**  When the ioctls succeed, `dump_swatt_code` returns
    with the word of the card at `tstart + 4 * i` in `g_swatt_buf[i]`, for every
    `i` below `tlen / 4`, and the other entries as they were; on the card it
    changes register `0x68` alone.  The `write_smem` that follows in `main` puts
    that register back, wherever the window was. -/
theorem dump_exact (nic : AlteonSt) (buf : Buffer) (tstart tlen : Word)
    (hlen : tlen.toNat % 32 = 0) (hsize : tlen.toNat ≤ 4 * fwWords)
    (hend : tstart.toNat + tlen.toNat < 2 ^ 32) :
    Halts (dumpStep succeed tstart tlen) ⟨nic, buf, tstart, 0⟩
      (dumpSwattCode succeed nic buf tstart tlen) ∧
    (∀ i < tlen.toNat / 4, (dumpSwattCode succeed nic buf tstart tlen).buf.get i =
      nic.card.mem (tstart + BitVec.ofNat 32 (4 * i))) ∧
    (∀ i, tlen.toNat / 4 ≤ i → i < fwWords →
      (dumpSwattCode succeed nic buf tstart tlen).buf.get i = buf.get i) ∧
    (dumpSwattCode succeed nic buf tstart tlen).nic.card.mem = nic.card.mem ∧
    (∀ offset ≠ 0x68, (dumpSwattCode succeed nic buf tstart tlen).nic.card.reg offset =
      nic.card.reg offset) ∧
    (dumpFirmware succeed nic tstart tlen).1.card = nic.card ∧
    (∀ i < tlen.toNat / 4, (dumpFirmware succeed nic tstart tlen).2.get i =
      nic.card.mem (tstart + BitVec.ofNat 32 (4 * i))) := by
  have hwords : 8 * (tlen.toNat / 32) = tlen.toNat / 4 := by omega
  have hcopied : ∀ {b : Buffer} {d : Dump}, DumpInv nic.card b tstart (tlen.toNat / 32) d →
      ∀ i < tlen.toNat / 4, d.buf.get i = nic.card.mem (tstart + BitVec.ofNat 32 (4 * i)) := by
    intro b d hd i hi
    rw [hd.buf i (by omega), if_pos (by omega)]
  obtain ⟨hhalts, hinv⟩ := dumpSwattCode_spec (Card.atWindow_reg nic.card).symm buf hlen hend
  obtain ⟨w, hw⟩ := hinv.card
  -- in `main` the dump starts after the `read_smem` of `o_frame_base`
  have hread : (readSmem succeed nic 0x68).1.card = nic.card.atWindow (nic.card.reg 0x68) :=
    (readSmem_card succeed nic 0x68).trans (Card.atWindow_reg nic.card).symm
  have hmain := (dumpSwattCode_spec hread Buffer.zero hlen hend).2
  refine ⟨hhalts, hcopied hinv, fun i hi hlt => ?_, ?_, fun offset hne => ?_, ?_, hcopied hmain⟩
  · rw [hinv.buf i hlt, if_neg (by omega)]
  · rw [hw]
    rfl
  · rw [hw]
    exact Function.update_of_ne hne _ _
  · obtain ⟨w', hw'⟩ := hmain.card
    show (writeSmem succeed (dumpSwattCode succeed (readSmem succeed nic 0x68).1 Buffer.zero tstart
      tlen).nic 0x68 (ntohl (htonl (readSmem succeed nic 0x68).2.1))).1.card = nic.card
    rw [writeSmem_card, hw', otherEndian_ntohl, readSmem_word, htonl_otherEndian,
      Card.write_atWindow]
    exact Card.atWindow_reg nic.card

/-- The dump of `main` from a card whose words are their own addresses. -/
theorem dump_last_word :
    (dumpSwattCode succeed ⟨⟨fun _ => 0, fun a => a⟩, 0, 0, 0⟩ Buffer.zero 0x8b00
      3072).buf.get 767 = 0x8b00 + BitVec.ofNat 32 (4 * 767) :=
  (dump_exact ⟨⟨fun _ => 0, fun a => a⟩, 0, 0, 0⟩ Buffer.zero 0x8b00 3072 (by decide) (by decide)
    (by decide)).2.1 767 (by decide)

end Viper
