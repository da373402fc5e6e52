import VetGumstix.Framework.BitMask
import VetGumstix.Linux.Bitrev
import VetGumstix.Linux.Crc32
import VetGumstix.Nic.Mac

/-! # The Receive Filter

    `smsc911x_set_multicast_list` turns the flags of the interface and its list
    of multicast addresses into bits to set and to clear in `MAC_CR` and a hash
    table of 64 bits; `smsc911x_rx_multicast_update` writes them to the MAC.

    What the MAC makes of the bits and of the table is a parameter
    (`AddressFilter`), of which the meaning of the four modes is assumed for
    addresses of groups, and nothing else.

    `filter_exact`: the filter lets a frame to a group through when all are
    wanted, or when its address has the hash of a listed one, and never else.
    The hash of the driver comes from the tables of `crc32_le` and the one of
    the MAC from a shift register.
-/

namespace Nic

open Bytes Linux

/-! ## Section 1: The driver -/

/-- `IFF_PROMISC` -/
def iffPromisc : Word := 0x100
/-- `IFF_ALLMULTI` -/
def iffAllmulti : Word := 0x200
/-- `MAC_CR_MCPAS_` -/
def macCrMcpas : Word := 0x00080000
/-- `MAC_CR_PRMS_` -/
def macCrPrms : Word := 0x00040000
/-- `MAC_CR_HPFILT_` -/
def macCrHpfilt : Word := 0x00002000
/-- `HASHH` -/
def hashh : Word := 0x04
/-- `HASHL` -/
def hashl : Word := 0x05

/-- What `smsc911x_set_multicast_list` reads: the flags of the interface, and
    where its multicast addresses lie. -/
structure RxMode where
  flags : Word
  mem : ByteMem
  mc : List Nat

/-- The members of `smsc911x_data` for the filter. -/
@[ext] structure Masks where
  setBits : Word
  clearBits : Word
  hashhi : Word
  hashlo : Word
deriving DecidableEq

/-- `ether_crc` -/
def etherCrc (b : CrcLeBits) (mem : ByteMem) (data length : Nat) : Word :=
  bitrev32 (crc32Le b 0xFFFFFFFF mem data length)

/-- `smsc911x_hash` -/
def smsc911xHash (b : CrcLeBits) (mem : ByteMem) (addr : Nat) : Word :=
  (etherCrc b mem addr 6 >>> 26) &&& 0x3f

/-- One address of the list: `hash_high` and `hash_low`. -/
def hashAddr (b : CrcLeBits) (mem : ByteMem) (h : Word × Word) (addr : Nat) : Word × Word :=
  let bitnum := smsc911xHash b mem addr
  let mask := (0x01 : Word) <<< (bitnum &&& 0x1F).toNat
  if bitnum &&& 0x20 ≠ 0 then (h.1 ||| mask, h.2) else (h.1, h.2 ||| mask)

/-- The four modes of `smsc911x_set_multicast_list`. -/
def setMulticastList (b : CrcLeBits) (dev : RxMode) : Masks :=
  if dev.flags &&& iffPromisc ≠ 0 then
    { setBits := macCrPrms, clearBits := macCrMcpas ||| macCrHpfilt, hashhi := 0, hashlo := 0 }
  else if dev.flags &&& iffAllmulti ≠ 0 then
    { setBits := macCrMcpas, clearBits := macCrPrms ||| macCrHpfilt, hashhi := 0, hashlo := 0 }
  else if dev.mc ≠ [] then
    let h := dev.mc.foldl (hashAddr b dev.mem) (0, 0)
    { setBits := macCrHpfilt, clearBits := macCrPrms ||| macCrMcpas, hashhi := h.1, hashlo := h.2 }
  else
    { setBits := 0, clearBits := macCrPrms ||| macCrMcpas ||| macCrHpfilt
      hashhi := 0, hashlo := 0 }

/-- `smsc911x_rx_multicast_update` -/
def rxMulticastUpdate {M : Type} (rf : Registers M) (done : Nat → Bool) (k : Masks) (c : Csr M) :
    Csr M :=
  let c := modifyCr rf done (fun mac_cr => (mac_cr ||| k.setBits) &&& ~~~k.clearBits) c
  let c := macWrite rf done hashh k.hashhi c
  macWrite rf done hashl k.hashlo c

/-- The same on the registers. -/
def Masks.update (k : Masks) (m : MacRegs) : MacRegs :=
  let m := Function.update m 1 ((m 1 ||| k.setBits) &&& ~~~k.clearBits)
  let m := Function.update m 4 k.hashhi
  Function.update m 5 k.hashlo

/-- **With a prompt MAC** the accesses do to the registers what they are to do. -/
theorem rxMulticastUpdate_prompt {done : Nat → Bool} (hprompt : Prompt done) (k : Masks)
    {c : Csr MacRegs} (h : c.Idle) :
    (rxMulticastUpdate macRegs done k c).Idle ∧
      (rxMulticastUpdate macRegs done k c).obj = k.update c.obj := by
  obtain ⟨hcr, hobj⟩ := modifyCr_prompt hprompt
    (fun mac_cr => (mac_cr ||| k.setBits) &&& ~~~k.clearBits) h
  obtain ⟨hhigh, hobj'⟩ := macWrite_prompt macRegs hprompt hcr hashh k.hashhi
  obtain ⟨hlow, hobj''⟩ := macWrite_prompt macRegs hprompt hhigh hashl k.hashlo
  rw [Port.effect_of_idle _ hcr, Port.effect_of_idle _ hhigh, hobj] at hobj'
  rw [Port.effect_of_idle _ hhigh, Port.effect_of_idle _ hlow, hobj'] at hobj''
  exact ⟨hlow, hobj''⟩

/-! ## Section 2: The hash table -/

/-- The hash of an address as the MAC computes it, bit by bit. -/
def hwHash (addr : List Byte) : Nat :=
  ((addr.foldl (crcByte1 crcPolyLe) 0xFFFFFFFF).reverse >>> 26).toNat

theorem hwHash_lt (addr : List Byte) : hwHash addr < 64 := by
  unfold hwHash
  rw [BitVec.toNat_ushiftRight, Nat.shiftRight_eq_div_pow]
  have hlt := (addr.foldl (crcByte1 crcPolyLe) 0xFFFFFFFF).reverse.isLt
  omega

/-- **Tables and shift register agree**, whichever way the kernel computes its
    CRC. -/
theorem smsc911xHash_eq (b : CrcLeBits) (mem : ByteMem) (addr : Nat) :
    (smsc911xHash b mem addr).toNat = hwHash (readBytes mem addr 6) := by
  have hcrc : crc32Le b 0xFFFFFFFF mem addr 6 =
      (readBytes mem addr 6).foldl (crcByte1 crcPolyLe) 0xFFFFFFFF := by
    have hstep : crcByte1 crcPolyLe = feed crcPolyLe := funext₂ crcByte1_eq
    rw [crc32Le, crc32LeGeneric_feed (crc32init_sound b crcPolyLe), hstep]
  have hmask : ∀ x : Word, ((x >>> 26) &&& 0x3f).toNat = (x >>> 26).toNat := by
    intro x
    have hx := x.isLt
    rw [BitVec.toNat_and, show (0x3f : Word).toNat = 2 ^ 6 - 1 from rfl,
      Nat.and_two_pow_sub_one_eq_mod, BitVec.toNat_ushiftRight, Nat.shiftRight_eq_div_pow]
    exact Nat.mod_eq_of_lt (by omega)
  rw [smsc911xHash, hmask, etherCrc, bitrev32_eq, hcrc, hwHash]

-- the example in the source
example : hwHash [0x01, 0x00, 0x5E, 0x00, 0x00, 0x01] = 31 := by decide +kernel

/-- A bit of the table. -/
def hashBit (h : Word × Word) (n : Nat) : Bool :=
  if 32 ≤ n then h.1.getLsbD (n - 32) else h.2.getLsbD n

theorem getLsbD_mask {s j : Nat} (hj : j < 32) :
    ((0x01 : Word) <<< s).getLsbD j = decide (j = s) := by
  rw [BitVec.getLsbD_shiftLeft, show (0x01 : Word) = 1#32 from rfl, BitVec.getLsbD_one]
  by_cases heq : j = s
  · rw [heq] at hj ⊢
    simp [hj]
  · by_cases hle : s ≤ j
    · have hpos : j - s ≠ 0 := by omega
      simp [heq, hpos]
    · simp [heq, Nat.lt_of_not_le hle]

/-- The number of a bit, taken apart as the driver does. -/
theorem bitnum_parts {x : Word} {k : Nat} (hx : x.toNat = k) (hk : k < 64) :
    (x &&& 0x1F).toNat = k % 32 ∧ (x &&& 0x20 ≠ 0 ↔ 32 ≤ k) := by
  have hlow : (x &&& 0x1F).toNat = k % 32 := by
    rw [BitVec.toNat_and, hx, show (0x1F : Word).toNat = 2 ^ 5 - 1 from rfl,
      Nat.and_two_pow_sub_one_eq_mod]
  have hhigh : (x &&& 0x20).toNat = 32 * (k / 32) := by
    have hfield := BitMask.toNat_and_field x 0x20 5 1 rfl
    rw [hx] at hfield
    omega
  refine ⟨hlow, ?_⟩
  rw [ne_eq, ← BitVec.toNat_inj, hhigh]
  show ¬ 32 * (k / 32) = 0 ↔ 32 ≤ k
  omega

/-- An address sets its bit and no other. -/
theorem hashBit_hashAddr (b : CrcLeBits) (mem : ByteMem) (h : Word × Word) (addr : Nat) {n : Nat}
    (hn : n < 64) :
    hashBit (hashAddr b mem h addr) n =
      (hashBit h n || decide (n = hwHash (readBytes mem addr 6))) := by
  have hk := hwHash_lt (readBytes mem addr 6)
  obtain ⟨hlow, hhigh⟩ := bitnum_parts (smsc911xHash_eq b mem addr) hk
  generalize hwHash (readBytes mem addr 6) = k at *
  unfold hashAddr
  simp only [hlow]
  by_cases hbank : 32 ≤ k
  · -- the bit lies in the high word
    rw [if_pos (hhigh.mpr hbank)]
    unfold hashBit
    by_cases hn32 : 32 ≤ n
    · rw [if_pos hn32, if_pos hn32, BitVec.getLsbD_or, getLsbD_mask (by omega)]
      congr 1
      apply decide_eq_decide.mpr
      omega
    · rw [if_neg hn32, if_neg hn32]
      have hne : n ≠ k := by omega
      simp [hne]
  · rw [if_neg (mt hhigh.mp hbank)]
    unfold hashBit
    by_cases hn32 : 32 ≤ n
    · rw [if_pos hn32, if_pos hn32]
      have hne : n ≠ k := by omega
      simp [hne]
    · rw [if_neg hn32, if_neg hn32, BitVec.getLsbD_or, getLsbD_mask (by omega)]
      congr 1
      apply decide_eq_decide.mpr
      omega

/-- **The table of a list**: the bits of its addresses. -/
theorem hashBit_foldl (b : CrcLeBits) (mem : ByteMem) (mc : List Nat) (h : Word × Word) {n : Nat}
    (hn : n < 64) :
    hashBit (mc.foldl (hashAddr b mem) h) n = true ↔
      hashBit h n = true ∨ ∃ addr ∈ mc, hwHash (readBytes mem addr 6) = n := by
  induction mc generalizing h with
  | nil => simp
  | cons addr mc ih =>
    rw [List.foldl_cons, ih, hashBit_hashAddr b mem h addr hn, Bool.or_eq_true,
      decide_eq_true_iff, List.exists_mem_cons_iff, or_assoc, @eq_comm _ n]

/-! ## Section 3: The filter -/

/-- `MAC_CR_RXALL_ | MAC_CR_INVFILT_ | MAC_CR_HFILT_` -/
def plainBits : Word := 0x80000000 ||| 0x00020000 ||| 0x00008000

/-- None of the bits is set that turn the filter into another one.  The driver
    never sets them. -/
def MacRegs.Plain (m : MacRegs) : Prop := m 1 &&& plainBits = 0

/-- The address of a group, other than the broadcast address. -/
def GroupAddr (addr : List Byte) : Prop :=
  addr.length = 6 ∧ (addr.headD 0).getLsbD 0 = true ∧ addr ≠ List.replicate 6 0xFF

instance (addr : List Byte) : Decidable (GroupAddr addr) :=
  inferInstanceAs (Decidable (_ ∧ _ ∧ _))

/-- The bits of `MAC_CR` that choose the mode. -/
def modeBits : Word := macCrPrms ||| macCrMcpas ||| macCrHpfilt

/-- The filter of a MAC: which frames it lets through.  Assumed is what the modes
    mean for groups: `PRMS` stands for all frames, `MCPAS` for all groups,
    `HPFILT` for the groups with a bit in the table, and none of them for no
    group. -/
structure AddressFilter where
  passes : MacRegs → List Byte → Prop
  promisc : ∀ {m}, m.Plain → m 1 &&& macCrPrms ≠ 0 → ∀ addr, passes m addr
  allMulti : ∀ {m addr}, m.Plain → m 1 &&& macCrMcpas ≠ 0 → GroupAddr addr → passes m addr
  hashed : ∀ {m addr}, m.Plain → m 1 &&& modeBits = macCrHpfilt → GroupAddr addr →
    (passes m addr ↔ hashBit (m 4, m 5) (hwHash addr) = true)
  perfect : ∀ {m addr}, m.Plain → m 1 &&& modeBits = 0 → GroupAddr addr → ¬ passes m addr

/-- What is wanted of the groups: all, or the listed ones and such as hash to the
    same. -/
def RxMode.Wanted (dev : RxMode) (addr : List Byte) : Prop :=
  dev.flags &&& iffPromisc ≠ 0 ∨ dev.flags &&& iffAllmulti ≠ 0 ∨
    ∃ listed ∈ dev.mc, hwHash (readBytes dev.mem listed 6) = hwHash addr

/-- The filter lets through what the mode asks for. -/
structure AddressFilter.Serves (flt : AddressFilter) (m : MacRegs) (dev : RxMode) : Prop where
  promisc : dev.flags &&& iffPromisc ≠ 0 → ∀ addr, flt.passes m addr
  groups  : ∀ addr, GroupAddr addr → (flt.passes m addr ↔ dev.Wanted addr)

/-- Masks that settle every one of these bits. -/
structure Masks.Proper (k : Masks) : Prop where
  all      : k.setBits ||| k.clearBits = modeBits
  disjoint : k.setBits &&& k.clearBits = 0

/-- In every mode they do. -/
theorem setMulticastList_proper (b : CrcLeBits) (dev : RxMode) :
    (setMulticastList b dev).Proper := by
  unfold setMulticastList
  split
  · exact ⟨rfl, rfl⟩
  split
  · exact ⟨rfl, rfl⟩
  split
  · exact ⟨show macCrHpfilt ||| (macCrPrms ||| macCrMcpas) = modeBits by decide,
      show macCrHpfilt &&& (macCrPrms ||| macCrMcpas) = 0 by decide⟩
  · exact ⟨rfl, rfl⟩

@[simp] theorem update_hashh (k : Masks) (m : MacRegs) : k.update m 4 = k.hashhi := by
  simp [Masks.update]

@[simp] theorem update_hashl (k : Masks) (m : MacRegs) : k.update m 5 = k.hashlo := by
  simp [Masks.update]

theorem update_cr (k : Masks) (m : MacRegs) :
    k.update m 1 = (m 1 ||| k.setBits) &&& ~~~k.clearBits := by
  simp [Masks.update]

/-- The registers hold what the masks say. -/
structure MacRegs.Carries (m : MacRegs) (k : Masks) : Prop where
  mode   : m 1 &&& modeBits = k.setBits
  hashhi : m 4 = k.hashhi
  hashlo : m 5 = k.hashlo

/-- The mode after an update does not depend on the one before. -/
theorem update_carries {k : Masks} (hk : k.Proper) (m : MacRegs) : (k.update m).Carries k := by
  refine ⟨?_, update_hashh k m, update_hashl k m⟩
  rw [update_cr]
  apply BitVec.eq_of_getLsbD_eq
  intro i hi
  have hall := congrArg (·.getLsbD i) hk.all
  have hdisjoint := congrArg (·.getLsbD i) hk.disjoint
  simp only [BitVec.getLsbD_or, BitVec.getLsbD_and, BitVec.getLsbD_not, hi, decide_true,
    Bool.true_and] at hall hdisjoint ⊢
  rw [← hall]
  -- a bit is set, or cleared, or none of theirs
  cases hset : k.setBits.getLsbD i <;> cases hclear : k.clearBits.getLsbD i <;>
    simp [hset, hclear] at hdisjoint ⊢

/-- What they set are bits of the mode. -/
theorem Masks.Proper.plain {k : Masks} (hk : k.Proper) : k.setBits &&& plainBits = 0 := by
  have hsub : k.setBits = k.setBits &&& modeBits := by
    rw [← hk.all, BitVec.and_or_distrib_left, BitVec.and_self, hk.disjoint]
    exact BitVec.or_zero.symm
  rw [hsub, BitVec.and_assoc, show modeBits &&& plainBits = 0 by decide]
  exact BitVec.and_zero

theorem update_plain {k : Masks} (hset : k.setBits &&& plainBits = 0) {m : MacRegs}
    (h : m.Plain) : (k.update m).Plain := by
  unfold MacRegs.Plain at h ⊢
  rw [update_cr, BitVec.and_assoc, BitVec.and_comm (~~~k.clearBits), ← BitVec.and_assoc,
    BitVec.and_or_distrib_right, h, hset]
  simp

section Serves

variable (flt : AddressFilter) {m : MacRegs} {dev : RxMode} (hplain : m.Plain)

include hplain

theorem serves_of_promisc (hmode : m 1 &&& modeBits = macCrPrms)
    (hpromisc : dev.flags &&& iffPromisc ≠ 0) : flt.Serves m dev := by
  have hbit : m 1 &&& macCrPrms ≠ 0 := by
    rw [show macCrPrms = modeBits &&& macCrPrms from rfl, ← BitVec.and_assoc, hmode]
    decide
  have hall := flt.promisc hplain hbit
  exact ⟨fun _ => hall, fun addr _ => ⟨fun _ => .inl hpromisc, fun _ => hall addr⟩⟩

theorem serves_of_allMulti (hmode : m 1 &&& modeBits = macCrMcpas)
    (hpromisc : ¬ dev.flags &&& iffPromisc ≠ 0) (hallmulti : dev.flags &&& iffAllmulti ≠ 0) :
    flt.Serves m dev := by
  have hbit : m 1 &&& macCrMcpas ≠ 0 := by
    rw [show macCrMcpas = modeBits &&& macCrMcpas from rfl, ← BitVec.and_assoc, hmode]
    decide
  refine ⟨fun h => absurd h hpromisc, ?_⟩
  intro addr hgroup
  exact ⟨fun _ => .inr (.inl hallmulti), fun _ => flt.allMulti hplain hbit hgroup⟩

/-- The hash table decides. -/
theorem serves_of_hashed {b : CrcLeBits} (hmode : m 1 &&& modeBits = macCrHpfilt)
    (htable : (m 4, m 5) = dev.mc.foldl (hashAddr b dev.mem) (0, 0))
    (hpromisc : ¬ dev.flags &&& iffPromisc ≠ 0) (hallmulti : ¬ dev.flags &&& iffAllmulti ≠ 0) :
    flt.Serves m dev := by
  refine ⟨fun h => absurd h hpromisc, ?_⟩
  intro addr hgroup
  have hempty : ¬ hashBit (0, 0) (hwHash addr) = true := by
    unfold hashBit
    split <;> simp
  rw [flt.hashed hplain hmode hgroup, htable,
    hashBit_foldl b dev.mem dev.mc (0, 0) (hwHash_lt addr)]
  constructor
  · rintro (h | h)
    · exact absurd h hempty
    · exact .inr (.inr h)
  · rintro (h | h | h)
    · exact absurd h hpromisc
    · exact absurd h hallmulti
    · exact .inr h

theorem serves_of_perfect (hmode : m 1 &&& modeBits = 0)
    (hpromisc : ¬ dev.flags &&& iffPromisc ≠ 0) (hallmulti : ¬ dev.flags &&& iffAllmulti ≠ 0)
    (hlist : dev.mc = []) : flt.Serves m dev := by
  refine ⟨fun h => absurd h hpromisc, ?_⟩
  intro addr hgroup
  constructor
  · exact fun h => absurd h (flt.perfect hplain hmode hgroup)
  · rintro (h | h | ⟨listed, hmem, -⟩)
    · exact absurd h hpromisc
    · exact absurd h hallmulti
    · rw [hlist] at hmem
      exact absurd hmem List.not_mem_nil

/-- Once the masks are in the registers, what passes is what is wanted. -/
theorem serves_setMulticastList {b : CrcLeBits} (h : m.Carries (setMulticastList b dev)) :
    flt.Serves m dev := by
  have hmode := h.mode
  have htable : (m 4, m 5) =
      ((setMulticastList b dev).hashhi, (setMulticastList b dev).hashlo) := by
    rw [h.hashhi, h.hashlo]
  unfold setMulticastList at hmode htable
  by_cases hpromisc : dev.flags &&& iffPromisc ≠ 0
  · rw [if_pos hpromisc] at hmode
    exact serves_of_promisc flt hplain hmode hpromisc
  rw [if_neg hpromisc] at hmode htable
  by_cases hallmulti : dev.flags &&& iffAllmulti ≠ 0
  · rw [if_pos hallmulti] at hmode
    exact serves_of_allMulti flt hplain hmode hpromisc hallmulti
  rw [if_neg hallmulti] at hmode htable
  by_cases hlist : dev.mc ≠ []
  · rw [if_pos hlist] at hmode htable
    exact serves_of_hashed flt hplain hmode htable hpromisc hallmulti
  · rw [if_neg hlist] at hmode
    exact serves_of_perfect flt hplain hmode hpromisc hallmulti (not_not.mp hlist)

end Serves

/-- **The filter lets through what is wanted**, up to the hash, after the
    accesses of `smsc911x_rx_multicast_update`: for every flag, list and address
    of a group, whatever mode was set before, and whichever way the kernel
    computes its CRC. -/
theorem filter_exact (flt : AddressFilter) (b : CrcLeBits) (dev : RxMode) (done : Nat → Bool)
    (c : Csr MacRegs) (hprompt : Prompt done) (hidle : c.Idle) (hplain : c.obj.Plain) :
    flt.Serves (rxMulticastUpdate macRegs done (setMulticastList b dev) c).obj dev := by
  have hproper := setMulticastList_proper b dev
  rw [(rxMulticastUpdate_prompt hprompt _ hidle).2]
  exact serves_setMulticastList flt (update_plain hproper.plain hplain)
    (update_carries hproper c.obj)

/-- A MAC that lets nothing else through. -/
def strictFilter : AddressFilter where
  passes m addr := m 1 &&& macCrPrms ≠ 0 ∨ m 1 &&& macCrMcpas ≠ 0 ∨
    m 1 &&& macCrHpfilt ≠ 0 ∧ hashBit (m 4, m 5) (hwHash addr) = true
  promisc _ h _ := .inl h
  allMulti _ h _ := .inr (.inl h)
  hashed := by
    intro m addr _ hmode _
    have hbit : ∀ mask : Word, modeBits &&& mask = mask → m 1 &&& mask = macCrHpfilt &&& mask := by
      intro mask hmask
      rw [← hmode, BitVec.and_assoc, hmask]
    rw [hbit macCrPrms rfl, hbit macCrMcpas rfl, hbit macCrHpfilt rfl]
    constructor
    · rintro (h | h | h)
      · exact absurd h (by decide)
      · exact absurd h (by decide)
      · exact h.2
    · exact fun h => .inr (.inr ⟨by decide, h⟩)
  perfect := by
    intro m addr _ hmode _
    have hbit : ∀ mask : Word, modeBits &&& mask = mask → m 1 &&& mask = 0 := by
      intro mask hmask
      rw [← hmask, ← BitVec.and_assoc, hmode]
      exact BitVec.zero_and
    rw [hbit macCrPrms rfl, hbit macCrMcpas rfl, hbit macCrHpfilt rfl]
    simp

/-- `01:00:5e:00:00:01`, the group of all hosts. -/
def allHosts : List Byte := [0x01, 0x00, 0x5E, 0x00, 0x00, 0x01]

/-- An interface with this group on its list. -/
def allHostsMode : RxMode := ⟨0, writeBytes (fun _ => 0) 0 allHosts, [0]⟩

/-- The group of all hosts passes when it is listed, and no other whose hash is
    not 31. -/
theorem filter_exact_all_hosts :
    let m := (rxMulticastUpdate macRegs (fun _ => true) (setMulticastList .eight allHostsMode)
      resetCsr).obj
    strictFilter.passes m allHosts ∧
      ¬ strictFilter.passes m [0x01, 0x00, 0x5E, 0x00, 0x00, 0x02] := by
  intro m
  have hserves := filter_exact strictFilter .eight allHostsMode (fun _ => true) resetCsr
    (fun _ => ⟨0, by decide, rfl⟩) rfl rfl
  constructor
  · exact (hserves.groups allHosts (by decide)).mpr
      (.inr (.inr ⟨0, List.mem_singleton.mpr rfl, rfl⟩))
  · intro hpasses
    rcases (hserves.groups _ (by decide)).mp hpasses with h | h | ⟨listed, hmem, h⟩
    · exact absurd rfl h
    · exact absurd rfl h
    · rw [List.mem_singleton.mp hmem] at h
      exact absurd h (by decide +kernel)

end Nic
