import VetGumstix.Arm.Isa

/-! # The Listings of `swattARM`

    The inline assembly of `swattARM` (`smsc911x_no_attack.c`, and
    `smsc911x.c` with other label names) and of its data-pointer attack
    (`swattARM` in `smsc911x_db_attack.c`, `swattARM_db_attack` in
    `smsc911x.c`).  Both save the registers, load the challenge into
    `r1..r12` and `r14`, run eight unrolled blocks until the counter in `r12`
    reaches zero, store the registers back into the challenge and restore
    the saved ones.

    A block is five instructions that compute the next `x` and a load
    address, the load, and eleven instructions that mix the loaded word into
    one checksum register.  The attack replaces the load by a branch to a
    stub that reads 0x500 bytes further on.
-/

namespace Swatt

open Arm

/-- Named, so that every block literal carries the same proof. -/
instance block_neZero : NeZero 8 := ⟨by decide⟩

inductive Label where
  | initChecksum
  | checksum
  | endLoop
  | saveChecksum
  | dpAttack (i : Fin 8)
  | dpAttackRet (i : Fin 8)
  | jmpOverAttack
  deriving DecidableEq, Repr

abbrev Code := List (Instr Label)

/-! ## Section 1: Saving, loading, storing, restoring -/

/-- `save_reglist` -/
def saveReglist : Code :=
  [.push 0, .push 1, .push 2, .push 3, .push 4, .push 5, .push 6, .push 7, .push 8, .push 9,
   .push 10, .push 11, .push 12, .push 13, .push 14]

/-- `restore_reglist` -/
def restoreReglist : Code :=
  [.pop 14, .pop 13, .pop 12, .pop 11, .pop 10, .pop 9, .pop 8, .pop 7, .pop 6, .pop 5, .pop 4,
   .pop 3, .pop 2, .pop 1, .pop 0]

/-- `init_checksum` -/
def initChecksum : Code :=
  [.ldr 1 0 0, .ldr 2 0 4, .ldr 3 0 8, .ldr 4 0 12, .ldr 5 0 16, .ldr 6 0 20, .ldr 7 0 24,
   .ldr 8 0 28, .ldr 9 0 32, .ldr 10 0 36, .ldr 11 0 40, .ldr 12 0 44, .ldr 14 0 48]

/-- `save_checksum` -/
def saveChecksum : Code :=
  [.str 1 0 0, .str 2 0 4, .str 3 0 8, .str 4 0 12, .str 5 0 16, .str 6 0 20, .str 7 0 24,
   .str 8 0 28, .str 9 0 32, .str 10 0 36, .str 11 0 40, .str 12 0 44, .str 14 0 48]

/-- Disable interrupts and enter supervisor mode. -/
def disableInterrupts : Code := [.mrs 11, .logic .orr 11 11 (.imm 0xd3), .msrControl 11]

def enableInterrupts : Code := [.mrs 11, .logic .bic 11 11 (.imm 0xc0), .msrControl 11]

/-! ## Section 2: The blocks -/

/-- The T function and the load address, the same in every block. -/
def tFunc : Code :=
  [.muls 11 10 10,
   .logic .orr 11 11 (.imm 0x5),
   .arith .add false .al 10 10 (.reg 11),
   .logic .eor 11 15 (.lsr 10 24),
   .logic .and 11 11 (.imm 0xfffffffc)]

/-- What follows the load in blocks 1, 3, 5, 7. -/
def addFirst (c p2 p1 : Reg) : Code :=
  [.arith .adc true .al c c (.reg 9),
   .logic .eor c c (.reg p2),
   .arith .adc true .al c c (.reg 10),
   .logic .eor c c (.reg 15),
   .logic .eor c c (.reg p1),
   .arith .adc false .al c c (.reg 11),
   .mrs 11,
   .logic .eor c c (.reg 11),
   .arith .add false .cs c 12 (.ror c 1),
   .logic .eor 10 10 (.reg c),
   .arith .sub false .al 12 12 (.imm 1)]

/-- What follows the load in blocks 2, 4, 6, 8.  Only the last block sets the
    flags with its counter. -/
def xorFirst (c p2 p1 : Reg) (last : Bool) : Code :=
  [.logic .eor c c (.reg 9),
   .arith .adc true .al c c (.reg p2),
   .logic .eor c c (.reg 10),
   .arith .adc true .al c c (.reg 15),
   .arith .adc true .al c c (.reg p1),
   .logic .eor c c (.reg 11),
   .mrs 11,
   .arith .adc true .al c c (.reg 11),
   .logic .eor c 12 (.ror c 1),
   .arith .adc false .al 10 10 (.reg c),
   .arith .sub last .al 12 12 (.imm 1)]

def block1 : Code := addFirst 1 7 8
def block2 : Code := xorFirst 2 7 1 false
def block3 : Code := addFirst 3 1 2
def block4 : Code := xorFirst 4 1 3 false
def block5 : Code := addFirst 5 3 4
def block6 : Code := xorFirst 6 3 5 false
def block7 : Code := addFirst 7 5 6
def block8 : Code := xorFirst 8 5 7 true

/-- The code of each block behind its load. -/
def mixCode : Fin 8 → Code
  | 0 => block1
  | 1 => block2
  | 2 => block3
  | 3 => block4
  | 4 => block5
  | 5 => block6
  | 6 => block7
  | 7 => block8

/-! ## Section 3: The two builds -/

/-- How the genuine build loads: `ldr r9, [r11]`. -/
def loadWord (_ : Fin 8) : List (Item Label) := [.instr (.ldr 9 11 0)]

/-- The instructions of a block of the genuine build. -/
def blockCode (i : Fin 8) : Code := tFunc ++ ([.ldr 9 11 0] ++ mixCode i)

/-- How the attack loads: a branch to a stub, and the label it returns to. -/
def loadAttack (i : Fin 8) : List (Item Label) :=
  [.instr (.b .al (.dpAttack i)), .label (.dpAttackRet i)]

/-- One block. -/
def blockItems (fetch : Fin 8 → List (Item Label)) (i : Fin 8) : List (Item Label) :=
  tFunc.map .instr ++ fetch i ++ (mixCode i).map .instr

/-- The checksum loop. -/
def loopItems (fetch : Fin 8 → List (Item Label)) : List (Item Label) :=
  [.label .checksum] ++
  blockItems fetch 0 ++ blockItems fetch 1 ++ blockItems fetch 2 ++ blockItems fetch 3 ++
  blockItems fetch 4 ++ blockItems fetch 5 ++ blockItems fetch 6 ++ blockItems fetch 7 ++
  [.instr (.b .ne .checksum), .label .endLoop]

/-- A stub of the attack. -/
def attackStub (i : Fin 8) : List (Item Label) :=
  [.label (.dpAttack i),
   .instr (.arith .add false .al 11 11 (.imm 0x500)),
   .instr (.ldr 9 11 0),
   .instr (.arith .sub false .al 11 11 (.imm 0x500)),
   .instr (.b .al (.dpAttackRet i))]

def attackStubs : List (Item Label) :=
  [.instr (.b .al .jmpOverAttack)] ++
  attackStub 0 ++ attackStub 1 ++ attackStub 2 ++ attackStub 3 ++
  attackStub 4 ++ attackStub 5 ++ attackStub 6 ++ attackStub 7 ++
  [.label .jmpOverAttack]

/-- The listing from the label `init_checksum` on. -/
def bodyItems (fetch : Fin 8 → List (Item Label)) (stubs : List (Item Label)) :
    List (Item Label) :=
  [.label .initChecksum] ++ initChecksum.map .instr ++ disableInterrupts.map .instr ++
  loopItems fetch ++
  [.label .saveChecksum] ++ saveChecksum.map .instr ++ stubs ++
  enableInterrupts.map .instr ++ restoreReglist.map .instr

/-- What the compiler and the assembler choose: the register that holds the
    operand `addr`, which the clobber list keeps out of `r0..r10`, and the
    number of `nop`s with which `.align 8` moves `init_checksum` to a 256-byte
    boundary. -/
structure Layout where
  addrReg : Reg
  padding : Nat
  addrReg_free : addrReg = 11 ∨ addrReg = 12 ∨ addrReg = 14

/-- The code in front of `init_checksum`. -/
def entryCode (lay : Layout) : Code :=
  saveReglist ++ [.mov 0 (.reg lay.addrReg)] ++ List.replicate lay.padding .nop

/-- A build placed in memory with `init_checksum` at address `base`. -/
def program (lay : Layout) (fetch : Fin 8 → List (Item Label)) (stubs : List (Item Label))
    (base : Word) : Program Label where
  code := entryCode lay ++ assemble (bodyItems fetch stubs)
  target l := labelPos l ((entryCode lay).map .instr ++ bodyItems fetch stubs)
  origin := base - BitVec.ofNat 32 (4 * (entryCode lay).length)

/-- `swattARM` of the genuine build, and `swattARM_fake`, which is the same
    listing under other labels. -/
def swattARM (lay : Layout) (base : Word) : Program Label := program lay loadWord [] base

/-- `swattARM` of the attack build. -/
def swattARMDbAttack (lay : Layout) (base : Word) : Program Label :=
  program lay loadAttack attackStubs base

/-- The C code in front of the assembly: `challenge[11] = counter`, and the
    return when `size` is not 52.  The source has `counter = 0x1000000`, in
    `swattARM_fake` `16 * 1024 * 16`. -/
def enter (P : Program Label) (counter challenge : Word) (size : Nat) (s : Cpu) : State where
  cpu := { s with mem := store s.mem (challenge + 44) counter }
  pc := if size = 52 then 0 else P.code.length

end Swatt
