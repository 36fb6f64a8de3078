import Pineapple.Paged.Machine

/-!
# The machine of a loaded program

The machine that a program of `Asm` calls is written for. Its state is the index of the next instruction, the registers
and the memory. A branch or jump goes to a label, so there is no word, no offset and no load window; only AUIPC, the
links of JAL and JALR and the target of a JALR are addresses.
-/

namespace Pineapple

open Rv32i (Instr Word Width readReg)

structure LState where
  index : Nat
  regs : Regs
  mem : MemRegs

/-- The first byte that a store changes; a word store drops the low bits of its address. -/
def storeStart (addr : BitVec 8) : Width → Nat
  | .word => addr.toNat / 4 * 4
  | _ => addr.toNat

/-- The instruction of the load window at an address, if one begins there. -/
def entry (pc : BitVec 8) : Option Nat :=
  if 0xB4 ≤ pc.toNat ∧ pc.toNat % 4 = 0 then some (windowIndex pc) else none

namespace LState

variable (σ : LState)

/-- The chip in that state. -/
def arch : Arch where
  pc := windowAddr σ.index
  regs := σ.regs
  mem := σ.mem

/-- A program of `n` bytes may execute the instruction: it is no store to FLASH_MODE or to the program. -/
def allowed (n : Nat) : Instr → Bool
  | .store op _ rs1 imm =>
    let addr : BitVec 8 := (readReg σ.regs rs1 + imm.signExtend 32).setWidth 8
    addr != 0xF8 &&
      (storeStart addr op.width + op.width.bytes ≤ 0xB4 || 0xB4 + n ≤ storeStart addr op.width)
  | _ => true

/-- The instruction is no store to FLASH_PAGE. -/
def staysOnPage : Instr → Bool
  | .store _ _ rs1 imm => (readReg σ.regs rs1 + imm.signExtend 32).setWidth 8 != (0xFC : BitVec 8)
  | _ => true

/-- The index after the instruction `f` of the program `cs`. -/
def next (cs : List Call) : Form → Option Nat
  | .branch op rs1 rs2 name =>
    if op.holds (readReg σ.regs (BitVec.ofNat 5 rs1)) (readReg σ.regs (BitVec.ofNat 5 rs2)) then labelIndex name cs
    else some (σ.index + 1)
  | .jal _ name => labelIndex name cs
  | .jalr _ rs1 imm =>
    entry (((readReg σ.regs (BitVec.ofNat 5 rs1) + (BitVec.ofInt 12 imm).signExtend 32) &&& ~~~1).setWidth 8)
  | _ => some (σ.index + 1)

/-- The state after an instruction that goes on at `index`; `d` is the word a load reads. -/
def exec (i : Instr) (index : Nat) (d : Word) : LState where
  index := index
  regs := (σ.arch.exec i d).regs
  mem := σ.arch.store i

end LState

namespace Loaded

variable (cs : List Call)

/-- The instruction at an index; the offset of a branch or jump is not used. -/
def instrAt (j : Nat) : Option Form := (cs.filterMap Call.form)[j]?

/-- One instruction. Behind the last one, and where the instruction is not allowed or its target is none of the program,
there is no step. -/
def step (load : Nat → Arch → Instr → Word) (c : Nat × LState) : Option (Nat × LState) :=
  (instrAt cs c.2.index).bind fun f =>
    if c.2.allowed (4 * (cs.filterMap Call.form).length) (f.instr 0) then
      (c.2.next cs f).map fun j =>
        (c.1 + c.2.arch.cycles (f.instr 0), c.2.exec (f.instr 0) j (load c.1 c.2.arch (f.instr 0)))
    else none

/-- One instruction of a program that is executed from the flash: there a store to FLASH_PAGE is no step either. -/
def flashStep (load : Nat → Arch → Instr → Word) (c : Nat × LState) : Option (Nat × LState) :=
  (instrAt cs c.2.index).bind fun f => if c.2.staysOnPage (f.instr 0) then step cs load c else none

/-- What is seen of an instruction: its index, and the byte it stores in GPIO_OUT. -/
def seen (c : Nat × LState) : List (Nat ⊕ BitVec 8) :=
  .inl c.2.index ::
    (((instrAt cs c.2.index).map fun f => c.2.arch.gpioStore (f.instr 0)).getD []).map .inr

end Loaded

end Pineapple
