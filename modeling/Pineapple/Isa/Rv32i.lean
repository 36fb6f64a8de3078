import Mathlib.Logic.Function.Basic

/-!
# RV32I with an 8-bit program counter

The RV32I base instruction set: syntax, decoding of 32-bit words and the effect of one instruction
on a hart. It is written from the instruction set's definition, with full-width immediates, and knows
nothing of the core's state machine; FENCE, ECALL and EBREAK have no effect here. The program counter
of a `Hart` is the low byte of the architectural one.
-/

namespace Rv32i

abbrev Reg := BitVec 5
abbrev Word := BitVec 32

inductive BranchOp where
  | beq | bne | blt | bge | bltu | bgeu
  deriving DecidableEq, Repr

inductive LoadOp where
  | lb | lh | lw | lbu | lhu
  deriving DecidableEq, Repr

inductive StoreOp where
  | sb | sh | sw
  deriving DecidableEq, Repr

inductive ImmOp where
  | addi | slti | sltiu | xori | ori | andi
  deriving DecidableEq, Repr

inductive ShiftOp where
  | slli | srli | srai
  deriving DecidableEq, Repr

inductive RegOp where
  | add | sub | sll | slt | sltu | xor | srl | sra | or | and
  deriving DecidableEq, Repr

/-- An instruction with its operands; branch and jump offsets are in bytes. -/
inductive Instr where
  | lui (rd : Reg) (imm : BitVec 20)
  | auipc (rd : Reg) (imm : BitVec 20)
  | jal (rd : Reg) (off : BitVec 21)
  | jalr (rd rs1 : Reg) (imm : BitVec 12)
  | branch (op : BranchOp) (rs1 rs2 : Reg) (off : BitVec 13)
  | load (op : LoadOp) (rd rs1 : Reg) (imm : BitVec 12)
  | store (op : StoreOp) (rs2 rs1 : Reg) (imm : BitVec 12)
  | opImm (op : ImmOp) (rd rs1 : Reg) (imm : BitVec 12)
  | shift (op : ShiftOp) (rd rs1 : Reg) (shamt : BitVec 5)
  | opReg (op : RegOp) (rd rs1 rs2 : Reg)
  | fence
  | ecall
  | ebreak
  deriving DecidableEq, Repr

/-! ## Decoding -/

def decodeBranch : BitVec 3 → Option BranchOp
  | 0b000 => some .beq
  | 0b001 => some .bne
  | 0b100 => some .blt
  | 0b101 => some .bge
  | 0b110 => some .bltu
  | 0b111 => some .bgeu
  | _ => none

def decodeLoad : BitVec 3 → Option LoadOp
  | 0b000 => some .lb
  | 0b001 => some .lh
  | 0b010 => some .lw
  | 0b100 => some .lbu
  | 0b101 => some .lhu
  | _ => none

def decodeStore : BitVec 3 → Option StoreOp
  | 0b000 => some .sb
  | 0b001 => some .sh
  | 0b010 => some .sw
  | _ => none

def decodeImm : BitVec 3 → Option ImmOp
  | 0b000 => some .addi
  | 0b010 => some .slti
  | 0b011 => some .sltiu
  | 0b100 => some .xori
  | 0b110 => some .ori
  | 0b111 => some .andi
  | _ => none

def decodeShift (funct3 : BitVec 3) (funct7 : BitVec 7) : Option ShiftOp :=
  if funct3 = 0b001 ∧ funct7 = 0 then some .slli
  else if funct3 = 0b101 ∧ funct7 = 0 then some .srli
  else if funct3 = 0b101 ∧ funct7 = 0b0100000 then some .srai
  else none

def decodeReg (funct3 : BitVec 3) (funct7 : BitVec 7) : Option RegOp :=
  if funct7 = 0 then
    match funct3 with
    | 0b000 => some .add
    | 0b001 => some .sll
    | 0b010 => some .slt
    | 0b011 => some .sltu
    | 0b100 => some .xor
    | 0b101 => some .srl
    | 0b110 => some .or
    | 0b111 => some .and
  else if funct7 = 0b0100000 then
    match funct3 with
    | 0b000 => some .sub
    | 0b101 => some .sra
    | _ => none
  else none

section Fields

variable (w : Word)

def opcode : BitVec 7 := w.extractLsb' 0 7
def rd : Reg := w.extractLsb' 7 5
def funct3 : BitVec 3 := w.extractLsb' 12 3
def rs1 : Reg := w.extractLsb' 15 5
def rs2 : Reg := w.extractLsb' 20 5
def funct7 : BitVec 7 := w.extractLsb' 25 7
def immI : BitVec 12 := w.extractLsb' 20 12
def immS : BitVec 12 := w.extractLsb' 25 7 ++ w.extractLsb' 7 5
def immB : BitVec 13 :=
  w.extractLsb' 31 1 ++ w.extractLsb' 7 1 ++ w.extractLsb' 25 6 ++ w.extractLsb' 8 4 ++ 0#1
def immU : BitVec 20 := w.extractLsb' 12 20
def immJ : BitVec 21 :=
  w.extractLsb' 31 1 ++ w.extractLsb' 12 8 ++ w.extractLsb' 20 1 ++ w.extractLsb' 21 10 ++ 0#1

end Fields

/-- The instruction a word encodes, `none` outside the base set. -/
def decode (w : Word) : Option Instr :=
  if opcode w = 0b0110111 then some (.lui (rd w) (immU w))
  else if opcode w = 0b0010111 then some (.auipc (rd w) (immU w))
  else if opcode w = 0b1101111 then some (.jal (rd w) (immJ w))
  else if opcode w = 0b1100111 then
    if funct3 w = 0 then some (.jalr (rd w) (rs1 w) (immI w)) else none
  else if opcode w = 0b1100011 then
    (decodeBranch (funct3 w)).map fun op => .branch op (rs1 w) (rs2 w) (immB w)
  else if opcode w = 0b0000011 then
    (decodeLoad (funct3 w)).map fun op => .load op (rd w) (rs1 w) (immI w)
  else if opcode w = 0b0100011 then
    (decodeStore (funct3 w)).map fun op => .store op (rs2 w) (rs1 w) (immS w)
  else if opcode w = 0b0010011 then
    if funct3 w = 0b001 ∨ funct3 w = 0b101 then
      (decodeShift (funct3 w) (funct7 w)).map fun op => .shift op (rd w) (rs1 w) (rs2 w)
    else (decodeImm (funct3 w)).map fun op => .opImm op (rd w) (rs1 w) (immI w)
  else if opcode w = 0b0110011 then
    (decodeReg (funct3 w) (funct7 w)).map fun op => .opReg op (rd w) (rs1 w) (rs2 w)
  else if opcode w = 0b0001111 then if funct3 w = 0 then some .fence else none
  else if w = 0x00000073 then some .ecall
  else if w = 0x00100073 then some .ebreak
  else none

/-! ## Execution -/

def BranchOp.holds : BranchOp → Word → Word → Bool
  | .beq, a, b => a == b
  | .bne, a, b => a != b
  | .blt, a, b => a.slt b
  | .bge, a, b => b.sle a
  | .bltu, a, b => a.ult b
  | .bgeu, a, b => b.ule a

def ImmOp.eval : ImmOp → Word → Word → Word
  | .addi, a, b => a + b
  | .slti, a, b => if a.slt b then 1 else 0
  | .sltiu, a, b => if a.ult b then 1 else 0
  | .xori, a, b => a ^^^ b
  | .ori, a, b => a ||| b
  | .andi, a, b => a &&& b

def ShiftOp.eval : ShiftOp → Word → BitVec 5 → Word
  | .slli, a, s => a <<< s.toNat
  | .srli, a, s => a >>> s.toNat
  | .srai, a, s => a.sshiftRight s.toNat

def RegOp.eval : RegOp → Word → Word → Word
  | .add, a, b => a + b
  | .sub, a, b => a - b
  | .sll, a, b => a <<< (b.toNat % 32)
  | .slt, a, b => if a.slt b then 1 else 0
  | .sltu, a, b => if a.ult b then 1 else 0
  | .xor, a, b => a ^^^ b
  | .srl, a, b => a >>> (b.toNat % 32)
  | .sra, a, b => a.sshiftRight (b.toNat % 32)
  | .or, a, b => a ||| b
  | .and, a, b => a &&& b

/-- The width of a memory access. -/
inductive Width where
  | byte | half | word
  deriving DecidableEq, Repr

def Width.bytes : Width → Nat
  | .byte => 1
  | .half => 2
  | .word => 4

def LoadOp.width : LoadOp → Width
  | .lb | .lbu => .byte
  | .lh | .lhu => .half
  | .lw => .word

def StoreOp.width : StoreOp → Width
  | .sb => .byte
  | .sh => .half
  | .sw => .word

/-- The register value of a load whose accessed bytes are the low bytes of `d`. -/
def LoadOp.extend : LoadOp → Word → Word
  | .lb, d => (d.setWidth 8).signExtend 32
  | .lh, d => (d.setWidth 16).signExtend 32
  | .lw, d => d
  | .lbu, d => (d.setWidth 8).setWidth 32
  | .lhu, d => (d.setWidth 16).setWidth 32

/-- The architectural state the core implements. -/
@[ext]
structure Hart where
  pc : BitVec 8
  regs : Reg → Word

/-- A register read; `x0` is zero. -/
def readReg (regs : Reg → Word) (r : Reg) : Word := if r = 0 then 0 else regs r

/-- A register write; a write to `x0` is dropped. -/
def writeReg (regs : Reg → Word) (r : Reg) (v : Word) : Reg → Word :=
  if r = 0 then regs else Function.update regs r v

/-- A data access; `data` is the register a store writes from. -/
structure Access where
  addr : Word
  width : Width
  data : Option Word

namespace Instr

/-- The data access of an instruction. -/
def access (x : Reg → Word) : Instr → Option Access
  | .load op _ rs1 imm => some ⟨x rs1 + imm.signExtend 32, op.width, none⟩
  | .store op rs2 rs1 imm => some ⟨x rs1 + imm.signExtend 32, op.width, some (x rs2)⟩
  | _ => none

/-- The architectural next program counter. -/
def nextPc (x : Reg → Word) (pc : Word) : Instr → Word
  | .jal _ off => pc + off.signExtend 32
  | .jalr _ rs1 imm => (x rs1 + imm.signExtend 32) &&& ~~~1
  | .branch op rs1 rs2 off => if op.holds (x rs1) (x rs2) then pc + off.signExtend 32 else pc + 4
  | _ => pc + 4

/-- The destination register and the value it gets; `d` is the word a load reads. -/
def result (x : Reg → Word) (pc d : Word) : Instr → Option (Reg × Word)
  | .lui rd imm => some (rd, imm ++ 0#12)
  | .auipc rd imm => some (rd, pc + (imm ++ 0#12))
  | .jal rd _ => some (rd, pc + 4)
  | .jalr rd _ _ => some (rd, pc + 4)
  | .load op rd _ _ => some (rd, op.extend d)
  | .opImm op rd rs1 imm => some (rd, op.eval (x rs1) (imm.signExtend 32))
  | .shift op rd rs1 shamt => some (rd, op.eval (x rs1) shamt)
  | .opReg op rd rs1 rs2 => some (rd, op.eval (x rs1) (x rs2))
  | _ => none

/-- One instruction: the state change of the hart. -/
def exec (i : Instr) (h : Hart) (d : Word) : Hart where
  pc := (i.nextPc (readReg h.regs) (h.pc.setWidth 32)).setWidth 8
  regs :=
    match i.result (readReg h.regs) (h.pc.setWidth 32) d with
    | none => h.regs
    | some (rd, v) => writeReg h.regs rd v

end Instr

end Rv32i
