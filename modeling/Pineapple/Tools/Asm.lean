import Mathlib.Algebra.Group.Nat.Defs
import Mathlib.Algebra.Ring.Int.Defs

/-!
# `asm_pineapple.py`: the assembler

`Asm` with one definition for each of its methods. Registers are natural numbers, and immediates and shift amounts
are integers of any sign and size, of which a method keeps the low bits, as in Python. A word is an unbounded
natural number. What a method raises is a `PyError` with its message.
-/

namespace Pineapple

inductive PyError where
  | assertion (msg : String)
  | key (name : String)
  | overflow (msg : String)
  deriving DecidableEq, Repr

/-! ## Opcodes -/

namespace OPC

def OP_IMM : Nat := 0b0010011
def OP_REG : Nat := 0b0110011
def OP_LOAD : Nat := 0b0000011
def OP_STORE : Nat := 0b0100011
def OP_BRANCH : Nat := 0b1100011
def OP_JAL : Nat := 0b1101111
def OP_JALR : Nat := 0b1100111
def OP_LUI : Nat := 0b0110111
def OP_AUIPC : Nat := 0b0010111

end OPC

/-- The operation `v & ((1 << k) - 1)` on a Python integer. -/
def lowBits (v : Int) (k : Nat) : Nat := (v % 2 ^ k).toNat

def _s12 (v : Int) : Nat := lowBits v 12

/-- What `finalize` has to fill in: the tuples `('branch', funct3, rs1, rs2, target)` and
`('jal', rd, target)`. -/
inductive Fixup where
  | branch (funct3 rs1 rs2 : Nat) (target : String)
  | jal (rd : Nat) (target : String)
  deriving DecidableEq, Repr

/-- The name of the target. -/
def Fixup.label : Fixup → String
  | branch _ _ _ target => target
  | jal _ target => target

structure Asm where
  base : Int
  /-- `None` stands for a word that `finalize` fills in. -/
  instrs : List (Option Nat)
  labels : List (String × Int)
  fixups : List (Nat × Fixup)

namespace Asm

/-- The constructor `Asm(base)`. -/
def new (base : Int) : Asm := ⟨base, [], [], []⟩

variable (a : Asm)

def addr : Int := a.base + a.instrs.length * 4

def label (name : String) : Except PyError Asm :=
  if (a.labels.lookup name).isSome then .error (.assertion name)
  else .ok { a with labels := (name, a.addr) :: a.labels }

def emit (word : Option Nat) (fixup : Option Fixup) : Asm :=
  { a with
    instrs := a.instrs ++ [word]
    fixups := a.fixups ++ (fixup.map fun f => (a.instrs.length, f)).toList }

/-! ## Formats -/

def _r (funct7 rs2 rs1 funct3 rd opcode : Nat) : Nat :=
  (funct7 <<< 25) ||| (rs2 <<< 20) ||| (rs1 <<< 15) ||| (funct3 <<< 12) ||| (rd <<< 7) ||| opcode

def _i (imm : Int) (rs1 funct3 rd opcode : Nat) : Nat :=
  (_s12 imm <<< 20) ||| (rs1 <<< 15) ||| (funct3 <<< 12) ||| (rd <<< 7) ||| opcode

def _u (imm20 : Int) (rd opcode : Nat) : Nat :=
  (lowBits imm20 20 <<< 12) ||| (rd <<< 7) ||| opcode

/-- The common body of `SB`, `SH` and `SW`. -/
def _s (funct3 rs2 rs1 : Nat) (imm : Int) : Nat :=
  let imm := _s12 imm
  ((imm >>> 5) <<< 25) ||| (rs2 <<< 20) ||| (rs1 <<< 15) ||| (funct3 <<< 12) |||
    ((imm &&& 0x1F) <<< 7) ||| OPC.OP_STORE

/-- The word of a branch with the offset `off`. -/
def branchWord (off : Int) (funct3 rs1 rs2 : Nat) : Nat :=
  let imm := lowBits off 13
  let b12 := (imm >>> 12) &&& 1
  let b10_5 := (imm >>> 5) &&& 0x3F
  let b4_1 := (imm >>> 1) &&& 0xF
  let b11 := (imm >>> 11) &&& 1
  (b12 <<< 31) ||| (b10_5 <<< 25) ||| (rs2 <<< 20) ||| (rs1 <<< 15) ||| (funct3 <<< 12) |||
    (b4_1 <<< 8) ||| (b11 <<< 7) ||| OPC.OP_BRANCH

/-- The word of a JAL with the offset `off`. -/
def jalWord (off : Int) (rd : Nat) : Nat :=
  let imm := lowBits off 21
  let b20 := (imm >>> 20) &&& 1
  let b10_1 := (imm >>> 1) &&& 0x3FF
  let b11 := (imm >>> 11) &&& 1
  let b19_12 := (imm >>> 12) &&& 0xFF
  (b20 <<< 31) ||| (b10_1 <<< 21) ||| (b11 <<< 20) ||| (b19_12 <<< 12) ||| (rd <<< 7) ||| OPC.OP_JAL

/-- A method that emits a finished word. -/
def word (w : Nat) : Asm := a.emit (some w) none

def _branch (funct3 rs1 rs2 : Nat) (target : String) : Asm :=
  a.emit none (some (.branch funct3 rs1 rs2 target))

/-! ## Methods -/

def ADD (rd rs1 rs2 : Nat) : Asm := a.word (_r 0 rs2 rs1 0b000 rd OPC.OP_REG)
def SUB (rd rs1 rs2 : Nat) : Asm := a.word (_r 0x20 rs2 rs1 0b000 rd OPC.OP_REG)
def SLL (rd rs1 rs2 : Nat) : Asm := a.word (_r 0 rs2 rs1 0b001 rd OPC.OP_REG)
def SLT (rd rs1 rs2 : Nat) : Asm := a.word (_r 0 rs2 rs1 0b010 rd OPC.OP_REG)
def SLTU (rd rs1 rs2 : Nat) : Asm := a.word (_r 0 rs2 rs1 0b011 rd OPC.OP_REG)
def XOR (rd rs1 rs2 : Nat) : Asm := a.word (_r 0 rs2 rs1 0b100 rd OPC.OP_REG)
def SRL (rd rs1 rs2 : Nat) : Asm := a.word (_r 0 rs2 rs1 0b101 rd OPC.OP_REG)
def SRA (rd rs1 rs2 : Nat) : Asm := a.word (_r 0x20 rs2 rs1 0b101 rd OPC.OP_REG)
def OR (rd rs1 rs2 : Nat) : Asm := a.word (_r 0 rs2 rs1 0b110 rd OPC.OP_REG)
def AND (rd rs1 rs2 : Nat) : Asm := a.word (_r 0 rs2 rs1 0b111 rd OPC.OP_REG)

def ADDI (rd rs1 : Nat) (imm : Int) : Asm := a.word (_i imm rs1 0b000 rd OPC.OP_IMM)
def SLTI (rd rs1 : Nat) (imm : Int) : Asm := a.word (_i imm rs1 0b010 rd OPC.OP_IMM)
def SLTIU (rd rs1 : Nat) (imm : Int) : Asm := a.word (_i imm rs1 0b011 rd OPC.OP_IMM)
def XORI (rd rs1 : Nat) (imm : Int) : Asm := a.word (_i imm rs1 0b100 rd OPC.OP_IMM)
def ANDI (rd rs1 : Nat) (imm : Int) : Asm := a.word (_i imm rs1 0b111 rd OPC.OP_IMM)
def ORI (rd rs1 : Nat) (imm : Int) : Asm := a.word (_i imm rs1 0b110 rd OPC.OP_IMM)
def SLLI (rd rs1 : Nat) (sh : Int) : Asm := a.word (_i (lowBits sh 5) rs1 0b001 rd OPC.OP_IMM)
def SRLI (rd rs1 : Nat) (sh : Int) : Asm := a.word (_i (lowBits sh 5) rs1 0b101 rd OPC.OP_IMM)
def SRAI (rd rs1 : Nat) (sh : Int) : Asm := a.word (_i (0x400 ||| lowBits sh 5 : Nat) rs1 0b101 rd OPC.OP_IMM)

def LB (rd rs1 : Nat) (imm : Int) : Asm := a.word (_i imm rs1 0b000 rd OPC.OP_LOAD)
def LH (rd rs1 : Nat) (imm : Int) : Asm := a.word (_i imm rs1 0b001 rd OPC.OP_LOAD)
def LW (rd rs1 : Nat) (imm : Int) : Asm := a.word (_i imm rs1 0b010 rd OPC.OP_LOAD)
def LBU (rd rs1 : Nat) (imm : Int) : Asm := a.word (_i imm rs1 0b100 rd OPC.OP_LOAD)
def LHU (rd rs1 : Nat) (imm : Int) : Asm := a.word (_i imm rs1 0b101 rd OPC.OP_LOAD)
def JALR (rd rs1 : Nat) (imm : Int) : Asm := a.word (_i imm rs1 0b000 rd OPC.OP_JALR)

def LUI (rd : Nat) (imm20 : Int) : Asm := a.word (_u imm20 rd OPC.OP_LUI)
def AUIPC (rd : Nat) (imm20 : Int) : Asm := a.word (_u imm20 rd OPC.OP_AUIPC)

def SB (rs2 rs1 : Nat) (imm : Int) : Asm := a.word (_s 0b000 rs2 rs1 imm)
def SW (rs2 rs1 : Nat) (imm : Int) : Asm := a.word (_s 0b010 rs2 rs1 imm)
def SH (rs2 rs1 : Nat) (imm : Int) : Asm := a.word (_s 0b001 rs2 rs1 imm)

def BEQ (rs1 rs2 : Nat) (target : String) : Asm := a._branch 0b000 rs1 rs2 target
def BNE (rs1 rs2 : Nat) (target : String) : Asm := a._branch 0b001 rs1 rs2 target
def BLT (rs1 rs2 : Nat) (target : String) : Asm := a._branch 0b100 rs1 rs2 target
def BGE (rs1 rs2 : Nat) (target : String) : Asm := a._branch 0b101 rs1 rs2 target
def BLTU (rs1 rs2 : Nat) (target : String) : Asm := a._branch 0b110 rs1 rs2 target
def BGEU (rs1 rs2 : Nat) (target : String) : Asm := a._branch 0b111 rs1 rs2 target

def JAL (rd : Nat) (target : String) : Asm := a.emit none (some (.jal rd target))

/-! ## The second pass -/

/-- The lookup `self.labels[target]`. -/
def target (name : String) : Except PyError Int :=
  match a.labels.lookup name with
  | some v => .ok v
  | none => .error (.key name)

/-- The word of the fixup at index `idx`. -/
def fixupWord (idx : Nat) : Fixup → Except PyError Nat
  | .branch funct3 rs1 rs2 name => do
    let off := (← a.target name) - (a.base + idx * 4)
    if -4096 ≤ off ∧ off < 4096 ∧ off % 2 = 0 then .ok (branchWord off funct3 rs1 rs2)
    else .error (.assertion s!"branch offset {off} out of range")
  | .jal rd name => do
    let off := (← a.target name) - (a.base + idx * 4)
    if -1048576 ≤ off ∧ off < 1048576 ∧ off % 2 = 0 then .ok (jalWord off rd)
    else .error (.assertion s!"jal offset {off} out of range")

/-- The loop over the fixups; `words` is the list that is filled in. -/
def resolve (words : List (Option Nat)) : List (Nat × Fixup) → Except PyError (List (Option Nat))
  | [] => .ok words
  | (idx, f) :: fixups => do
    let w ← a.fixupWord idx f
    resolve (words.set idx (some w)) fixups

def finalize : Except PyError (List Nat) := do
  let words ← a.resolve a.instrs a.fixups
  if words.all Option.isSome then .ok (words.filterMap id) else .error (.assertion "")

end Asm

/-- The call `w.to_bytes(4, 'little')`. -/
def to_bytes (w : Nat) : Except PyError (List (BitVec 8)) :=
  if w < 2 ^ 32 then .ok ((List.range 4).map fun k => BitVec.ofNat 8 (w >>> (8 * k)))
  else .error (.overflow "int too big to convert")

def words_to_bytes : List Nat → Except PyError (List (BitVec 8))
  | [] => .ok []
  | w :: words => do
    let b ← to_bytes w
    return b ++ (← words_to_bytes words)

end Pineapple
