import Mathlib.Logic.Function.Basic

/-!
# `rv32i_core.v`: the multi-cycle RV32I core

A register transfer model of `src/rv32i_core.v` with the encodings of `src/rv32i_defs.vh`: the
registers are the fields of `Core`, the combinational `wire`s and `always @(*)` blocks are functions
of the latched instruction `ir` and the register file, and one rising clock edge with `rst_n` high is
`Core.step`.
-/

namespace Pineapple

/-! ## `rv32i_defs.vh` -/

def OP_LUI : BitVec 7 := 0b0110111
def OP_AUIPC : BitVec 7 := 0b0010111
def OP_JAL : BitVec 7 := 0b1101111
def OP_JALR : BitVec 7 := 0b1100111
def OP_BRANCH : BitVec 7 := 0b1100011
def OP_LOAD : BitVec 7 := 0b0000011
def OP_STORE : BitVec 7 := 0b0100011
def OP_IMM : BitVec 7 := 0b0010011
def OP_REG : BitVec 7 := 0b0110011

/-- The FSM states `ST_*` of the core. The eighth value of the 3-bit register is not one of them; the
`default` branch that catches it is never taken from a reset. -/
inductive CoreState where
  | fetch
  | fetchWait
  | decode
  | exec
  | mem
  | memWait
  | wb
  deriving DecidableEq, Repr

/-- The register file `regs[1:31]`. Entry `0` stands for no register: it is never read or written. -/
abbrev Regs := BitVec 5 → BitVec 32

/-- The registers of `rv32i_core`. -/
structure Core where
  state : CoreState
  pc : BitVec 8
  ir : BitVec 32
  alu_result : BitVec 32
  next_pc : BitVec 8
  regs : Regs
  mem_addr : BitVec 8
  mem_wdata : BitVec 32
  mem_size : BitVec 2
  mem_we : Bool
  mem_valid : Bool

/-- The bus from the core to the memory. -/
structure Bus where
  addr : BitVec 8
  wdata : BitVec 32
  size : BitVec 2
  we : Bool
  valid : Bool

/-- The core's bus outputs, all of which are registers. -/
def Core.bus (c : Core) : Bus where
  addr := c.mem_addr
  wdata := c.mem_wdata
  size := c.mem_size
  we := c.mem_we
  valid := c.mem_valid

/-! ## Instruction fields and immediates -/

namespace Ir

variable (ir : BitVec 32)

def rd : BitVec 5 := ir.extractLsb' 7 5
def rs1 : BitVec 5 := ir.extractLsb' 15 5
def rs2 : BitVec 5 := ir.extractLsb' 20 5
def funct3 : BitVec 3 := ir.extractLsb' 12 3
def funct7_b5 : Bool := ir.getLsbD 30
def opcode : BitVec 7 := ir.extractLsb' 0 7

def imm_i : BitVec 32 := (ir.extractLsb' 20 12).signExtend 32
def imm_s : BitVec 32 := (ir.extractLsb' 25 7 ++ ir.extractLsb' 7 5).signExtend 32
def imm_u : BitVec 32 := ir.extractLsb' 12 20 ++ 0#12
/-- `{ir[27], ir[26], ir[25], ir[11], ir[10], ir[9], ir[8], 1'b0}`: the 8 bits the PC can use. -/
def imm_b : BitVec 8 := ir.extractLsb' 25 3 ++ ir.extractLsb' 8 4 ++ 0#1
/-- `{ir[27], ir[26], ir[25], ir[24], ir[23], ir[22], ir[21], 1'b0}`. -/
def imm_j : BitVec 8 := ir.extractLsb' 21 7 ++ 0#1

variable (regs : Regs)

def rs1_val : BitVec 32 := if rs1 ir = 0 then 0 else regs (rs1 ir)
def rs2_val : BitVec 32 := if rs2 ir = 0 then 0 else regs (rs2 ir)

/-! ## ALU -/

def alu_op : BitVec 4 :=
  if opcode ir = OP_IMM then
    match funct3 ir with
    | 0b000 => 0
    | 0b010 => 3
    | 0b011 => 4
    | 0b100 => 5
    | 0b110 => 8
    | 0b111 => 9
    | 0b001 => 2
    | 0b101 => if funct7_b5 ir then 7 else 6
  else if opcode ir = OP_REG then
    match funct3 ir with
    | 0b000 => if funct7_b5 ir then 1 else 0
    | 0b001 => 2
    | 0b010 => 3
    | 0b011 => 4
    | 0b100 => 5
    | 0b101 => if funct7_b5 ir then 7 else 6
    | 0b110 => 8
    | 0b111 => 9
  else if opcode ir = OP_LOAD ∨ opcode ir = OP_STORE then 0
  else if opcode ir = OP_BRANCH then 1
  else 0

/-- `alu_a` is `rs1_val` in every branch of the operand decode. -/
def alu_a : BitVec 32 := rs1_val ir regs

def alu_b : BitVec 32 :=
  if opcode ir = OP_IMM then imm_i ir
  else if opcode ir = OP_LOAD ∨ opcode ir = OP_STORE then
    if opcode ir = OP_LOAD then imm_i ir else imm_s ir
  else rs2_val ir regs

end Ir

/-- The ALU's `case (alu_op)`. -/
def alu (op : BitVec 4) (a b : BitVec 32) : BitVec 32 :=
  match op with
  | 0 => a + b
  | 1 => a - b
  | 2 => a <<< b.extractLsb' 0 5
  | 3 => if a.slt b then 1 else 0
  | 4 => if a.ult b then 1 else 0
  | 5 => a ^^^ b
  | 6 => a >>> b.extractLsb' 0 5
  | 7 => a.sshiftRight' (b.extractLsb' 0 5)
  | 8 => a ||| b
  | 9 => a &&& b
  | _ => 0

namespace Ir

variable (ir : BitVec 32) (regs : Regs)

def alu_y : BitVec 32 := alu (alu_op ir) (alu_a ir regs) (alu_b ir regs)

def branch_cond : Bool :=
  let a := rs1_val ir regs
  let b := rs2_val ir regs
  match funct3 ir with
  | 0b000 => a == b
  | 0b001 => a != b
  | 0b100 => a.slt b
  | 0b101 => !a.slt b
  | 0b110 => a.ult b
  | 0b111 => !a.ult b
  | _ => false

/-- The value `ST_EXEC` loads into `next_pc`. -/
def next_pc (pc : BitVec 8) : BitVec 8 :=
  if opcode ir = OP_JAL then pc + imm_j ir
  else if opcode ir = OP_JALR then
    ((rs1_val ir regs).extractLsb' 0 8 + (imm_i ir).extractLsb' 0 8) &&& 0xFE
  else if opcode ir = OP_BRANCH then
    if branch_cond ir regs then pc + imm_b ir else pc + 4
  else pc + 4

/-- The access size `ST_MEM` drives for a load or a store: 0 = byte, 1 = half, 2 = word. -/
def access_size : BitVec 2 :=
  if (funct3 ir).extractLsb' 0 2 = 0b00 then 0
  else if (funct3 ir).extractLsb' 0 2 = 0b01 then 1 else 2

/-- Sign or zero extension of the loaded word in `ST_WB`. -/
def load_value (mem_rdata : BitVec 32) : BitVec 32 :=
  match funct3 ir with
  | 0b000 => (mem_rdata.extractLsb' 0 8).signExtend 32
  | 0b001 => (mem_rdata.extractLsb' 0 16).signExtend 32
  | 0b010 => mem_rdata
  | 0b100 => (mem_rdata.extractLsb' 0 8).setWidth 32
  | 0b101 => (mem_rdata.extractLsb' 0 16).setWidth 32
  | _ => mem_rdata

/-- The register file after `ST_WB`. -/
def writeback (pc : BitVec 8) (alu_result mem_rdata : BitVec 32) : Regs :=
  if rd ir ≠ 0 then
    if opcode ir = OP_LUI then Function.update regs (rd ir) (imm_u ir)
    else if opcode ir = OP_AUIPC then Function.update regs (rd ir) (pc.setWidth 32 + imm_u ir)
    else if opcode ir = OP_JAL then Function.update regs (rd ir) (pc.setWidth 32 + 4)
    else if opcode ir = OP_JALR then Function.update regs (rd ir) (pc.setWidth 32 + 4)
    else if opcode ir = OP_LOAD then Function.update regs (rd ir) (load_value ir mem_rdata)
    else if opcode ir = OP_IMM ∨ opcode ir = OP_REG then Function.update regs (rd ir) alu_result
    else regs
  else regs

end Ir

/-! ## Main FSM -/

/-- The asynchronous reset branch: what it does not assign keeps its value. -/
def Core.reset (c : Core) : Core :=
  { c with
    state := .fetch
    pc := 0x00
    ir := 0
    mem_we := false
    mem_addr := 0
    mem_size := 2
    mem_wdata := 0
    mem_valid := false }

/-- One rising clock edge with `rst_n` high. -/
def Core.step (c : Core) (mem_ready : Bool) (mem_rdata : BitVec 32) : Core :=
  match c.state with
  | .fetch =>
    { c with
      mem_addr := c.pc
      mem_we := false
      mem_size := 2
      mem_valid := true
      state := .fetchWait }
  | .fetchWait =>
    if mem_ready then { c with mem_valid := false, state := .decode } else c
  | .decode => { c with ir := mem_rdata, state := .exec }
  | .exec =>
    { c with
      alu_result := Ir.alu_y c.ir c.regs
      next_pc := Ir.next_pc c.ir c.regs c.pc
      state := .mem }
  | .mem =>
    if Ir.opcode c.ir = OP_LOAD then
      { c with
        mem_addr := (Ir.alu_y c.ir c.regs).extractLsb' 0 8
        mem_we := false
        mem_size := Ir.access_size c.ir
        mem_valid := true
        state := .memWait }
    else if Ir.opcode c.ir = OP_STORE then
      { c with
        mem_addr := (Ir.alu_y c.ir c.regs).extractLsb' 0 8
        mem_wdata := Ir.rs2_val c.ir c.regs
        mem_we := true
        mem_size := Ir.access_size c.ir
        mem_valid := true
        state := .memWait }
    else { c with mem_we := false, mem_valid := false, state := .memWait }
  | .memWait =>
    if mem_ready then { c with mem_valid := false, mem_we := false, state := .wb } else c
  | .wb =>
    { c with
      mem_we := false
      regs := Ir.writeback c.ir c.regs c.pc c.alu_result mem_rdata
      pc := c.next_pc
      state := .fetch }

end Pineapple
