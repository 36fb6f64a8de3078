import Pineapple.Boot.Host
import Pineapple.Rtl.Bench
import Pineapple.Rtl.Instruction
import Pineapple.Tools.Asm

/-!
# What a call of the assembler names

`Call` lists the methods of `Asm` with their operands. Its `form` is the instruction a call names, and
`Form.Means` and `Form.DecodesIn` say what that is for an RV32I decoder and for the wires of the core.
-/

namespace Pineapple

open Rv32i (Instr Word Reg readReg)

/-- A method call of `Asm`, or a label. -/
inductive Call where
  | label (name : String)
  | ADD (rd rs1 rs2 : Nat) | SUB (rd rs1 rs2 : Nat) | SLL (rd rs1 rs2 : Nat) | SLT (rd rs1 rs2 : Nat)
  | SLTU (rd rs1 rs2 : Nat) | XOR (rd rs1 rs2 : Nat) | SRL (rd rs1 rs2 : Nat) | SRA (rd rs1 rs2 : Nat)
  | OR (rd rs1 rs2 : Nat) | AND (rd rs1 rs2 : Nat)
  | ADDI (rd rs1 : Nat) (imm : Int) | SLTI (rd rs1 : Nat) (imm : Int) | SLTIU (rd rs1 : Nat) (imm : Int)
  | XORI (rd rs1 : Nat) (imm : Int) | ANDI (rd rs1 : Nat) (imm : Int) | ORI (rd rs1 : Nat) (imm : Int)
  | SLLI (rd rs1 : Nat) (sh : Int) | SRLI (rd rs1 : Nat) (sh : Int) | SRAI (rd rs1 : Nat) (sh : Int)
  | LB (rd rs1 : Nat) (imm : Int) | LH (rd rs1 : Nat) (imm : Int) | LW (rd rs1 : Nat) (imm : Int)
  | LBU (rd rs1 : Nat) (imm : Int) | LHU (rd rs1 : Nat) (imm : Int) | JALR (rd rs1 : Nat) (imm : Int)
  | LUI (rd : Nat) (imm20 : Int) | AUIPC (rd : Nat) (imm20 : Int)
  | SB (rs2 rs1 : Nat) (imm : Int) | SW (rs2 rs1 : Nat) (imm : Int) | SH (rs2 rs1 : Nat) (imm : Int)
  | BEQ (rs1 rs2 : Nat) (target : String) | BNE (rs1 rs2 : Nat) (target : String)
  | BLT (rs1 rs2 : Nat) (target : String) | BGE (rs1 rs2 : Nat) (target : String)
  | BLTU (rs1 rs2 : Nat) (target : String) | BGEU (rs1 rs2 : Nat) (target : String)
  | JAL (rd : Nat) (target : String)
  deriving DecidableEq, Repr

/-- The call on an assembler. -/
def Asm.call (a : Asm) : Call → Except PyError Asm
  | .label name => a.label name
  | .ADD rd rs1 rs2 => .ok (a.ADD rd rs1 rs2)
  | .SUB rd rs1 rs2 => .ok (a.SUB rd rs1 rs2)
  | .SLL rd rs1 rs2 => .ok (a.SLL rd rs1 rs2)
  | .SLT rd rs1 rs2 => .ok (a.SLT rd rs1 rs2)
  | .SLTU rd rs1 rs2 => .ok (a.SLTU rd rs1 rs2)
  | .XOR rd rs1 rs2 => .ok (a.XOR rd rs1 rs2)
  | .SRL rd rs1 rs2 => .ok (a.SRL rd rs1 rs2)
  | .SRA rd rs1 rs2 => .ok (a.SRA rd rs1 rs2)
  | .OR rd rs1 rs2 => .ok (a.OR rd rs1 rs2)
  | .AND rd rs1 rs2 => .ok (a.AND rd rs1 rs2)
  | .ADDI rd rs1 imm => .ok (a.ADDI rd rs1 imm)
  | .SLTI rd rs1 imm => .ok (a.SLTI rd rs1 imm)
  | .SLTIU rd rs1 imm => .ok (a.SLTIU rd rs1 imm)
  | .XORI rd rs1 imm => .ok (a.XORI rd rs1 imm)
  | .ANDI rd rs1 imm => .ok (a.ANDI rd rs1 imm)
  | .ORI rd rs1 imm => .ok (a.ORI rd rs1 imm)
  | .SLLI rd rs1 sh => .ok (a.SLLI rd rs1 sh)
  | .SRLI rd rs1 sh => .ok (a.SRLI rd rs1 sh)
  | .SRAI rd rs1 sh => .ok (a.SRAI rd rs1 sh)
  | .LB rd rs1 imm => .ok (a.LB rd rs1 imm)
  | .LH rd rs1 imm => .ok (a.LH rd rs1 imm)
  | .LW rd rs1 imm => .ok (a.LW rd rs1 imm)
  | .LBU rd rs1 imm => .ok (a.LBU rd rs1 imm)
  | .LHU rd rs1 imm => .ok (a.LHU rd rs1 imm)
  | .JALR rd rs1 imm => .ok (a.JALR rd rs1 imm)
  | .LUI rd imm20 => .ok (a.LUI rd imm20)
  | .AUIPC rd imm20 => .ok (a.AUIPC rd imm20)
  | .SB rs2 rs1 imm => .ok (a.SB rs2 rs1 imm)
  | .SW rs2 rs1 imm => .ok (a.SW rs2 rs1 imm)
  | .SH rs2 rs1 imm => .ok (a.SH rs2 rs1 imm)
  | .BEQ rs1 rs2 target => .ok (a.BEQ rs1 rs2 target)
  | .BNE rs1 rs2 target => .ok (a.BNE rs1 rs2 target)
  | .BLT rs1 rs2 target => .ok (a.BLT rs1 rs2 target)
  | .BGE rs1 rs2 target => .ok (a.BGE rs1 rs2 target)
  | .BLTU rs1 rs2 target => .ok (a.BLTU rs1 rs2 target)
  | .BGEU rs1 rs2 target => .ok (a.BGEU rs1 rs2 target)
  | .JAL rd target => .ok (a.JAL rd target)

/-- The calls one after the other. -/
def Asm.calls (a : Asm) : List Call → Except PyError Asm
  | [] => .ok a
  | c :: cs => do (← a.call c).calls cs

/-! ## What is named -/

/-- An instruction with its operands as they are written; a branch or jump has its target's name. -/
inductive Form where
  | reg (op : Rv32i.RegOp) (rd rs1 rs2 : Nat)
  | imm (op : Rv32i.ImmOp) (rd rs1 : Nat) (imm : Int)
  | shift (op : Rv32i.ShiftOp) (rd rs1 : Nat) (sh : Int)
  | load (op : Rv32i.LoadOp) (rd rs1 : Nat) (imm : Int)
  | jalr (rd rs1 : Nat) (imm : Int)
  | lui (rd : Nat) (imm20 : Int)
  | auipc (rd : Nat) (imm20 : Int)
  | store (op : Rv32i.StoreOp) (rs2 rs1 : Nat) (imm : Int)
  | branch (op : Rv32i.BranchOp) (rs1 rs2 : Nat) (target : String)
  | jal (rd : Nat) (target : String)

/-- The instruction a call names; a label names none. -/
def Call.form : Call → Option Form
  | .label _ => none
  | .ADD rd rs1 rs2 => some (.reg .add rd rs1 rs2)
  | .SUB rd rs1 rs2 => some (.reg .sub rd rs1 rs2)
  | .SLL rd rs1 rs2 => some (.reg .sll rd rs1 rs2)
  | .SLT rd rs1 rs2 => some (.reg .slt rd rs1 rs2)
  | .SLTU rd rs1 rs2 => some (.reg .sltu rd rs1 rs2)
  | .XOR rd rs1 rs2 => some (.reg .xor rd rs1 rs2)
  | .SRL rd rs1 rs2 => some (.reg .srl rd rs1 rs2)
  | .SRA rd rs1 rs2 => some (.reg .sra rd rs1 rs2)
  | .OR rd rs1 rs2 => some (.reg .or rd rs1 rs2)
  | .AND rd rs1 rs2 => some (.reg .and rd rs1 rs2)
  | .ADDI rd rs1 imm => some (.imm .addi rd rs1 imm)
  | .SLTI rd rs1 imm => some (.imm .slti rd rs1 imm)
  | .SLTIU rd rs1 imm => some (.imm .sltiu rd rs1 imm)
  | .XORI rd rs1 imm => some (.imm .xori rd rs1 imm)
  | .ANDI rd rs1 imm => some (.imm .andi rd rs1 imm)
  | .ORI rd rs1 imm => some (.imm .ori rd rs1 imm)
  | .SLLI rd rs1 sh => some (.shift .slli rd rs1 sh)
  | .SRLI rd rs1 sh => some (.shift .srli rd rs1 sh)
  | .SRAI rd rs1 sh => some (.shift .srai rd rs1 sh)
  | .LB rd rs1 imm => some (.load .lb rd rs1 imm)
  | .LH rd rs1 imm => some (.load .lh rd rs1 imm)
  | .LW rd rs1 imm => some (.load .lw rd rs1 imm)
  | .LBU rd rs1 imm => some (.load .lbu rd rs1 imm)
  | .LHU rd rs1 imm => some (.load .lhu rd rs1 imm)
  | .JALR rd rs1 imm => some (.jalr rd rs1 imm)
  | .LUI rd imm20 => some (.lui rd imm20)
  | .AUIPC rd imm20 => some (.auipc rd imm20)
  | .SB rs2 rs1 imm => some (.store .sb rs2 rs1 imm)
  | .SW rs2 rs1 imm => some (.store .sw rs2 rs1 imm)
  | .SH rs2 rs1 imm => some (.store .sh rs2 rs1 imm)
  | .BEQ rs1 rs2 target => some (.branch .beq rs1 rs2 target)
  | .BNE rs1 rs2 target => some (.branch .bne rs1 rs2 target)
  | .BLT rs1 rs2 target => some (.branch .blt rs1 rs2 target)
  | .BGE rs1 rs2 target => some (.branch .bge rs1 rs2 target)
  | .BLTU rs1 rs2 target => some (.branch .bltu rs1 rs2 target)
  | .BGEU rs1 rs2 target => some (.branch .bgeu rs1 rs2 target)
  | .JAL rd target => some (.jal rd target)

namespace Form

/-- A signed 12-bit immediate. -/
abbrev Imm12 (imm : Int) : Prop := -2048 ≤ imm ∧ imm ≤ 2047

/-- The operands are ones an instruction can have. -/
def InRange : Form → Prop
  | reg _ rd rs1 rs2 => rd < 32 ∧ rs1 < 32 ∧ rs2 < 32
  | imm _ rd rs1 v => rd < 32 ∧ rs1 < 32 ∧ Imm12 v
  | shift _ rd rs1 sh => rd < 32 ∧ rs1 < 32 ∧ 0 ≤ sh ∧ sh < 32
  | load _ rd rs1 v => rd < 32 ∧ rs1 < 32 ∧ Imm12 v
  | jalr rd rs1 v => rd < 32 ∧ rs1 < 32 ∧ Imm12 v
  | lui rd imm20 => rd < 32 ∧ 0 ≤ imm20 ∧ imm20 < 2 ^ 20
  | auipc rd imm20 => rd < 32 ∧ 0 ≤ imm20 ∧ imm20 < 2 ^ 20
  | store _ rs2 rs1 v => rs2 < 32 ∧ rs1 < 32 ∧ Imm12 v
  | branch _ rs1 rs2 _ => rs1 < 32 ∧ rs2 < 32
  | jal rd _ => rd < 32

instance (f : Form) : Decidable f.InRange := by
  cases f <;> unfold InRange <;> infer_instance

/-- The register operands. -/
def regs : Form → List Nat
  | reg _ rd rs1 rs2 => [rd, rs1, rs2]
  | imm _ rd rs1 _ | shift _ rd rs1 _ | load _ rd rs1 _ | jalr rd rs1 _ => [rd, rs1]
  | lui rd _ | auipc rd _ | jal rd _ => [rd]
  | store _ rs2 rs1 _ | branch _ rs1 rs2 _ => [rs1, rs2]

/-- The operands as the encoding keeps them: an immediate modulo its width. -/
def wrap : Form → Form
  | imm op rd rs1 v => imm op rd rs1 (v.bmod (2 ^ 12))
  | shift op rd rs1 sh => shift op rd rs1 (sh % 32)
  | load op rd rs1 v => load op rd rs1 (v.bmod (2 ^ 12))
  | jalr rd rs1 v => jalr rd rs1 (v.bmod (2 ^ 12))
  | lui rd imm20 => lui rd (imm20 % 2 ^ 20)
  | auipc rd imm20 => auipc rd (imm20 % 2 ^ 20)
  | store op rs2 rs1 v => store op rs2 rs1 (v.bmod (2 ^ 12))
  | f => f

/-- The registers exist. -/
def RegsOk (f : Form) : Prop := ∀ r ∈ f.regs, r < 32

instance (f : Form) : Decidable f.RegsOk := inferInstanceAs (Decidable (∀ r ∈ f.regs, r < 32))

/-- The target of a branch or jump. -/
def target : Form → Option String
  | branch _ _ _ name => some name
  | jal _ name => some name
  | _ => none

/-- The RV32I instruction with exactly these operands; `off` is the offset of a branch or jump. -/
def Means (off : Int) : Form → Instr → Prop
  | reg op rd rs1 rs2, .opReg op' r s t => op' = op ∧ r.toNat = rd ∧ s.toNat = rs1 ∧ t.toNat = rs2
  | imm op rd rs1 v, .opImm op' r s w => op' = op ∧ r.toNat = rd ∧ s.toNat = rs1 ∧ w.toInt = v
  | shift op rd rs1 sh, .shift op' r s v => op' = op ∧ r.toNat = rd ∧ s.toNat = rs1 ∧ (v.toNat : Int) = sh
  | load op rd rs1 v, .load op' r s w => op' = op ∧ r.toNat = rd ∧ s.toNat = rs1 ∧ w.toInt = v
  | jalr rd rs1 v, .jalr r s w => r.toNat = rd ∧ s.toNat = rs1 ∧ w.toInt = v
  | lui rd imm20, .lui r v => r.toNat = rd ∧ (v.toNat : Int) = imm20
  | auipc rd imm20, .auipc r v => r.toNat = rd ∧ (v.toNat : Int) = imm20
  | store op rs2 rs1 v, .store op' t s w => op' = op ∧ t.toNat = rs2 ∧ s.toNat = rs1 ∧ w.toInt = v
  | branch op rs1 rs2 _, .branch op' s t v => op' = op ∧ s.toNat = rs1 ∧ t.toNat = rs2 ∧ v.toInt = off
  | jal rd _, .jal r v => r.toNat = rd ∧ v.toInt = off
  | _, _ => False

/-- The RV32I instruction with these operands, each cut to its field. -/
def instr (off : Int) : Form → Instr
  | reg op rd rs1 rs2 => .opReg op (BitVec.ofNat 5 rd) (BitVec.ofNat 5 rs1) (BitVec.ofNat 5 rs2)
  | imm op rd rs1 v => .opImm op (BitVec.ofNat 5 rd) (BitVec.ofNat 5 rs1) (BitVec.ofInt 12 v)
  | shift op rd rs1 sh => .shift op (BitVec.ofNat 5 rd) (BitVec.ofNat 5 rs1) (BitVec.ofInt 5 sh)
  | load op rd rs1 v => .load op (BitVec.ofNat 5 rd) (BitVec.ofNat 5 rs1) (BitVec.ofInt 12 v)
  | jalr rd rs1 v => .jalr (BitVec.ofNat 5 rd) (BitVec.ofNat 5 rs1) (BitVec.ofInt 12 v)
  | lui rd imm20 => .lui (BitVec.ofNat 5 rd) (BitVec.ofInt 20 imm20)
  | auipc rd imm20 => .auipc (BitVec.ofNat 5 rd) (BitVec.ofInt 20 imm20)
  | store op rs2 rs1 v => .store op (BitVec.ofNat 5 rs2) (BitVec.ofNat 5 rs1) (BitVec.ofInt 12 v)
  | branch op rs1 rs2 _ => .branch op (BitVec.ofNat 5 rs1) (BitVec.ofNat 5 rs2) (BitVec.ofInt 13 off)
  | jal rd _ => .jal (BitVec.ofNat 5 rd) (BitVec.ofInt 21 off)

/-- What the wires of the core say about the latched word `ir`: the opcode, the fields and the immediate, and
the ALU operation, load extension, access size or branch condition. -/
def DecodesIn (ir : Word) : Form → Prop
  | reg op rd rs1 rs2 =>
    Ir.opcode ir = OP_REG ∧ (Ir.rd ir).toNat = rd ∧ (Ir.rs1 ir).toNat = rs1 ∧ (Ir.rs2 ir).toNat = rs2 ∧
      ∀ regs, Ir.alu_y ir regs = op.eval (Ir.rs1_val ir regs) (Ir.rs2_val ir regs)
  | imm op rd rs1 v =>
    Ir.opcode ir = OP_IMM ∧ (Ir.rd ir).toNat = rd ∧ (Ir.rs1 ir).toNat = rs1 ∧ (Ir.imm_i ir).toInt = v ∧
      ∀ regs, Ir.alu_y ir regs = op.eval (Ir.rs1_val ir regs) (Ir.imm_i ir)
  | shift op rd rs1 sh =>
    Ir.opcode ir = OP_IMM ∧ (Ir.rd ir).toNat = rd ∧ (Ir.rs1 ir).toNat = rs1 ∧
      ∀ regs, Ir.alu_y ir regs = op.eval (Ir.rs1_val ir regs) (BitVec.ofInt 5 sh)
  | load op rd rs1 v =>
    Ir.opcode ir = OP_LOAD ∧ (Ir.rd ir).toNat = rd ∧ (Ir.rs1 ir).toNat = rs1 ∧ (Ir.imm_i ir).toInt = v ∧
      (∀ regs, Ir.alu_y ir regs = Ir.rs1_val ir regs + Ir.imm_i ir) ∧
      Ir.access_size ir = sizeCode op.width ∧ ∀ d, Ir.load_value ir d = op.extend d
  | jalr rd rs1 v =>
    Ir.opcode ir = OP_JALR ∧ (Ir.rd ir).toNat = rd ∧ (Ir.rs1 ir).toNat = rs1 ∧ (Ir.imm_i ir).toInt = v
  | lui rd imm20 =>
    Ir.opcode ir = OP_LUI ∧ (Ir.rd ir).toNat = rd ∧ ((Ir.imm_u ir).toNat : Int) = imm20 * 2 ^ 12
  | auipc rd imm20 =>
    Ir.opcode ir = OP_AUIPC ∧ (Ir.rd ir).toNat = rd ∧ ((Ir.imm_u ir).toNat : Int) = imm20 * 2 ^ 12
  | store op rs2 rs1 v =>
    Ir.opcode ir = OP_STORE ∧ (Ir.rs2 ir).toNat = rs2 ∧ (Ir.rs1 ir).toNat = rs1 ∧
      (Ir.imm_s ir).toInt = v ∧ (∀ regs, Ir.alu_y ir regs = Ir.rs1_val ir regs + Ir.imm_s ir) ∧
      Ir.access_size ir = sizeCode op.width
  | branch op rs1 rs2 _ =>
    Ir.opcode ir = OP_BRANCH ∧ (Ir.rs1 ir).toNat = rs1 ∧ (Ir.rs2 ir).toNat = rs2 ∧
      ∀ regs, Ir.branch_cond ir regs = op.holds (Ir.rs1_val ir regs) (Ir.rs2_val ir regs)
  | jal rd _ => Ir.opcode ir = OP_JAL ∧ (Ir.rd ir).toNat = rd

/-- The branch is taken, or the instruction is a jump. -/
def Taken (ir : Word) (regs : Regs) : Form → Prop
  | branch _ _ _ _ => Ir.branch_cond ir regs = true
  | jal _ _ => True
  | _ => False

end Form

/-! ## Agreement -/

namespace Asm

/-- The word `w` at index `i` is the instruction `f` for the core and for an RV32I decoder. The address `l` is
the one of the label the instruction names, if it names one. -/
structure Agrees (base : Int) (labels : List (String × Int)) (i : Nat) (f : Form) (w : Nat) (l : Int)
    (x : Instr) : Prop where
  lt : w < 2 ^ 32
  label : ∀ name, f.target = some name → labels.lookup name = some l
  decode : Rv32i.decode (BitVec.ofNat 32 w) = some x
  means : f.Means (l - (base + 4 * i)) x
  wires : f.DecodesIn (BitVec.ofNat 32 w)
  next_pc : ∀ regs, f.Taken (BitVec.ofNat 32 w) regs →
    Ir.next_pc (BitVec.ofNat 32 w) regs (BitVec.ofInt 8 (base + 4 * i)) = BitVec.ofInt 8 l
  /-- The core's registers and program counter after the instruction. -/
  exec : ∀ (pc : BitVec 8) (regs : Regs) (d : Word),
    Ir.writeback (BitVec.ofNat 32 w) regs pc (Ir.alu_y (BitVec.ofNat 32 w) regs) d =
      (x.exec ⟨pc, regs⟩ d).regs ∧
    Ir.next_pc (BitVec.ofNat 32 w) regs pc = (x.exec ⟨pc, regs⟩ d).pc

/-- A word fetch from four bytes of the RAM or of the flash window that hold `bs` reads `v`. -/
structure FetchedAs (bs : Nat → BitVec 8) (v : Word) : Prop where
  ram : ∀ (m : MemRegs) (rom : Rom) (gpio_in : BitVec 8) (ext : Word) (addr : BitVec 8),
    m.flash_mode = false → 0xB0 ≤ addr.toNat → addr.toNat + 3 ≤ 0xDF →
    (∀ j < 4, m.ramByte (addr.toNat + j) = bs j) → m.rdata addr rom gpio_in ext = v
  flash : ∀ (σ : Windows) (b : Bus), b.size = 2 → σ.regs.InFlash b.addr →
    (∀ j < 4, σ.flash (BitVec.ofNat 14 (σ.regs.flash_page.toNat * 44 + (b.addr.toNat - 0xB4) + j)) = bs j) →
    ∃ read, σ.read b = some read ∧ Bits.ofLE 32 read = v

end Asm

end Pineapple
