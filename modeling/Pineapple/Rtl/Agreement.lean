import Pineapple.Rtl.Top

/-!
# Agreement of two chips

Two chips with the same ROM and different garbage in their registers. A point says how much of the registers agrees
when the instruction at an address is fetched; it also says what is in `x1`, so that a subroutine has points for each
of its callers. A list of points that passes `Checks` shows that no jump, no address and no stored value depends on
anything else.
-/

namespace Pineapple

/-- The words agree in their low `n` bits. -/
def Agree (n : Nat) (v v' : BitVec 32) : Prop := ∀ j < n, v.getLsbD j = v'.getLsbD j

structure Point where
  pc : BitVec 8
  /-- The low byte of `x1`, if it is the same on every way to this point. -/
  link : Option (BitVec 8)
  /-- The number of low bits that agree, for some registers. -/
  known : List (BitVec 5 × Nat)

namespace Point

variable (p : Point) (ir : BitVec 32) (pins : Nat)

def bits (r : BitVec 5) : Nat := if r = 0 then 32 else (p.known.lookup r).getD 0

/-- The bits of the ALU's result. An ANDI with a mask that has no other bits than the ones that agree gives a result
that agrees. -/
def aluBits : Nat :=
  if Ir.opcode ir = OP_IMM then
    if p.bits (Ir.rs1 ir) = 32 ∨ (Ir.funct3 ir = 0b111 ∧ (Ir.imm_i ir).toNat < 1 <<< p.bits (Ir.rs1 ir)) then 32 else 0
  else if p.bits (Ir.rs1 ir) = 32 ∧ p.bits (Ir.rs2 ir) = 32 then 32 else 0

/-- The bits of a loaded word. The address has to be constant; `pins` of the input pins agree. -/
def loadBits : Nat :=
  if Ir.rs1 ir ≠ 0 then 0
  else if in_ext_psram ((Ir.imm_i ir).extractLsb' 0 8) then 32
  else if (Ir.imm_i ir).extractLsb' 0 8 = 0xF4 then min pins 8
  else 0

/-- The bits of the result; `none` if the instruction writes no register. -/
def resultBits : Option Nat :=
  if Ir.opcode ir = OP_LUI ∨ Ir.opcode ir = OP_AUIPC ∨ Ir.opcode ir = OP_JAL ∨ Ir.opcode ir = OP_JALR then some 32
  else if Ir.opcode ir = OP_LOAD then some (loadBits ir pins)
  else if Ir.opcode ir = OP_IMM ∨ Ir.opcode ir = OP_REG then some (p.aluBits ir)
  else none

/-- The bits of a register after the instruction. -/
def afterBits (r : BitVec 5) : Nat := if Ir.rd ir = r then (p.resultBits ir pins).getD (p.bits r) else p.bits r

def afterLink : Option (BitVec 8) :=
  if Ir.rd ir = 1 then if Ir.opcode ir = OP_JAL then some (p.pc + 4) else none else p.link

/-- Where the instruction can go on. -/
def targets : List (BitVec 8) :=
  if Ir.opcode ir = OP_JAL then [p.pc + Ir.imm_j ir]
  else if Ir.opcode ir = OP_JALR then p.link.toList.map fun v => (v + (Ir.imm_i ir).extractLsb' 0 8) &&& 0xFE
  else if Ir.opcode ir = OP_BRANCH then [p.pc + Ir.imm_b ir, p.pc + 4]
  else [p.pc + 4]

/-- What the instruction does on the bus, and where it goes on, agrees. -/
structure Allowed : Prop where
  jalr : Ir.opcode ir = OP_JALR → Ir.rs1 ir = 1 ∧ p.link.isSome
  branch : Ir.opcode ir = OP_BRANCH → p.bits (Ir.rs1 ir) = 32 ∧ p.bits (Ir.rs2 ir) = 32
  load : Ir.opcode ir = OP_LOAD → p.bits (Ir.rs1 ir) = 32
  store : Ir.opcode ir = OP_STORE → p.bits (Ir.rs1 ir) = 32 ∧ p.bits (Ir.rs2 ir) = 32

instance : Decidable (p.Allowed ir) :=
  decidable_of_iff ((Ir.opcode ir = OP_JALR → Ir.rs1 ir = 1 ∧ p.link.isSome) ∧
    (Ir.opcode ir = OP_BRANCH → p.bits (Ir.rs1 ir) = 32 ∧ p.bits (Ir.rs2 ir) = 32) ∧
    (Ir.opcode ir = OP_LOAD → p.bits (Ir.rs1 ir) = 32) ∧
    (Ir.opcode ir = OP_STORE → p.bits (Ir.rs1 ir) = 32 ∧ p.bits (Ir.rs2 ir) = 32))
    ⟨fun h => ⟨h.1, h.2.1, h.2.2.1, h.2.2.2⟩, fun h => ⟨h.jalr, h.branch, h.load, h.store⟩⟩

/-- What `q` says holds after the instruction at `p`. -/
def Covers (q : Point) : Prop :=
  (q.link = none ∨ q.link = p.afterLink ir) ∧ ∀ k ∈ q.known, k.2 ≤ p.afterBits ir pins k.1

instance (q : Point) : Decidable (p.Covers ir pins q) := inferInstanceAs (Decidable (_ ∧ _))

/-- The point stands for an instruction that is allowed, and where it goes on there is a point or no ROM. -/
structure Checks (rom : Rom) (Γ : List Point) : Prop where
  in_rom : in_rom p.pc = true
  allowed : p.Allowed (rom_word p.pc rom)
  covered : ∀ pc ∈ p.targets (rom_word p.pc rom), Pineapple.in_rom pc = false ∨
    ∃ q ∈ Γ, q.pc = pc ∧ p.Covers (rom_word p.pc rom) pins q

instance (rom : Rom) (Γ : List Point) : Decidable (p.Checks pins rom Γ) :=
  decidable_of_iff (Pineapple.in_rom p.pc = true ∧ p.Allowed (rom_word p.pc rom) ∧
    ∀ pc ∈ p.targets (rom_word p.pc rom), Pineapple.in_rom pc = false ∨
      ∃ q ∈ Γ, q.pc = pc ∧ p.Covers (rom_word p.pc rom) pins q)
    ⟨fun h => ⟨h.1, h.2.1, h.2.2⟩, fun h => ⟨h.in_rom, h.allowed, h.covered⟩⟩

end Point

/-- The chips do the same on their pins and on the bus, and they are at the same place in the program. -/
structure Top.SameView (s s' : Top) : Prop where
  bus : s.bus = s'.bus
  uo_out : s.uo_out = s'.uo_out
  pin_cs0 : s.mem.u_qspi.pin_cs0 = s'.mem.u_qspi.pin_cs0
  pin_cs1 : s.mem.u_qspi.pin_cs1 = s'.mem.u_qspi.pin_cs1
  pin_sck : s.mem.u_qspi.pin_sck = s'.mem.u_qspi.pin_sck
  pin_mosi : s.mem.u_qspi.pin_mosi = s'.mem.u_qspi.pin_mosi
  pc : s.core.pc = s'.core.pc
  core_state : s.core.state = s'.core.state
  engine_state : s.mem.u_qspi.state = s'.mem.u_qspi.state
  flash_mode : s.mem.flash_mode = s'.mem.flash_mode
  flash_page : s.mem.flash_page = s'.mem.flash_page

end Pineapple
