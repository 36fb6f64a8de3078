import Pineapple.Rtl.Proofs.DecodeProofs
import Pineapple.Tools.Calls
import Pineapple.Tools.Proofs.EncodeProofs

/-!
# Proofs: the assembler and the decoders agree

`Emits` relates the instruction a call names to what the call appends, one lemma for each format. An
invariant of the calls ties the index of a word to its call, and the second pass fills in the words of the
branches and jumps.
-/

namespace Pineapple

open Rv32i (Instr Word Reg readReg)

/-! ## Immediates -/

theorem toInt_ofInt_of_range {n : Nat} {v : Int} (h1 : -(2 ^ n : Nat) ≤ v) (h2 : v < (2 ^ n : Nat)) :
    (BitVec.ofInt (n + 1) v).toInt = v := by
  rw [BitVec.toInt_ofInt]
  apply Int.bmod_eq_of_le_mul_two
  · rw [Nat.pow_succ]
    push_cast at *
    omega
  · rw [Nat.pow_succ]
    push_cast at *
    omega

namespace Asm

theorem s12_imm {imm : Int} : BitVec.ofNat 12 (_s12 imm / 32 * 32 + _s12 imm % 32) = BitVec.ofInt 12 imm := by
  rw [Nat.div_add_mod', _s12, ofNat_lowBits]

theorem toInt_s12 {imm : Int} (h : Form.Imm12 imm) :
    (BitVec.ofNat 12 (_s12 imm / 32 * 32 + _s12 imm % 32)).toInt = imm := by
  rw [s12_imm]
  exact toInt_ofInt_of_range (n := 11) h.1 (by have := h.2; omega)

theorem toNat_reg {r : Nat} (h : r < 32) : (BitVec.ofNat 5 r).toNat = r := by
  rw [BitVec.toNat_ofNat]
  omega

/-! ## The opcodes -/

section Decode

variable {w : Word}

theorem decode_reg (h : Rv32i.opcode w = BitVec.ofNat 7 OPC.OP_REG) : Rv32i.decode w =
    (Rv32i.decodeReg (Rv32i.funct3 w) (Rv32i.funct7 w)).map fun op =>
      .opReg op (Rv32i.rd w) (Rv32i.rs1 w) (Rv32i.rs2 w) := by
  simp [Rv32i.decode, h, OPC.OP_REG]

theorem decode_imm (h : Rv32i.opcode w = BitVec.ofNat 7 OPC.OP_IMM) : Rv32i.decode w =
    if Rv32i.funct3 w = 0b001 ∨ Rv32i.funct3 w = 0b101 then
      (Rv32i.decodeShift (Rv32i.funct3 w) (Rv32i.funct7 w)).map fun op =>
        .shift op (Rv32i.rd w) (Rv32i.rs1 w) (Rv32i.rs2 w)
    else (Rv32i.decodeImm (Rv32i.funct3 w)).map fun op =>
      .opImm op (Rv32i.rd w) (Rv32i.rs1 w) (Rv32i.immI w) := by
  simp [Rv32i.decode, h, OPC.OP_IMM]

theorem decode_load (h : Rv32i.opcode w = BitVec.ofNat 7 OPC.OP_LOAD) : Rv32i.decode w =
    (Rv32i.decodeLoad (Rv32i.funct3 w)).map fun op =>
      .load op (Rv32i.rd w) (Rv32i.rs1 w) (Rv32i.immI w) := by
  simp [Rv32i.decode, h, OPC.OP_LOAD]

theorem decode_store (h : Rv32i.opcode w = BitVec.ofNat 7 OPC.OP_STORE) : Rv32i.decode w =
    (Rv32i.decodeStore (Rv32i.funct3 w)).map fun op =>
      .store op (Rv32i.rs2 w) (Rv32i.rs1 w) (Rv32i.immS w) := by
  simp [Rv32i.decode, h, OPC.OP_STORE]

theorem decode_branch (h : Rv32i.opcode w = BitVec.ofNat 7 OPC.OP_BRANCH) : Rv32i.decode w =
    (Rv32i.decodeBranch (Rv32i.funct3 w)).map fun op =>
      .branch op (Rv32i.rs1 w) (Rv32i.rs2 w) (Rv32i.immB w) := by
  simp [Rv32i.decode, h, OPC.OP_BRANCH]

theorem decode_jal (h : Rv32i.opcode w = BitVec.ofNat 7 OPC.OP_JAL) :
    Rv32i.decode w = some (.jal (Rv32i.rd w) (Rv32i.immJ w)) := by
  simp [Rv32i.decode, h, OPC.OP_JAL]

theorem decode_jalr (h : Rv32i.opcode w = BitVec.ofNat 7 OPC.OP_JALR) (h3 : Rv32i.funct3 w = 0) :
    Rv32i.decode w = some (.jalr (Rv32i.rd w) (Rv32i.rs1 w) (Rv32i.immI w)) := by
  simp [Rv32i.decode, h, h3, OPC.OP_JALR]

theorem decode_lui (h : Rv32i.opcode w = BitVec.ofNat 7 OPC.OP_LUI) :
    Rv32i.decode w = some (.lui (Rv32i.rd w) (Rv32i.immU w)) := by
  simp [Rv32i.decode, h, OPC.OP_LUI]

theorem decode_auipc (h : Rv32i.opcode w = BitVec.ofNat 7 OPC.OP_AUIPC) :
    Rv32i.decode w = some (.auipc (Rv32i.rd w) (Rv32i.immU w)) := by
  simp [Rv32i.decode, h, OPC.OP_AUIPC]

end Decode

/-! ## What a call appends -/

/-- The word `w` is the instruction `f` at the offset `off` from its target. -/
structure Encoded (f : Form) (off : Int) (w : Nat) : Prop where
  lt : w < 2 ^ 32
  decodes : ∃ i, Rv32i.decode (BitVec.ofNat 32 w) = some i ∧ f.Means off i

/-- What a call that names `f` appends: a finished word, or a place for the second pass. -/
inductive Emits : Form → Option Nat → Option Fixup → Prop where
  | word {f : Form} {w : Nat} (ht : f.target = none) (h : ∀ off, Encoded f off w) : Emits f (some w) none
  | branch {op : Rv32i.BranchOp} {f3 rs1 rs2 : Nat} {name : String} (h3 : f3 < 8)
      (hop : Rv32i.decodeBranch (BitVec.ofNat 3 f3) = some op) :
      Emits (.branch op rs1 rs2 name) none (some (.branch f3 rs1 rs2 name))
  | jal {rd : Nat} {name : String} : Emits (.jal rd name) none (some (.jal rd name))

section Words

variable {f7 f3 rd rs1 rs2 : Nat} {imm : Int}

theorem emits_r {op : Rv32i.RegOp} (h7 : f7 < 128) (h3 : f3 < 8)
    (hop : Rv32i.decodeReg (BitVec.ofNat 3 f3) (BitVec.ofNat 7 f7) = some op)
    (hr : (Form.reg op rd rs1 rs2).InRange) :
    Emits (.reg op rd rs1 rs2) (some (_r f7 rs2 rs1 f3 rd OPC.OP_REG)) none := by
  obtain ⟨hd, h1, h2⟩ := hr
  have hp := packs_r OPC.OP_REG h7 h2 h1 h3 hd (by decide)
  have hdec := decode_reg hp.opcode
  rw [hp.funct3, hp.funct7, hop, hp.rd, hp.rs1, hp.rs2] at hdec
  exact .word rfl fun _ => ⟨hp.lt, _, hdec, rfl, toNat_reg hd, toNat_reg h1, toNat_reg h2⟩

theorem emits_imm {op : Rv32i.ImmOp} (h3 : f3 < 8)
    (hop : Rv32i.decodeImm (BitVec.ofNat 3 f3) = some op) (hr : (Form.imm op rd rs1 imm).InRange) :
    Emits (.imm op rd rs1 imm) (some (_i imm rs1 f3 rd OPC.OP_IMM)) none := by
  obtain ⟨hd, h1, hi⟩ := hr
  have hp := packs_i OPC.OP_IMM imm h1 h3 hd (by decide)
  have hno : ¬ (BitVec.ofNat 3 f3 = 0b001 ∨ BitVec.ofNat 3 f3 = 0b101) := by
    rintro (h | h) <;> rw [h] at hop <;> cases hop
  have hdec := decode_imm hp.opcode
  rw [hp.funct3, if_neg hno, hop, hp.rd, hp.rs1, hp.immI] at hdec
  exact .word rfl fun _ => ⟨hp.lt, _, hdec, rfl, toNat_reg hd, toNat_reg h1, toInt_s12 hi⟩

theorem s12_nat {n : Nat} (h : n < 4096) : _s12 (n : Int) = n := by
  rw [_s12, lowBits]
  omega

/-- An operand that a field has room for is what the field holds. -/
theorem lowBits_of_lt {v : Int} {k : Nat} (h0 : 0 ≤ v) (h : v < 2 ^ k) : (lowBits v k : Int) = v := by
  rw [lowBits, Int.emod_eq_of_lt h0 h, Int.toNat_of_nonneg h0]

theorem emits_shift {op : Rv32i.ShiftOp} {sh : Int} {v : Nat} (h7 : f7 < 128) (h3 : f3 = 1 ∨ f3 = 5)
    (hop : Rv32i.decodeShift (BitVec.ofNat 3 f3) (BitVec.ofNat 7 f7) = some op) (hv : v = f7 * 32 + lowBits sh 5)
    (hr : (Form.shift op rd rs1 sh).InRange) :
    Emits (.shift op rd rs1 sh) (some (_i (v : Int) rs1 f3 rd OPC.OP_IMM)) none := by
  obtain ⟨hd, h1, hs⟩ := hr
  have hlt := lowBits_lt sh 5
  have hp := packs_i OPC.OP_IMM v h1 (show f3 < 8 by omega) hd (by decide)
  rw [s12_nat (by omega), show v / 32 = f7 by omega, show v % 32 = lowBits sh 5 by omega] at hp
  have hyes : BitVec.ofNat 3 f3 = 0b001 ∨ BitVec.ofNat 3 f3 = 0b101 := by
    rcases h3 with rfl | rfl
    · exact .inl rfl
    · exact .inr rfl
  have hdec := decode_imm hp.opcode
  rw [hp.funct3, if_pos hyes, hp.funct7, hop, hp.rd, hp.rs1, hp.rs2] at hdec
  have hsh : ((BitVec.ofNat 5 (lowBits sh 5)).toNat : Int) = sh := by
    rw [toNat_reg hlt, lowBits_of_lt hs.1 hs.2]
  exact .word rfl fun _ => ⟨hp.lt, _, hdec, rfl, toNat_reg hd, toNat_reg h1, hsh⟩

theorem emits_load {op : Rv32i.LoadOp} (h3 : f3 < 8)
    (hop : Rv32i.decodeLoad (BitVec.ofNat 3 f3) = some op) (hr : (Form.load op rd rs1 imm).InRange) :
    Emits (.load op rd rs1 imm) (some (_i imm rs1 f3 rd OPC.OP_LOAD)) none := by
  obtain ⟨hd, h1, hi⟩ := hr
  have hp := packs_i OPC.OP_LOAD imm h1 h3 hd (by decide)
  have hdec := decode_load hp.opcode
  rw [hp.funct3, hop, hp.rd, hp.rs1, hp.immI] at hdec
  exact .word rfl fun _ => ⟨hp.lt, _, hdec, rfl, toNat_reg hd, toNat_reg h1, toInt_s12 hi⟩

theorem emits_jalr (hr : (Form.jalr rd rs1 imm).InRange) :
    Emits (.jalr rd rs1 imm) (some (_i imm rs1 0 rd OPC.OP_JALR)) none := by
  obtain ⟨hd, h1, hi⟩ := hr
  have hp := packs_i OPC.OP_JALR imm h1 (show 0 < 8 by decide) hd (by decide)
  have hdec := decode_jalr hp.opcode hp.funct3
  rw [hp.rd, hp.rs1, hp.immI] at hdec
  exact .word rfl fun _ => ⟨hp.lt, _, hdec, toNat_reg hd, toNat_reg h1, toInt_s12 hi⟩

theorem toNat_immU {imm20 : Int} (h0 : 0 ≤ imm20) (hi : imm20 < 2 ^ 20) :
    ((BitVec.ofNat 20 (lowBits imm20 20 / 2 ^ 13 * 2 ^ 13 + lowBits imm20 20 / 2 ^ 8 % 32 * 2 ^ 8 +
      lowBits imm20 20 / 2 ^ 3 % 32 * 2 ^ 3 + lowBits imm20 20 % 8)).toNat : Int) = imm20 := by
  have hv := lowBits_of_lt h0 hi
  rw [BitVec.toNat_ofNat]
  omega

theorem emits_lui {imm20 : Int} (hr : (Form.lui rd imm20).InRange) :
    Emits (.lui rd imm20) (some (_u imm20 rd OPC.OP_LUI)) none := by
  obtain ⟨hd, h0, hi⟩ := hr
  have hp := packs_u OPC.OP_LUI imm20 hd (by decide)
  have hdec := decode_lui hp.opcode
  rw [hp.rd, hp.immU] at hdec
  exact .word rfl fun _ => ⟨hp.lt, _, hdec, toNat_reg hd, toNat_immU h0 hi⟩

theorem emits_auipc {imm20 : Int} (hr : (Form.auipc rd imm20).InRange) :
    Emits (.auipc rd imm20) (some (_u imm20 rd OPC.OP_AUIPC)) none := by
  obtain ⟨hd, h0, hi⟩ := hr
  have hp := packs_u OPC.OP_AUIPC imm20 hd (by decide)
  have hdec := decode_auipc hp.opcode
  rw [hp.rd, hp.immU] at hdec
  exact .word rfl fun _ => ⟨hp.lt, _, hdec, toNat_reg hd, toNat_immU h0 hi⟩

theorem emits_s {op : Rv32i.StoreOp} (h3 : f3 < 8)
    (hop : Rv32i.decodeStore (BitVec.ofNat 3 f3) = some op) (hr : (Form.store op rs2 rs1 imm).InRange) :
    Emits (.store op rs2 rs1 imm) (some (_s f3 rs2 rs1 imm)) none := by
  obtain ⟨h2, h1, hi⟩ := hr
  have hp := packs_s imm h2 h1 h3
  have hdec := decode_store hp.opcode
  rw [hp.funct3, hop, hp.rs2, hp.rs1, hp.immS] at hdec
  exact .word rfl fun _ => ⟨hp.lt, _, hdec, rfl, toNat_reg h2, toNat_reg h1, toInt_s12 hi⟩

/-- The bits of an even 13-bit offset put together again. -/
theorem branch_bits {v : Nat} (h0 : v % 2 = 0) :
    (v / 2 ^ 12 * 64 + v / 2 ^ 5 % 64) / 64 * 2 ^ 12 + (v / 2 % 16 * 2 + v / 2 ^ 11 % 2) % 2 * 2 ^ 11 +
      (v / 2 ^ 12 * 64 + v / 2 ^ 5 % 64) % 64 * 2 ^ 5 + (v / 2 % 16 * 2 + v / 2 ^ 11 % 2) / 2 * 2 = v := by
  have e1 : (v / 2 ^ 12 * 64 + v / 2 ^ 5 % 64) / 64 = v / 2 ^ 12 := by omega
  have e2 : (v / 2 ^ 12 * 64 + v / 2 ^ 5 % 64) % 64 = v / 2 ^ 5 % 64 := by omega
  have e3 : (v / 2 % 16 * 2 + v / 2 ^ 11 % 2) % 2 = v / 2 ^ 11 % 2 := by omega
  have e4 : (v / 2 % 16 * 2 + v / 2 ^ 11 % 2) / 2 = v / 2 % 16 := by omega
  rw [e1, e2, e3, e4]
  omega

/-- The bits of an even 21-bit offset put together again. -/
theorem jal_bits {v : Nat} (h0 : v % 2 = 0) :
    (v / 2 ^ 20 * 64 + v / 2 ^ 5 % 64) / 64 * 2 ^ 20 + (v / 2 ^ 15 % 32 * 8 + v / 2 ^ 12 % 8) * 2 ^ 12 +
      (v / 2 % 16 * 2 + v / 2 ^ 11 % 2) % 2 * 2 ^ 11 + (v / 2 ^ 20 * 64 + v / 2 ^ 5 % 64) % 64 * 2 ^ 5 +
      (v / 2 % 16 * 2 + v / 2 ^ 11 % 2) / 2 * 2 = v := by
  have e1 : (v / 2 ^ 20 * 64 + v / 2 ^ 5 % 64) / 64 = v / 2 ^ 20 := by omega
  have e2 : (v / 2 ^ 20 * 64 + v / 2 ^ 5 % 64) % 64 = v / 2 ^ 5 % 64 := by omega
  have e3 : (v / 2 % 16 * 2 + v / 2 ^ 11 % 2) % 2 = v / 2 ^ 11 % 2 := by omega
  have e4 : (v / 2 % 16 * 2 + v / 2 ^ 11 % 2) / 2 = v / 2 % 16 := by omega
  have e5 : v / 2 ^ 15 % 32 * 8 + v / 2 ^ 12 % 8 = v / 2 ^ 12 % 256 := by omega
  rw [e1, e2, e3, e4, e5]
  omega

/-- The word the second pass makes for a branch. -/
theorem encoded_branch {op : Rv32i.BranchOp} {name : String} {off : Int} (h3 : f3 < 8)
    (hop : Rv32i.decodeBranch (BitVec.ofNat 3 f3) = some op)
    (hr : (Form.branch op rs1 rs2 name).InRange) (hlo : -4096 ≤ off) (hhi : off < 4096)
    (heven : off % 2 = 0) : Encoded (.branch op rs1 rs2 name) off (branchWord off f3 rs1 rs2) := by
  obtain ⟨h1, h2⟩ := hr
  have hp := packs_branch off h2 h1 h3
  have hdec := decode_branch hp.opcode
  rw [hp.funct3, hop, hp.rs1, hp.rs2, hp.immB] at hdec
  refine ⟨hp.lt, _, hdec, rfl, toNat_reg h1, toNat_reg h2, ?_⟩
  have hlow : lowBits off 13 % 2 = 0 := by
    rw [lowBits]
    omega
  rw [branch_bits hlow, ofNat_lowBits]
  exact toInt_ofInt_of_range (n := 12) hlo hhi

/-- The word the second pass makes for a JAL. -/
theorem encoded_jal {name : String} {off : Int} (hr : (Form.jal rd name).InRange) (hlo : -1048576 ≤ off)
    (hhi : off < 1048576) (heven : off % 2 = 0) : Encoded (.jal rd name) off (jalWord off rd) := by
  have hp := packs_jal off hr
  have hdec := decode_jal hp.opcode
  rw [hp.rd, hp.immJ] at hdec
  refine ⟨hp.lt, _, hdec, toNat_reg hr, ?_⟩
  have hlow : lowBits off 21 % 2 = 0 := by
    rw [lowBits]
    omega
  rw [jal_bits hlow, ofNat_lowBits]
  exact toInt_ofInt_of_range (n := 20) hlo hhi

end Words

end Asm

end Pineapple
