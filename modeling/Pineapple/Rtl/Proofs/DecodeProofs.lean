import Mathlib.Tactic.Common
import Mathlib.Tactic.IntervalCases
import Pineapple.Rtl.Instruction

/-!
# Proofs: the core's decode agrees with RV32I

For every word of the base set the combinational decode, ALU, branch condition and next-PC logic of
the core compute what the instruction says. The immediates of the core that are only 8 bits wide are
the low bytes of the architectural ones.
-/

namespace Pineapple

open Rv32i (Word Instr Hart readReg writeReg)

/-! ## Immediates -/

theorem imm_i_eq (w : Word) : Ir.imm_i w = (Rv32i.immI w).signExtend 32 := rfl

theorem imm_s_eq (w : Word) : Ir.imm_s w = (Rv32i.immS w).signExtend 32 := rfl

theorem imm_u_eq (w : Word) : Ir.imm_u w = Rv32i.immU w ++ 0#12 := rfl

/-- The low byte of a sign-extended immediate is its low byte. -/
theorem setWidth_signExtend_low {n : Nat} (v : BitVec n) (h : 8 ≤ n) :
    (v.signExtend 32).setWidth 8 = v.setWidth 8 := by
  apply BitVec.eq_of_getLsbD_eq
  intro i hi
  have h1 : i < 32 := by omega
  have h2 : i < n := by omega
  rw [BitVec.getLsbD_setWidth, BitVec.getLsbD_setWidth, BitVec.getLsbD_signExtend]
  simp [h1, h2]

theorem imm_b_eq (w : Word) : Ir.imm_b w = ((Rv32i.immB w).signExtend 32).setWidth 8 := by
  rw [setWidth_signExtend_low _ (by omega)]
  apply BitVec.eq_of_getLsbD_eq
  intro i hi
  rw [BitVec.getLsbD_setWidth]
  show (w.extractLsb' 25 3 ++ w.extractLsb' 8 4 ++ 0#1).getLsbD i = (decide (i < 8) &&
    (w.extractLsb' 31 1 ++ w.extractLsb' 7 1 ++ w.extractLsb' 25 6 ++ w.extractLsb' 8 4 ++
      0#1).getLsbD i)
  interval_cases i <;> simp only [BitVec.getLsbD_append, BitVec.getLsbD_extractLsb'] <;> rfl

theorem imm_j_eq (w : Word) : Ir.imm_j w = ((Rv32i.immJ w).signExtend 32).setWidth 8 := by
  rw [setWidth_signExtend_low _ (by omega)]
  apply BitVec.eq_of_getLsbD_eq
  intro i hi
  rw [BitVec.getLsbD_setWidth]
  show (w.extractLsb' 21 7 ++ 0#1).getLsbD i = (decide (i < 8) &&
    (w.extractLsb' 31 1 ++ w.extractLsb' 12 8 ++ w.extractLsb' 20 1 ++ w.extractLsb' 21 10 ++
      0#1).getLsbD i)
  interval_cases i <;> simp only [BitVec.getLsbD_append, BitVec.getLsbD_extractLsb'] <;> rfl

/-! ## Operand groups -/

variable (regs : Regs) (w : Word)

theorem rs1_val_eq : Ir.rs1_val w regs = readReg regs (Rv32i.rs1 w) := rfl

theorem rs2_val_eq : Ir.rs2_val w regs = readReg regs (Rv32i.rs2 w) := rfl

theorem branch_cond_eq {op : Rv32i.BranchOp} (h : Rv32i.decodeBranch (Rv32i.funct3 w) = some op) :
    Ir.branch_cond w regs = op.holds (readReg regs (Rv32i.rs1 w)) (readReg regs (Rv32i.rs2 w)) := by
  have hf : Ir.funct3 w = Rv32i.funct3 w := rfl
  unfold Ir.branch_cond
  rw [hf]
  generalize Rv32i.funct3 w = f at h
  unfold Rv32i.decodeBranch at h
  split at h <;> simp only [Option.some.injEq, reduceCtorEq] at h <;> subst h <;>
    simp [Rv32i.BranchOp.holds, rs1_val_eq, rs2_val_eq, BitVec.sle_eq_not_slt, BitVec.ule_eq_not_ult]

theorem load_value_eq {op : Rv32i.LoadOp} (h : Rv32i.decodeLoad (Rv32i.funct3 w) = some op)
    (d : Word) : Ir.load_value w d = op.extend d := by
  have hf : Ir.funct3 w = Rv32i.funct3 w := rfl
  unfold Ir.load_value
  rw [hf]
  generalize Rv32i.funct3 w = f at h
  unfold Rv32i.decodeLoad at h
  split at h <;> simp only [Option.some.injEq, reduceCtorEq] at h <;> subst h <;>
    simp [Rv32i.LoadOp.extend, BitVec.setWidth_eq_extractLsb']

/-- The shift amount field of a word. -/
theorem imm_i_shamt : (Ir.imm_i w).extractLsb' 0 5 = Rv32i.rs2 w := by
  apply BitVec.eq_of_getLsbD_eq
  intro i hi
  have h1 : i < 12 := by omega
  have h2 : i < 32 := by omega
  simp only [Ir.imm_i, Rv32i.rs2, BitVec.getLsbD_extractLsb', BitVec.getLsbD_signExtend]
  simp [hi, h1, h2]

/-- Bit 30 of a word is bit 5 of `funct7`. -/
theorem funct7_b5_eq : Ir.funct7_b5 w = (Rv32i.funct7 w).getLsbD 5 := by
  simp only [Ir.funct7_b5, Rv32i.funct7, BitVec.getLsbD_extractLsb']
  rfl

theorem alu_imm_eq {op : Rv32i.ImmOp} (ho : Ir.opcode w = OP_IMM)
    (h : Rv32i.decodeImm (Rv32i.funct3 w) = some op) :
    Ir.alu_y w regs =
      op.eval (readReg regs (Rv32i.rs1 w)) ((Rv32i.immI w).signExtend 32) := by
  have hf : Ir.funct3 w = Rv32i.funct3 w := rfl
  have hb : Ir.alu_b w regs = (Rv32i.immI w).signExtend 32 := by simp [Ir.alu_b, ho, imm_i_eq]
  simp only [Ir.alu_y, hb, Ir.alu_a, rs1_val_eq, Ir.alu_op, ho, ↓reduceIte, hf]
  generalize Rv32i.funct3 w = f at h
  unfold Rv32i.decodeImm at h
  split at h <;> simp only [Option.some.injEq, reduceCtorEq] at h <;> subst h <;>
    simp [alu, Rv32i.ImmOp.eval]

theorem alu_shift_eq {op : Rv32i.ShiftOp} (ho : Ir.opcode w = OP_IMM)
    (h : Rv32i.decodeShift (Rv32i.funct3 w) (Rv32i.funct7 w) = some op) :
    Ir.alu_y w regs = op.eval (readReg regs (Rv32i.rs1 w)) (Rv32i.rs2 w) := by
  have hf : Ir.funct3 w = Rv32i.funct3 w := rfl
  have hb : Ir.alu_b w regs = Ir.imm_i w := by simp [Ir.alu_b, ho]
  simp only [Ir.alu_y, hb, Ir.alu_a, rs1_val_eq, Ir.alu_op, ho, ↓reduceIte, hf, funct7_b5_eq]
  unfold Rv32i.decodeShift at h
  split_ifs at h with h1 h2 h3 <;> simp only [Option.some.injEq] at h <;> subst h
  · obtain ⟨h1, h1'⟩ := h1
    simp [h1, alu, Rv32i.ShiftOp.eval, imm_i_shamt]
  · obtain ⟨h2, h2'⟩ := h2
    simp [h2, h2', alu, Rv32i.ShiftOp.eval, imm_i_shamt]
  · obtain ⟨h3, h3'⟩ := h3
    simp [h3, h3', alu, Rv32i.ShiftOp.eval, BitVec.sshiftRight', imm_i_shamt]

theorem alu_reg_eq {op : Rv32i.RegOp} (ho : Ir.opcode w = OP_REG)
    (h : Rv32i.decodeReg (Rv32i.funct3 w) (Rv32i.funct7 w) = some op) :
    Ir.alu_y w regs =
      op.eval (readReg regs (Rv32i.rs1 w)) (readReg regs (Rv32i.rs2 w)) := by
  have hf : Ir.funct3 w = Rv32i.funct3 w := rfl
  have hb : Ir.alu_b w regs = readReg regs (Rv32i.rs2 w) := by
    simp [Ir.alu_b, ho, OP_REG, OP_IMM, OP_LOAD, OP_STORE, rs2_val_eq]
  have hi : ¬ OP_REG = OP_IMM := by decide
  simp only [Ir.alu_y, hb, Ir.alu_a, rs1_val_eq, Ir.alu_op, ho, hi, ↓reduceIte, hf, funct7_b5_eq]
  generalize Rv32i.funct3 w = f at h
  unfold Rv32i.decodeReg at h
  split_ifs at h with h0 h5
  · rw [h0]
    split at h <;> simp only [Option.some.injEq] at h <;> subst h <;>
      simp [alu, Rv32i.RegOp.eval]
  · rw [h5]
    split at h <;> simp only [Option.some.injEq, reduceCtorEq] at h <;> subst h <;>
      simp [alu, Rv32i.RegOp.eval, BitVec.sshiftRight']

theorem alu_load_eq (ho : Ir.opcode w = OP_LOAD) :
    Ir.alu_y w regs = readReg regs (Rv32i.rs1 w) + (Rv32i.immI w).signExtend 32 := by
  simp [Ir.alu_y, Ir.alu_op, Ir.alu_a, Ir.alu_b, ho, OP_LOAD, OP_IMM, OP_REG, alu, rs1_val_eq,
    imm_i_eq]

theorem alu_store_eq (ho : Ir.opcode w = OP_STORE) :
    Ir.alu_y w regs = readReg regs (Rv32i.rs1 w) + (Rv32i.immS w).signExtend 32 := by
  simp [Ir.alu_y, Ir.alu_op, Ir.alu_a, Ir.alu_b, ho, OP_STORE, OP_LOAD, OP_IMM, OP_REG, alu,
    rs1_val_eq, imm_s_eq]

/-! ## Whole instructions -/

/-- The word `w` encodes the instruction, by opcode class. -/
inductive Encodes (w : Word) : Instr → Prop where
  | lui (h : Ir.opcode w = OP_LUI) : Encodes w (.lui (Rv32i.rd w) (Rv32i.immU w))
  | auipc (h : Ir.opcode w = OP_AUIPC) : Encodes w (.auipc (Rv32i.rd w) (Rv32i.immU w))
  | jal (h : Ir.opcode w = OP_JAL) : Encodes w (.jal (Rv32i.rd w) (Rv32i.immJ w))
  | jalr (h : Ir.opcode w = OP_JALR) :
      Encodes w (.jalr (Rv32i.rd w) (Rv32i.rs1 w) (Rv32i.immI w))
  | branch (h : Ir.opcode w = OP_BRANCH) {op : Rv32i.BranchOp}
      (hop : Rv32i.decodeBranch (Rv32i.funct3 w) = some op) :
      Encodes w (.branch op (Rv32i.rs1 w) (Rv32i.rs2 w) (Rv32i.immB w))
  | load (h : Ir.opcode w = OP_LOAD) {op : Rv32i.LoadOp}
      (hop : Rv32i.decodeLoad (Rv32i.funct3 w) = some op) :
      Encodes w (.load op (Rv32i.rd w) (Rv32i.rs1 w) (Rv32i.immI w))
  | store (h : Ir.opcode w = OP_STORE) {op : Rv32i.StoreOp}
      (hop : Rv32i.decodeStore (Rv32i.funct3 w) = some op) :
      Encodes w (.store op (Rv32i.rs2 w) (Rv32i.rs1 w) (Rv32i.immS w))
  | shift (h : Ir.opcode w = OP_IMM) {op : Rv32i.ShiftOp}
      (hop : Rv32i.decodeShift (Rv32i.funct3 w) (Rv32i.funct7 w) = some op) :
      Encodes w (.shift op (Rv32i.rd w) (Rv32i.rs1 w) (Rv32i.rs2 w))
  | opImm (h : Ir.opcode w = OP_IMM) {op : Rv32i.ImmOp}
      (hop : Rv32i.decodeImm (Rv32i.funct3 w) = some op) :
      Encodes w (.opImm op (Rv32i.rd w) (Rv32i.rs1 w) (Rv32i.immI w))
  | opReg (h : Ir.opcode w = OP_REG) {op : Rv32i.RegOp}
      (hop : Rv32i.decodeReg (Rv32i.funct3 w) (Rv32i.funct7 w) = some op) :
      Encodes w (.opReg op (Rv32i.rd w) (Rv32i.rs1 w) (Rv32i.rs2 w))
  | fence (h : Ir.opcode w = 0b0001111) : Encodes w .fence
  | ecall (h : Ir.opcode w = 0b1110011) : Encodes w .ecall
  | ebreak (h : Ir.opcode w = 0b1110011) : Encodes w .ebreak

theorem encodes_of_decode {i : Instr} (h : Rv32i.decode w = some i) : Encodes w i := by
  unfold Rv32i.decode at h
  by_cases hc : Rv32i.opcode w = 0b0110111
  · rw [if_pos hc] at h
    cases h; exact .lui hc
  rw [if_neg hc] at h; clear hc
  by_cases hc : Rv32i.opcode w = 0b0010111
  · rw [if_pos hc] at h
    cases h; exact .auipc hc
  rw [if_neg hc] at h; clear hc
  by_cases hc : Rv32i.opcode w = 0b1101111
  · rw [if_pos hc] at h
    cases h; exact .jal hc
  rw [if_neg hc] at h; clear hc
  by_cases hc : Rv32i.opcode w = 0b1100111
  · rw [if_pos hc] at h
    split at h
    · cases h; exact .jalr hc
    · cases h
  rw [if_neg hc] at h; clear hc
  by_cases hc : Rv32i.opcode w = 0b1100011
  · rw [if_pos hc] at h
    obtain ⟨op, hop, rfl⟩ := Option.map_eq_some_iff.mp h; exact .branch hc hop
  rw [if_neg hc] at h; clear hc
  by_cases hc : Rv32i.opcode w = 0b0000011
  · rw [if_pos hc] at h
    obtain ⟨op, hop, rfl⟩ := Option.map_eq_some_iff.mp h; exact .load hc hop
  rw [if_neg hc] at h; clear hc
  by_cases hc : Rv32i.opcode w = 0b0100011
  · rw [if_pos hc] at h
    obtain ⟨op, hop, rfl⟩ := Option.map_eq_some_iff.mp h; exact .store hc hop
  rw [if_neg hc] at h; clear hc
  by_cases hc : Rv32i.opcode w = 0b0010011
  · rw [if_pos hc] at h
    split at h
    · obtain ⟨op, hop, rfl⟩ := Option.map_eq_some_iff.mp h; exact .shift hc hop
    · obtain ⟨op, hop, rfl⟩ := Option.map_eq_some_iff.mp h; exact .opImm hc hop
  rw [if_neg hc] at h; clear hc
  by_cases hc : Rv32i.opcode w = 0b0110011
  · rw [if_pos hc] at h
    obtain ⟨op, hop, rfl⟩ := Option.map_eq_some_iff.mp h; exact .opReg hc hop
  rw [if_neg hc] at h; clear hc
  by_cases hc : Rv32i.opcode w = 0b0001111
  · rw [if_pos hc] at h
    split at h
    · cases h; exact .fence hc
    · cases h
  rw [if_neg hc] at h; clear hc
  split at h
  · rename_i hw; cases h; exact .ecall (by rw [hw]; rfl)
  split at h
  · rename_i hw; cases h; exact .ebreak (by rw [hw]; rfl)
  · cases h

/-- The low byte of a sum is the sum of the low bytes. -/
theorem low_add (a b : Word) : (a + b).setWidth 8 = a.setWidth 8 + b.setWidth 8 :=
  BitVec.setWidth_add a b (by omega)

theorem low_pc (pc : BitVec 8) : (pc.setWidth 32).setWidth 8 = pc := by
  apply BitVec.eq_of_toNat_eq
  simp

theorem next_pc_eq {i : Instr} (h : Rv32i.decode w = some i) (pc : BitVec 8) :
    Ir.next_pc w regs pc = (i.nextPc (readReg regs) (pc.setWidth 32)).setWidth 8 := by
  have h4 : ((pc.setWidth 32 : Word) + 4).setWidth 8 = pc + 4 := by
    rw [low_add, low_pc]; rfl
  cases encodes_of_decode w h with
  | jal ho => simp [Ir.next_pc, ho, Instr.nextPc, low_add, imm_j_eq]
  | jalr ho =>
    have hlow : ∀ v : Word, v.extractLsb' 0 8 = v.setWidth 8 := fun v =>
      (BitVec.setWidth_eq_extractLsb' (by omega)).symm
    have hmask : (~~~(1 : Word)).setWidth 8 = 0xFE := rfl
    have hne : ¬ OP_JALR = OP_JAL := by decide
    simp only [Ir.next_pc, ho, hne, Instr.nextPc, ↓reduceIte, hlow, BitVec.setWidth_and, hmask,
      low_add, rs1_val_eq, imm_i_eq]
  | branch ho hop =>
    have h1 : ¬ OP_BRANCH = OP_JAL := by decide
    have h2 : ¬ OP_BRANCH = OP_JALR := by decide
    simp only [Ir.next_pc, ho, h1, h2, Instr.nextPc, branch_cond_eq regs w hop, ↓reduceIte]
    split
    · rw [low_add, low_pc, imm_b_eq]
    · rw [h4]
  | lui ho | auipc ho | load ho | store ho | shift ho | opImm ho | opReg ho | fence ho | ecall ho
  | ebreak ho =>
    rw [Instr.nextPc, h4]
    · simp [Ir.next_pc, ho, OP_JAL, OP_JALR, OP_BRANCH, OP_LUI, OP_AUIPC, OP_LOAD, OP_STORE,
        OP_IMM, OP_REG]
    all_goals simp

/-- The register file after write-back, as a write of one value. -/
theorem update_rd (v : Word) :
    (if Ir.rd w ≠ 0 then Function.update regs (Ir.rd w) v else regs) =
      writeReg regs (Rv32i.rd w) v := by
  have hrd : Ir.rd w = Rv32i.rd w := rfl
  by_cases h0 : Rv32i.rd w = 0 <;> simp [writeReg, hrd, h0]

theorem writeback_eq {i : Instr} (h : Rv32i.decode w = some i) (pc : BitVec 8) (d : Word) :
    Ir.writeback w regs pc (Ir.alu_y w regs) d = (i.exec ⟨pc, regs⟩ d).regs := by
  cases encodes_of_decode w h with
  | lui ho =>
    refine Eq.trans ?_ (update_rd regs w _)
    simp [Ir.writeback, ho, imm_u_eq]
  | auipc ho =>
    refine Eq.trans ?_ (update_rd regs w _)
    simp [Ir.writeback, ho, imm_u_eq, OP_LUI, OP_AUIPC]
  | jal ho =>
    refine Eq.trans ?_ (update_rd regs w _)
    simp [Ir.writeback, ho, OP_LUI, OP_AUIPC, OP_JAL]
  | jalr ho =>
    refine Eq.trans ?_ (update_rd regs w _)
    simp [Ir.writeback, ho, OP_LUI, OP_AUIPC, OP_JAL, OP_JALR]
  | load ho hop =>
    refine Eq.trans ?_ (update_rd regs w _)
    rw [← load_value_eq w hop]
    simp [Ir.writeback, ho, OP_LUI, OP_AUIPC, OP_JAL, OP_JALR, OP_LOAD]
  | shift ho hop =>
    refine Eq.trans ?_ (update_rd regs w _)
    rw [← alu_shift_eq regs w ho hop]
    simp [Ir.writeback, ho, OP_LUI, OP_AUIPC, OP_JAL, OP_JALR, OP_LOAD, OP_IMM]
  | opImm ho hop =>
    refine Eq.trans ?_ (update_rd regs w _)
    rw [← alu_imm_eq regs w ho hop]
    simp [Ir.writeback, ho, OP_LUI, OP_AUIPC, OP_JAL, OP_JALR, OP_LOAD, OP_IMM]
  | opReg ho hop =>
    refine Eq.trans ?_ (update_rd regs w _)
    rw [← alu_reg_eq regs w ho hop]
    simp [Ir.writeback, ho, OP_LUI, OP_AUIPC, OP_JAL, OP_JALR, OP_LOAD, OP_IMM, OP_REG]
  | branch ho hop =>
    simp [Instr.exec, Instr.result, Ir.writeback, ho, OP_LUI, OP_AUIPC, OP_JAL, OP_JALR, OP_LOAD,
      OP_IMM, OP_REG, OP_BRANCH]
  | store ho hop =>
    simp [Instr.exec, Instr.result, Ir.writeback, ho, OP_LUI, OP_AUIPC, OP_JAL, OP_JALR, OP_LOAD,
      OP_IMM, OP_REG, OP_STORE]
  | fence ho | ecall ho | ebreak ho =>
    simp [Instr.exec, Instr.result, Ir.writeback, ho, OP_LUI, OP_AUIPC, OP_JAL, OP_JALR, OP_LOAD,
      OP_IMM, OP_REG]

/-! ## The data access -/

/-- What `ST_MEM` drives for the access of an instruction. -/
structure Drives (a : Rv32i.Access) : Prop where
  addr : (Ir.alu_y w regs).extractLsb' 0 8 = a.addr.setWidth 8
  size : Ir.access_size w = sizeCode a.width
  data : ∀ v, a.data = some v → Ir.rs2_val w regs = v

theorem access_size_load {op : Rv32i.LoadOp} (h : Rv32i.decodeLoad (Rv32i.funct3 w) = some op) :
    Ir.access_size w = sizeCode op.width := by
  have hf : Ir.funct3 w = Rv32i.funct3 w := rfl
  unfold Ir.access_size
  rw [hf]
  generalize Rv32i.funct3 w = f at h
  unfold Rv32i.decodeLoad at h
  split at h <;> simp only [Option.some.injEq, reduceCtorEq] at h <;> subst h <;> rfl

theorem access_size_store {op : Rv32i.StoreOp} (h : Rv32i.decodeStore (Rv32i.funct3 w) = some op) :
    Ir.access_size w = sizeCode op.width := by
  have hf : Ir.funct3 w = Rv32i.funct3 w := rfl
  unfold Ir.access_size
  rw [hf]
  generalize Rv32i.funct3 w = f at h
  unfold Rv32i.decodeStore at h
  split at h <;> simp only [Option.some.injEq, reduceCtorEq] at h <;> subst h <;> rfl

/-- The opcode selects the kind of access: a load, a store or none. -/
theorem access_cases {i : Instr} (h : Rv32i.decode w = some i) :
    (Ir.opcode w = OP_LOAD ∧ ∃ a, i.access (readReg regs) = some a ∧ a.data = none ∧
      Drives regs w a) ∨
    (Ir.opcode w = OP_STORE ∧ ∃ a v, i.access (readReg regs) = some a ∧ a.data = some v ∧
      Drives regs w a) ∨
    (Ir.opcode w ≠ OP_LOAD ∧ Ir.opcode w ≠ OP_STORE ∧ i.access (readReg regs) = none) := by
  cases encodes_of_decode w h with
  | load ho hop =>
    refine .inl ⟨ho, _, rfl, rfl, ?_, access_size_load w hop, by simp⟩
    rw [alu_load_eq regs w ho]
    exact (BitVec.setWidth_eq_extractLsb' (by omega)).symm
  | store ho hop =>
    refine .inr (.inl ⟨ho, _, _, rfl, rfl, ?_, access_size_store w hop, ?_⟩)
    · rw [alu_store_eq regs w ho]
      exact (BitVec.setWidth_eq_extractLsb' (by omega)).symm
    · intro v hv
      exact Option.some.inj hv
  | _ ho => refine .inr (.inr ⟨?_, ?_, rfl⟩) <;> rw [ho] <;> decide

end Pineapple
