import Mathlib.Tactic.Common
import Pineapple.Machine.Env
import Pineapple.Rtl.Proofs.DecodeProofs
import Pineapple.Rtl.Proofs.MemProofs

/-!
# Proofs: one instruction as register writes and jumps

The effect of each kind of instruction in terms of `setReg`, `setMem` and `goto`, and what a register
read finds after them.
-/

namespace Pineapple

open Rv32i (Instr Word Reg readReg writeReg)

/-! ## Counters -/

theorem decrement {v : Word} {n k : Nat} (hv : v = BitVec.ofNat 32 n) (hn : n = k + 1) :
    v + (0xFFF : BitVec 12).signExtend 32 = BitVec.ofNat 32 k := by
  have hm1 : (0xFFF : BitVec 12).signExtend 32 = BitVec.ofNat 32 (2 ^ 32 - 1) := by decide
  rw [hv, hn, hm1, ← BitVec.ofNat_add]
  apply BitVec.eq_of_toNat_eq
  rw [BitVec.toNat_ofNat, BitVec.toNat_ofNat]
  omega

theorem increment {v : Word} {n : Nat} (hv : v = BitVec.ofNat 32 n) :
    v + (1 : BitVec 12).signExtend 32 = BitVec.ofNat 32 (n + 1) := by
  rw [hv, BitVec.ofNat_add]
  rfl

namespace Arch

variable (a : Arch) (r r' : Reg) (v : Word) (pc : BitVec 8) (m : MemRegs)

@[simp] theorem pc_goto : (a.goto pc).pc = pc := rfl
@[simp] theorem mem_goto : (a.goto pc).mem = a.mem := rfl
@[simp] theorem reg_goto : (a.goto pc).reg r = a.reg r := rfl
@[simp] theorem pc_setReg : (a.setReg r v).pc = a.pc := rfl
@[simp] theorem mem_setReg : (a.setReg r v).mem = a.mem := rfl
@[simp] theorem pc_setMem : (a.setMem m).pc = a.pc := rfl
@[simp] theorem mem_setMem : (a.setMem m).mem = m := rfl
@[simp] theorem reg_setMem : (a.setMem m).reg r = a.reg r := rfl

@[simp] theorem reg_zero : a.reg 0#5 = 0#32 := rfl

/-- A register read after a register write. -/
theorem reg_setReg :
    (a.setReg r v).reg r' = if r' = r ∧ r ≠ 0#5 then v else a.reg r' := by
  show (if r' = 0 then 0 else writeReg a.regs r v r') = _
  unfold writeReg
  by_cases h0 : r' = 0
  · rw [if_pos h0, if_neg (fun h => h.2 (h.1 ▸ h0)), h0]
    rfl
  · rw [if_neg h0]
    by_cases hr : r = 0
    · rw [if_pos hr, if_neg (fun h => h.2 hr)]
      exact (if_neg h0).symm
    · rw [if_neg hr]
      by_cases he : r' = r
      · rw [if_pos ⟨he, hr⟩, he, Function.update_self]
      · rw [if_neg (fun h => he h.1), Function.update_of_ne he]
        exact (if_neg h0).symm

@[simp] theorem reg_x0 : a.reg 0 = 0#32 := rfl

variable {r r'} in
@[simp] theorem reg_setReg_self (h : r ≠ 0#5) : (a.setReg r v).reg r = v := by
  rw [reg_setReg, if_pos ⟨rfl, h⟩]

variable {r r'} in
@[simp] theorem reg_setReg_ne (h : r' ≠ r) : (a.setReg r v).reg r' = a.reg r' := by
  rw [reg_setReg, if_neg fun h' => h h'.1]

@[simp] theorem setReg_setReg (v' : Word) : (a.setReg r v).setReg r v' = a.setReg r v' := by
  unfold setReg writeReg
  split
  · rfl
  · rw [Function.update_idem]

@[simp] theorem setReg_goto : (a.goto pc).setReg r v = (a.setReg r v).goto pc := rfl

@[simp] theorem setMem_goto : (a.goto pc).setMem m = (a.setMem m).goto pc := rfl

@[simp] theorem goto_goto (pc' : BitVec 8) : (a.goto pc).goto pc' = a.goto pc' := rfl

/-- `a'` differs from `a` at most in the program counter and in the registers `rs`. -/
structure Frame (a a' : Arch) (rs : List Reg) : Prop where
  mem : a'.mem = a.mem
  reg : ∀ r ∉ rs, a'.reg r = a.reg r

variable {a} in
theorem Frame.trans {a' a'' : Arch} {rs : List Reg} (h : Frame a a' rs) (h' : Frame a' a'' rs) :
    Frame a a'' rs :=
  ⟨h'.mem.trans h.mem, fun r hr => (h'.reg r hr).trans (h.reg r hr)⟩

variable {a} in
theorem Frame.mono {a' : Arch} {rs rs' : List Reg} (h : Frame a a' rs) (hsub : rs ⊆ rs') :
    Frame a a' rs' :=
  ⟨h.mem, fun r hr => h.reg r fun hm => hr (hsub hm)⟩

/-! ## The kinds of instructions -/

theorem next_pc (pc : BitVec 8) : ((pc.setWidth 32 : Word) + 4).setWidth 8 = pc + 4 := by
  rw [low_add, low_pc]
  rfl

/-- The low byte of a jump or branch target. -/
theorem target_pc {n : Nat} (pc : BitVec 8) (off : BitVec n) (hn : 8 ≤ n) :
    ((pc.setWidth 32 : Word) + off.signExtend 32).setWidth 8 = pc + off.setWidth 8 := by
  rw [low_add, low_pc, setWidth_signExtend_low off hn]

variable (d : Word)

theorem exec_opImm (op : Rv32i.ImmOp) (rd rs1 : Reg) (imm : BitVec 12) :
    a.exec (.opImm op rd rs1 imm) d =
      (a.setReg rd (op.eval (a.reg rs1) (imm.signExtend 32))).goto (a.pc + 4) := by
  rw [← next_pc]
  rfl

theorem exec_shift (op : Rv32i.ShiftOp) (rd rs1 : Reg) (shamt : BitVec 5) :
    a.exec (.shift op rd rs1 shamt) d =
      (a.setReg rd (op.eval (a.reg rs1) shamt)).goto (a.pc + 4) := by
  rw [← next_pc]
  rfl

theorem exec_opReg (op : Rv32i.RegOp) (rd rs1 rs2 : Reg) :
    a.exec (.opReg op rd rs1 rs2) d =
      (a.setReg rd (op.eval (a.reg rs1) (a.reg rs2))).goto (a.pc + 4) := by
  rw [← next_pc]
  rfl

theorem exec_load (op : Rv32i.LoadOp) (rd rs1 : Reg) (imm : BitVec 12) :
    a.exec (.load op rd rs1 imm) d = (a.setReg rd (op.extend d)).goto (a.pc + 4) := by
  rw [← next_pc]
  rfl

theorem exec_store (op : Rv32i.StoreOp) (rs2 rs1 : Reg) (imm : BitVec 12) :
    a.exec (.store op rs2 rs1 imm) d =
      (a.setMem (a.mem.write ((a.reg rs1 + imm.signExtend 32).setWidth 8) (a.reg rs2)
        (sizeCode op.width))).goto (a.pc + 4) := by
  rw [← next_pc]
  rfl

theorem exec_branch (op : Rv32i.BranchOp) (rs1 rs2 : Reg) (off : BitVec 13) :
    a.exec (.branch op rs1 rs2 off) d =
      a.goto (if op.holds (a.reg rs1) (a.reg rs2) then a.pc + off.setWidth 8 else a.pc + 4) := by
  rw [← next_pc, ← target_pc a.pc off (by omega)]
  show Arch.mk ⟨BitVec.setWidth 8 (if _ then _ else _), _⟩ _ = _
  rw [apply_ite (BitVec.setWidth 8)]
  rfl

theorem exec_jal (rd : Reg) (off : BitVec 21) :
    a.exec (.jal rd off) d =
      (a.setReg rd (a.pc.setWidth 32 + 4)).goto (a.pc + off.setWidth 8) := by
  rw [← target_pc a.pc off (by omega)]
  rfl

theorem exec_jalr (rd rs1 : Reg) (imm : BitVec 12) :
    a.exec (.jalr rd rs1 imm) d =
      (a.setReg rd (a.pc.setWidth 32 + 4)).goto
        (((a.reg rs1 + imm.signExtend 32) &&& ~~~1).setWidth 8) := rfl

/-! ## Stalls -/

theorem stall_eq_zero {addr : BitVec 8} {size : BitVec 2} (h : ¬ m.External addr) :
    m.stall addr size = 0 := if_neg h

/-- A fetch from the ROM does not wait. -/
theorem fetchStall_rom (h : a.pc.toNat < 0xB0) : a.fetchStall = 0 := by
  apply stall_eq_zero
  rintro (h' | h')
  · unfold MemRegs.InPsram at h'
    omega
  · unfold MemRegs.InFlash at h'
    omega

/-- A fetch from the flash takes a word read. -/
theorem fetchStall_flash (h : a.mem.InFlash a.pc) : a.fetchStall = 130 := if_pos (.inr h)

theorem cycles_of_access {i : Instr} (h : a.access i = none) : a.cycles i = a.fetchStall + 7 := by
  rw [cycles, dataStall, h]
  rfl

end Arch

/-! ## Steps of an environment -/

namespace Env

variable {e : Env} {t n : Nat} {a : Arch}

theorem step_eq {i : Instr} (hi : e.instr t a = some i) :
    e.step (t, a) = some (t + a.cycles i, a.exec i (e.load t a i)) := by
  rw [step, hi]
  rfl

section Steps

variable (hn : a.fetchStall + 7 = n)

include hn

theorem step_opImm {op : Rv32i.ImmOp} {rd rs1 : Reg} {imm : BitVec 12}
    (hi : e.instr t a = some (.opImm op rd rs1 imm)) :
    e.step (t, a) =
      some (t + n, (a.setReg rd (op.eval (a.reg rs1) (imm.signExtend 32))).goto (a.pc + 4)) := by
  rw [step_eq hi, Arch.cycles_of_access _ rfl, hn, Arch.exec_opImm]

theorem step_shift {op : Rv32i.ShiftOp} {rd rs1 : Reg} {shamt : BitVec 5}
    (hi : e.instr t a = some (.shift op rd rs1 shamt)) :
    e.step (t, a) = some (t + n, (a.setReg rd (op.eval (a.reg rs1) shamt)).goto (a.pc + 4)) := by
  rw [step_eq hi, Arch.cycles_of_access _ rfl, hn, Arch.exec_shift]

theorem step_opReg {op : Rv32i.RegOp} {rd rs1 rs2 : Reg}
    (hi : e.instr t a = some (.opReg op rd rs1 rs2)) :
    e.step (t, a) = some (t + n, (a.setReg rd (op.eval (a.reg rs1) (a.reg rs2))).goto (a.pc + 4)) := by
  rw [step_eq hi, Arch.cycles_of_access _ rfl, hn, Arch.exec_opReg]

theorem step_branch {op : Rv32i.BranchOp} {rs1 rs2 : Reg} {off : BitVec 13}
    (hi : e.instr t a = some (.branch op rs1 rs2 off)) :
    e.step (t, a) = some (t + n,
      a.goto (if op.holds (a.reg rs1) (a.reg rs2) then a.pc + off.setWidth 8 else a.pc + 4)) := by
  rw [step_eq hi, Arch.cycles_of_access _ rfl, hn, Arch.exec_branch]

theorem step_jal {rd : Reg} {off : BitVec 21} (hi : e.instr t a = some (.jal rd off)) :
    e.step (t, a) =
      some (t + n, (a.setReg rd (a.pc.setWidth 32 + 4)).goto (a.pc + off.setWidth 8)) := by
  rw [step_eq hi, Arch.cycles_of_access _ rfl, hn, Arch.exec_jal]

theorem step_jalr {rd rs1 : Reg} {imm : BitVec 12} (hi : e.instr t a = some (.jalr rd rs1 imm)) :
    e.step (t, a) = some (t + n, (a.setReg rd (a.pc.setWidth 32 + 4)).goto
      (((a.reg rs1 + imm.signExtend 32) &&& ~~~1).setWidth 8)) := by
  rw [step_eq hi, Arch.cycles_of_access _ rfl, hn, Arch.exec_jalr]

/-- A load, with the stall `k` of its address. -/
theorem step_load {op : Rv32i.LoadOp} {rd rs1 : Reg} {imm : BitVec 12} {k : Nat}
    (hi : e.instr t a = some (.load op rd rs1 imm))
    (hk : a.mem.stall ((a.reg rs1 + imm.signExtend 32).setWidth 8) (sizeCode op.width) = k) :
    e.step (t, a) = some (t + (n + k),
      (a.setReg rd (op.extend (e.load t a (.load op rd rs1 imm)))).goto (a.pc + 4)) := by
  have hd : a.dataStall (.load op rd rs1 imm) = k := hk
  have hc : a.cycles (.load op rd rs1 imm) = n + k := by
    rw [Arch.cycles, hd, ← hn]
    omega
  rw [step_eq hi, hc, Arch.exec_load]

/-- A store, with the stall `k` of its address. -/
theorem step_store {op : Rv32i.StoreOp} {rs2 rs1 : Reg} {imm : BitVec 12} {k : Nat}
    (hi : e.instr t a = some (.store op rs2 rs1 imm))
    (hk : a.mem.stall ((a.reg rs1 + imm.signExtend 32).setWidth 8) (sizeCode op.width) = k) :
    e.step (t, a) = some (t + (n + k), (a.setMem (a.mem.write
      ((a.reg rs1 + imm.signExtend 32).setWidth 8) (a.reg rs2) (sizeCode op.width))).goto
        (a.pc + 4)) := by
  have hd : a.dataStall (.store op rs2 rs1 imm) = k := hk
  have hc : a.cycles (.store op rs2 rs1 imm) = n + k := by
    rw [Arch.cycles, hd, ← hn]
    omega
  rw [step_eq hi, hc, Arch.exec_store]

end Steps

end Env

end Pineapple
