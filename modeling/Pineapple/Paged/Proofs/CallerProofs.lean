import Pineapple.Paged.Proofs.RunProofs

/-!
# Proofs: the kinds of instructions of a caller

One step of the paged machine for each kind of instruction that the programs have, and for the end of a page.
-/

namespace Pineapple

open Rv32i (Instr Word Reg readReg writeReg)

namespace PState

variable (σ : PState)

/-- The next instruction of the page, with the register `rd` written. -/
def seq (rd : Reg) (v : Word) : PState := { σ with index := σ.index + 1, regs := writeReg σ.regs rd v }

/-- The instruction `l` of the page. -/
def jump (l : Nat) : PState := { σ with index := l }

/-- The next instruction of the page, after a store to GPIO_OUT. -/
def gpio (v : BitVec 8) : PState := { σ with index := σ.index + 1, mem := { σ.mem with gpio_out := v } }

end PState

namespace Paged

variable {P : List Page} {pg : Page} {σ : PState} {load : Nat → Arch → Instr → Word} {t : Nat}

section Step

variable (h : WellFormed P) (hn : P[σ.page]? = some pg)

include hn

/-- The end of a page. -/
theorem step_leave (hi : σ.index = pg.instrs.length) (ht : (pg.next σ).toNat < P.length) :
    step P load (t, σ) = some (t + 137 * (11 - pg.instrs.length), pg.leave σ) := by
  rw [step, hn, Option.bind_some]
  simp only [List.getElem?_eq_none_iff.mpr hi.ge, ht, if_true]

/-- An instruction that is allowed. -/
theorem step_caller {i : Instr} (hi : pg.instrs[σ.index]? = some i) (hal : σ.allowed i) :
    step P load (t, σ) = some (t + σ.arch.cycles i, σ.exec i (load t σ.arch i)) := by
  rw [step, hn, Option.bind_some]
  simp only [hi, hal, if_true]

include h

theorem index_lt {i : Instr} (hi : pg.instrs[σ.index]? = some i) : σ.index < 9 := by
  have := h.room hn
  have := (List.getElem?_eq_some_iff.mp hi).1
  omega

/-- An instruction that makes no data access. -/
theorem step_regs {i : Instr} (hi : pg.instrs[σ.index]? = some i) (hal : σ.allowed i) (hacc : σ.arch.access i = none)
    (hs : i.isStore = false) {l : Nat} (hl : l < 11) (hpc : (σ.arch.exec i (load t σ.arch i)).pc = windowAddr l) :
    step P load (t, σ) = some (t + 137, ⟨σ.page, l, (σ.arch.exec i (load t σ.arch i)).regs, σ.mem⟩) := by
  have hlt := index_lt h hn hi
  rw [step_caller hn hi hal, Arch.cycles_of_access _ hacc, fetchStall_arch (show σ.index < 11 by omega),
    PState.exec, hpc, windowIndex_windowAddr hl, Arch.exec_mem _ _ hs]
  rfl

theorem step_opImm {op : Rv32i.ImmOp} {rd rs1 : Reg} {imm : BitVec 12}
    (hi : pg.instrs[σ.index]? = some (.opImm op rd rs1 imm)) :
    step P load (t, σ) = some (t + 137, σ.seq rd (op.eval (readReg σ.regs rs1) (imm.signExtend 32))) := by
  have hlt := index_lt h hn hi
  rw [step_regs h hn (l := σ.index + 1) hi rfl rfl rfl (by omega), Arch.exec_opImm]
  · rfl
  · rw [Arch.exec_opImm]
    exact windowAddr_succ _

theorem step_shift {op : Rv32i.ShiftOp} {rd rs1 : Reg} {sh : BitVec 5}
    (hi : pg.instrs[σ.index]? = some (.shift op rd rs1 sh)) :
    step P load (t, σ) = some (t + 137, σ.seq rd (op.eval (readReg σ.regs rs1) sh)) := by
  have hlt := index_lt h hn hi
  rw [step_regs h hn (l := σ.index + 1) hi rfl rfl rfl (by omega), Arch.exec_shift]
  · rfl
  · rw [Arch.exec_shift]
    exact windowAddr_succ _

theorem step_opReg {op : Rv32i.RegOp} {rd rs1 rs2 : Reg} (hi : pg.instrs[σ.index]? = some (.opReg op rd rs1 rs2)) :
    step P load (t, σ) = some (t + 137, σ.seq rd (op.eval (readReg σ.regs rs1) (readReg σ.regs rs2))) := by
  have hlt := index_lt h hn hi
  rw [step_regs h hn (l := σ.index + 1) hi rfl rfl rfl (by omega), Arch.exec_opReg]
  · rfl
  · rw [Arch.exec_opReg]
    exact windowAddr_succ _

/-- A branch to the instruction `l`. -/
theorem step_branch {op : Rv32i.BranchOp} {rs1 rs2 : Reg} {j l : Nat} (hj : σ.index = j) (hl : l < 11)
    (hi : pg.instrs[j]? = some (.branch op rs1 rs2 (BitVec.ofInt 13 (4 * (l : Int) - 4 * j)))) :
    step P load (t, σ) = some (t + 137,
      σ.jump (if op.holds (readReg σ.regs rs1) (readReg σ.regs rs2) then l else j + 1)) := by
  subst hj
  have hlt := index_lt h hn hi
  rw [step_regs h hn (l := if op.holds (readReg σ.regs rs1) (readReg σ.regs rs2) then l else σ.index + 1)
    hi rfl rfl rfl (by split <;> omega), Arch.exec_branch]
  · rfl
  · rw [Arch.exec_branch]
    show (if _ then _ else _) = _
    by_cases hc : op.holds (readReg σ.regs rs1) (readReg σ.regs rs2) = true
    · rw [if_pos hc]
      exact (if_pos hc).trans (windowAddr_offset (by decide) _ _)
    · rw [if_neg hc]
      exact (if_neg hc).trans (windowAddr_succ _)

/-- A jump to the instruction `l`. -/
theorem step_jal {j l : Nat} (hj : σ.index = j) (hl : l < 11)
    (hi : pg.instrs[j]? = some (.jal 0 (BitVec.ofInt 21 (4 * (l : Int) - 4 * j)))) :
    step P load (t, σ) = some (t + 137, σ.jump l) := by
  subst hj
  rw [step_regs h hn hi rfl rfl rfl hl, Arch.exec_jal]
  · rfl
  · rw [Arch.exec_jal]
    exact windowAddr_offset (by decide) _ _

/-- A store to GPIO_OUT. -/
theorem step_gpio {op : Rv32i.StoreOp} {rs2 : Reg} (hi : pg.instrs[σ.index]? = some (.store op rs2 0 0xF0)) :
    step P load (t, σ) = some (t + 137, σ.gpio ((readReg σ.regs rs2).extractLsb' 0 8)) := by
  have hlt := index_lt h hn hi
  have haddr : (σ.arch.reg 0 + (0xF0 : BitVec 12).signExtend 32).setWidth 8 = (0xF0 : BitVec 8) := by
    rw [Arch.reg_x0]
    rfl
  have hstall : σ.arch.dataStall (.store op rs2 0 0xF0) = 0 := by
    show σ.arch.mem.stall ((σ.arch.reg 0 + (0xF0 : BitVec 12).signExtend 32).setWidth 8) _ = 0
    rw [haddr]
    rfl
  have hmem : σ.arch.mem.write 0xF0 (σ.arch.reg rs2) (sizeCode op.width) =
      { σ.arch.mem with gpio_out := (readReg σ.regs rs2).extractLsb' 0 8 } := rfl
  have hcyc : σ.arch.cycles (.store op rs2 0 0xF0) = 137 := by
    rw [Arch.cycles, hstall]
    exact fetchStall_arch (by omega)
  rw [step_caller hn hi (allowed_of_plain rfl σ), hcyc, PState.exec, Arch.exec_store, haddr, hmem]
  show some (t + 137, PState.mk σ.page (windowIndex (windowAddr σ.index + 4)) _ _) = _
  rw [windowAddr_succ, windowIndex_windowAddr (by omega)]
  rfl

end Step

end Paged

end Pineapple
