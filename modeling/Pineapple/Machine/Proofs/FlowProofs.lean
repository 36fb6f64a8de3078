import Pineapple.Machine.Proofs.ExecProofs

/-!
# Proofs: what an instruction cannot do

Which register an instruction writes, where it can go on, and that only a store has data. These are facts of
the instruction alone, so for a fixed program they are checked by evaluation.
-/

namespace Rv32i.Instr

/-- The register an instruction writes. -/
def dest : Instr → Option Reg
  | .lui rd _ | .auipc rd _ | .jal rd _ | .jalr rd _ _ => some rd
  | .load _ rd _ _ | .opImm _ rd _ _ | .shift _ rd _ _ | .opReg _ rd _ _ => some rd
  | _ => none

/-- The program counters after an instruction at `pc`; none is listed for a JALR. -/
def succs (pc : BitVec 8) : Instr → List (BitVec 8)
  | .jal _ off => [pc + off.setWidth 8]
  | .branch _ _ _ off => [pc + off.setWidth 8, pc + 4]
  | .jalr _ _ _ => []
  | _ => [pc + 4]

def isJalr : Instr → Bool
  | .jalr _ _ _ => true
  | _ => false

def isStore : Instr → Bool
  | .store _ _ _ _ => true
  | _ => false

end Rv32i.Instr

namespace Pineapple

open Rv32i (Instr Word Reg readReg writeReg)

theorem readReg_writeReg {x : Reg → Word} {r : Reg} (h : r ≠ 0) (v : Word) : readReg (writeReg x r v) r = v := by
  rw [readReg, if_neg h, writeReg, if_neg h, Function.update_self]

theorem readReg_writeReg_ne {x : Reg → Word} {r r' : Reg} (h : r' ≠ r) (v : Word) :
    readReg (writeReg x r v) r' = readReg x r' := by
  unfold readReg writeReg
  split
  · rfl
  · split
    · rfl
    · rw [Function.update_of_ne h]

namespace Arch

variable (a : Arch) {i : Instr} (d : Word)

theorem exec_pc_mem (hi : i.isJalr = false) : (a.exec i d).pc ∈ i.succs a.pc := by
  have hseq : ((a.pc.setWidth 32 : Word) + 4).setWidth 8 = a.pc + 4 := next_pc a.pc
  cases i with
  | jal rd off =>
    rw [exec_jal]
    exact List.mem_singleton.mpr rfl
  | branch op rs1 rs2 off =>
    rw [exec_branch, pc_goto]
    split
    · exact List.mem_cons_self
    · exact List.mem_cons_of_mem _ List.mem_cons_self
  | jalr rd rs1 imm => cases hi
  | _ => exact List.mem_singleton.mpr hseq

theorem exec_reg {r : Reg} (hr : i.dest ≠ some r) : (a.exec i d).reg r = a.reg r := by
  have hne : ∀ {rd : Reg}, i.dest = some rd → r ≠ rd := fun h e => hr (e ▸ h)
  cases i with
  | store | branch | fence | ecall | ebreak => rfl
  | _ => exact readReg_writeReg_ne (hne rfl) _

theorem exec_mem (hi : i.isStore = false) : (a.exec i d).mem = a.mem := by
  cases i with
  | store op rs2 rs1 imm => cases hi
  | _ => rfl

variable {a} {d}

/-- Only a store has data. -/
theorem isStore_of_data {acc : Rv32i.Access} {v : Word} (ha : a.access i = some acc)
    (hv : acc.data = some v) : i.isStore = true := by
  cases i with
  | store op rs2 rs1 imm => rfl
  | load op rd rs1 imm =>
    cases ha
    cases hv
  | _ => cases ha

end Arch

end Pineapple
