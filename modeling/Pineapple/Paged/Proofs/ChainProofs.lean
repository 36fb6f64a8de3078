import Pineapple.Paged.Proofs.StoreProofs

/-!
# Proofs: chains of instructions on a page

Each lemma puts one instruction of a page, or its end, in front of a path of which the observer sees nothing.
-/

namespace Pineapple

open Clocked
open Rv32i (Instr Word Reg readReg writeReg)

namespace Paged

/-- The observer sees nothing on page `n` from the instruction `k` on. -/
def Quiet {O : Type} (out : Nat × PState → List O) (n k : Nat) : Prop :=
  ∀ t j regs mem, k ≤ j → j ≤ 9 → out (t, ⟨n, j, regs, mem⟩) = []

variable {O : Type} {P : List Page} {load : Nat → Arch → Instr → Word} {out : Nat × PState → List O} {n k j : Nat}
  {pg : Page} {regs : Regs} {mem : MemRegs} {t : Nat} {c : Nat × PState}

/-- Without stores from the instruction `k` on nothing goes to GPIO_OUT. -/
theorem quiet_stores {flash : Bits.ByteMemory 14} (h : WellFormed P) (hold : Holds flash P) (hn : P[n]? = some pg)
    (hstore : (pg.instrs.drop k).all fun i => !i.isStore) : Quiet (fun c => gpioStores flash (c.1, c.2.arch)) n k := by
  intro t j regs mem hkj hj9
  by_cases hj : j < pg.instrs.length
  · have hi : pg.instrs[j]? = some pg.instrs[j] := List.getElem?_eq_getElem hj
    have hmem : pg.instrs[j] ∈ pg.instrs.drop k := by
      refine List.mem_of_getElem? (i := j - k) ?_
      rw [List.getElem?_drop, Nat.add_sub_cancel' hkj, hi]
    have hno := List.all_eq_true.mp hstore _ hmem
    exact (gpioStores_arch (σ := ⟨n, j, regs, mem⟩) hold hn (full_of_instrs hi) t).trans
      (gpioStore_of_isStore (by simpa using hno))
  · exact blind_gpioStores h hold t ⟨n, j, regs, mem⟩ pg hn (Nat.not_lt.mp hj) (show j < 11 by omega)

section Chain

variable (h : WellFormed P) (hn : P[n]? = some pg) (hq : Quiet out n k)

include h hn hq

theorem chain_step {i : Instr} {c' : Nat × PState} (hi : pg.instrs[j]? = some i) (hj : k ≤ j)
    (hs : step P load (t, ⟨n, j, regs, mem⟩) = some c') (rest : Silent (step P load) out c' c) :
    Silent (step P load) out (t, ⟨n, j, regs, mem⟩) c := by
  have hlt : j < 9 := index_lt (σ := ⟨n, j, regs, mem⟩) h hn hi
  exact .cons hs (hq t j regs mem hj (by omega)) rest

theorem chain_imm {op : Rv32i.ImmOp} {rd rs1 : Reg} {imm : BitVec 12} {v : Word}
    (hi : pg.instrs[j]? = some (.opImm op rd rs1 imm)) (hj : k ≤ j)
    (hv : op.eval (readReg regs rs1) (imm.signExtend 32) = v)
    (rest : Silent (step P load) out (t + 137, ⟨n, j + 1, writeReg regs rd v, mem⟩) c) :
    Silent (step P load) out (t, ⟨n, j, regs, mem⟩) c := by
  have hs : step P load (t, ⟨n, j, regs, mem⟩) = _ := step_opImm (σ := ⟨n, j, regs, mem⟩) h hn hi
  rw [hv] at hs
  exact chain_step h hn hq hi hj hs rest

theorem chain_reg {op : Rv32i.RegOp} {rd rs1 rs2 : Reg} {v : Word}
    (hi : pg.instrs[j]? = some (.opReg op rd rs1 rs2)) (hj : k ≤ j)
    (hv : op.eval (readReg regs rs1) (readReg regs rs2) = v)
    (rest : Silent (step P load) out (t + 137, ⟨n, j + 1, writeReg regs rd v, mem⟩) c) :
    Silent (step P load) out (t, ⟨n, j, regs, mem⟩) c := by
  have hs : step P load (t, ⟨n, j, regs, mem⟩) = _ := step_opReg (σ := ⟨n, j, regs, mem⟩) h hn hi
  rw [hv] at hs
  exact chain_step h hn hq hi hj hs rest

/-- A branch to the instruction `l`. -/
theorem chain_branch {op : Rv32i.BranchOp} {rs1 rs2 : Reg} {l : Nat} {b : Bool}
    (hi : pg.instrs[j]? = some (.branch op rs1 rs2 (BitVec.ofInt 13 (4 * (l : Int) - 4 * j)))) (hj : k ≤ j)
    (hl : l < 11) (hb : op.holds (readReg regs rs1) (readReg regs rs2) = b)
    (rest : Silent (step P load) out (t + 137, ⟨n, if b then l else j + 1, regs, mem⟩) c) :
    Silent (step P load) out (t, ⟨n, j, regs, mem⟩) c := by
  have hs : step P load (t, ⟨n, j, regs, mem⟩) = _ := step_branch (σ := ⟨n, j, regs, mem⟩) h hn rfl hl hi
  rw [hb] at hs
  exact chain_step h hn hq hi hj hs rest

/-- A jump to the instruction `l`. -/
theorem chain_jal {l : Nat} (hi : pg.instrs[j]? = some (.jal 0 (BitVec.ofInt 21 (4 * (l : Int) - 4 * j)))) (hj : k ≤ j)
    (hl : l < 11) (rest : Silent (step P load) out (t + 137, ⟨n, l, regs, mem⟩) c) :
    Silent (step P load) out (t, ⟨n, j, regs, mem⟩) c :=
  chain_step h hn hq hi hj (step_jal (σ := ⟨n, j, regs, mem⟩) h hn rfl hl hi) rest

/-- The end of the page, to the page `m`. -/
theorem chain_leave {m : Nat} (hlen : pg.instrs.length = j) (hj : k ≤ j) (hm : m < P.length)
    (ht : pg.ending.target n = some (m : Int))
    (rest : Silent (step P load) out
      (t + 137 * (11 - j), ⟨m, 0, writeReg regs pg.scratchReg (BitVec.ofNat 32 m), mem⟩) c) :
    Silent (step P load) out (t, ⟨n, j, regs, mem⟩) c := by
  have hroom := h.room hn
  have hcount := h.count
  have hnext : pg.next ⟨n, j, regs, mem⟩ = BitVec.ofNat 32 m := next_const ht (by omega)
  have hnat : (BitVec.ofNat 32 m).toNat = m := by
    rw [BitVec.toNat_ofNat]
    omega
  have hs : step P load (t, ⟨n, j, regs, mem⟩) = _ :=
    step_leave (σ := ⟨n, j, regs, mem⟩) hn hlen.symm (by rw [hnext, hnat]; exact hm)
  rw [hlen, Page.leave, hnext, hnat, if_pos (by rw [ht]; rfl)] at hs
  exact .cons hs (hq t j regs mem hj (by omega)) rest

/-- The end of the page, to the page whose number is in the scratch register. -/
theorem chain_leave_computed {m : Nat} (hlen : pg.instrs.length = j) (hj : k ≤ j) (hm : m < P.length)
    (ht : pg.ending.target n = none) (hx : readReg regs pg.scratchReg = BitVec.ofNat 32 m)
    (rest : Silent (step P load) out (t + 137 * (11 - j), ⟨m, 0, regs, mem⟩) c) :
    Silent (step P load) out (t, ⟨n, j, regs, mem⟩) c := by
  have hroom := h.room hn
  have hcount := h.count
  have hnext : pg.next ⟨n, j, regs, mem⟩ = BitVec.ofNat 32 m := by
    rw [Page.next, ht]
    exact hx
  have hnat : (BitVec.ofNat 32 m).toNat = m := by
    rw [BitVec.toNat_ofNat]
    omega
  have hs : step P load (t, ⟨n, j, regs, mem⟩) = _ :=
    step_leave (σ := ⟨n, j, regs, mem⟩) hn hlen.symm (by rw [hnext, hnat]; exact hm)
  rw [hlen, Page.leave, hnext, hnat, if_neg (by rw [ht]; simp)] at hs
  exact .cons hs (hq t j regs mem hj (by omega)) rest

end Chain

/-- A load from GPIO_IN. -/
theorem chain_gpio_in {rom : Rom} {inp : Nat → Inputs} (h : WellFormed P) (hn : P[n]? = some pg)
    (hq : Quiet out n k) {rd : Reg} (hi : pg.instrs[j]? = some (.load .lbu rd 0 0xF4)) (hj : k ≤ j)
    (rest : Silent (step P (Env.chip rom inp).load) out
      (t + 137, ⟨n, j + 1, writeReg regs rd ((inp (t + 136)).ui_in.setWidth 32), mem⟩) c) :
    Silent (step P (Env.chip rom inp).load) out (t, ⟨n, j, regs, mem⟩) c :=
  chain_step h hn hq hi hj (step_gpio_in (σ := ⟨n, j, regs, mem⟩) h hn hi) rest

end Paged

end Pineapple
