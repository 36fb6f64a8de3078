import Mathlib.Tactic.Common
import Pineapple.Clocked.Trace
import Pineapple.Rtl.Instruction
import Pineapple.Rtl.Proofs.DecodeProofs

/-!
# Proofs: the core refines RV32I

The registers of the core in every cycle of an instruction in closed form, one definition for each
state of the FSM; the waits only repeat `fetchWaitState` and `memWaitState`.
-/

namespace Pineapple

open Rv32i (Instr Hart readReg)

namespace Core

section ClosedForm

variable (c : Core) (w d : BitVec 32)

/-- `ST_FETCH_WAIT` after the fetch from `c`. -/
def fetchWaitState : Core :=
  { c with
    mem_addr := c.pc
    mem_we := false
    mem_size := 2
    mem_valid := true
    state := .fetchWait }

/-- `ST_DECODE`. -/
def decodeState : Core := { c.fetchWaitState with mem_valid := false, state := .decode }

/-- `ST_EXEC`, with the fetched word latched. -/
def execState : Core := { c.decodeState with ir := w, state := .exec }

/-- `ST_MEM`. -/
def memState : Core :=
  { c.execState w with
    alu_result := Ir.alu_y w c.regs
    next_pc := Ir.next_pc w c.regs c.pc
    state := .mem }

/-- The word is a load or a store, so `ST_MEM` raises `mem_valid`. -/
def accesses : Bool := Ir.opcode w = OP_LOAD ∨ Ir.opcode w = OP_STORE

/-- `ST_MEM_WAIT`, with the data access on the bus. -/
def memWaitState : Core :=
  { c.memState w with
    mem_addr := if accesses w then (Ir.alu_y w c.regs).extractLsb' 0 8 else c.pc
    mem_wdata := if Ir.opcode w = OP_STORE then Ir.rs2_val w c.regs else c.mem_wdata
    mem_size := if accesses w then Ir.access_size w else 2
    mem_we := decide (Ir.opcode w = OP_STORE)
    mem_valid := accesses w
    state := .memWait }

/-- `ST_WB`. -/
def wbState : Core := { c.memWaitState w with mem_valid := false, mem_we := false, state := .wb }

/-- Back in `ST_FETCH`. -/
def nextState : Core :=
  { c.wbState w with
    regs := Ir.writeback w c.regs c.pc (Ir.alu_y w c.regs) d
    pc := Ir.next_pc w c.regs c.pc
    state := .fetch }

variable {c w d}

theorem step_fetch (h : c.state = .fetch) (r : Bool) (v : BitVec 32) :
    c.step r v = c.fetchWaitState := by
  simp only [step, h, fetchWaitState]

theorem step_fetchWaitState (r : Bool) (v : BitVec 32) :
    c.fetchWaitState.step r v = if r then c.decodeState else c.fetchWaitState := rfl

theorem step_decodeState (r : Bool) : c.decodeState.step r w = c.execState w := rfl

theorem step_execState (r : Bool) (v : BitVec 32) : (c.execState w).step r v = c.memState w := rfl

theorem step_memState (r : Bool) (v : BitVec 32) : (c.memState w).step r v = c.memWaitState w := by
  have hir : (c.memState w).ir = w := rfl
  have hregs : (c.memState w).regs = c.regs := rfl
  have hne : ¬ OP_STORE = OP_LOAD := by decide
  have hne' : ¬ OP_LOAD = OP_STORE := by decide
  show (if Ir.opcode (c.memState w).ir = OP_LOAD then _ else _) = _
  rw [hir, hregs]
  by_cases hl : Ir.opcode w = OP_LOAD
  · have ha : accesses w = true := by simp [accesses, hl]
    rw [if_pos hl]
    simp only [memWaitState, ha, hl, hne', ↓reduceIte]
    rfl
  · rw [if_neg hl]
    by_cases hs : Ir.opcode w = OP_STORE
    · have ha : accesses w = true := by simp [accesses, hs]
      rw [if_pos hs]
      simp only [memWaitState, ha, hs, ↓reduceIte, decide_true]
      rfl
    · have ha : accesses w = false := by simp [accesses, hs, hl]
      rw [if_neg hs]
      simp only [memWaitState, ha, hs, ↓reduceIte, decide_false, Bool.false_eq_true]
      rfl

theorem step_memWaitState (r : Bool) (v : BitVec 32) :
    (c.memWaitState w).step r v = if r then c.wbState w else c.memWaitState w := rfl

theorem step_wbState (r : Bool) : (c.wbState w).step r d = c.nextState w d := rfl

end ClosedForm

/-! ## The run of one instruction -/

section Run

variable {c : Nat → Core} {ready : Nat → Bool} {rdata : Nat → BitVec 32} {t m k : Nat}

theorem run_fetchWait (hc : Run c ready rdata) (hs : (c t).state = .fetch)
    (hlow : ∀ j < m, ready (t + 1 + j) = false) (j : Nat) (hj : j ≤ m) :
    c (t + 1 + j) = (c t).fetchWaitState := by
  induction j with
  | zero => exact (hc t).trans (step_fetch hs _ _)
  | succ j ih =>
    rw [show t + 1 + (j + 1) = t + 1 + j + 1 by omega, hc, ih (by omega), step_fetchWaitState,
      hlow j (by omega)]
    rfl

theorem run_decode (hc : Run c ready rdata) (hs : (c t).state = .fetch)
    (hlow : ∀ j < m, ready (t + 1 + j) = false) (hready : ready (t + 1 + m) = true) :
    c (t + m + 2) = (c t).decodeState := by
  rw [show t + m + 2 = t + 1 + m + 1 by omega, hc, run_fetchWait hc hs hlow m le_rfl,
    step_fetchWaitState, hready]
  rfl

theorem run_exec (hc : Run c ready rdata) (hd : c (t + m + 2) = (c t).decodeState) :
    c (t + m + 3) = (c t).execState (rdata (t + m + 2)) := by
  rw [show t + m + 3 = t + m + 2 + 1 by omega, hc, hd, step_decodeState]

theorem run_mem (hc : Run c ready rdata) (hd : c (t + m + 2) = (c t).decodeState) :
    c (t + m + 4) = (c t).memState (rdata (t + m + 2)) := by
  rw [show t + m + 4 = t + m + 3 + 1 by omega, hc, run_exec hc hd, step_execState]

theorem run_memWait (hc : Run c ready rdata) (hd : c (t + m + 2) = (c t).decodeState)
    (hlow : ∀ j < k, ready (t + m + 5 + j) = false) (j : Nat) (hj : j ≤ k) :
    c (t + m + 5 + j) = (c t).memWaitState (rdata (t + m + 2)) := by
  induction j with
  | zero =>
    rw [show t + m + 5 + 0 = t + m + 4 + 1 by omega, hc, run_mem hc hd, step_memState]
  | succ j ih =>
    rw [show t + m + 5 + (j + 1) = t + m + 5 + j + 1 by omega, hc, ih (by omega), step_memWaitState,
      hlow j (by omega)]
    rfl

theorem run_wb (hc : Run c ready rdata) (hd : c (t + m + 2) = (c t).decodeState)
    (hlow : ∀ j < k, ready (t + m + 5 + j) = false) (hready : ready (t + m + 5 + k) = true) :
    c (t + m + k + 6) = (c t).wbState (rdata (t + m + 2)) := by
  rw [show t + m + k + 6 = t + m + 5 + k + 1 by omega, hc, run_memWait hc hd hlow k le_rfl,
    step_memWaitState, hready]
  rfl

theorem run_next (hc : Run c ready rdata)
    (hwb : c (t + m + k + 6) = (c t).wbState (rdata (t + m + 2))) :
    c (t + m + k + 7) = (c t).nextState (rdata (t + m + 2)) (rdata (t + m + k + 6)) := by
  rw [show t + m + k + 7 = t + m + k + 6 + 1 by omega, hc, hwb, step_wbState]

/-- The cycles of an instruction, by the closed form that describes them. -/
theorem run_cases (hc : Run c ready rdata) (hs : (c t).state = .fetch) (hw : Waits ready t m k)
    (j : Nat) (h1 : t < j) (h2 : j ≤ t + m + k + 7) :
    (j ≤ t + m + 1 ∧ c j = (c t).fetchWaitState) ∨
    (j = t + m + 2 ∧ c j = (c t).decodeState) ∨
    (j = t + m + 3 ∧ c j = (c t).execState (rdata (t + m + 2))) ∨
    (j = t + m + 4 ∧ c j = (c t).memState (rdata (t + m + 2))) ∨
    (t + m + 5 ≤ j ∧ j ≤ t + m + k + 5 ∧ c j = (c t).memWaitState (rdata (t + m + 2))) ∨
    (j = t + m + k + 6 ∧ c j = (c t).wbState (rdata (t + m + 2))) ∨
    (j = t + m + k + 7 ∧ c j = (c t).nextState (rdata (t + m + 2)) (rdata (t + m + k + 6))) := by
  have hd := run_decode hc hs hw.fetch_low hw.fetch_ready
  have hwb := run_wb hc hd hw.mem_low hw.mem_ready
  by_cases hj : j ≤ t + m + 1
  · refine .inl ⟨hj, ?_⟩
    have := run_fetchWait hc hs hw.fetch_low (j - (t + 1)) (by omega)
    rwa [show t + 1 + (j - (t + 1)) = j by omega] at this
  by_cases hj : j = t + m + 2
  · exact .inr (.inl ⟨hj, hj ▸ hd⟩)
  by_cases hj : j = t + m + 3
  · exact .inr (.inr (.inl ⟨hj, hj ▸ run_exec hc hd⟩))
  by_cases hj : j = t + m + 4
  · exact .inr (.inr (.inr (.inl ⟨hj, hj ▸ run_mem hc hd⟩)))
  by_cases hj : j ≤ t + m + k + 5
  · refine .inr (.inr (.inr (.inr (.inl ⟨by omega, hj, ?_⟩))))
    have := run_memWait hc hd hw.mem_low (j - (t + m + 5)) (by omega)
    rwa [show t + m + 5 + (j - (t + m + 5)) = j by omega] at this
  by_cases hj : j = t + m + k + 6
  · exact .inr (.inr (.inr (.inr (.inr (.inl ⟨hj, hj ▸ hwb⟩)))))
  have hj : j = t + m + k + 7 := by omega
  exact .inr (.inr (.inr (.inr (.inr (.inr ⟨hj, hj ▸ run_next hc hwb⟩)))))

/-! ## The bus in `ST_MEM_WAIT` -/

theorem accesses_of_access {x : BitVec 32} {regs : Regs} {i : Instr} {a : Rv32i.Access}
    (hi : Rv32i.decode x = some i) (ha : i.access (readReg regs) = some a) : accesses x = true := by
  rcases access_cases regs x hi with ⟨ho, -⟩ | ⟨ho, -⟩ | ⟨-, -, hn⟩
  · simp [accesses, ho]
  · simp [accesses, ho]
  · rw [hn] at ha
    cases ha

theorem memWaitState_performs {c : Core} {x : BitVec 32} {i : Instr} {a : Rv32i.Access}
    (hi : Rv32i.decode x = some i) (ha : i.access (readReg c.regs) = some a) :
    (c.memWaitState x).Performs a := by
  have hacc := accesses_of_access hi ha
  rcases access_cases c.regs x hi with ⟨ho, b, hb, hdata, hdrv⟩ | ⟨ho, b, v, hb, hdata, hdrv⟩ | ⟨-, -, hn⟩
  · obtain rfl : a = b := Option.some.inj (ha.symm.trans hb)
    have hne : ¬ OP_LOAD = OP_STORE := by decide
    exact
      { valid := hacc
        we := by simp [memWaitState, ho, hne, hdata]
        addr := by simp only [memWaitState, hacc, ↓reduceIte, hdrv.addr]
        size := by simp only [memWaitState, hacc, ↓reduceIte, hdrv.size]
        wdata := fun v hv => by simp [hdata] at hv }
  · obtain rfl : a = b := Option.some.inj (ha.symm.trans hb)
    exact
      { valid := hacc
        we := by simp [memWaitState, ho, hdata]
        addr := by simp only [memWaitState, hacc, ↓reduceIte, hdrv.addr]
        size := by simp only [memWaitState, hacc, ↓reduceIte, hdrv.size]
        wdata := fun v hv => by simp only [memWaitState, ho, ↓reduceIte, hdrv.data v hv] }
  · rw [hn] at ha
    cases ha

theorem memWaitState_quiet {c : Core} {x : BitVec 32} {i : Instr}
    (hi : Rv32i.decode x = some i) (ha : i.access (readReg c.regs) = none) :
    (c.memWaitState x).Quiet := by
  rcases access_cases c.regs x hi with ⟨-, b, hb, -⟩ | ⟨-, b, v, hb, -⟩ | ⟨hl, hs, -⟩
  · rw [ha] at hb; cases hb
  · rw [ha] at hb; cases hb
  · exact ⟨by simp [memWaitState, accesses, hl, hs], by simp [memWaitState, hs]⟩

theorem nextState_hart {c : Core} {x d : BitVec 32} {i : Instr} (hi : Rv32i.decode x = some i) :
    (c.nextState x d).hart = i.exec c.hart d := by
  have hpc : (c.nextState x d).hart.pc = (i.exec c.hart d).pc := next_pc_eq c.regs x hi c.pc
  have hregs : (c.nextState x d).hart.regs = (i.exec c.hart d).regs :=
    writeback_eq c.regs x hi c.pc d
  exact Hart.ext hpc hregs

/-- From any core state in `ST_FETCH`, whatever the wait states of the memory, an instruction of the base
set is executed as RV32I says, with one access on the bus for its fetch and one for its load or store. -/
theorem core_refines_rv32i {i : Instr} {w d : BitVec 32} (hc : Run c ready rdata)
    (hs : (c t).state = .fetch) (hw : Waits ready t m k) (hfetch : rdata (t + m + 2) = w)
    (hload : rdata (t + m + k + 6) = d) (hi : Rv32i.decode w = some i) :
    Executes c i d t m k := by
  have hcases := run_cases hc hs hw
  rw [hfetch, hload] at hcases
  have hmem : ∀ j, t + m + 5 ≤ j → j ≤ t + m + k + 5 → c j = (c t).memWaitState w := by
    intro j h1 h2
    rcases hcases j (by omega) (by omega) with
      ⟨h, -⟩ | ⟨h, -⟩ | ⟨h, -⟩ | ⟨h, -⟩ | ⟨-, -, e⟩ | ⟨h, -⟩ | ⟨h, -⟩
    case inr.inr.inr.inr.inl => exact e
    all_goals omega
  have hwb : c (t + m + k + 6) = (c t).wbState w := by
    rw [← hfetch]
    exact run_wb hc (run_decode hc hs hw.fetch_low hw.fetch_ready) hw.mem_low hw.mem_ready
  have hnext : c (t + m + k + 7) = (c t).nextState w d := by
    rw [run_next hc (hfetch ▸ hwb), hfetch, hload]
  refine
    { hart := by rw [hnext, nextState_hart hi]
      fetch := by rw [hnext]; rfl
      not_fetch := ?_
      fetchWait := ?_
      memWait := ?_
      fetch_bus := ?_
      fetch_addr := by rw [run_decode hc hs hw.fetch_low hw.fetch_ready]; rfl
      no_access := ?_
      access_bus := fun a ha j h1 h2 => by rw [hmem j h1 h2]; exact memWaitState_performs hi ha
      access_addr := fun a ha => by rw [hwb]; exact (memWaitState_performs hi ha).addr
      no_access_bus := fun ha j h1 h2 => by rw [hmem j h1 h2]; exact memWaitState_quiet hi ha
      after := ?_ }
  · intro j h1 h2
    rcases hcases j h1 (by omega) with
      ⟨-, e⟩ | ⟨-, e⟩ | ⟨-, e⟩ | ⟨-, e⟩ | ⟨-, -, e⟩ | ⟨-, e⟩ | ⟨h, -⟩
    case inr.inr.inr.inr.inr.inr => omega
    all_goals rw [e]; exact CoreState.noConfusion
  · intro j h1 h2
    rcases hcases j h1 (by omega) with
      ⟨h, e⟩ | ⟨h, e⟩ | ⟨h, e⟩ | ⟨h, e⟩ | ⟨h, -, e⟩ | ⟨h, e⟩ | ⟨h, -⟩
    case inl => rw [e]; exact iff_of_true rfl h
    case inr.inr.inr.inr.inr.inr => omega
    all_goals rw [e]; exact iff_of_false CoreState.noConfusion (by omega)
  · intro j h1 h2
    rcases hcases j h1 (by omega) with
      ⟨h, e⟩ | ⟨h, e⟩ | ⟨h, e⟩ | ⟨h, e⟩ | ⟨h, h', e⟩ | ⟨h, e⟩ | ⟨h, -⟩
    case inr.inr.inr.inr.inl => rw [e]; exact iff_of_true rfl ⟨h, h'⟩
    case inr.inr.inr.inr.inr.inr => omega
    all_goals rw [e]; exact iff_of_false CoreState.noConfusion (by omega)
  · intro j h1 h2
    have := run_fetchWait hc hs hw.fetch_low (j - (t + 1)) (by omega)
    rw [show t + 1 + (j - (t + 1)) = j by omega] at this
    rw [this]
    exact ⟨rfl, rfl, rfl, rfl⟩
  · intro j h1 h2
    rcases hcases j (by omega) (by omega) with
      ⟨h, -⟩ | ⟨-, e⟩ | ⟨-, e⟩ | ⟨-, e⟩ | ⟨h, -, -⟩ | ⟨h, -⟩ | ⟨h, -⟩
    case inr.inl | inr.inr.inl | inr.inr.inr.inl => rw [e]; exact ⟨rfl, rfl⟩
    all_goals omega
  · intro j h1 h2
    obtain rfl | rfl : j = t + m + k + 6 ∨ j = t + m + k + 7 := by omega
    · rw [hwb]; exact ⟨rfl, rfl⟩
    · rw [hnext]; exact ⟨rfl, rfl⟩

/-- `lw x5, 4(x6)` with two wait states in the fetch and one in the access. -/
theorem core_refines_rv32i_lw :
    let ready : Nat → Bool := fun t => t == 3 || t == 8
    let rdata : Nat → BitVec 32 := fun t => if t = 4 then 0x00432283 else 0xCAFE
    let c := Clocked.run (fun c (i : Bool × BitVec 32) => step c i.1 i.2)
      (fun t => (ready t, rdata t)) ⟨.fetch, 0xB4, 0, 0, 0, fun _ => 0xE0, 0, 0, 0, false, false⟩
    Executes c (.load .lw 5 6 4) 0xCAFE 0 2 1 := by
  intro ready rdata c
  have hw : Waits ready 0 2 1 := ⟨by decide, by decide, by decide, by decide⟩
  exact core_refines_rv32i (fun _ => rfl) rfl hw rfl rfl (by decide)

end Run

end Core

end Pineapple
