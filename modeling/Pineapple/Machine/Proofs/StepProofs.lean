import Pineapple.Machine.Arch
import Pineapple.Rtl.Proofs.InstructionProofs

/-!
# Proofs: the chip refines the machine

One instruction of the chip, from one cycle between instructions to the next, is one step of `Arch`.
-/

namespace Pineapple

open Rv32i (Instr Hart Word readReg)

theorem nbytes_sizeCode (w : Rv32i.Width) : nbytes (sizeCode w) = w.bytes := by
  cases w <;> rfl

/-- Only a load uses the word that is read. -/
theorem exec_hart_congr {i : Instr} {h : Hart} (hi : ∀ op rd rs1 imm, i ≠ .load op rd rs1 imm)
    (d d' : Word) : i.exec h d = i.exec h d' := by
  cases i with
  | load op rd rs1 imm => exact absurd rfl (hi op rd rs1 imm)
  | _ => rfl

namespace Top

variable {rom : Rom} {inp : Nat → Inputs} {s : Nat → Top} {t : Nat} {w : Word} {i : Instr}

/-- The bus of the data access of an instruction. -/
theorem bus_of_access {s : Top} (hi : Rv32i.decode w = some i) {acc : Rv32i.Access}
    (ha : s.arch.access i = some acc) :
    (s.core.memWaitState w).Performs acc := Core.memWaitState_performs hi ha

theorem dataStall_eq {s : Top} (hi : Rv32i.decode w = some i) :
    s.dataStall w = s.arch.dataStall i := by
  rcases access_cases s.core.regs w hi with ⟨ho, a, ha, -, hd⟩ | ⟨ho, a, v, ha, -, hd⟩ | ⟨hl, hst, ha⟩
  · have ha' : s.arch.access i = some a := ha
    rw [dataStall, if_pos (.inl ho), Arch.dataStall, ha', hd.addr, hd.size]
    rfl
  · have ha' : s.arch.access i = some a := ha
    rw [dataStall, if_pos (.inr ho), Arch.dataStall, ha', hd.addr, hd.size]
    rfl
  · have ha' : s.arch.access i = none := ha
    rw [dataStall, if_neg (fun h => h.elim hl hst), Arch.dataStall, ha']

theorem storeRegs_eq {s : Top} (hi : Rv32i.decode w = some i) :
    s.storeRegs w = s.arch.store i := by
  rw [storeRegs, MemRegs.afterBus, Arch.store]
  cases ha : s.arch.access i with
  | none =>
    have hq := Core.memWaitState_quiet (c := s.core) hi ha
    rw [show (s.core.memWaitState w).bus.we = false from hq.2]
    rfl
  | some acc =>
    have hp := bus_of_access hi ha
    obtain ⟨addr, width, data⟩ := acc
    have hwe : (s.core.memWaitState w).bus.we = data.isSome := hp.we
    have haddr : (s.core.memWaitState w).bus.addr = addr.setWidth 8 := hp.addr
    have hsize : (s.core.memWaitState w).bus.size = sizeCode width := hp.size
    rw [hwe]
    cases data with
    | none => rfl
    | some v =>
      have hdata : (s.core.memWaitState w).bus.wdata = v := hp.wdata v rfl
      rw [haddr, hsize, hdata]
      rfl

section Run

variable {m k : Nat}

/-- The word of an instruction is what the memory map says. -/
theorem Instruction.word_eq (hi : Instruction rom inp s t w m k) (hs : Run rom inp s)
    (hf : AtFetch (s t)) (hm : m = (s t).fetchStall) : w = fetched rom inp t (s t).arch := by
  have hdec : (s (t + m + 2)).core = (s t).core.decodeState :=
    Core.run_decode hs.core hf.state hi.waits.fetch_low hi.waits.fetch_ready
  have haddr : (s (t + m + 2)).bus.addr = (s t).core.pc := congrArg Core.mem_addr hdec
  have hstall : (s t).arch.fetchStall = m := hm.symm
  rw [← hi.word, rdataAt, mem_rdata, Mem.rdata, hi.regs _ (by omega) (by omega), haddr, fetched,
    Arch.word, hstall]
  by_cases hext : (s t).mem.External (s t).core.pc
  · have hrd := hi.fetch.rdata rfl hext
    rw [show t + 1 + m + 1 = t + m + 2 by omega] at hrd
    rw [hrd]
    rfl
  · exact MemRegs.rdata_of_not_external _ _ _ _ _ _ hext

/-- The word of a load is what the memory map says. -/
theorem Instruction.load_eq {x : Instr} (hi : Instruction rom inp s t w m k) (hs : Run rom inp s)
    (hf : AtFetch (s t)) (hm : m = (s t).fetchStall) (hk : k = (s t).dataStall w)
    (hx : Rv32i.decode w = some x) {acc : Rv32i.Access} (ha : (s t).arch.access x = some acc)
    (hdata : acc.data = none) :
    rdataAt rom inp s (t + m + k + 6) = loaded rom inp t (s t).arch x := by
  have hdec := Core.run_decode hs.core hf.state hi.waits.fetch_low hi.waits.fetch_ready
  have hwb : (s (t + m + k + 6)).core = (s t).core.wbState (rdataAt rom inp s (t + m + 2)) :=
    Core.run_wb hs.core hdec hi.waits.mem_low hi.waits.mem_ready
  rw [hi.word] at hwb
  have hp := bus_of_access hx ha
  have haddr : (s (t + m + k + 6)).bus.addr = acc.addr.setWidth 8 :=
    (congrArg Core.mem_addr hwb).trans hp.addr
  have hstore : (s t).storeRegs w = (s t).mem.toMemRegs := by
    rw [storeRegs_eq hx, Arch.store, ha]
    obtain ⟨addr, width, data⟩ := acc
    cases hdata
    rfl
  have hstall : (s t).arch.fetchStall = m := hm.symm
  have hstall' : (s t).arch.dataStall x = k := (dataStall_eq hx).symm.trans hk.symm
  have hbytes : (s t).arch.accessBytes x = acc.width.bytes := by rw [Arch.accessBytes, ha]
  rw [rdataAt, mem_rdata, Mem.rdata, hi.regs_after _ (by omega) (by omega), hstore, haddr, loaded,
    Arch.load, ha, hstall, hstall', hbytes]
  by_cases hext : (s t).mem.External (acc.addr.setWidth 8)
  · have hrd := hi.access.rdata hp.valid (by rw [hp.bus_addr]; exact hext)
    rw [show t + m + 5 + k + 1 = t + m + k + 6 by omega] at hrd
    rw [hrd, hp.bus_size, nbytes_sizeCode]
    rfl
  · exact MemRegs.rdata_of_not_external _ _ _ _ _ _ hext

/-- `mem_we` is high only in `ST_MEM_WAIT` of a store. -/
theorem Instruction.store_of_we {x : Instr} (hi : Instruction rom inp s t w m k) (hs : Run rom inp s)
    (hf : AtFetch (s t)) (hx : Rv32i.decode w = some x) (j : Nat) (h1 : t ≤ j)
    (h2 : j < t + m + k + 7) (hwe : (s j).core.mem_we = true) :
    (s j).core.pc = (s t).core.pc ∧ ∃ acc v, (s t).arch.access x = some acc ∧ acc.data = some v ∧
      (s j).core.mem_addr = acc.addr.setWidth 8 ∧ (s j).core.mem_wdata = v := by
  have hj : t < j := by
    rcases Nat.lt_or_eq_of_le h1 with h | rfl
    · exact h
    · rw [hf.quiet.2] at hwe
      cases hwe
  have hword : (s (t + m + 2)).mem_rdata rom (inp (t + m + 2)).ui_in = w := hi.word
  have hcases := Core.run_cases hs.core hf.state hi.waits j hj (by omega)
  simp only [hword] at hcases
  rcases hcases with ⟨-, e⟩ | ⟨-, e⟩ | ⟨-, e⟩ | ⟨-, e⟩ | ⟨-, -, e⟩ | ⟨-, e⟩ | ⟨h, -⟩
  case inr.inr.inr.inr.inl =>
    rw [e] at hwe ⊢
    cases ha : (s t).arch.access x with
    | none =>
      rw [(Core.memWaitState_quiet hx ha).2] at hwe
      cases hwe
    | some acc =>
      have hp := bus_of_access hx ha
      obtain ⟨v, hv⟩ := Option.isSome_iff_exists.mp (hp.we.symm.trans hwe)
      exact ⟨rfl, acc, v, rfl, hv, hp.addr, hp.wdata v hv⟩
  case inr.inr.inr.inr.inr.inr => omega
  all_goals rw [e] at hwe; cases hwe

/-- One instruction of the chip is one step of the machine. -/
theorem run_step (hs : Run rom inp s) (hf : AtFetch (s t))
    (hi : Rv32i.decode (fetched rom inp t (s t).arch) = some i) :
    AtFetch (s (t + (s t).arch.cycles i)) ∧
      Steps s t (s t).arch i (loaded rom inp t (s t).arch i) := by
  obtain ⟨w, m, k, hins, hm, hk⟩ : ∃ w m k, Instruction rom inp s t w m k ∧ m = (s t).fetchStall ∧
      k = (s t).dataStall w := ⟨_, _, _, run_instruction hs hf, rfl, rfl⟩
  rw [← hins.word_eq hs hf hm] at hi
  have hn : t + m + k + 7 = t + (s t).arch.cycles i := by
    rw [Arch.cycles, ← dataStall_eq hi, ← hk, hm, show (s t).arch.fetchStall = (s t).fetchStall from rfl]
    omega
  have hstore : (s t).storeRegs w = (s t).arch.store i := storeRegs_eq hi
  have hwb : (s (t + m + k + 6)).core = (s t).core.wbState (rdataAt rom inp s (t + m + 2)) :=
    Core.run_wb hs.core (Core.run_decode hs.core hf.state hins.waits.fetch_low hins.waits.fetch_ready)
      hins.waits.mem_low hins.waits.mem_ready
  have hnext : (s (t + m + k + 7)).core = (s t).core.nextState w (rdataAt rom inp s (t + m + k + 6)) := by
    have := Core.run_next hs.core hwb
    rw [← hins.word]
    exact this
  have hhart : (s (t + m + k + 7)).core.hart =
      i.exec (s t).core.hart (loaded rom inp t (s t).arch i) := by
    rw [hnext, Core.nextState_hart hi]
    by_cases hl : ∃ op rd rs1 imm, i = .load op rd rs1 imm
    · obtain ⟨op, rd, rs1, imm, rfl⟩ := hl
      rw [hins.load_eq hs hf hm hk hi rfl rfl]
    · exact exec_hart_congr (fun op rd rs1 imm h => hl ⟨op, rd, rs1, imm, h⟩) _ _
  rw [← hn]
  refine ⟨hins.atFetch, ?_, ?_, fun j h1 h2 => ?_, fun j h1 h2 hwe => ?_⟩
  · have := hins.nextFetch hs hf
    rwa [show m + k + 7 = (s t).arch.cycles i by omega] at this
  · rw [← hn, arch, hhart, hins.regs_after _ (by omega) (by omega), hstore]
    rfl
  · by_cases hj : j ≤ t + m + k + 5
    · exact .inl (hins.regs j h1 hj)
    · exact .inr ((hins.regs_after j (by omega) (by omega)).trans hstore)
  · exact hins.store_of_we hs hf hi j h1 (by omega) hwe

/-- A store is on the bus in one of the cycles of its instruction. -/
theorem run_store (hs : Run rom inp s) (hf : AtFetch (s t))
    (hi : Rv32i.decode (fetched rom inp t (s t).arch) = some i) {acc : Rv32i.Access} {v : Word}
    (ha : (s t).arch.access i = some acc) (hv : acc.data = some v) :
    ∃ j, t ≤ j ∧ j < t + (s t).arch.cycles i ∧ (s j).core.mem_we = true ∧
      (s j).core.mem_addr = acc.addr.setWidth 8 := by
  obtain ⟨w, m, k, hins, hm, hk⟩ : ∃ w m k, Instruction rom inp s t w m k ∧ m = (s t).fetchStall ∧
      k = (s t).dataStall w := ⟨_, _, _, run_instruction hs hf, rfl, rfl⟩
  rw [← hins.word_eq hs hf hm] at hi
  have hn : m + k + 7 = (s t).arch.cycles i := by
    rw [Arch.cycles, ← dataStall_eq hi, ← hk, hm, show (s t).arch.fetchStall = (s t).fetchStall from rfl]
  have hp := bus_of_access hi ha
  have hbus := hins.access.held 0 (Nat.zero_le _)
  refine ⟨t + m + 5, by omega, by omega, ?_, ?_⟩
  · rw [show (s (t + m + 5)).core.mem_we = _ from congrArg Bus.we hbus]
    show (((s t).core.memWaitState w).mem_we) = true
    rw [hp.we, hv]
    rfl
  · rw [show (s (t + m + 5)).core.mem_addr = _ from congrArg Bus.addr hbus]
    exact hp.addr

end Run

end Top

end Pineapple
