import Pineapple.Machine.Proofs.EnvProofs

/-!
# Proofs: the clock cycles of an instruction

In which cycle of an instruction a transaction starts, a store is on the bus, a register of `mem.v` changes and
a load reads its word.
-/

namespace Pineapple

open Rv32i (Instr Word)

namespace Top

/-- From cycle `t` on the chip executes `i` from the state `a`, cycle by cycle. -/
structure Cycles (s : Nat → Top) (t : Nat) (a : Arch) (i : Instr) : Prop where
  /-- A transaction starts in the first cycle of an external access. -/
  accepts : ∀ j, t ≤ j → j < t + a.cycles i → (Qspi.Accepts (s j).eng (s j).req ↔
    (j = t + 1 ∧ a.mem.External a.pc) ∨ (j = t + a.fetchStall + 5 ∧
      ∃ acc, a.access i = some acc ∧ a.mem.External (acc.addr.setWidth 8)))
  /-- `mem_we` is high while a store waits. -/
  we : ∀ j, t ≤ j → j < t + a.cycles i → ((s j).core.mem_we = true ↔
    t + a.fetchStall + 5 ≤ j ∧ j + 1 < t + a.cycles i ∧
      ∃ acc v, a.access i = some acc ∧ acc.data = some v)
  before : ∀ j, t ≤ j → j + 1 < t + a.cycles i → (s j).mem.toMemRegs = a.mem
  after : ∀ j, j < t + a.cycles i → t + a.cycles i ≤ j + 1 → (s j).mem.toMemRegs = a.store i
  /-- The data access. -/
  access : ∀ acc, a.access i = some acc → ∀ j, t + a.fetchStall + 5 ≤ j → j + 1 < t + a.cycles i →
    (s j).core.Performs acc
  wb : (s (t + a.fetchStall + a.dataStall i + 6)).core.state = .wb ∧
    (s (t + a.fetchStall + a.dataStall i + 6)).core.pc = a.pc

variable {rom : Rom} {inp : Nat → Inputs} {s : Nat → Top} {t : Nat} {i : Instr}

/-- The cycles of the instruction that the chip fetches. -/
theorem run_cycles (hs : Run rom inp s) (hf : AtFetch (s t))
    (hi : Rv32i.decode (fetched rom inp t (s t).arch) = some i) : Cycles s t (s t).arch i := by
  obtain ⟨w, m, k, hins, hm, hk⟩ : ∃ w m k, Instruction rom inp s t w m k ∧ m = (s t).fetchStall ∧
      k = (s t).dataStall w := ⟨_, _, _, run_instruction hs hf, rfl, rfl⟩
  rw [← hins.word_eq hs hf hm] at hi
  have hm' : (s t).arch.fetchStall = m := hm.symm
  have hk' : (s t).arch.dataStall i = k := (dataStall_eq hi).symm.trans hk.symm
  have hn : (s t).arch.cycles i = m + k + 7 := by rw [Arch.cycles, hm', hk']
  have hdec : (s (t + m + 2)).core = (s t).core.decodeState :=
    Core.run_decode hs.core hf.state hins.waits.fetch_low hins.waits.fetch_ready
  have hword : (s (t + m + 2)).mem_rdata rom (inp (t + m + 2)).ui_in = w := hins.word
  have hmw : ∀ j, t + m + 5 ≤ j → j ≤ t + m + k + 5 → (s j).core = (s t).core.memWaitState w := by
    intro j h1 h2
    have := Core.run_memWait hs.core hdec hins.waits.mem_low (j - (t + m + 5)) (by omega)
    rwa [hword, show t + m + 5 + (j - (t + m + 5)) = j by omega] at this
  have hwb := Core.run_wb hs.core hdec hins.waits.mem_low hins.waits.mem_ready
  -- the data access as the core and as the instruction describe it
  have hacc : Core.accesses w = true ∧ (s t).mem.External ((s t).core.memWaitState w).mem_addr ↔
      ∃ acc, (s t).arch.access i = some acc ∧ (s t).mem.External (acc.addr.setWidth 8) := by
    constructor
    · rintro ⟨hac, hext⟩
      obtain ⟨acc, ha⟩ : ∃ acc, (s t).arch.access i = some acc := by
        rcases access_cases (s t).core.regs w hi with ⟨-, a, ha, -⟩ | ⟨-, a, v, ha, -⟩ | ⟨hl, hst, -⟩
        · exact ⟨a, ha⟩
        · exact ⟨a, ha⟩
        · exact absurd (of_decide_eq_true hac) (not_or.mpr ⟨hl, hst⟩)
      rw [(bus_of_access hi ha).addr] at hext
      exact ⟨acc, ha, hext⟩
    · rintro ⟨acc, ha, hext⟩
      rw [(bus_of_access hi ha).addr]
      exact ⟨Core.accesses_of_access hi ha, hext⟩
  refine
    { accepts := fun j h1 h2 => ?_
      we := fun j h1 h2 => ?_
      before := fun j h1 h2 => hins.regs j h1 (by omega)
      after := fun j h1 h2 => (hins.regs_after j (by omega) (by omega)).trans (storeRegs_eq hi)
      access := fun acc ha j h1 h2 => ?_
      wb := ?_ }
  · rw [hm', hins.accepts j h1 (by omega), hacc]
    exact Iff.rfl
  · rw [hm']
    constructor
    · intro hwe
      have hne : t < j := by
        rcases Nat.lt_or_eq_of_le h1 with h | rfl
        · exact h
        · exact absurd (hwe.symm.trans hf.quiet.2) (by decide)
      obtain ⟨-, acc, v, ha, hv, -⟩ := hins.store_of_we hs hf hi j h1 (by omega) hwe
      have hcases := Core.run_cases hs.core hf.state hins.waits j hne (by omega)
      simp only [hword] at hcases
      rcases hcases with ⟨-, e⟩ | ⟨-, e⟩ | ⟨-, e⟩ | ⟨-, e⟩ | ⟨h3, h4, -⟩ | ⟨-, e⟩ | ⟨h, -⟩
      case inr.inr.inr.inr.inl => exact ⟨h3, by omega, acc, v, ha, hv⟩
      case inr.inr.inr.inr.inr.inr => omega
      all_goals rw [e] at hwe; cases hwe
    · rintro ⟨h3, h4, acc, v, ha, hv⟩
      rw [hmw j h3 (by omega), (bus_of_access hi ha).we, hv]
      rfl
  · rw [hmw j (by omega) (by omega)]
    exact bus_of_access hi ha
  · rw [hm', hk', hwb]
    exact ⟨rfl, rfl⟩

end Top

end Pineapple
