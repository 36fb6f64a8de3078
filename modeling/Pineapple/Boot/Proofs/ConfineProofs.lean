import Pineapple.Boot.Contract
import Pineapple.Boot.Proofs.RomProofs
import Pineapple.Machine.Proofs.EnvProofs
import Pineapple.Machine.Proofs.FlowProofs

/-!
# Proofs: what the boot ROM stores

Three words of the boot ROM are stores. The last of them takes its address from `x5`; the other two have the address
of the self-test and that of the LEDs. What is needed of the 44 words is decided by evaluation.
-/

namespace Pineapple

open Rv32i (Instr Word Reg)

namespace Boot

variable {inp : Nat → Inputs} {s : Nat → Top} {t j k T : Nat} {a : Arch} {i : Instr}

/-! ## The stores of the program -/

theorem store_words : ∀ k < 44, ∀ i ∈ program[k]?, i.isStore = true → k = 1 ∨ k = 15 ∨ k = 22 := by
  decide

/-- The stores of the ROM: the self-test, the LEDs, and BYTE_LOOP through `x5`. -/
theorem store_cases (hi : program[k]? = some i) {acc : Rv32i.Access} {v : Word}
    (ha : a.access i = some acc) (hv : acc.data = some v) :
    (k = 1 ∧ acc.addr.setWidth 8 = 0xE0) ∨ (k = 15 ∧ acc.addr.setWidth 8 = 0xF0) ∨
      (k = 22 ∧ acc.addr.setWidth 8 = (a.reg 5).setWidth 8) := by
  rcases store_words k (lt_of_program hi) i hi (Arch.isStore_of_data ha hv) with rfl | rfl | rfl
  · cases hi
    cases ha
    exact .inl ⟨rfl, rfl⟩
  · cases hi
    cases ha
    exact .inr (.inl ⟨rfl, rfl⟩)
  · cases hi
    cases ha
    refine .inr (.inr ⟨rfl, ?_⟩)
    show (a.reg 5 + (0 : BitVec 12).signExtend 32).setWidth 8 = _
    rw [show (0 : BitVec 12).signExtend 32 = 0#32 by decide, BitVec.add_zero]

/-! ## Which word of the ROM a cycle belongs to -/

/-- Cycle `j` belongs to the word `k` of the ROM, fetched in cycle `t`. -/
structure InWord (inp : Nat → Inputs) (s : Nat → Top) (j t k : Nat) (i : Instr) : Prop where
  le : t ≤ j
  lt : j < t + (s t).arch.cycles i
  fetch : (s t).core.state = .fetch
  pc : (s t).core.pc = addr k
  word : program[k]? = some i
  steps : Top.Steps s t (s t).arch i (Top.loaded bootRom inp t (s t).arch i)

/-- As long as the chip fetches from the ROM, every cycle from a fetch on belongs to one of its words. -/
theorem exists_inWord_from (hs : Top.Run bootRom inp s) (h0 : Top.AtFetch (s 0)) {u : Nat}
    (hu : (s u).core.state = .fetch) (huj : u ≤ j)
    (hrom : ∀ τ, u ≤ τ → τ ≤ j → (s τ).core.state = .fetch → ∃ k < 44, (s τ).core.pc = addr k) :
    ∃ t k i, u ≤ t ∧ InWord inp s j t k i := by
  obtain ⟨t, w, m, n, h1, h2, hf, -, -, hins⟩ := Top.exists_instruction hs h0 j
  have hut : u ≤ t := by
    by_contra hlt
    exact (hins.nextFetch hs hf).not_fetch u (by omega) (by omega) hu
  obtain ⟨k, hk, hpc⟩ := hrom t hut h1 hf.state
  obtain ⟨i, hi⟩ : ∃ i, program[k]? = some i := ⟨program.get ⟨k, hk⟩, List.getElem?_eq_getElem hk⟩
  obtain ⟨hf', hst⟩ := Top.run_step hs hf (instr_boot inp (t := t) (a := (s t).arch) hpc hi)
  refine ⟨t, k, i, hut, h1, ?_, hf.state, hpc, hi, hst⟩
  by_contra hlt
  exact (hins.nextFetch hs hf).not_fetch (t + (s t).arch.cycles i)
    (by have := Top.cycles_pos (s t).arch i; omega) (by omega) hf'.state

/-- As long as the chip fetches from the ROM, every cycle belongs to one of its words. -/
theorem exists_inWord (hs : Top.Run bootRom inp s) (h0 : Top.AtFetch (s 0))
    (hrom : ∀ τ ≤ j, (s τ).core.state = .fetch → ∃ k < 44, (s τ).core.pc = addr k) :
    ∃ t k i, InWord inp s j t k i := by
  obtain ⟨t, k, i, -, hw⟩ := exists_inWord_from hs h0 h0.state (Nat.zero_le j) fun τ _ hτ => hrom τ hτ
  exact ⟨t, k, i, hw⟩

/-- A store in cycle `j` is that of its word. -/
theorem InWord.store (h : InWord inp s j t k i) (hwe : (s j).core.mem_we = true) :
    (s j).core.pc = addr k ∧ ((k = 1 ∧ (s j).core.mem_addr = 0xE0) ∨
      (k = 15 ∧ (s j).core.mem_addr = 0xF0) ∨
      (k = 22 ∧ (s j).core.mem_addr = ((s t).arch.reg 5).setWidth 8)) := by
  obtain ⟨hpc, acc, v, ha, hv, haddr, -⟩ := h.steps.store j h.le h.lt hwe
  refine ⟨hpc.trans h.pc, ?_⟩
  rw [haddr]
  exact store_cases h.word ha hv

/-! ## The LEDs -/

theorem demoWrites_succ (s : Nat → Top) (T : Nat) :
    demoWrites s (T + 1) = demoWrites s T ++
      if (s T).core.mem_we = true ∧ 4 * MAIN_LOOP ≤ (s T).core.pc.toNat ∧
          (s T).core.pc.toNat < 4 * START_SEEN then
        [(s T).core.mem_wdata.extractLsb' 0 8] else [] := by
  rw [demoWrites, List.range_succ, List.filterMap_append, ← demoWrites]
  split <;> simp_all

/-- The LED register after one cycle. -/
theorem uo_out_succ {rom : Rom} (hs : Top.Run rom inp s) (τ : Nat) : (s (τ + 1)).uo_out =
    if (s τ).core.mem_we = true ∧ (s τ).core.mem_addr = 0xF0 then (s τ).core.mem_wdata.extractLsb' 0 8
    else (s τ).uo_out := by
  show (s (τ + 1)).mem.toMemRegs.gpio_out = _
  rw [show (s (τ + 1)).mem.toMemRegs = _ from hs.mem.regs τ, MemRegs.afterBus]
  show (if (s τ).core.mem_we then _ else _ : MemRegs).gpio_out = _
  by_cases hwe : (s τ).core.mem_we = true
  · rw [if_pos hwe, MemRegs.write_gpio]
    exact if_congr (iff_of_eq (by rw [hwe]; simp; rfl)) rfl rfl
  · rw [if_neg hwe, if_neg (fun h => hwe h.1)]
    rfl

/-- If the demo loop is what stores to the LEDs, they show what it last stored. -/
theorem uo_out_eq (hs : Top.Run bootRom inp s) (h0 : (s 0).uo_out = 0)
    (hled : ∀ τ < T, (s τ).core.mem_we = true → ((s τ).core.mem_addr = 0xF0 ↔
      4 * MAIN_LOOP ≤ (s τ).core.pc.toNat ∧ (s τ).core.pc.toNat < 4 * START_SEEN)) :
    (s T).uo_out = (demoWrites s T).getLastD 0 := by
  induction T with
  | zero => exact h0
  | succ T ih =>
    rw [uo_out_succ hs, demoWrites_succ, ih fun τ hτ => hled τ (by omega)]
    by_cases hwe : (s T).core.mem_we = true
    · by_cases haddr : (s T).core.mem_addr = 0xF0
      · rw [if_pos ⟨hwe, haddr⟩, if_pos ⟨hwe, (hled T (by omega) hwe).mp haddr⟩, List.getLastD_concat]
      · rw [if_neg fun h => haddr h.2, if_neg fun h => haddr ((hled T (by omega) hwe).mpr h.2),
          List.append_nil]
    · rw [if_neg fun h => hwe h.1, if_neg fun h => hwe h.1, List.append_nil]

end Boot

end Pineapple
