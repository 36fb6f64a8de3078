import Pineapple.Machine.Gpio
import Pineapple.Machine.Proofs.CycleProofs
import Pineapple.Machine.Proofs.FlashProofs

/-!
# Proofs: stores to GPIO_OUT

A store to GPIO_OUT does not wait, so it is on the bus for one cycle of its instruction, and the stores of a path are
the stores on the bus.
-/

namespace Pineapple

open Clocked
open Rv32i (Instr Word)

/-- One hit in a range. -/
theorem filterMap_range'_one {α : Type} {f : Nat → Option α} {t n u : Nat} {v : α} (h1 : t ≤ u) (h2 : u < t + n)
    (hv : f u = some v) (hno : ∀ τ, t ≤ τ → τ < t + n → τ ≠ u → f τ = none) : (List.range' t n).filterMap f = [v] := by
  obtain ⟨m, rfl⟩ : ∃ m, u = t + m := ⟨u - t, by omega⟩
  obtain ⟨k, rfl⟩ : ∃ k, n = m + (1 + k) := ⟨n - m - 1, by omega⟩
  have hnone : ∀ a b, t ≤ a → a + b ≤ t + (m + (1 + k)) → (t + m < a ∨ a + b ≤ t + m) →
      (List.range' a b).filterMap f = [] := by
    intro a b ha hb hne
    rw [List.filterMap_eq_nil_iff]
    intro τ hτ
    obtain ⟨h3, h4⟩ := List.mem_range'_1.mp hτ
    exact hno τ (by omega) (by omega) (by omega)
  rw [← List.range'_append_1, ← List.range'_append_1, List.filterMap_append, List.filterMap_append,
    hnone t m (by omega) (by omega) (.inr (by omega)), hnone (t + m + 1) k (by omega) (by omega) (.inl (by omega))]
  show [] ++ ([t + m].filterMap f ++ []) = [v]
  rw [List.filterMap_cons_some hv]
  rfl

/-- A store to a constant address. -/
theorem Arch.gpioStore_const (a : Arch) (op : Rv32i.StoreOp) (rs2 : Rv32i.Reg) (imm : BitVec 12) :
    a.gpioStore (.store op rs2 0 imm) =
      if imm.setWidth 8 = (0xF0 : BitVec 8) then [(Rv32i.readReg a.regs rs2).extractLsb' 0 8] else [] := by
  have haddr : (Rv32i.readReg a.regs 0 + imm.signExtend 32).setWidth 8 = imm.setWidth 8 := by
    rw [show Rv32i.readReg a.regs 0 = 0#32 from rfl, BitVec.zero_add, setWidth_signExtend_low imm (by decide)]
  show (if (Rv32i.readReg a.regs 0 + imm.signExtend 32).setWidth 8 = (0xF0 : BitVec 8) then _ else _) = _
  rw [haddr]

namespace Top

variable {rom : Rom} {inp : Nat → Inputs} {s : Nat → Top}

theorem gpioWrites_self (t : Nat) : gpioWrites s t t = [] := by
  rw [gpioWrites, Nat.sub_self]
  rfl

theorem gpioWrites_append {t t' t'' : Nat} (h : t ≤ t') (h' : t' ≤ t'') :
    gpioWrites s t t'' = gpioWrites s t t' ++ gpioWrites s t' t'' := by
  have hlen : t'' - t = (t' - t) + (t'' - t') := by omega
  have hmid : t + (t' - t) = t' := by omega
  rw [gpioWrites, hlen, ← List.range'_append_1, List.filterMap_append, hmid]
  rfl

/-- One instruction. -/
theorem Cycles.gpioWrites {t : Nat} {a : Arch} {i : Instr} (h : Cycles s t a i) :
    Top.gpioWrites s t (t + a.cycles i) = a.gpioStore i := by
  have hsub : t + a.cycles i - t = a.cycles i := by omega
  rw [Top.gpioWrites, hsub, Arch.gpioStore]
  cases hacc : a.access i with
  | none =>
    rw [List.filterMap_eq_nil_iff]
    intro τ hτ
    obtain ⟨h1, h2⟩ := List.mem_range'_1.mp hτ
    refine if_neg fun hwe => ?_
    obtain ⟨-, -, acc, v, ha, -⟩ := (h.we τ h1 h2).mp hwe.1
    rw [hacc] at ha
    cases ha
  | some acc =>
    obtain ⟨addr, width, data⟩ := acc
    have hbus : ∀ τ, t ≤ τ → τ < t + a.cycles i → (s τ).core.mem_we = true →
        (s τ).core.Performs ⟨addr, width, data⟩ := by
      intro τ h1 h2 hwe
      obtain ⟨h3, h4, -⟩ := (h.we τ h1 h2).mp hwe
      exact h.access _ hacc τ h3 h4
    have hmiss : (data = none ∨ addr.setWidth 8 ≠ (0xF0 : BitVec 8)) →
        (List.range' t (a.cycles i)).filterMap (fun τ =>
          if (s τ).core.mem_we = true ∧ (s τ).core.mem_addr = 0xF0 then
            some ((s τ).core.mem_wdata.extractLsb' 0 8)
          else none) = [] := by
      intro hno
      rw [List.filterMap_eq_nil_iff]
      intro τ hτ
      obtain ⟨h1, h2⟩ := List.mem_range'_1.mp hτ
      refine if_neg fun hwe => ?_
      have hp := hbus τ h1 h2 hwe.1
      rcases hno with rfl | hne
      · exact absurd (hp.we.symm.trans hwe.1) (by simp)
      · exact hne (hp.addr.symm.trans hwe.2)
    cases data with
    | none => exact hmiss (.inl rfl)
    | some v =>
      by_cases haddr : addr.setWidth 8 = (0xF0 : BitVec 8)
      · have hstall : a.dataStall i = 0 := by
          rw [Arch.dataStall, hacc]
          show a.mem.stall (addr.setWidth 8) _ = 0
          rw [haddr]
          refine if_neg ?_
          rintro (⟨-, h'⟩ | ⟨-, -, h'⟩)
          · exact absurd h' (by decide)
          · exact absurd h' (by decide)
        have hcyc : a.cycles i = a.fetchStall + 7 := by
          rw [Arch.cycles, hstall]
        have hwe5 := (h.we (t + a.fetchStall + 5) (by omega) (by omega)).mpr
          ⟨le_rfl, by omega, _, v, hacc, rfl⟩
        have hp := hbus _ (by omega) (by omega) hwe5
        refine Eq.trans ?_ (if_pos haddr).symm
        refine filterMap_range'_one (u := t + a.fetchStall + 5) (by omega) (by omega) ?_ fun τ h1 h2 hne => ?_
        · rw [if_pos ⟨hwe5, hp.addr.trans haddr⟩, hp.wdata v rfl]
        · refine if_neg fun hwe => ?_
          obtain ⟨h3, h4, -⟩ := (h.we τ h1 h2).mp hwe.1
          omega
      · exact (hmiss (.inr haddr)).trans (if_neg haddr).symm

/-- The stores of a path are the stores on the bus. -/
theorem run_gpioWrites (hs : Run rom inp s) (h0 : AtFetch (s 0)) {e : Env} (he : Agrees rom inp s e)
    {out : Nat × Arch → List (BitVec 8)} (hout : ∀ t a i, e.instr t a = some i → out (t, a) = a.gpioStore i)
    {c c' : Nat × Arch} {os : List (BitVec 8)} (hp : Path e.step out c os c') (hat : At s c.1 c.2) :
    At s c'.1 c'.2 ∧ c.1 ≤ c'.1 ∧ gpioWrites s c.1 c'.1 = os := by
  induction hp with
  | nil c => exact ⟨hat, le_rfl, gpioWrites_self _⟩
  | cons hstep _ ih =>
    rename_i c c' c'' os _
    obtain ⟨i, hi, rfl⟩ := Option.map_eq_some_iff.mp hstep
    obtain ⟨hat', -⟩ := steps_of_agrees hs h0 he hat hi
    obtain ⟨h1, h2, h3⟩ := ih hat'
    have hle : c.1 ≤ c.1 + c.2.cycles i := Nat.le_add_right _ _
    obtain ⟨hst, harch⟩ := hat
    have hcyc : Cycles s c.1 c.2 i := by
      rw [← harch] at hi ⊢
      exact run_cycles hs (atFetch_of_state hs h0 hst) (he c.1 _ i ⟨hst, rfl⟩ hi).1
    refine ⟨h1, hle.trans h2, ?_⟩
    rw [gpioWrites_append hle h2, h3, hcyc.gpioWrites, hout _ _ i hi]

theorem gpioWrites_prefix {t t' t'' : Nat} (h : t' ≤ t'') : gpioWrites s t t' <+: gpioWrites s t t'' := by
  by_cases ht : t ≤ t'
  · exact ⟨_, (gpioWrites_append ht h).symm⟩
  · have hnil : gpioWrites s t t' = [] := by
      rw [gpioWrites, show t' - t = 0 by omega]
      rfl
    rw [hnil]
    exact List.nil_prefix

/-- Nothing is stored in cycles between ones that store nothing. -/
theorem gpioWrites_eq_nil_mono {t t' t'' : Nat} (h : gpioWrites s t t'' = []) (h1 : t' ≤ t'') :
    gpioWrites s t t' = [] := List.prefix_nil.mp (h ▸ gpioWrites_prefix h1)

end Top

/-- The observer of the stores of a program in the flash. -/
theorem gpioStores_eq {flash : Bits.ByteMemory 14} {rom : Rom} {inp : Nat → Inputs} (t : Nat) (a : Arch) (i : Instr)
    (h : (Env.flash flash rom inp).instr t a = some i) : gpioStores flash (t, a) = a.gpioStore i := by
  rw [gpioStores, (Env.flash_instr h).2]

end Pineapple
