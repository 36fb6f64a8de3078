import Mathlib.Data.Nat.Find
import Mathlib.Tactic.Common

/-!
# Polling a line

A line has one level in each clock cycle. Its edges cut time into phases, in which the level alternates: phase `p` goes
from `edge p` up to `edge (p + 1)`, and the line is high in the odd ones. A receiver waits for each phase in turn by
taking a sample every `d` cycles. It sees every phase exactly once if it gets to waiting for a phase before the one
after it begins, whatever the rate of the line is. If it does not take two samples within `d` cycles, it sees no more
low phases than there are windows of `d` cycles that contain them.
-/

namespace Clocked

variable {line : Nat → Bool} {edge : Nat → Nat} {d lag p s : Nat}

/-- The level of a phase. -/
def phaseLevel (p : Nat) : Bool := decide (p % 2 = 1)

theorem phaseLevel_succ (p : Nat) : phaseLevel (p + 1) = !phaseLevel p := by
  unfold phaseLevel
  rw [← decide_not]
  exact decide_eq_decide.mpr (by omega)

/-- The line has the level of phase `p` between its two edges. -/
def HasPhase (line : Nat → Bool) (edge : Nat → Nat) (p : Nat) : Prop :=
  ∀ τ, edge p ≤ τ → τ < edge (p + 1) → line τ = phaseLevel p

/-- The first sample for phase `p` is in cycle `s`: phase `p` has not passed, and it began at most `lag` cycles ago. -/
structure InStep (line : Nat → Bool) (edge : Nat → Nat) (lag p s : Nat) : Prop where
  before : ∀ τ, s ≤ τ → τ < edge p → line τ = !phaseLevel p
  late : s ≤ edge p + lag

/-- The sample `k` is the first one that sees the phase. -/
structure Detects (line : Nat → Bool) (d p s k : Nat) : Prop where
  seen : line (s + d * k) = phaseLevel p
  first : ∀ j < k, line (s + d * j) = !phaseLevel p

/-- A receiver that is in step detects the phase, at most `lag` cycles after it began. -/
theorem InStep.detects (h : InStep line edge lag p s) (hd : 0 < d) (hlag : d ≤ lag + 1)
    (hphase : HasPhase line edge p) (hlong : edge p + lag < edge (p + 1)) :
    ∃ k, Detects line d p s k ∧ edge p ≤ s + d * k ∧ s + d * k ≤ edge p + lag := by
  -- the first sample that is not before the phase
  have hsome : ∃ k, edge p ≤ s + d * k := ⟨edge p, Nat.le_trans (Nat.le_mul_of_pos_left _ hd) (Nat.le_add_left _ _)⟩
  refine ⟨Nat.find hsome, ?_⟩
  have hge := Nat.find_spec hsome
  have hle : s + d * Nat.find hsome ≤ edge p + lag := by
    cases hk : Nat.find hsome with
    | zero =>
      have := h.late
      omega
    | succ k =>
      have hlt := Nat.find_min hsome (m := k) (by omega)
      rw [Nat.mul_succ]
      omega
  refine ⟨⟨hphase _ hge (by omega), fun j hj => ?_⟩, hge, hle⟩
  exact h.before _ (Nat.le_add_right _ _) (Nat.not_le.mp (Nat.find_min hsome hj))

/-- A receiver is in step with the next phase if its first sample for it comes after this phase began, and at most
`lag` cycles after this phase ended. -/
theorem HasPhase.next {s' : Nat} (hphase : HasPhase line edge p) (h1 : edge p ≤ s') (h2 : s' ≤ edge (p + 1) + lag) :
    InStep line edge lag (p + 1) s' := by
  refine ⟨fun τ hlo hhi => ?_, h2⟩
  rw [phaseLevel_succ, Bool.not_not]
  exact hphase τ (Nat.le_trans h1 hlo) hhi

/-! ## Windows -/

/-- Samples that are at least `d` cycles apart, each one in one of the windows of `d` cycles: there are at least as many
windows. -/
theorem length_le_windows {samples starts : List Nat} (hapart : samples.Pairwise fun s s' => s' + d ≤ s)
    (hin : ∀ s ∈ samples, ∃ u ∈ starts, u ≤ s ∧ s < u + d) : samples.length ≤ starts.length := by
  induction samples generalizing starts with
  | nil => exact Nat.zero_le _
  | cons s samples ih =>
    obtain ⟨hs, hapart⟩ := List.pairwise_cons.mp hapart
    obtain ⟨u, hu, hlo, hhi⟩ := hin s List.mem_cons_self
    -- the others are in other windows
    have hrest : samples.length ≤ (starts.erase u).length := by
      refine ih hapart fun s' hs' => ?_
      obtain ⟨u', hu', hlo', hhi'⟩ := hin s' (List.mem_cons_of_mem _ hs')
      have hd := hs s' hs'
      exact ⟨u', (List.mem_erase_of_ne (by omega)).mpr hu', hlo', hhi'⟩
    have hpos := List.length_pos_of_mem hu
    rw [List.length_erase_of_mem hu] at hrest
    rw [List.length_cons]
    omega

end Clocked
