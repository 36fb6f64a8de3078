import Mathlib.Tactic.Common
import Pineapple.Machine.Env
import Pineapple.Machine.Proofs.StepProofs

/-!
# Proofs: paths of a program are runs of the chip

A path of an environment that agrees with the chip is taken by the chip, and an observer of the chip's
fetches sees exactly what the path emits.
-/

namespace Pineapple

open Rv32i (Instr Word)

namespace Top

variable {rom : Rom} {inp : Nat → Inputs} {s : Nat → Top} {O : Type} {out : Nat × Arch → List O}

theorem emitted_self (t : Nat) : emitted s out t t = [] := by
  rw [emitted, Nat.sub_self]
  rfl

theorem emitted_append {t t' t'' : Nat} (h : t ≤ t') (h' : t' ≤ t'') :
    emitted s out t t'' = emitted s out t t' ++ emitted s out t' t'' := by
  have hlen : t'' - t = (t' - t) + (t'' - t') := by omega
  have hmid : t + 1 * (t' - t) = t' := by omega
  rw [emitted, hlen, ← List.range'_append, List.flatMap_append, hmid]
  rfl

theorem emitted_prefix {t t' t'' : Nat} (h : t' ≤ t'') : emitted s out t t' <+: emitted s out t t'' := by
  by_cases ht : t ≤ t'
  · exact ⟨_, (emitted_append ht h).symm⟩
  · have hnil : emitted s out t t' = [] := by
      rw [emitted, show t' - t = 0 by omega]
      rfl
    rw [hnil]
    exact List.nil_prefix

/-- Nothing is emitted exactly if every fetch is at a state the observer does not see. -/
theorem emitted_eq_nil {t t' : Nat} : emitted s out t t' = [] ↔
    ∀ τ, t ≤ τ → τ < t' → (s τ).core.state = .fetch → out (τ, (s τ).arch) = [] := by
  rw [emitted, List.flatMap_eq_nil_iff]
  constructor
  · intro h τ h1 h2 hf
    have := h τ (List.mem_range'_1.mpr ⟨h1, by omega⟩)
    rwa [if_pos hf] at this
  · intro h τ hτ
    obtain ⟨h1, h2⟩ := List.mem_range'_1.mp hτ
    split
    · exact h τ h1 (by omega) ‹_›
    · rfl

/-- One instruction emits what the observer sees of the state it starts from. -/
theorem emitted_nextFetch {t n : Nat} (hf : (s t).core.state = .fetch) (hn : NextFetch s t n)
    (hpos : 0 < n) : emitted s out t (t + n) = out (t, (s t).arch) := by
  rw [emitted_append (show t ≤ t + 1 by omega) (by omega)]
  have hrest : emitted s out (t + 1) (t + n) = [] := by
    rw [emitted_eq_nil]
    intro τ h1 h2 hτ
    exact absurd hτ (hn.not_fetch τ (by omega) h2)
  rw [hrest, List.append_nil, emitted, show t + 1 - t = 1 by omega]
  show ([t].flatMap _) = _
  rw [List.flatMap_singleton, if_pos hf]

theorem cycles_pos (a : Arch) (i : Instr) : 0 < a.cycles i := by
  unfold Arch.cycles
  omega

/-- The environment tells the instruction and the loaded word of the chip, whenever it is between two
instructions. -/
def Agrees (rom : Rom) (inp : Nat → Inputs) (s : Nat → Top) (e : Env) : Prop :=
  ∀ t a i, At s t a → e.instr t a = some i →
    (Env.chip rom inp).instr t a = some i ∧ (Env.chip rom inp).load t a i = e.load t a i

theorem agrees_chip : Agrees rom inp s (Env.chip rom inp) := fun _ _ _ _ hi => ⟨hi, rfl⟩

/-- A step of the environment is taken by the chip. -/
theorem steps_of_agrees (hs : Run rom inp s) (h0 : AtFetch (s 0)) {e : Env}
    (he : Agrees rom inp s e) {t : Nat} {a : Arch} {i : Instr} (hat : At s t a)
    (hi : e.instr t a = some i) :
    At s (t + a.cycles i) (a.exec i (e.load t a i)) ∧ Steps s t a i (e.load t a i) := by
  obtain ⟨hinstr, hload⟩ := he t a i hat hi
  obtain ⟨hstate, rfl⟩ := hat
  obtain ⟨hf, hst⟩ := run_step hs (atFetch_of_state hs h0 hstate) hinstr
  rw [show loaded rom inp t (s t).arch i = _ from hload] at hst
  exact ⟨⟨hf.state, hst.arch⟩, hst⟩

/-- A path of the environment is taken by the chip, and an observer sees what the path emits. -/
theorem run_path (hs : Run rom inp s) (h0 : AtFetch (s 0)) {e : Env} (he : Agrees rom inp s e)
    {c c' : Nat × Arch} {os : List O} (hp : Clocked.Path e.step out c os c') (hat : At s c.1 c.2) :
    At s c'.1 c'.2 ∧ c.1 ≤ c'.1 ∧ emitted s out c.1 c'.1 = os := by
  induction hp with
  | nil c => exact ⟨hat, le_rfl, emitted_self _⟩
  | cons hstep _ ih =>
    rename_i c c' c'' os _
    obtain ⟨i, hi, rfl⟩ := Option.map_eq_some_iff.mp hstep
    obtain ⟨hat', hst⟩ := steps_of_agrees hs h0 he hat hi
    obtain ⟨h1, h2, h3⟩ := ih hat'
    have hle : c.1 ≤ c.1 + c.2.cycles i := Nat.le_add_right _ _
    refine ⟨h1, hle.trans h2, ?_⟩
    rw [emitted_append hle h2, h3, emitted_nextFetch hat.state hst.next (cycles_pos _ _), hat.arch]

end Top

end Pineapple
