import Mathlib.Logic.Function.Iterate

/-!
# Clocked machines

A clocked machine is a function `step : S → I → S`: the state after one clock edge, from the state
before it and the inputs sampled at the edge. A run is a sequence of states, indexed by the clock
cycle, that follows `step` on a sequence of inputs.
-/

namespace Clocked

variable {S I : Type*} (step : S → I → S) (inp : Nat → I)

/-- `s` is a run of the machine on the inputs `inp`. -/
def Trace (s : Nat → S) : Prop := ∀ t, s (t + 1) = step (s t) (inp t)

/-- The run from a given initial state. -/
def run (s₀ : S) : Nat → S
  | 0 => s₀
  | t + 1 => step (run s₀ t) (inp t)

variable {step inp}

theorem trace_run (s₀ : S) : Trace step inp (run step inp s₀) := fun _ => rfl

/-- On a constant input, the first step can be taken apart from the rest of the run. -/
theorem run_succ (step : S → I → S) (i : I) (s₀ : S) (t : Nat) :
    run step (fun _ => i) s₀ (t + 1) = run step (fun _ => i) (step s₀ i) t := by
  induction t with
  | zero => rfl
  | succ t ih => rw [run, ih, run]

/-- The invariant rule: what holds initially and is kept by every step holds in every cycle. -/
theorem Trace.invariant {s : Nat → S} (h : Trace step inp s) {Inv : S → Prop} (h0 : Inv (s 0))
    (hstep : ∀ t, Inv (s t) → Inv (step (s t) (inp t))) (t : Nat) : Inv (s t) := by
  induction t with
  | zero => exact h0
  | succ t ih => rw [h t]; exact hstep t ih

end Clocked
