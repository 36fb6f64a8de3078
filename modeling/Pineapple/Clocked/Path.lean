import Mathlib.Logic.Function.Iterate
import Mathlib.Logic.Relation

/-!
# Paths of a deterministic machine, with what they emit

A machine that may get stuck is a function `step : S → Option S`. A path records what an observer `out`
sees of the states it leaves; a path that emits nothing avoids every state the observer sees.
-/

namespace Clocked

variable {S O : Type*} (step : S → Option S) (out : S → List O)

/-- The machine goes from the first state to the last and emits the list. -/
inductive Path : S → List O → S → Prop where
  | nil (s : S) : Path s [] s
  | cons {s s' s'' : S} {os : List O} (h : step s = some s') (rest : Path s' os s'') :
      Path s (out s ++ os) s''

variable {step out}

theorem Path.single {s s' : S} (h : step s = some s') : Path step out s (out s) s' := by
  have : Path step out s (out s ++ []) s' := .cons h (.nil s')
  rwa [List.append_nil] at this

/-- One step, with what it emits. -/
theorem Path.one {s s' : S} {os : List O} (h : step s = some s') (ho : out s = os) : Path step out s os s' :=
  ho ▸ .single h

theorem Path.trans {s s' s'' : S} {os os' : List O} (h : Path step out s os s')
    (h' : Path step out s' os' s'') : Path step out s (os ++ os') s'' := by
  induction h with
  | nil s => exact h'
  | cons hs _ ih =>
    rw [List.append_assoc]
    exact .cons hs (ih h')

/-- An observer that sees only some of it. -/
theorem Path.filterMap {O' : Type*} (f : O → Option O') {s s' : S} {os : List O} (h : Path step out s os s') :
    Path step (fun s => (out s).filterMap f) s (os.filterMap f) s' := by
  induction h with
  | nil s => exact .nil s
  | cons hs _ ih =>
    rw [List.filterMap_append]
    exact .cons hs ih

/-- Where an invariant holds, the steps of a machine are paths of another one: then so are its paths. -/
theorem Path.simulate {S' : Type*} {step' : S' → Option S'} {out' : S' → List O} {f : S → S'} {Inv : S → Prop}
    (hstep : ∀ s s', Inv s → step s = some s' → Inv s' ∧ Path step' out' (f s) (out s) (f s')) {s s' : S}
    {os : List O} (h : Path step out s os s') (h0 : Inv s) : Inv s' ∧ Path step' out' (f s) os (f s') := by
  induction h with
  | nil s => exact ⟨h0, .nil _⟩
  | cons hs _ ih =>
    obtain ⟨h1, hp⟩ := hstep _ _ h0 hs
    obtain ⟨h2, hp'⟩ := ih h1
    exact ⟨h2, hp.trans hp'⟩

/-- The states that are reached from `s`. -/
def Reaches (step : S → Option S) : S → S → Prop := Relation.ReflTransGen fun s s' => step s = some s'

/-- A machine that gets stuck in no state it reaches runs forever. -/
theorem exists_run {s : S} (h : ∀ s', Reaches step s s' → ∃ s'', step s' = some s'') :
    ∃ c : Nat → S, c 0 = s ∧ ∀ n, step (c n) = some (c (n + 1)) ∧ Reaches step s (c n) := by
  refine ⟨fun n => (fun s => (step s).getD s)^[n] s, rfl, fun n => ?_⟩
  have hreach : Reaches step s ((fun s => (step s).getD s)^[n] s) := by
    induction n with
    | zero => exact .refl
    | succ n ih =>
      obtain ⟨s'', hs⟩ := h _ ih
      rw [Function.iterate_succ_apply', hs, Option.getD_some]
      exact ih.tail hs
  refine ⟨?_, hreach⟩
  obtain ⟨s'', hs⟩ := h _ hreach
  show step ((fun s => (step s).getD s)^[n] s) = some ((fun s => (step s).getD s)^[n + 1] s)
  rw [Function.iterate_succ_apply', hs, Option.getD_some]

/-- The beginning of a run is a path. -/
theorem Path.of_run {c : Nat → S} (h : ∀ n, step (c n) = some (c (n + 1))) (n : Nat) :
    Path step out (c 0) ((List.range n).flatMap fun k => out (c k)) (c n) := by
  induction n with
  | zero => exact .nil _
  | succ n ih =>
    rw [List.range_succ, List.flatMap_append, List.flatMap_singleton]
    exact ih.trans (.single (h n))

/-- A path of steps that emit nothing. -/
def Silent (step : S → Option S) (out : S → List O) (s s' : S) : Prop := Path step out s [] s'

theorem Silent.refl (s : S) : Silent step out s s := .nil s

theorem Silent.trans {s s' s'' : S} (h : Silent step out s s') (h' : Silent step out s' s'') :
    Silent step out s s'' := Path.trans h h'

/-- Steps that emit nothing before a path. -/
theorem Silent.path {s s' s'' : S} {os : List O} (h : Silent step out s s') (h' : Path step out s' os s'') :
    Path step out s os s'' := Path.trans h h'

/-- Steps that emit nothing after a path. -/
theorem Path.silent {s s' s'' : S} {os : List O} (h : Path step out s os s') (h' : Silent step out s' s'') :
    Path step out s os s'' := by
  have hp := h.trans h'
  rwa [List.append_nil] at hp

theorem Silent.cons {s s' s'' : S} (h : step s = some s') (ho : out s = [])
    (rest : Silent step out s' s'') : Silent step out s s'' := by
  have : Path step out s (out s ++ []) s'' := .cons h rest
  rwa [ho, List.nil_append] at this

theorem Silent.single {s s' : S} (h : step s = some s') (ho : out s = []) :
    Silent step out s s' := .cons h ho (.refl s')

end Clocked
