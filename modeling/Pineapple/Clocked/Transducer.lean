import Mathlib.Data.List.Basic
import Mathlib.Tactic.Common

/-!
# Transducers

A transducer has a state, and for each item of its input it emits a list. A program that handles one item after the
other is correct if it emits what a transducer does. `traced` also emits the items, so that what a program has read and
what it has emitted so far can be compared at any time.
-/

namespace Clocked

structure Transducer (σ α β : Type*) where
  next : σ → α → σ
  emits : σ → α → List β

namespace Transducer

variable {σ α β γ : Type*} (M : Transducer σ α β)

/-- The state after a list of items. -/
def after (s : σ) (as : List α) : σ := as.foldl M.next s

/-- What a list of items makes the transducer emit. -/
def outputs : σ → List α → List β
  | _, [] => []
  | s, a :: as => M.emits s a ++ outputs (M.next s a) as

/-- The transducer that emits each item, seen through `f`, before what the item gives. -/
def traced (f : α → γ) : Transducer σ α (γ ⊕ β) where
  next := M.next
  emits s a := .inl (f a) :: (M.emits s a).map .inr

variable {M} {s : σ} {f : α → γ}

theorem after_append (as bs : List α) : M.after s (as ++ bs) = M.after (M.after s as) bs := List.foldl_append

theorem outputs_append (as bs : List α) : M.outputs s (as ++ bs) = M.outputs s as ++ M.outputs (M.after s as) bs := by
  induction as generalizing s with
  | nil => rfl
  | cons a as ih =>
    rw [List.cons_append, outputs, outputs, ih, List.append_assoc]
    rfl

theorem traced_emits (a : α) : (M.traced f).emits s a = .inl (f a) :: (M.emits s a).map .inr := rfl

theorem traced_outputs_cons (a : α) (as : List α) : (M.traced f).outputs s (a :: as) =
    .inl (f a) :: ((M.emits s a).map .inr ++ (M.traced f).outputs (M.next s a) as) := by
  rw [outputs]
  rfl

/-- What the transducer itself emits. -/
theorem filterMap_traced (as : List α) :
    ((M.traced f).outputs s as).filterMap Sum.getRight? = M.outputs s as := by
  induction as generalizing s with
  | nil => rfl
  | cons a as ih =>
    have hright : ((M.emits s a).map (Sum.inr : β → γ ⊕ β)).filterMap Sum.getRight? = M.emits s a := by
      rw [List.filterMap_map]
      exact List.filterMap_some
    rw [traced_outputs_cons, List.filterMap_cons_none rfl, List.filterMap_append, hright, ih, outputs]

/-- A part of what has been emitted so far is what the items give that have been read so far, but for the end of what
the last item gives. -/
theorem prefix_traced {l : List (γ ⊕ β)} {as : List α} (h : l <+: (M.traced f).outputs s as) :
    ∃ n, l <+: (M.traced f).outputs s (as.take n) ∧ l.filterMap Sum.getLeft? = (as.take n).map f := by
  induction as generalizing s l with
  | nil =>
    obtain rfl := List.prefix_nil.mp h
    exact ⟨0, List.nil_prefix, rfl⟩
  | cons a as ih =>
    cases l with
    | nil => exact ⟨0, List.nil_prefix, rfl⟩
    | cons x l =>
      rw [traced_outputs_cons] at h
      obtain ⟨rfl, hrest⟩ : x = .inl (f a) ∧ l <+: (M.emits s a).map Sum.inr ++ (M.traced f).outputs (M.next s a) as :=
        List.cons_prefix_cons.mp h
      have hputs : ∀ vs : List β, (vs.map (Sum.inr : β → γ ⊕ β)).filterMap Sum.getLeft? = [] := by
        intro vs
        rw [List.filterMap_map]
        exact List.filterMap_eq_nil_iff.mpr fun _ _ => rfl
      have hitem : ∀ (c : γ) (l : List (γ ⊕ β)),
          (Sum.inl c :: l).filterMap Sum.getLeft? = c :: l.filterMap Sum.getLeft? := fun _ _ => rfl
      by_cases hlen : l.length ≤ ((M.emits s a).map (Sum.inr : β → γ ⊕ β)).length
      · -- still in what `a` gives
        have hl : l <+: (M.emits s a).map Sum.inr := List.prefix_of_prefix_length_le hrest (List.prefix_append _ _) hlen
        refine ⟨1, ?_, ?_⟩
        · rw [List.take_succ_cons, List.take_zero, traced_outputs_cons, outputs, List.append_nil]
          exact List.cons_prefix_cons.mpr ⟨rfl, hl⟩
        · rw [List.take_succ_cons, List.take_zero, hitem]
          obtain ⟨k, rfl⟩ : ∃ k, l = ((M.emits s a).map Sum.inr).take k := ⟨l.length, List.prefix_iff_eq_take.mp hl⟩
          rw [← List.map_take, hputs]
          rfl
      · obtain ⟨l', rfl⟩ : ∃ l', l = (M.emits s a).map Sum.inr ++ l' := by
          obtain ⟨l', hl'⟩ := List.prefix_of_prefix_length_le (List.prefix_append _ _) hrest (by omega)
          exact ⟨l', hl'.symm⟩
        obtain ⟨n, hpre, hleft⟩ := ih ((List.prefix_append_right_inj _).mp hrest)
        refine ⟨n + 1, ?_, ?_⟩
        · rw [List.take_succ_cons, traced_outputs_cons]
          exact List.cons_prefix_cons.mpr ⟨rfl, (List.prefix_append_right_inj _).mpr hpre⟩
        · rw [List.take_succ_cons, hitem, List.filterMap_append, hputs, List.nil_append, hleft]
          rfl

end Transducer

end Clocked
