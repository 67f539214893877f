import Mathlib.Data.List.Basic

/-!
# Runs of labelled transition systems

`Run step s as t`: from the state `s` the steps `as`, in this order, lead to `t`.
-/

namespace HeisenKernel.Lib

/-- `Run step s as t`: the steps `as` lead from `s` to `t`. -/
inductive Run {σ α : Type*} (step : σ → α → σ → Prop) (s : σ) : List α → σ → Prop
  | nil : Run step s [] s
  | snoc {as : List α} {t u : σ} {a : α} : Run step s as t → step t a u → Run step s (as ++ [a]) u

variable {σ α : Type*} {step : σ → α → σ → Prop} {s t : σ}

/-- The steps of a system that meet the condition `P` on the state before them. -/
def guarded (P : σ → α → Prop) (step : σ → α → σ → Prop) : σ → α → σ → Prop :=
  fun s a t => P s a ∧ step s a t

theorem Run.of_snoc (h : Run step s (as ++ [a]) t) : ∃ u, Run step s as u ∧ step u a t := by
  generalize hbs : as ++ [a] = bs at h
  cases h with
  | nil => simp at hbs
  | @snoc as' u _ a' hrun ha =>
    obtain ⟨rfl, haa⟩ := List.append_inj' hbs rfl
    obtain rfl : a = a' := by simpa using haa
    exact ⟨u, hrun, ha⟩

theorem Run.unique (hdet : ∀ s a t u, step s a t → step s a u → t = u)
    (ht : Run step s as t) (hu : Run step s as u) : t = u := by
  induction ht generalizing u with
  | nil =>
    generalize hbs : ([] : List α) = bs at hu
    cases hu with
    | nil => rfl
    | snoc => simp at hbs
  | snoc _ ha ih =>
    obtain ⟨v, hv, hva⟩ := hu.of_snoc
    obtain rfl := ih hv
    exact hdet _ _ _ _ ha hva

theorem Run.append (h : Run step s as t) (h' : Run step t bs u) : Run step s (as ++ bs) u := by
  induction h' with
  | nil =>
    rw [List.append_nil]
    exact h
  | snoc _ ha ih =>
    rw [← List.append_assoc]
    exact ih.snoc ha

theorem Run.of_guarded (h : Run (guarded P step) s as t) : Run step s as t := by
  induction h with
  | nil => exact .nil
  | snoc _ ha ih => exact ih.snoc ha.2

theorem Run.invariant {I : σ → Prop} (h : Run step s as t) (hs : I s)
    (hstep : ∀ s a t, I s → step s a t → I t) : I t := by
  induction h with
  | nil => exact hs
  | snoc _ ha ih => exact hstep _ _ _ ih ha

end HeisenKernel.Lib
