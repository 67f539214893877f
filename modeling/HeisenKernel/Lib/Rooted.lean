import Mathlib.Data.Option.Basic

/-!
# Rooted trees given by their edges

A relation `edge o a` says that `a` is a child of the node `o`, where `none` stands for the root.
`Within edge n o`: `n` edges lead from the root to the node.
-/

namespace HeisenKernel.Lib

variable {α : Type*} {edge : Option α → α → Prop} {o : Option α} {n : Nat}

/-- `Within edge n o`: the node is `n` edges away from the root. -/
inductive Within (edge : Option α → α → Prop) : Nat → Option α → Prop
  | root : Within edge 0 none
  | child {n : Nat} {o : Option α} {a : α} : Within edge n o → edge o a → Within edge (n + 1) (some a)

/-- The node is reached from the root. -/
def Node (edge : Option α → α → Prop) (o : Option α) : Prop := ∃ n, Within edge n o

theorem Node.root : Node edge none := ⟨0, .root⟩

theorem Node.child {a : α} (h : Node edge o) (ha : edge o a) : Node edge (some a) := by
  obtain ⟨n, hn⟩ := h
  exact ⟨n + 1, hn.child ha⟩

theorem Node.parent (h : Node edge (some a)) : ∃ o, Node edge o ∧ edge o a := by
  obtain ⟨n, hn⟩ := h
  cases hn with
  | child ho ha => exact ⟨_, ⟨_, ho⟩, ha⟩

theorem Within.mono (h : ∀ o a, Node edge o → edge o a → edge' o a) (ho : Within edge n o) :
    Within edge' n o := by
  induction ho with
  | root => exact .root
  | child ho ha ih => exact ih.child (h _ _ ⟨_, ho⟩ ha)

theorem within_congr (h : ∀ o a, Node edge o → (edge' o a ↔ edge o a)) :
    Within edge' n o ↔ Within edge n o := by
  constructor
  · intro ho
    induction ho with
    | root => exact .root
    | child _ ha ih => exact ih.child ((h _ _ ⟨_, ih⟩).1 ha)
  · exact Within.mono fun o a ho ha => (h o a ho).2 ha

theorem node_insert (h0 : Node edge o0) (h : ∀ o a, Node edge o → (edge' o a ↔ edge o a ∨ o = o0 ∧ a = b))
    (hleaf : ∀ a, ¬edge' (some b) a) : Node edge' o ↔ Node edge o ∨ o = some b := by
  have hmono : ∀ {o}, Node edge o → Node edge' o := by
    rintro o ⟨n, ho⟩
    exact ⟨n, ho.mono fun o a ho ha => (h o a ho).2 (.inl ha)⟩
  constructor
  · rintro ⟨n, ho⟩
    induction ho with
    | root => exact .inl .root
    | @child _ o a _ ha ih =>
      rcases ih with ih | rfl
      · rcases (h o a ih).1 ha with ha | ⟨-, rfl⟩
        · exact .inl (ih.child ha)
        · exact .inr rfl
      · exact absurd ha (hleaf a)
  · rintro (ho | rfl)
    · exact hmono ho
    · exact (hmono h0).child ((h o0 b h0).2 (.inr ⟨rfl, rfl⟩))

theorem Within.unique (huniq : ∀ o o' a, Node edge o → Node edge o' → edge o a → edge o' a → o = o')
    (h : Within edge n o) (h' : Within edge m o) : n = m := by
  induction h generalizing m with
  | root =>
    cases h'
    rfl
  | child ho ha ih =>
    cases h' with
    | child ho' ha' =>
      obtain rfl := huniq _ _ _ ⟨_, ho⟩ ⟨_, ho'⟩ ha ha'
      rw [ih ho']

end HeisenKernel.Lib
