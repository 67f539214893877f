import Mathlib.Data.List.Chain
import Mathlib.Data.List.Perm.Subperm
import Mathlib.Data.List.Range

/-!
# Neighbours in a list of blocks

A list that is put together from non-empty blocks has its neighbours inside the blocks and at the
ends of consecutive blocks. Blocks of a range can be replaced by others that lie where they lay.
-/

namespace HeisenKernel.Lib

theorem isChain_flatMap {α β : Type*} {R : β → β → Prop} {f : α → List β} {l : List α}
    (hblock : ∀ a ∈ l, (f a).IsChain R) (hne : ∀ a ∈ l, f a ≠ [])
    (hlink : l.IsChain fun a b => ∀ x ∈ (f a).getLast?, ∀ y ∈ (f b).head?, R x y) :
    (l.flatMap f).IsChain R := by
  rw [List.flatMap_def, List.isChain_flatten (by simpa using hne)]
  exact ⟨List.forall_mem_map.2 hblock, (List.isChain_map f).2 hlink⟩

/-- The blocks `l`, from `lo` to `hi`, lie in `[start, stop)` in increasing order and without overlap, and
each satisfies `P`. -/
structure Spans (lo hi : α → Nat) (P : α → Prop) (start stop : Nat) (l : List α) : Prop where
  ordered : l.Pairwise fun a b => hi a ≤ lo b
  bounds : ∀ a ∈ l, start ≤ lo a ∧ hi a ≤ stop
  each : ∀ a ∈ l, P a

theorem Spans.disjoint (h : Spans lo hi P start stop l) (ha : a ∈ l) (hb : b ∈ l) (hne : a ≠ b) :
    hi a ≤ lo b ∨ hi b ≤ lo a := by
  have hsymm : Std.Symm fun a b => hi a ≤ lo b ∨ hi b ≤ lo a := ⟨fun _ _ h => h.symm⟩
  have hp : l.Pairwise fun a b => hi a ≤ lo b ∨ hi b ≤ lo a := h.ordered.imp fun h => .inl h
  exact hp.forall ha hb hne

theorem length_le_of_below {l : List Nat} (hnodup : l.Nodup) (h : ∀ a ∈ l, a < n) : l.length ≤ n := by
  have hsub : l ⊆ List.range n := fun a ha => List.mem_range.2 (h a ha)
  simpa using (hnodup.subperm hsub).length_le

theorem Spans.length_le (h : Spans lo hi P start stop l) (hlt : ∀ a, lo a < hi a) : l.length ≤ stop := by
  rw [← List.length_map lo]
  refine length_le_of_below ?_ (List.forall_mem_map.2 fun a ha => (hlt a).trans_le (h.bounds a ha).2)
  exact List.pairwise_map.2 (h.ordered.imp fun {a b} hab => ((hlt a).trans_le hab).ne)

theorem Spans.replace (h : Spans lo hi P start stop (l₁ ++ (m ++ l₂))) (hx : x ∈ m)
    (hy : y ∈ m) (hnew : Spans lo hi P (lo x) (hi y) new) : Spans lo hi P start stop (l₁ ++ (new ++ l₂)) := by
  obtain ⟨h₁, h₂, h₁₂⟩ := List.pairwise_append.1 h.ordered
  obtain ⟨-, h₂, hm⟩ := List.pairwise_append.1 h₂
  have hmem : ∀ a ∈ l₁ ++ (new ++ l₂), a ∈ l₁ ++ (m ++ l₂) ∨ a ∈ new := by
    simp only [List.mem_append]
    tauto
  refine ⟨List.pairwise_append.2 ⟨h₁, List.pairwise_append.2 ⟨hnew.ordered, h₂, fun a ha b hb => ?_⟩,
    fun a ha b hb => ?_⟩, fun a ha => ?_, fun a ha => (hmem a ha).elim (h.each a) (hnew.each a)⟩
  · exact (hnew.bounds a ha).2.trans (hm y hy b hb)
  · rcases List.mem_append.1 hb with hb | hb
    · exact (h₁₂ a ha x (by simp [hx])).trans (hnew.bounds b hb).1
    · exact h₁₂ a ha b (by simp [hb])
  · refine (hmem a ha).elim (h.bounds a) fun ha => ⟨?_, ?_⟩
    · exact (h.bounds x (by simp [hx])).1.trans (hnew.bounds a ha).1
    · exact (hnew.bounds a ha).2.trans (h.bounds y (by simp [hy])).2

end HeisenKernel.Lib
