import Mathlib.Data.Set.Lattice
import Mathlib.Data.List.Perm.Basic
import Mathlib.Order.CompletePartialOrder

/-!
# Lists of disjoint sets

`Tiles f l S` says that the sets `f a` of the entries `a` of `l` are pairwise disjoint and make up
`S`. The lemmas build such lists up and replace one entry by a list that tiles what is left of it.
-/

namespace HeisenKernel.Lib

variable {α β : Type}

/-- The sets of the entries of `l` are pairwise disjoint and their union is `S`. -/
structure Tiles (f : α → Set β) (l : List α) (S : Set β) : Prop where
  disjoint : l.Pairwise fun a b => Disjoint (f a) (f b)
  mem_iff : ∀ b, b ∈ S ↔ ∃ a ∈ l, b ∈ f a

namespace Tiles

theorem nil : Tiles f [] ∅ := ⟨List.Pairwise.nil, by simp⟩

theorem singleton (a : α) : Tiles f [a] (f a) := ⟨List.pairwise_singleton _ _, by simp⟩

theorem congr (h : Tiles f l S) (e : S = T) : Tiles f l T := e ▸ h

theorem subset (h : Tiles f l S) (ha : a ∈ l) : f a ⊆ S :=
  fun b hb => (h.mem_iff b).2 ⟨a, ha, hb⟩

theorem append (hl : Tiles f l S) (hm : Tiles f m T) (hd : Disjoint S T) : Tiles f (l ++ m) (S ∪ T) := by
  refine ⟨List.pairwise_append.2 ⟨hl.disjoint, hm.disjoint, fun a ha b hb => ?_⟩, fun b => ?_⟩
  · exact hd.mono (hl.subset ha) (hm.subset hb)
  · simp only [Set.mem_union, hl.mem_iff, hm.mem_iff, List.mem_append, or_and_right, exists_or]

theorem perm (h : Tiles f l S) (hp : l.Perm m) : Tiles f m S :=
  ⟨(hp.pairwise_iff fun hab => hab.symm).1 h.disjoint, fun b => by simp only [h.mem_iff, hp.mem_iff]⟩

theorem tail (h : Tiles f (a :: l) S) : Tiles f l (S \ f a) := by
  obtain ⟨ha, hl⟩ := List.pairwise_cons.1 h.disjoint
  refine ⟨hl, fun b => ?_⟩
  rw [Set.mem_sdiff, h.mem_iff]
  constructor
  · rintro ⟨⟨c, hc, hbc⟩, hba⟩
    rcases List.mem_cons.1 hc with rfl | hc
    · exact absurd hbc hba
    · exact ⟨c, hc, hbc⟩
  · rintro ⟨c, hc, hbc⟩
    exact ⟨⟨c, List.mem_cons_of_mem _ hc, hbc⟩, fun hba => Set.disjoint_left.1 (ha c hc) hba hbc⟩

theorem replace (h : Tiles f l S) (hi : i < l.length) (hm : Tiles f m (f l[i] \ T)) :
    Tiles f (l.eraseIdx i ++ m) (S \ (f l[i] ∩ T)) := by
  have hrest : Tiles f (l.eraseIdx i) (S \ f l[i]) := (h.perm (List.getElem_cons_eraseIdx_perm hi).symm).tail
  have hd : Disjoint (S \ f l[i]) (f l[i] \ T) := Set.disjoint_left.2 fun b hb hb' => hb.2 hb'.1
  refine (hrest.append hm hd).congr ?_
  ext b
  have hsub : b ∈ f l[i] → b ∈ S := fun hb => h.subset (List.getElem_mem hi) hb
  simp only [Set.mem_union, Set.mem_sdiff, Set.mem_inter_iff]
  tauto

end Tiles

end HeisenKernel.Lib
