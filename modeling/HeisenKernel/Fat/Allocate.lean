import HeisenKernel.Fat.Calls
import HeisenKernel.Fat.Mount

/-!
# The search for a free cluster

`AllocateCluster` looks at the clusters from `startSearchCluster` on and below `totalClusters`: it
does not find the ones in front of the start and the two last ones of the volume.
-/

namespace HeisenKernel.Geometry

open Nat

theorem allocateCluster_refused (h2 : s.startSearchCluster < 2) (hlt : s.startSearchCluster < g.totalClusters)
    : allocateCluster g s = .ok (s.startSearchCluster, s) := by
  show allocateFrom g (g.totalClusters - s.startSearchCluster) s.startSearchCluster s = _
  rw [show g.totalClusters - s.startSearchCluster = g.totalClusters - s.startSearchCluster - 1 + 1 by omega,
    allocateFrom, FatM.bind_eq (readTable_refused (.inl h2)), if_pos rfl]
  exact (FatM.bind_eq (modify_eq _)).trans (FatM.bind_eq (writeTable_refused (.inl h2)))

theorem search_cases (hs : s.Works) (h2 : 2 ≤ s.startSearchCluster) :
    (∃ c, g.FirstFree s c) ∨ g.Full s ∨ allocateCluster g s = .error .memory := by
  classical
  by_cases hstop : ∃ d, s.startSearchCluster ≤ d ∧ d < g.totalClusters ∧ ¬(g.Readable d ∧ g.table s d ≠ 0)
  · obtain ⟨hle, hlt, hd⟩ := Nat.find_spec hstop
    have htaken : ∀ d, s.startSearchCluster ≤ d → d < Nat.find hstop → g.Readable d ∧ g.table s d ≠ 0 := by
      intro d hd hlt'
      by_contra hnot
      exact Nat.find_min hstop hlt' ⟨hd, hlt'.trans hlt, hnot⟩
    by_cases hread : g.Readable (Nat.find hstop)
    · refine .inl ⟨_, hle, hlt, by_contra fun h => hd ⟨hread, h⟩, fun d hd hlt' => (htaken d hd hlt').2, ?_⟩
      intro d hd hle'
      rcases eq_or_lt_of_le hle' with rfl | hlt'
      · exact hread
      · exact (htaken d hd hlt').1
    · exact .inr (.inr (allocateCluster_crossing hs hle (h2.trans hle) hlt hread htaken))
  · exact .inr (.inl fun d hd hlt => by_contra fun hnot => hstop ⟨d, hd, hlt, hnot⟩)

/-- What `AllocateCluster` is for: it takes a free cluster and marks it, and gives up only when there is none. -/
def Allocates (g : Geometry) (s : Fat) : Prop :=
  ((∃ d, g.IsCluster d ∧ g.table s d = 0) → ∃ c s', allocateCluster g s = .ok (c, s') ∧
    g.IsCluster c ∧ g.table s c = 0 ∧ g.table s' c = g.clusterEnd ∧
    ∀ d, g.IsCluster d → d ≠ c → g.table s' d = g.table s d) ∧
  ((∀ d, g.IsCluster d → g.table s d ≠ 0) →
    ∃ s', allocateCluster g s = .ok (0, s') ∧ ∀ d, g.IsCluster d → g.table s' d = g.table s d)

/-- The search starts in front of a free cluster that it looks at, if there is any free one; if there is none it
looks at no number below 2 but 0. -/
def Findable (g : Geometry) (s : Fat) : Prop :=
  ((∃ d, g.IsCluster d ∧ g.table s d = 0) → 2 ≤ s.startSearchCluster ∧ ∃ c, g.FirstFree s c) ∧
  ((∀ d, g.IsCluster d → g.table s d ≠ 0) → s.startSearchCluster = 0 ∨ g.totalClusters ≤ s.startSearchCluster ∨
    2 ≤ s.startSearchCluster ∧ ∀ d, s.startSearchCluster ≤ d → d < g.totalClusters → g.Readable d)

theorem allocates_iff (g : Geometry) (s : Fat) (hg : g.WellFormed) (hs : s.Works) :
    g.Allocates s ↔ g.Findable s := by
  have hbehind : g.totalClusters ≤ s.startSearchCluster → allocateCluster g s = .ok (0, s) :=
    fun hle => allocateCluster_full hs fun d hd hlt => absurd (hd.trans_lt hlt) (not_lt.2 hle)
  constructor
  · rintro ⟨hfree, hnone⟩
    refine ⟨fun h => ?_, fun h => ?_⟩
    · obtain ⟨c, s', heq, hc, -⟩ := hfree h
      have h2 : 2 ≤ s.startSearchCluster := by
        by_contra hlt
        rcases lt_or_ge s.startSearchCluster g.totalClusters with hT | hT
        · rw [allocateCluster_refused (not_le.1 hlt) hT] at heq
          cases heq
          exact hlt hc.1
        · rw [hbehind hT] at heq
          cases heq
          exact absurd hc.1 (by decide)
      refine ⟨h2, ?_⟩
      rcases search_cases hs h2 with hfirst | hfull | hfault
      · exact hfirst
      · rw [allocateCluster_full hs hfull] at heq
        cases heq
        exact absurd hc.1 (by decide)
      · rw [hfault] at heq
        cases heq
    · obtain ⟨s', heq, -⟩ := hnone h
      rcases lt_or_ge s.startSearchCluster g.totalClusters with hT | hT
      · rcases lt_or_ge s.startSearchCluster 2 with hlt | h2
        · rw [allocateCluster_refused hlt hT] at heq
          exact .inl (congrArg Prod.fst (Except.ok.inj heq))
        · rcases search_cases hs h2 with ⟨c, hc⟩ | hfull | hfault
          · exact absurd hc.free (h c ⟨h2.trans hc.start_le, le_succ_of_le (le_of_lt hc.lt_total)⟩)
          · exact .inr (.inr ⟨h2, fun d hd hlt => (hfull d hd hlt).1⟩)
          · rw [hfault] at heq
            cases heq
      · exact .inr (.inl hT)
  · rintro ⟨hfree, hnone⟩
    refine ⟨fun h => ?_, fun h => ?_⟩
    · obtain ⟨h2, c, hc⟩ := hfree h
      exact ⟨c, _, allocateCluster_eq hs hc, ⟨h2.trans hc.start_le, le_succ_of_le (le_of_lt hc.lt_total)⟩,
        hc.free, table_allocated hg hc.read, fun d hd hne => table_allocated_ne hg hc.read hd.2 hne⟩
    · refine ⟨s, ?_, fun _ _ => rfl⟩
      rcases lt_or_ge s.startSearchCluster g.totalClusters with hT | hT
      · rcases hnone h with h0 | hle | ⟨h2, hread⟩
        · rw [allocateCluster_refused (by omega) hT, h0]
        · exact hbehind hle
        · exact allocateCluster_full hs fun d hd hlt =>
            ⟨hread d hd hlt, h d ⟨h2.trans hd, le_succ_of_le (le_of_lt hlt)⟩⟩
      · exact hbehind hT

theorem allocates_emptyTable : smallFat32.FirstFree (rootVolume emptyTable []) 3 ∧
    smallFat32.Allocates (rootVolume emptyTable []) := by
  obtain ⟨run, h⟩ := rootVolume_creatable emptyTable (by decide) (by decide)
  have hs : (rootVolume emptyTable []).Works := rfl
  refine ⟨h.free, (allocates_iff _ _ smallFat32_wellFormed hs).2 ⟨fun _ => ⟨by decide, 3, h.free⟩, ?_⟩⟩
  exact fun hnone => absurd h.free.free (hnone 3 (by decide))

/-- Only the cluster 3 is free, and the FSInfo sector lets the search start at 4. -/
def lateSearch : Fat := { rootVolume fullTable [] with startSearchCluster := searchStart .fat32 4 }

theorem allocateCluster_misses : smallFat32.IsCluster 3 ∧ smallFat32.table lateSearch 3 = 0 ∧
    ¬smallFat32.Allocates lateSearch := by
  have htable : ∀ d ≤ 65526, smallFat32.table lateSearch d = fullTable d % 2 ^ 28 := rootVolume_table
  have hfree : smallFat32.table lateSearch 3 = 0 := htable 3 (by decide)
  refine ⟨by decide, hfree, fun h => ?_⟩
  obtain ⟨c, s', heq, hc, -⟩ := h.1 ⟨3, by decide, hfree⟩
  have hfull : smallFat32.Full lateSearch := by
    intro d hd hlt
    have h4 : 4 ≤ d := hd
    have hle : d ≤ 65525 := le_of_lt hlt
    refine ⟨readable_of_ne_fat12 smallFat32_wellFormed (by decide) (by omega) hle, ?_⟩
    rw [htable d (by omega), fullTable, if_neg (by omega)]
    decide
  have hs : lateSearch.Works := rfl
  rw [allocateCluster_full hs hfull] at heq
  cases heq
  exact absurd hc.1 (by decide)

end HeisenKernel.Geometry
