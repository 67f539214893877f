import HeisenKernel.Fat.FreeRun

/-!
# The supply of free clusters

`AllocateCluster` takes the first free cluster from `startSearchCluster` on.
-/

namespace HeisenKernel

open List Geometry

/-- The next clusters that the driver takes, and it reads no entry that crosses the end of a sector
of the table on the way to them. -/
structure Supply (g : Geometry) (s : Fat) (l : List Nat) : Prop where
  sorted : l.Pairwise (· < ·)
  start_le : ∀ c ∈ l, s.startSearchCluster ≤ c
  lt_total : ∀ c ∈ l, c < g.totalClusters
  free_iff : ∀ c, s.startSearchCluster ≤ c → (∃ d ∈ l, c ≤ d) → (g.table s c = 0 ↔ c ∈ l)
  readable : ∀ c, s.startSearchCluster ≤ c → (∃ d ∈ l, c ≤ d) → g.Readable c

/-- The clusters are all the free ones of the search range. -/
def Exhausted (g : Geometry) (s : Fat) (l : List Nat) : Prop :=
  ∀ d, s.startSearchCluster ≤ d → d < g.totalClusters → g.Readable d ∧ (g.table s d = 0 → d ∈ l)

/-- The search can read the entries below the bound, and the free ones among them are the
clusters. -/
def SearchedTo (g : Geometry) (s : Fat) (l : List Nat) (bound : Nat) : Prop :=
  ∀ d, s.startSearchCluster ≤ d → d < bound → g.Readable d ∧ (g.table s d = 0 → d ∈ l)

theorem Supply.fresh (h : Supply g s l) (hc : c ∈ l) : g.Readable c ∧ g.table s c = 0 :=
  ⟨h.readable c (h.start_le c hc) ⟨c, hc, le_refl c⟩,
    (h.free_iff c (h.start_le c hc) ⟨c, hc, le_refl c⟩).2 hc⟩

theorem Supply.nodup (h : Supply g s l) : l.Nodup := h.sorted.imp fun hlt => ne_of_lt hlt

theorem Supply.firstFree (h : Supply g s (c :: l)) : g.FirstFree s c where
  start_le := h.start_le c mem_cons_self
  lt_total := h.lt_total c mem_cons_self
  free := (h.fresh mem_cons_self).2
  taken := by
    intro d hd hdc hzero
    have hmem := (h.free_iff d hd ⟨c, mem_cons_self, le_of_lt hdc⟩).1 hzero
    rcases mem_cons.1 hmem with rfl | hmem
    · exact lt_irrefl _ hdc
    · have := (pairwise_cons.1 h.sorted).1 d hmem
      omega
  readable := fun d hd hdc => h.readable d hd ⟨c, mem_cons_self, hdc⟩

theorem Supply.congr (h : Supply g s l) (hstart : s'.startSearchCluster = s.startSearchCluster)
    (htable : ∀ c, g.Readable c → (g.table s' c = 0 ↔ g.table s c = 0)) : Supply g s' l where
  sorted := h.sorted
  start_le := fun c hc => hstart ▸ h.start_le c hc
  lt_total := h.lt_total
  free_iff := by
    intro c hc hd
    rw [hstart] at hc
    rw [htable c (h.readable c hc hd)]
    exact h.free_iff c hc hd
  readable := fun c hc hd => h.readable c (hstart ▸ hc) hd

theorem clusterEnd_ne_zero (g : Geometry) : g.clusterEnd ≠ 0 := by
  unfold clusterEnd
  split <;> decide

theorem Supply.allocated (hg : g.WellFormed) (h : Supply g s (c :: l)) : Supply g (g.allocated c s) l := by
  have hc := (h.fresh mem_cons_self).1
  have hlt := (pairwise_cons.1 h.sorted).1
  have hstart : s.startSearchCluster ≤ c := h.start_le c mem_cons_self
  have hread : ∀ d, c ≤ d → (∃ e ∈ l, d ≤ e) → g.Readable d := by
    rintro d hd ⟨e, he, hde⟩
    exact h.readable d (le_trans hstart hd) ⟨e, mem_cons_of_mem _ he, hde⟩
  refine ⟨(pairwise_cons.1 h.sorted).2, fun d hd => le_of_lt (hlt d hd),
    (forall_mem_cons.1 h.lt_total).2, ?_, hread⟩
  intro d hd hde
  by_cases hdc : d = c
  · subst hdc
    rw [table_allocated hg hc]
    exact iff_of_false (clusterEnd_ne_zero g) fun hmem => lt_irrefl _ (hlt d hmem)
  · obtain ⟨e, he, hle⟩ := hde
    have hd' := (hread d hd ⟨e, he, hle⟩).isCluster
    rw [table_allocated_ne hg hc hd'.2 hdc,
      h.free_iff d (le_trans hstart hd) ⟨e, mem_cons_of_mem _ he, hle⟩, mem_cons]
    exact or_iff_right hdc

theorem SearchedTo.bound_le (h : SearchedTo g s l bound) (hx : Supply g s (l ++ [x])) : bound ≤ x := by
  have hlast : x ∈ l ++ [x] := by simp
  refine Nat.le_of_not_lt fun hlt => ?_
  have hmem := (h x (hx.start_le x hlast) hlt).2 (hx.fresh hlast).2
  have hnodup := hx.nodup
  rw [nodup_append] at hnodup
  exact hnodup.2.2 x hmem x mem_cons_self rfl

theorem Supply.next_cases (h : Supply g s l) (hl : l ≠ []) : Exhausted g s l ∨ (∃ x, Supply g s (l ++ [x]))
    ∨ ∃ d < g.totalClusters, ¬g.Readable d ∧ SearchedTo g s l d ∧ ∀ c ∈ l, c < d := by
  classical
  have hlast := getLast_mem hl
  have hmax : ∀ c ∈ l, c ≤ l.getLast hl := by
    intro c hc
    have hsorted := h.sorted
    rw [← dropLast_append_getLast hl, pairwise_append] at hsorted
    rw [← dropLast_append_getLast hl] at hc
    rcases mem_append.1 hc with hc | hc
    · exact le_of_lt (hsorted.2.2 c hc _ mem_cons_self)
    · exact le_of_eq (mem_singleton.1 hc)
  by_cases hall : Exhausted g s l
  · exact .inl hall
  · have hstop : ∃ d, s.startSearchCluster ≤ d ∧ d < g.totalClusters ∧
        ¬(g.Readable d ∧ (g.table s d = 0 → d ∈ l)) := by
      by_contra hno
      refine hall fun d hd hlt => ?_
      by_contra hbad
      exact hno ⟨d, hd, hlt, hbad⟩
    obtain ⟨hstart, hlt, hbad⟩ := Nat.find_spec hstop
    have hbelow : SearchedTo g s l (Nat.find hstop) := by
      intro c hc hcd
      by_contra hno
      exact Nat.find_min hstop hcd ⟨hc, lt_trans hcd hlt, hno⟩
    generalize Nat.find hstop = d at hstart hlt hbad hbelow
    have hmd : l.getLast hl < d := by
      refine Nat.lt_of_not_le fun hle => hbad ⟨h.readable d hstart ⟨_, hlast, hle⟩, ?_⟩
      exact (h.free_iff d hstart ⟨_, hlast, hle⟩).1
    have hld : ∀ c ∈ l, c < d := fun c hc => lt_of_le_of_lt (hmax c hc) hmd
    by_cases hread : g.Readable d
    · have hfree : g.table s d = 0 := by
        by_contra hne
        exact hbad ⟨hread, fun hzero => absurd hzero hne⟩
      have hto : ∀ c, (∃ e ∈ l ++ [d], c ≤ e) → c ≤ d := by
        rintro c ⟨e, he, hce⟩
        rcases mem_append.1 he with he | he
        · exact le_trans hce (le_of_lt (hld e he))
        · rwa [← mem_singleton.1 he]
      refine .inr (.inl ⟨d, ⟨?_, ?_, ?_, ?_, ?_⟩⟩)
      · rw [pairwise_append]
        refine ⟨h.sorted, pairwise_singleton _ _, fun c hc e he => ?_⟩
        rw [mem_singleton.1 he]
        exact hld c hc
      · exact forall_mem_append.2 ⟨h.start_le, forall_mem_singleton.2 hstart⟩
      · exact forall_mem_append.2 ⟨h.lt_total, forall_mem_singleton.2 hlt⟩
      · intro c hc he
        rw [mem_append, mem_singleton]
        rcases Nat.lt_or_eq_of_le (hto c he) with hcd | rfl
        · refine ⟨fun hzero => .inl ((hbelow c hc hcd).2 hzero), ?_⟩
          rintro (hmem | rfl)
          · exact (h.fresh hmem).2
          · exact hfree
        · exact iff_of_true hfree (.inr rfl)
      · intro c hc he
        rcases Nat.lt_or_eq_of_le (hto c he) with hcd | rfl
        · exact (hbelow c hc hcd).1
        · exact hread
    · exact .inr (.inr ⟨d, hlt, hread, hbelow, hld⟩)

theorem Grown.supply (hg : g.WellFormed) (h : Grown g k s l s' l') (hl : Chain g s c l)
    (hread : ∀ d ∈ l, g.Readable d) (hnew : l' = l ++ new)
    (hsup : Supply g s (new ++ rest)) : Supply g s' rest := by
  induction h generalizing new with
  | refl =>
    obtain rfl : new = [] := self_eq_append_right.1 hnew
    exact hsup
  | @grow s s' l l' d c' hno hlast hfree hgrown ih =>
    have hd : d ∈ l := mem_of_getLast? hlast
    have hchain := hl.extended hg (hread d hd) hlast hfree.read hfree.free
    have hread' : ∀ x ∈ l ++ [c'], g.Readable x :=
      forall_mem_append.2 ⟨hread, forall_mem_singleton.2 hfree.read⟩
    obtain ⟨new', rfl, -⟩ := hgrown.effect hg hchain hread'
    rw [append_assoc] at hnew
    obtain rfl := append_cancel_left hnew
    refine ih hchain hread' rfl ((hsup.allocated hg).congr extended_fields.1 ?_)
    intro x hx
    rw [table_extended hg (hread d hd) hfree.read hx.isCluster.2]
    by_cases hxd : x = d
    · -- the last cluster of the directory was taken, and is
      subst hxd
      rw [if_pos rfl]
      have hne : x ≠ c' := by
        rintro rfl
        exact hl.taken x hd hfree.free
      rw [table_allocated_ne hg hfree.read hx.isCluster.2 hne]
      have := hfree.read.1
      exact iff_of_false (by omega) (hl.taken x hd)
    · rw [if_neg hxd]
      by_cases hxc : x = c'
      · rw [if_pos hxc, hxc, table_allocated hg hfree.read]
      · rw [if_neg hxc, table_allocated_ne hg hfree.read hx.isCluster.2 hxc]

end HeisenKernel
