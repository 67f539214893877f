import HeisenKernel.Fat.NewLeaf
import HeisenKernel.Fat.WriteClusters

/-!
# A sound volume after a file was overwritten

`WriteFile` gives a file a new chain, its first cluster and clusters that were free, and then puts
the new size into its entry.
-/

namespace HeisenKernel

open Lib Function List FATEntryInfo DirSlot

/-- The file with the first cluster `c` was given the chain `c :: new`. -/
structure Rewritten (g : Geometry) (s t : Fat) (c : Nat) (new : List Nat) : Prop where
  works : t.Works
  chain : Chain g t c (c :: new)
  fresh : ∀ d ∈ new, g.Readable d ∧ g.table s d = 0
  table : ∀ x ≤ g.totalClusters + 1, x ∉ c :: new → g.table t x = g.table s x
  disk : ∀ lba, ¬g.InTable lba → (∀ d ∈ c :: new, ¬g.InCluster d lba) → t.disk lba = s.disk lba

theorem chain_of_links (hcs : ∀ j ≤ r, g.IsCluster (cs j))
    (hlink : ∀ j < r, g.table t (cs j) = cs (j + 1)) (hlast : g.clusterEnd ≤ g.table t (cs r))
    (hk : i + k = r) : Chain g t (cs i) ((range' i (k + 1)).map cs) := by
  induction k generalizing i with
  | zero =>
    obtain rfl : i = r := hk
    exact .last (hcs i (le_refl i)) hlast
  | succ k ih =>
    refine .link (hcs i (by omega)) ?_
    rw [hlink i (by omega)]
    exact ih (by omega)

theorem mem_clusters (cs : Nat → Nat) (hj : j ≤ r) : cs j ∈ cs 0 :: (range' 1 r).map cs := by
  cases j with
  | zero => exact mem_cons_self
  | succ j =>
    refine mem_cons_of_mem _ (mem_map_of_mem ?_)
    rw [mem_range'_1]
    omega

theorem Written.rewritten (hr : 0 < r)
    (hread : ∀ j ≤ r, g.Readable (cs j)) (hsupply : Supply g s ((range' 1 r).map cs))
    (h : Written g buffer len cs r s r t) : Rewritten g s t (cs 0) ((range' 1 r).map cs) := by
  constructor
  · exact h.works
  · have hchain := chain_of_links (fun j hj => (hread j hj).isCluster) h.link (h.last hr).ge (zero_add r)
    rwa [range'_succ, map_cons] at hchain
  · intro d hd
    exact hsupply.fresh hd
  · intro x hx hnot
    refine h.table x hx fun _ j hj heq => hnot ?_
    rw [heq]
    exact mem_clusters cs hj
  · intro lba hlba hout
    exact h.disk lba hlba fun j hj => hout _ (mem_clusters cs (le_of_lt hj))

namespace Rewritten
variable (hg : g.WellFormed) (hsound : Sound g s) (hx : Node (Child g s) (some x))
  (hc : (s.slot g x).cluster = c) (hfile : (s.slot g x).isDirectory = false) (h : Rewritten g s t c new)

include hsound hx hc h

theorem old_chain : ∃ l, NodeChain g s (some x) l ∧ c ∈ l := by
  have hc2 := h.chain.isCluster.1
  obtain ⟨l, hl⟩ := hsound.chain x hx (by omega)
  refine ⟨l, hl, ?_⟩
  rw [hc] at hl
  obtain ⟨t, rfl⟩ := hl.head
  exact mem_cons_self

theorem not_mem (ho : Node (Child g s) o) (hne : o ≠ some x) (hl : NodeChain g s o l)
    (hd : d ∈ c :: new) : d ∉ l := by
  intro hdl
  rcases mem_cons.1 hd with rfl | hd
  · obtain ⟨l0, hl0, hmem⟩ := h.old_chain hsound hx hc
    exact hsound.disjoint o (some x) l l0 ho hx hne hl hl0 hdl hmem
  · exact hl.taken d hdl (h.fresh d hd).2

include hg

theorem disk_other (ho : Node (Child g s) o) (hne : o ≠ some x) (hslots : NodeSlots g s o slots)
    (hp : p ∈ slots) : t.disk (g.lba p.sector) = s.disk (g.lba p.sector) :=
  h.disk _ (hslots.not_inTable hg hp) fun d hd =>
    hslots.not_inCluster hg hp (h.chain.mem_isCluster d hd) fun _ hl =>
      h.not_mem hsound hx hc ho hne hl hd

include hfile

theorem slot_eq (ha : Node (Child g s) (some a)) : t.slot g a = s.slot g a := by
  obtain ⟨o, ho, hdir, slots, p, hslots, hp, rfl⟩ := ha.parent
  have hne : o ≠ some x := by
    rintro rfl
    rw [hdir x rfl] at hfile
    cases hfile
  show slotAt (t.disk (g.lba p.sector)) p.offset = slotAt (s.disk (g.lba p.sector)) p.offset
  rw [h.disk_other hg hsound hx hc ho hne hslots hp.mem]

theorem same (ho : Node (Child g s) o) (hne : o ≠ some x) : Same g s t o where
  entry := by
    rintro p rfl
    rw [h.slot_eq hg hsound hx hc hfile ho]
    exact ⟨rfl, rfl⟩
  table := fun _ hl d hd => h.table d (hl.mem_isCluster d hd).2 fun hmem =>
    h.not_mem hsound hx hc ho hne hl hmem hd
  disk := fun _ hslots _ hp => h.disk_other hg hsound hx hc ho hne hslots hp

theorem child_iff (ho : Node (Child g s) o) : Child g t o a ↔ Child g s o a := by
  by_cases hne : o = some x
  · -- the file has no children
    subst hne
    refine iff_of_false (fun hchild => ?_) fun hchild => ?_
    · have hdir := hchild.1 x rfl
      rw [h.slot_eq hg hsound hx hc hfile hx, hfile] at hdir
      cases hdir
    · have hdir := hchild.1 x rfl
      rw [hfile] at hdir
      cases hdir
  · exact (h.same hg hsound hx hc hfile ho hne).child_iff hg hsound ho

theorem node_iff : Node (Child g t) o ↔ Node (Child g s) o :=
  exists_congr fun _ => within_congr fun _ _ ho => h.child_iff hg hsound hx hc hfile ho

theorem nodeChain : NodeChain g t (some x) (c :: new) := by
  show Chain g t (t.slot g x).cluster (c :: new)
  rw [h.slot_eq hg hsound hx hc hfile hx, hc]
  exact h.chain

theorem nodeChain_other (ho : Node (Child g s) o) (hne : o ≠ some x) (hl : NodeChain g t o l) :
    NodeChain g s o l :=
  ((h.same hg hsound hx hc hfile ho hne).chain_iff hg hsound ho).1 hl

theorem sound : Sound g t where
  root := by
    intro ht
    obtain ⟨l, hl⟩ := hsound.root ht
    have hroot : NodeChain g s none l := ⟨ht, hl⟩
    exact ⟨l, ((h.same hg hsound hx hc hfile .root (by simp)).chain hroot).2⟩
  chain := by
    intro p hp hpc
    have hp := (h.node_iff hg hsound hx hc hfile).1 hp
    by_cases hne : some p = some x
    · cases hne
      exact ⟨_, h.nodeChain hg hsound hx hc hfile⟩
    · rw [h.slot_eq hg hsound hx hc hfile hp] at hpc
      obtain ⟨l, hl⟩ := hsound.chain p hp hpc
      have hl : NodeChain g s (some p) l := hl
      exact ⟨l, (h.same hg hsound hx hc hfile hp hne).chain hl⟩
  disjoint := by
    intro o1 o2 l1 l2 ho1 ho2 hne hl1 hl2 d hd1 hd2
    have ho1 := (h.node_iff hg hsound hx hc hfile).1 ho1
    have ho2 := (h.node_iff hg hsound hx hc hfile).1 ho2
    have hnew := h.nodeChain hg hsound hx hc hfile
    by_cases hx1 : o1 = some x
    · subst hx1
      rw [hl1.unique hg hnew] at hd1
      have hl2 := h.nodeChain_other hg hsound hx hc hfile ho2 hne.symm hl2
      exact h.not_mem hsound hx hc ho2 hne.symm hl2 hd1 hd2
    · have hl1 := h.nodeChain_other hg hsound hx hc hfile ho1 hx1 hl1
      by_cases hx2 : o2 = some x
      · subst hx2
        rw [hl2.unique hg hnew] at hd2
        exact h.not_mem hsound hx hc ho1 hx1 hl1 hd2 hd1
      · have hl2 := h.nodeChain_other hg hsound hx hc hfile ho2 hx2 hl2
        exact hsound.disjoint o1 o2 l1 l2 ho1 ho2 hne hl1 hl2 hd1 hd2

end Rewritten

/-- The slot at the place of an entry was replaced by one with the same name, attributes and
cluster. -/
structure Modified (g : Geometry) (s s' : Fat) (x : Place) (e : Slot) : Prop where
  volume : s' = s.putAt g x.sector x.offset e
  fileName : e.fileName = (s.slot g x).fileName
  attributes : e.attributes = (s.slot g x).attributes
  cluster : e.cluster = (s.slot g x).cluster

variable {g : Geometry} {s s' : Fat} {o : Option Place} {x a : Place} {e : Slot} {p : DirSlot}

theorem isEntry_map (hf : ∀ z ∈ slots, (f z).slot 0 = z.slot 0 ∧
    (IsShortEntry (f z).slot ↔ IsShortEntry z.slot)) :
    IsEntry (slots.map f) y ↔ ∃ z, IsEntry slots z ∧ f z = y := by
  induction slots with
  | nil => exact iff_of_false (fun h => by simpa using h.mem) fun ⟨_, h, _⟩ => by simpa using h.mem
  | cons z slots ih =>
    obtain ⟨hz, hslots⟩ := forall_mem_cons.1 hf
    rw [map_cons, isEntry_cons, ih hslots, hz.1, hz.2]
    constructor
    · rintro (⟨rfl, hshort⟩ | ⟨h0, w, hw, rfl⟩)
      · exact ⟨z, isEntry_cons.2 (.inl ⟨rfl, hshort⟩), rfl⟩
      · exact ⟨w, isEntry_cons.2 (.inr ⟨h0, hw⟩), rfl⟩
    · rintro ⟨w, hw, rfl⟩
      rcases isEntry_cons.1 hw with ⟨rfl, hshort⟩ | ⟨h0, hw⟩
      · exact .inl ⟨rfl, hshort⟩
      · exact .inr ⟨h0, w, hw, rfl⟩

theorem DirSlot.place_update (p q : DirSlot) (e : Slot) : (p.update e q).place = q.place := by
  unfold update
  split <;> rfl

/-- A slot at the place, for a directory that is not looked at. -/
def Place.dirSlot (x : Place) (e : Slot) : DirSlot := ⟨0, 0, x.sector, x.offset, e⟩

theorem node_place (hg : g.WellFormed) (hx : Node (Child g s) (some x)) :
    g.tableEnd ≤ x.sector ∧ x.sector < g.endSector ∧ x.offset % 32 = 0 := by
  obtain ⟨o, -, -, slots, p, hslots, hp, rfl⟩ := hx.parent
  have hat := hslots.slotsAt hg
  exact ⟨(hat.sector p hp.mem).1, (hat.sector p hp.mem).2, (hat.offset p hp.mem).1⟩

namespace Modified
variable (hg : g.WellFormed) (hsound : Sound g s) (hx : Node (Child g s) (some x)) (h : Modified g s s' x e)

include h

theorem first : e 0 = s.slot g x 0 := congrFun h.fileName 0

theorem disk (hlba : lba ≠ g.lba x.sector) : s'.disk lba = s.disk lba := by
  rw [h.volume]
  exact putAt_disk_ne hlba

include hg hx

theorem table (hc : c ≤ g.totalClusters + 1) : g.table s' c = g.table s c := by
  obtain ⟨ht, hend, -⟩ := node_place hg hx
  rw [h.volume]
  exact table_putAt hg ht hend hc

theorem slot_eq (hend : a.sector < g.endSector) (ho : a.offset % 32 = 0) :
    s'.slot g a = if a = x then e else s.slot g a := by
  obtain ⟨-, hend', ho'⟩ := node_place hg hx
  rw [h.volume, Fat.slot, slotAt_putAt hg hend' hend ho' ho]
  refine if_congr ?_ rfl rfl
  cases a
  cases x
  simp

theorem slot_self : s'.slot g x = e := by
  obtain ⟨-, hend, ho⟩ := node_place hg hx
  rw [h.slot_eq hg hx hend ho, if_pos rfl]

theorem entry (ha : Node (Child g s) (some a)) : (s'.slot g a).cluster = (s.slot g a).cluster ∧
    (s'.slot g a).isDirectory = (s.slot g a).isDirectory := by
  obtain ⟨-, hend, ho⟩ := node_place hg ha
  rw [h.slot_eq hg hx hend ho]
  split
  · next heq =>
    subst heq
    exact ⟨h.cluster, by rw [Slot.isDirectory, Slot.isDirectory, h.attributes]⟩
  · exact ⟨rfl, rfl⟩

theorem nodeChain_iff (ho : Node (Child g s) o) : NodeChain g s' o l ↔ NodeChain g s o l := by
  have htable : ∀ d, g.IsCluster d → g.table s' d = g.table s d := fun d hd => h.table hg hx hd.2
  have hchain : ∀ c, Chain g s' c l ↔ Chain g s c l := fun c =>
    ⟨fun hl => hl.congr fun d hd => (htable d (hl.mem_isCluster d hd)).symm,
      fun hl => hl.congr fun d hd => htable d (hl.mem_isCluster d hd)⟩
  cases o with
  | none => exact and_congr_right fun _ => hchain _
  | some a =>
    show Chain g s' (s'.slot g a).cluster l ↔ Chain g s (s.slot g a).cluster l
    rw [(h.entry hg hx ho).1]
    exact hchain _

theorem nodeSlots (ho : Node (Child g s) o) (hslots : NodeSlots g s o slots) :
    NodeSlots g s' o (slots.map ((x.dirSlot e).update e)) := by
  obtain ⟨-, hend, hoff⟩ := node_place hg hx
  cases hslots with
  | fixed ht =>
    have hview := fixedSlots_follows hg s (x.dirSlot e) e hend hoff
    rw [← hview, show s.putAt g (x.dirSlot e).sector (x.dirSlot e).offset e = s' from h.volume.symm]
    exact .fixed ht
  | chain hl =>
    have hview := chainSlots_putAt (s := s) (p := x.dirSlot e) (e := e) hg hl.mem_isCluster hend hoff
    rw [← hview, show s.putAt g (x.dirSlot e).sector (x.dirSlot e).offset e = s' from h.volume.symm]
    exact .chain ((h.nodeChain_iff hg hx ho).2 hl)

theorem isEntry_iff (hslots : NodeSlots g s o slots) :
    IsEntry (slots.map ((x.dirSlot e).update e)) y ↔ ∃ z, IsEntry slots z ∧ (x.dirSlot e).update e z = y := by
  refine isEntry_map fun z hz => ?_
  by_cases hsame : z.SamePlace (x.dirSlot e)
  · have hslot : z.slot = s.slot g x := by
      rw [← (hslots.slotsAt hg).slot_place hz, show z.place = x by
        cases x
        exact congrArg₂ Place.mk hsame.1 hsame.2]
    rw [update_of_same hsame]
    show e 0 = z.slot 0 ∧ (IsShortEntry e ↔ IsShortEntry z.slot)
    rw [hslot]
    refine ⟨h.first, ⟨fun he => ⟨?_, ?_⟩, fun he => ⟨?_, ?_⟩⟩⟩
    · rw [← h.first]
      exact he.first
    · rw [← h.attributes]
      exact he.attributes
    · rw [h.first]
      exact he.first
    · rw [h.attributes]
      exact he.attributes
  · rw [update_of_ne hsame]
    exact ⟨rfl, Iff.rfl⟩

include hsound

theorem child_iff (ho : Node (Child g s) o) : Child g s' o a ↔ Child g s o a := by
  have hdir : (∀ p, o = some p → (s'.slot g p).isDirectory = true) ↔
      ∀ p, o = some p → (s.slot g p).isDirectory = true := by
    cases o with
    | none => simp
    | some p =>
      have hentry := (h.entry hg hx ho).2
      simp [hentry]
  refine and_congr hdir ?_
  constructor
  · rintro ⟨slots', y, hslots', hy, rfl⟩
    rcases hsound.exists_slots ho with ⟨slots, hslots⟩ | ⟨p, rfl, hp⟩
    · rw [hslots'.unique hg (h.nodeSlots hg hx ho hslots)] at hy
      obtain ⟨z, hz, rfl⟩ := (h.isEntry_iff hg hx hslots).1 hy
      exact ⟨slots, z, hslots, hz, (place_update ..).symm⟩
    · -- without a cluster there is no chain
      cases hslots' with
      | chain hl =>
        have hp' := (h.entry hg hx ho).1
        have := (Chain.isCluster hl).1
        omega
  · rintro ⟨slots, z, hslots, hz, rfl⟩
    exact ⟨_, _, h.nodeSlots hg hx ho hslots, (h.isEntry_iff hg hx hslots).2 ⟨z, hz, rfl⟩, place_update ..⟩

theorem node_iff : Node (Child g s') o ↔ Node (Child g s) o :=
  exists_congr fun _ => within_congr fun _ _ ho => h.child_iff hg hsound hx ho

theorem sound : Sound g s' where
  root := by
    intro ht
    obtain ⟨l, hl⟩ := hsound.root ht
    have hroot : NodeChain g s none l := ⟨ht, hl⟩
    exact ⟨l, ((h.nodeChain_iff hg hx .root).2 hroot).2⟩
  chain := by
    intro p hp hpc
    have hp := (h.node_iff hg hsound hx).1 hp
    rw [(h.entry hg hx hp).1] at hpc
    obtain ⟨l, hl⟩ := hsound.chain p hp hpc
    have hl : NodeChain g s (some p) l := hl
    exact ⟨l, (h.nodeChain_iff hg hx hp).2 hl⟩
  disjoint := by
    intro o1 o2 l1 l2 ho1 ho2 hne hl1 hl2
    have ho1 := (h.node_iff hg hsound hx).1 ho1
    have ho2 := (h.node_iff hg hsound hx).1 ho2
    exact hsound.disjoint o1 o2 l1 l2 ho1 ho2 hne ((h.nodeChain_iff hg hx ho1).1 hl1)
      ((h.nodeChain_iff hg hx ho2).1 hl2)

theorem exact (hexact : Exact g s) : Exact g s' := by
  intro c hc
  rw [h.table hg hx hc.2, hexact c hc]
  refine exists_congr fun o => exists_congr fun l => ?_
  rw [h.node_iff hg hsound hx]
  exact and_congr_right fun ho => by rw [h.nodeChain_iff hg hx ho]

theorem same (ho : Node (Child g s) o) (hchild : Child g s o x)
    (ho' : Node (Child g s) o') (hne : o' ≠ o) : Same g s s' o' where
  entry := by
    rintro a rfl
    exact h.entry hg hx ho'
  table := fun _ hl d hd => h.table hg hx (hl.mem_isCluster d hd).2
  disk := by
    intro slots hslots p hp
    obtain ⟨-, slots', q, hslots', hq, rfl⟩ := hchild
    refine h.disk ?_
    show g.lba p.sector ≠ g.lba q.sector
    rw [ne_eq, Geometry.lba_inj hg.tabled ((hslots.slotsAt hg).sector p hp).2
      ((hslots'.slotsAt hg).sector q hq.mem).2]
    exact hslots.ne_sector hg hsound ho' ho hne hslots' hp hq.mem

end Modified

/-- An entry that the driver has found, after the one at the place was replaced. -/
def FATEntryInfo.put (x : Place) (e : Slot) (info : FATEntryInfo) : FATEntryInfo :=
  if info.place = x then { info with entry := e } else info

/-- What a listing has found, after the entry at the place was replaced. -/
def putFound (x : Place) (e : Slot) : Listing ⊕ List FATEntryInfo → Listing ⊕ List FATEntryInfo
  | .inl acc => .inl ⟨acc.results.map (.put x e), acc.lfnEntries⟩
  | .inr results => .inr (results.map (.put x e))

theorem found_putFound (r : Listing ⊕ List FATEntryInfo) :
    found (putFound x e r) = (found r).map (.put x e) := by
  cases r <;> rfl

/-- The slot is not at the place, or it has the name and attributes of the new one and is no long
name slot. -/
def Replaceable (x : Place) (e : Slot) (p : DirSlot) : Prop :=
  p.place = x → e.fileName = p.slot.fileName ∧ e.attributes = p.slot.attributes ∧ p.slot.attributes ≠ 0x0F

theorem entryName_congr (h : e.fileName = e'.fileName) (lfns : List Slot) :
    entryName lfns e = entryName lfns e' := by
  unfold entryName parseLFNEntries
  rw [h]

theorem Replaceable.update (hp : Replaceable x e p) :
    ((x.dirSlot e).update e p).slot.fileName = p.slot.fileName ∧
    ((x.dirSlot e).update e p).slot.attributes = p.slot.attributes ∧
    (p.slot.attributes = 0x0F → ((x.dirSlot e).update e p).slot = p.slot) ∧
    ∀ filename, put x e ⟨p.slot, filename, p.sector, p.offset⟩ =
      ⟨((x.dirSlot e).update e p).slot, filename, p.sector, p.offset⟩ := by
  by_cases hplace : p.place = x
  · obtain ⟨hname, hattr, hlfn⟩ := hp hplace
    have hsame : p.SamePlace (x.dirSlot e) := by
      subst hplace
      exact ⟨rfl, rfl⟩
    rw [update_of_same hsame]
    exact ⟨hname, hattr, fun h => absurd h hlfn, fun _ => if_pos hplace⟩
  · have hsame : ¬p.SamePlace (x.dirSlot e) := by
      rintro ⟨hsector, hoffset⟩
      refine hplace ?_
      cases x
      exact congrArg₂ Place.mk hsector hoffset
    rw [update_of_ne hsame]
    exact ⟨rfl, rfl, fun _ => rfl, fun _ => if_neg hplace⟩

theorem listSlot_put (hp : Replaceable x e p) (results : List FATEntryInfo) (lfns : List Slot) :
    listSlot p.sector p.offset ⟨results.map (.put x e), lfns⟩ ((x.dirSlot e).update e p).slot =
      listSlot p.sector p.offset ⟨results, lfns⟩ p.slot >>= fun r => .ok (putFound x e r) := by
  obtain ⟨hname, hattr, hlfn, hput⟩ := hp.update
  have hfirst : ((x.dirSlot e).update e p).slot.first = p.slot.first := congrFun hname 0
  unfold listSlot
  rw [hfirst, hattr, entryName_congr hname]
  split_ifs
  any_goals rfl
  · next hattr => rw [hlfn hattr]; rfl
  · cases entryName lfns p.slot with
    | error _ => rfl
    | ok filename =>
      show Except.ok (Sum.inl (Listing.mk (results.map (.put x e) ++ [_]) [])) =
        Except.ok (Sum.inl (Listing.mk ((results ++ [_]).map (.put x e)) []))
      rw [map_append, map_singleton, hput]

theorem listing_put (hslots : ∀ p ∈ slots, Replaceable x e p) (h : listing slots = .ok childs) : listing
    (slots.map ((x.dirSlot e).update e)) = .ok (childs.map (.put x e)) := by
  have hlist : ∀ (results : List FATEntryInfo) (lfns : List Slot),
      listSlots ⟨results.map (.put x e), lfns⟩ (slots.map ((x.dirSlot e).update e)) =
        listSlots ⟨results, lfns⟩ slots >>= fun r => .ok (putFound x e r) := by
    clear h
    induction slots with
    | nil => exact fun _ _ => rfl
    | cons p slots ih =>
      intro results lfns
      obtain ⟨hp, hslots⟩ := forall_mem_cons.1 hslots
      have hplace := place_update (x.dirSlot e) p e
      rw [map_cons, listSlots_cons, listSlots_cons,
        show ((x.dirSlot e).update e p).sector = p.sector from congrArg Place.sector hplace,
        show ((x.dirSlot e).update e p).offset = p.offset from congrArg Place.offset hplace,
        listSlot_put hp]
      cases listSlot p.sector p.offset ⟨results, lfns⟩ p.slot with
      | error _ => rfl
      | ok r =>
        cases r with
        | inr _ => rfl
        | inl acc => exact ih hslots acc.results acc.lfnEntries
  obtain ⟨r, hr, hfound⟩ := bind_eq_ok.1 h
  cases hfound
  have hput := hlist [] []
  rw [hr] at hput
  rw [listing, show listSlots ⟨[], []⟩ (slots.map ((x.dirSlot e).update e)) = .ok (putFound x e r)
    from hput, ← found_putFound]
  rfl

namespace Modified
variable (hg : g.WellFormed) (hs : s.Works) (hsound : Sound g s) (hx : Node (Child g s) (some x))
  (h : Modified g s s' x e)

include h

theorem works (hs : s.Works) : s'.Works := by
  rw [h.volume]
  exact hs.putAt _ _

include hg hs hsound hx

theorem view (ho : Node (Child g s) o) (hview : View g s o slots) :
    View g s' o (slots.map ((x.dirSlot e).update e)) := by
  obtain ⟨-, hend, hoff⟩ := node_place hg hx
  have hcluster : nodeCluster g s' o = nodeCluster g s o := by
    cases o with
    | none => rfl
    | some a => exact (h.entry hg hx ho).1
  have hvolume : s.putAt g (x.dirSlot e).sector (x.dirSlot e).offset e = s' := h.volume.symm
  obtain ⟨hdir, hfixed⟩ := hview
  cases hdir with
  | @chain l hroot hwalk hfuel =>
    have hl : ∀ d ∈ l, g.IsCluster d := by
      rcases hwalk.nodeChain hs hsound ho hroot with rfl | ⟨rest, hl⟩
      · simp
      · exact (forall_mem_append.1 hl.mem_isCluster).1
    have hslots := chainSlots_putAt (s := s) (p := x.dirSlot e) (e := e) hg hl hend hoff
    rw [hvolume] at hslots
    rw [← hslots]
    refine ⟨.chain hroot ?_ hfuel, fun hr => by simp [hroot] at hr⟩
    rw [hcluster]
    exact hwalk.congr hs (h.works hs) fun d hd => h.table hg hx (hl d hd).2
  | @fixed m hroot hc hfuel hsize hended =>
    obtain ⟨n, hn, hslots⟩ := hfixed hroot
    have hput := rootSlots_follows (c := g.rootDirCluster) hg hn s (x.dirSlot e) e hend hoff
    dsimp only at hput
    rw [hvolume] at hput
    rw [hslots] at hended ⊢
    obtain ⟨p, hp, hp0⟩ := hended
    obtain ⟨rfl, -⟩ := fixedRoot_isNone hroot
    rw [← hput]
    refine .of_root hg hroot hc hn ⟨(x.dirSlot e).update e p, ?_, ?_⟩
    · rw [hput]
      exact mem_map_of_mem hp
    · -- the new slot is the end of the directory where the old one was
      have hslot := (rootSlots_slotsAt hg hn).slot_place hp
      unfold DirSlot.update
      split
      · next hsame =>
        have hplace : p.place = x := by
          cases x
          exact congrArg₂ Place.mk hsame.1 hsame.2
        show e 0 = 0x00
        rw [h.first, ← hplace, hslot, hp0]
      · exact hp0

theorem listed (ho : Node (Child g s) o) (hlist : Listed g s o childs)
    (hshort : (s.slot g x).attributes ≠ 0x0F) : Listed g s' o (childs.map (.put x e)) := by
  obtain ⟨slots, hview, hlisting⟩ := hlist
  refine ⟨_, h.view hg hs hsound hx ho hview, listing_put (fun p hp hplace => ?_) hlisting⟩
  have hslot : p.slot = s.slot g x := by rw [← hplace, hview.slot_place hg hs hsound ho hp]
  rw [hslot]
  exact ⟨h.fileName, h.attributes, hshort⟩

theorem path (ho : Node (Child g s) o) (hchild : Child g s o x)
    (hpath : Path g s names o) : Path g s' names o :=
  hpath.congr_of_ne hg hs (h.works hs) hsound fun _ ho' hne =>
    h.same hg hsound hx ho hchild ho' hne

end Modified

theorem find_put {childs : List FATEntryInfo} {name : List UInt8}
    (hfind : childs.find? (fun item => item.filename = name) = some info) (e : Slot) :
    (childs.map (.put info.place e)).find? (fun item => item.filename = name) =
      some { info with entry := e } := by
  have hname : (fun item : FATEntryInfo => decide (item.filename = name)) ∘
      put info.place e = fun item => decide (item.filename = name) := by
    funext item
    have hput : (item.put info.place e).filename = item.filename := by
      unfold put
      split <;> rfl
    simp only [comp_apply, hput]
  rw [find?_map, hname, hfind, Option.map_some, put, if_pos rfl]

theorem Modified.found (hg : g.WellFormed) (hs : s.Works) (hsound : Sound g s) {names : List (List UInt8)}
    {childs : List FATEntryInfo} {info : FATEntryInfo} (hpath : Path g s names o)
    (hlist : Listed g s o childs) (hinfo : info ∈ childs) (h : Modified g s s' info.place e) : Path g s'
    names o ∧ Listed g s' o (childs.map (.put info.place e)) := by
  have ho := hpath.node hg hs hsound
  obtain ⟨hchild, -⟩ := hlist.child hg hs hsound ho (hpath.within hg hs hsound).2 hinfo
  have hx := ho.child hchild
  have hshort : (s.slot g info.place).attributes ≠ 0x0F := by
    obtain ⟨-, slots, p, hslots, hp, hplace⟩ := hchild
    rw [← hplace, (hslots.slotsAt hg).slot_place hp.mem]
    exact hp.short.attributes.2
  exact ⟨h.path hg hs hsound hx ho hchild hpath, h.listed hg hs hsound hx ho hlist hshort⟩

end HeisenKernel
