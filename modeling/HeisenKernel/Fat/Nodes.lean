import HeisenKernel.Fat.NewEntry
import HeisenKernel.Lib.Rooted

/-!
# The tree of a volume

The entries of the directories of a volume are the nodes of a tree, each known by the place of its
slot (`Child`).
-/

namespace HeisenKernel

open Lib List Geometry Chain DirSlot

/-- The place of a slot: a sector of the volume and an offset in it. -/
structure Place where
  sector : Nat
  offset : Nat
deriving Repr, DecidableEq

/-- The place of a slot of a directory. -/
def DirSlot.place (p : DirSlot) : Place := ⟨p.sector, p.offset⟩

/-- The place of an entry that the driver has found. -/
def FATEntryInfo.place (e : FATEntryInfo) : Place := ⟨e.sector, e.offsetInSector⟩

/-- What a slot holds, and where. -/
def DirSlot.cell (p : DirSlot) : Place × Slot := (p.place, p.slot)

/-- The slot at a place. -/
def Fat.slot (s : Fat) (g : Geometry) (p : Place) : Slot :=
  slotAt (s.disk (g.lba p.sector)) p.offset

/-- `IsEntry slots p`: `p` is the entry of a file or directory, in front of the end of the directory
with the slots. -/
inductive IsEntry (slots : List DirSlot) (p : DirSlot) : Prop
  | intro (pre post : List DirSlot) : slots = pre ++ p :: post → (∀ q ∈ pre, q.slot 0 ≠ 0x00) →
      IsShortEntry p.slot → IsEntry slots p

theorem IsEntry.mem (h : IsEntry slots p) : p ∈ slots := by
  obtain ⟨pre, post, rfl, -⟩ := h
  simp

theorem IsEntry.short (h : IsEntry slots p) : IsShortEntry p.slot := by
  obtain ⟨pre, post, -, -, hshort⟩ := h
  exact hshort

theorem IsEntry.append (h : IsEntry slots p) (rest : List DirSlot) : IsEntry (slots ++ rest) p := by
  obtain ⟨pre, post, rfl, hpre, hshort⟩ := h
  exact ⟨pre, post ++ rest, by simp, hpre, hshort⟩

theorem IsEntry.of_cells (h : IsEntry slots p) (hcells : slots'.map cell = slots.map cell) :
    ∃ q, IsEntry slots' q ∧ q.cell = p.cell := by
  obtain ⟨pre, post, rfl, hpre, hshort⟩ := h
  rw [map_append, map_cons] at hcells
  obtain ⟨pre', rest', rfl, hpre', hrest'⟩ := map_eq_append_iff.1 hcells
  obtain ⟨q, post', rfl, hq, -⟩ := map_eq_cons_iff.1 hrest'
  have hslot : q.slot = p.slot := congrArg Prod.snd hq
  refine ⟨q, ⟨pre', post', rfl, ?_, hslot ▸ hshort⟩, hq⟩
  intro x hx
  have hx' : x.cell ∈ pre.map cell := hpre' ▸ mem_map_of_mem hx
  obtain ⟨y, hy, hyx⟩ := mem_map.1 hx'
  rw [show x.slot = y.slot from (congrArg Prod.snd hyx).symm]
  exact hpre y hy

theorem isEntry_cons : IsEntry (p :: slots) x ↔
    x = p ∧ IsShortEntry p.slot ∨ p.slot 0 ≠ 0x00 ∧ IsEntry slots x := by
  constructor
  · rintro ⟨pre, post, heq, hpre, hshort⟩
    cases pre with
    | nil =>
      obtain ⟨rfl, -⟩ := List.cons.inj heq
      exact .inl ⟨rfl, hshort⟩
    | cons q pre =>
      obtain ⟨rfl, rfl⟩ := List.cons.inj heq
      exact .inr ⟨hpre p mem_cons_self, pre, post, rfl, (forall_mem_cons.1 hpre).2, hshort⟩
  · rintro (⟨rfl, hshort⟩ | ⟨hp, pre, post, rfl, hpre, hshort⟩)
    · exact ⟨[], slots, rfl, by simp, hshort⟩
    · exact ⟨p :: pre, post, rfl, forall_mem_cons.2 ⟨hp, hpre⟩, hshort⟩

theorem isEntry_append (h : ∀ q ∈ slots, q.slot 0 ≠ 0x00) :
    IsEntry (slots ++ rest) x ↔ x ∈ slots ∧ IsShortEntry x.slot ∨ IsEntry rest x := by
  induction slots with
  | nil => simp
  | cons q slots ih =>
    obtain ⟨hq, hslots⟩ := forall_mem_cons.1 h
    rw [cons_append, isEntry_cons, ih hslots, mem_cons]
    constructor
    · rintro (⟨rfl, hshort⟩ | ⟨-, ⟨hx, hshort⟩ | hx⟩)
      · exact .inl ⟨.inl rfl, hshort⟩
      · exact .inl ⟨.inr hx, hshort⟩
      · exact .inr hx
    · rintro (⟨rfl | hx, hshort⟩ | hx)
      · exact .inl ⟨rfl, hshort⟩
      · exact .inr ⟨hq, .inl ⟨hx, hshort⟩⟩
      · exact .inr ⟨hq, .inr hx⟩

theorem not_isEntry_of_end (h : ∀ q ∈ slots, q.slot 0 = 0x00) : ¬IsEntry slots x :=
  fun hx => hx.short.first.1 (h x hx.mem)

theorem isEntry_free (hfree : ∀ q ∈ slots, q.slot.isFree = true)
    (hended : (slots ++ rest).Pairwise fun p q => p.slot 0 = 0x00 → q.slot 0 = 0x00) :
    IsEntry (slots ++ rest) x ↔ IsEntry rest x := by
  induction slots with
  | nil => rfl
  | cons q slots ih =>
    obtain ⟨hq, hslots⟩ := forall_mem_cons.1 hfree
    obtain ⟨hbehind, htail⟩ := pairwise_cons.1 hended
    rw [cons_append, isEntry_cons, ih hslots htail]
    rcases isFree_iff.1 hq with h0 | h5
    · -- the directory ends here
      have hrest := not_isEntry_of_end (x := x) fun y hy =>
        hbehind y (mem_append_right _ hy) h0
      exact iff_of_false (by rintro (⟨-, hshort⟩ | ⟨h, -⟩); exacts [hshort.first.1 h0, h h0]) hrest
    · constructor
      · rintro (⟨-, hshort⟩ | ⟨-, hx⟩)
        · exact absurd h5 hshort.first.2.1
        · exact hx
      · intro hx
        exact .inr ⟨by rw [h5]; decide, hx⟩

theorem FirstRun.isEntry_iff (h : FirstRun k slots pre run post)
    (hended : slots.Pairwise fun p q => p.slot 0 = 0x00 → q.slot 0 = 0x00)
    (hlfns : ∀ p ∈ lfns, p.slot 0 ≠ 0x00 ∧ ¬IsShortEntry p.slot) (hq : IsShortEntry q.slot) : IsEntry
    (pre ++ (lfns ++ [q]) ++ post) x ↔ IsEntry slots x ∨ x = q := by
  have hpre := h.pre_ne_end hended
  have hrest : (run ++ post).Pairwise fun p q => p.slot 0 = 0x00 → q.slot 0 = 0x00 := by
    rw [h.split, append_assoc] at hended
    exact (pairwise_append.1 hended).2.1
  have hnew : ∀ p ∈ lfns ++ [q], p.slot 0 ≠ 0x00 :=
    forall_mem_append.2 ⟨fun p hp => (hlfns p hp).1, forall_mem_singleton.2 hq.first.1⟩
  rw [append_assoc, isEntry_append hpre, isEntry_append hnew, h.split, append_assoc,
    isEntry_append hpre, isEntry_free h.free hrest, mem_append, mem_singleton]
  constructor
  · rintro (hx | ⟨hx | hx, hshort⟩ | hx)
    · exact .inl (.inl hx)
    · exact absurd hshort (hlfns x hx).2
    · exact .inr hx
    · exact .inl (.inr hx)
  · rintro ((hx | hx) | rfl)
    · exact .inl hx
    · exact .inr (.inr hx)
    · exact .inr (.inl ⟨.inr rfl, hq⟩)

theorem Named.lfn_slots (h : Named name lfns p) (hq : q ∈ lfns) : q.slot 0 ≠ 0x00 ∧ ¬IsShortEntry q.slot := by
  obtain ⟨n, hn, hslot⟩ := h.slots.mem (mem_map_of_mem hq)
  rw [length_map, h.length] at hn
  have hlen := h.isFileName.2.1
  have hbound := (requiredLFNEntries_bounds h.isFileName.1).2.2
  constructor
  · rw [hslot.index]
    exact (lfnIndex_ne hn (by omega)).1
  · intro hshort
    exact hshort.attributes.2 hslot.attributes

/-- The geometry with clusters of one sector, which is how the root directory of a FAT12 or FAT16
volume is gone through. -/
def Geometry.single (g : Geometry) : Geometry := { g with sectorsPerCluster := 1 }

/-- The slots of the root directory of a FAT12 or FAT16 volume. -/
def fixedSlots (g : Geometry) (s : Fat) : List DirSlot :=
  rootSlots g.single s g.rootDirCluster g.rootDirSectors

/-- The chain of a node: the root directory of a FAT32 volume, or the file or directory of the entry
at a place. -/
def NodeChain (g : Geometry) (s : Fat) : Option Place → List Nat → Prop
  | none, l => g.fatType = .fat32 ∧ Chain g s g.rootDirCluster l
  | some p, l => Chain g s (s.slot g p).cluster l

/-- The slots of a node that is a directory. -/
inductive NodeSlots (g : Geometry) (s : Fat) : Option Place → List DirSlot → Prop
  | fixed : g.fatType ≠ .fat32 → NodeSlots g s none (fixedSlots g s)
  | chain {o : Option Place} {l : List Nat} : NodeChain g s o l → NodeSlots g s o (chainSlots g s l)

/-- `Child g s o q`: the directory `o` has an entry at the place `q`. -/
def Child (g : Geometry) (s : Fat) (o : Option Place) (q : Place) : Prop :=
  (∀ p, o = some p → (s.slot g p).isDirectory = true) ∧
    ∃ slots x, NodeSlots g s o slots ∧ IsEntry slots x ∧ x.place = q

/-- The chain of every node is finite, leads through clusters of the volume only and ends in a mark
for the end, and no cluster is in the chains of two nodes. -/
structure Sound (g : Geometry) (s : Fat) : Prop where
  root : g.fatType = .fat32 → ∃ l, Chain g s g.rootDirCluster l
  chain : ∀ p, Node (Child g s) (some p) → (s.slot g p).cluster ≠ 0 → ∃ l, Chain g s (s.slot g p).cluster l
  disjoint : ∀ o o' l l', Node (Child g s) o → Node (Child g s) o' → o ≠ o' →
    NodeChain g s o l → NodeChain g s o' l' → l.Disjoint l'

variable {g : Geometry} {s s' : Fat} {o : Option Place} {slots : List DirSlot} {l : List Nat} {p : DirSlot}

section
variable (hg : g.WellFormed)
include hg

theorem single_wellFormed : g.single.WellFormed where
  bytesPerSector := hg.bytesPerSector
  sectorsPerCluster := ⟨Nat.one_pos, by simp [single]⟩
  totalClusters := hg.totalClusters
  table := hg.table
  root := hg.root
  size := by
    have := hg.size
    have := Nat.mul_le_mul_left g.totalClusters hg.sectorsPerCluster.1
    simp only [single]
    omega

theorem single_endSector_le : g.single.endSector ≤ g.endSector :=
  Nat.add_le_add_left (Nat.mul_le_mul_left _ hg.sectorsPerCluster.1) _

theorem fixedSlots_slotsAt : SlotsAt g s (fixedSlots g s) := by
  have h := rootSlots_slotsAt (s := s) (c := g.rootDirCluster) (single_wellFormed hg) ⟨.inl rfl, le_rfl⟩
  exact ⟨fun p hp => ⟨(h.sector p hp).1, (h.sector p hp).2.trans_le (single_endSector_le hg)⟩,
    h.offset, h.slot, h.distinct⟩

theorem tableEnd_add : g.tableEnd + g.rootDirSectors = g.firstDataSector := by
  have := tableEnd_pos hg.tabled
  unfold tableEnd at *
  omega

theorem mem_fixedSlots (hp : p ∈ fixedSlots g s) : g.tableEnd ≤ p.sector ∧ p.sector < g.firstDataSector := by
  obtain ⟨j, hj, hp⟩ := mem_flatMap.1 hp
  obtain ⟨-, hindex, hsector, -⟩ := mem_windowSlots hp
  have hj := mem_range.1 hj
  have hroot : g.single.rootStart = g.tableEnd := rootStart_eq (single_wellFormed hg)
  have hadd := tableEnd_add hg
  have hlt := hg.firstData_lt
  simp only [single] at hindex
  rw [hroot, u32_eq (by omega)] at hsector
  omega

theorem mem_chainSlots_sector (hl : ∀ d ∈ l, g.IsCluster d)
    (hp : p ∈ chainSlots g s l) : p.cluster ∈ l ∧ p.index < g.sectorsPerCluster ∧
      p.sector = g.clusterToSector p.cluster + p.index := by
  obtain ⟨hc, hindex, hsector, -⟩ := mem_chainSlots hp
  rw [u32_clusterSector hg (hl _ hc) hindex] at hsector
  exact ⟨hc, hindex, hsector⟩

end

theorem NodeChain.mem_isCluster (h : NodeChain g s o l) : ∀ d ∈ l, g.IsCluster d := by
  cases o with
  | none => exact h.2.mem_isCluster
  | some p => exact mem_isCluster h

theorem NodeChain.nodup (hg : g.WellFormed) (h : NodeChain g s o l) : l.Nodup := by
  cases o with
  | none => exact h.2.nodup hg
  | some p => exact nodup hg h

theorem NodeChain.taken (h : NodeChain g s o l) : ∀ d ∈ l, g.table s d ≠ 0 := by
  cases o with
  | none => exact h.2.taken
  | some p => exact taken h

theorem NodeChain.unique (hg : g.WellFormed) (h : NodeChain g s o l) (h' : NodeChain g s o l') : l = l' := by
  cases o with
  | none => exact h.2.unique hg h'.2
  | some p => exact unique hg h h'

theorem NodeSlots.slotsAt (hg : g.WellFormed) (h : NodeSlots g s o slots) : SlotsAt g s slots := by
  cases h with
  | fixed => exact fixedSlots_slotsAt hg
  | chain hl => exact chainSlots_slotsAt hg hl.mem_isCluster (hl.nodup hg)

theorem NodeSlots.unique (hg : g.WellFormed) (h : NodeSlots g s o slots)
    (h' : NodeSlots g s o slots') : slots = slots' := by
  cases h with
  | fixed ht =>
    cases h' with
    | fixed => rfl
    | chain hl => exact absurd hl.1 ht
  | chain hl =>
    cases h' with
    | fixed ht => exact absurd hl.1 ht
    | chain hl' => rw [hl.unique hg hl']

theorem SlotsAt.slot_place (h : SlotsAt g s slots) (hp : p ∈ slots) : s.slot g p.place = p.slot :=
  (h.slot p hp).symm

theorem NodeSlots.ne_sector (hg : g.WellFormed) (hsound : Sound g s) (ho : Node (Child g s) o)
    (ho' : Node (Child g s) o') (hne : o ≠ o') (h : NodeSlots g s o slots)
    (h' : NodeSlots g s o' slots') (hp : p ∈ slots) (hq : q ∈ slots') : p.sector ≠ q.sector := by
  have hfixed : ∀ {o l} {p q : DirSlot}, NodeChain g s o l → p ∈ fixedSlots g s →
      q ∈ chainSlots g s l → p.sector ≠ q.sector := by
    intro o l p q hl hp hq
    obtain ⟨hc, -, hsector⟩ := mem_chainSlots_sector hg hl.mem_isCluster hq
    have := (clusterToSector_bounds hg (hl.mem_isCluster _ hc)).1
    have := mem_fixedSlots hg hp
    omega
  cases h with
  | fixed =>
    cases h' with
    | fixed => exact absurd rfl hne
    | chain hl' => exact hfixed hl' hp hq
  | chain hl =>
    cases h' with
    | fixed => exact (hfixed hl hq hp).symm
    | chain hl' =>
      intro heq
      have hcluster := chainSlots_cluster_eq hg hp hq hl.mem_isCluster hl'.mem_isCluster heq
      refine hsound.disjoint o o' _ _ ho ho' hne hl hl' (mem_chainSlots hp).1 ?_
      rw [hcluster]
      exact (mem_chainSlots hq).1

theorem Sound.parent_unique (hg : g.WellFormed) (hsound : Sound g s) (ho : Node (Child g s) o)
    (ho' : Node (Child g s) o') (h : Child g s o x) (h' : Child g s o' x) : o = o' := by
  by_contra hne
  obtain ⟨-, slots, p, hslots, hp, rfl⟩ := h
  obtain ⟨-, slots', q, hslots', hq, hplace⟩ := h'
  exact hslots.ne_sector hg hsound ho ho' hne hslots' hp.mem hq.mem (congrArg Place.sector hplace).symm

theorem Sound.exists_slots (hsound : Sound g s) (ho : Node (Child g s) o) :
    (∃ slots, NodeSlots g s o slots) ∨ ∃ p, o = some p ∧ (s.slot g p).cluster = 0 := by
  cases o with
  | none =>
    by_cases ht : g.fatType = .fat32
    · obtain ⟨l, hl⟩ := hsound.root ht
      exact .inl ⟨_, .chain ⟨ht, hl⟩⟩
    · exact .inl ⟨_, .fixed ht⟩
  | some p =>
    by_cases hc : (s.slot g p).cluster = 0
    · exact .inr ⟨p, rfl, hc⟩
    · obtain ⟨l, hl⟩ := hsound.chain p ho hc
      exact .inl ⟨_, .chain hl⟩

section
variable (hg : g.WellFormed) (hl : NodeChain g s none l)
  (hfiles : ∀ p, IsEntry (chainSlots g s l) p → p.slot.isDirectory = false)

include hg hl hfiles

theorem node_flat_iff : Node (Child g s) o ↔
    o = none ∨ ∃ p, IsEntry (chainSlots g s l) p ∧ o = some p.place := by
  have hslots : NodeSlots g s none (chainSlots g s l) := .chain hl
  constructor
  · rintro ⟨n, hn⟩
    induction hn with
    | root => exact .inl rfl
    | @child _ o a _ ha ih =>
      obtain ⟨hdir, slots, p, hs, hp, rfl⟩ := ha
      rcases ih with rfl | ⟨q, hq, rfl⟩
      · rw [hs.unique hg hslots] at hp
        exact .inr ⟨p, hp, rfl⟩
      · have hq' := hdir q.place rfl
        rw [(hslots.slotsAt hg).slot_place hq.mem, hfiles q hq] at hq'
        cases hq'
  · rintro (rfl | ⟨p, hp, rfl⟩)
    · exact .root
    · exact Node.root.child ⟨by simp, _, p, hslots, hp, rfl⟩

theorem sound_flat (hone : ∀ p q, IsEntry (chainSlots g s l) p → IsEntry (chainSlots g s l) q → p = q)
    (hchain : ∀ p, IsEntry (chainSlots g s l) p → ∃ l', Chain g s p.slot.cluster l' ∧ l.Disjoint l') :
    Sound g s := by
  have hslot : ∀ p, IsEntry (chainSlots g s l) p → s.slot g p.place = p.slot := fun p hp =>
    ((NodeSlots.chain hl).slotsAt hg).slot_place hp.mem
  have hnode : ∀ {o}, Node (Child g s) o → o = none ∨
      ∃ p, IsEntry (chainSlots g s l) p ∧ o = some p.place := (node_flat_iff hg hl hfiles).1
  refine ⟨fun _ => ⟨l, hl.2⟩, fun x hx _ => ?_, ?_⟩
  · rcases hnode hx with h | ⟨p, hp, h⟩
    · cases h
    · cases h
      rw [hslot p hp]
      exact (hchain p hp).imp fun _ h => h.1
  · -- of two nodes, one is the root directory and the other one the file
    have hroot : ∀ {p : DirSlot} {l1 l2 : List Nat}, IsEntry (chainSlots g s l) p →
        NodeChain g s none l1 → NodeChain g s (some p.place) l2 → l1.Disjoint l2 := by
      intro p l1 l2 hp h1 h2
      obtain ⟨l', hl', hdisj⟩ := hchain p hp
      rw [NodeChain, hslot p hp] at h2
      rw [h1.unique hg hl, h2.unique hg hl']
      exact hdisj
    intro o o' l1 l2 ho ho' hne h1 h2
    rcases hnode ho with rfl | ⟨p, hp, rfl⟩
    · rcases hnode ho' with rfl | ⟨q, hq, rfl⟩
      · exact absurd rfl hne
      · exact hroot hq h1 h2
    · rcases hnode ho' with rfl | ⟨q, hq, rfl⟩
      · exact fun d hd hd' => hroot hp h2 h1 hd' hd
      · exact absurd (by rw [hone p q hp hq]) hne

end

/-- The entry, the chain and the slots of the node are the same in `s` and `s'`. -/
structure Same (g : Geometry) (s s' : Fat) (o : Option Place) : Prop where
  entry : ∀ p, o = some p → (s'.slot g p).cluster = (s.slot g p).cluster ∧
    (s'.slot g p).isDirectory = (s.slot g p).isDirectory
  table : ∀ l, NodeChain g s o l → ∀ c ∈ l, g.table s' c = g.table s c
  disk : ∀ slots, NodeSlots g s o slots → ∀ p ∈ slots, s'.disk (g.lba p.sector) = s.disk (g.lba p.sector)

theorem Same.refl : Same g s s o := ⟨fun _ _ => ⟨rfl, rfl⟩, fun _ _ _ _ => rfl, fun _ _ _ _ => rfl⟩

theorem Same.chain (h : Same g s s' o) (hl : NodeChain g s o l) : NodeChain g s' o l := by
  cases o with
  | none => exact ⟨hl.1, hl.2.congr (h.table l hl)⟩
  | some p =>
    rw [NodeChain, (h.entry p rfl).1]
    exact congr hl (h.table l hl)

theorem fixedSlots_congr (hg : g.WellFormed) (h : ∀ p ∈ fixedSlots g s,
    s'.disk (g.lba p.sector) = s.disk (g.lba p.sector)) : fixedSlots g s' = fixedSlots g s := by
  have hpos := slotsPerSector_eq hg
  refine flatMap_congr fun j hj => windowSlots_congr fun i hi => ?_
  obtain rfl : i = 0 := Nat.lt_one_iff.1 hi
  have hj' := mem_range.1 hj
  have hroot : g.single.rootStart = g.tableEnd := rootStart_eq (single_wellFormed hg)
  have hadd := tableEnd_add hg
  have hlt := hg.firstData_lt
  -- the first slot of the sector
  have hmem : (⟨g.rootDirCluster, 0, u32 (g.single.rootStart + j + 0), 0 * 32,
      slotAt (s.disk (u32 (g.single.startLBA + (g.single.rootStart + j + 0)))) (0 * 32)⟩ : DirSlot)
        ∈ fixedSlots g s := by
    refine mem_flatMap.2 ⟨j, hj, mem_flatMap.2 ⟨0, by simp [single], ?_⟩⟩
    exact mem_map.2 ⟨0, mem_range.2 hpos.1, rfl⟩
  have := h _ hmem
  rwa [show u32 (g.single.rootStart + j + 0) = g.single.rootStart + j + 0 from u32_eq (by omega)] at this

theorem Same.nodeSlots (hg : g.WellFormed) (h : Same g s s' o) (hslots : NodeSlots g s o slots) :
    NodeSlots g s' o slots := by
  cases hslots with
  | fixed ht =>
    rw [← fixedSlots_congr hg (h.disk _ (.fixed ht))]
    exact .fixed ht
  | @chain _ l hl =>
    have hcongr : chainSlots g s' l = chainSlots g s l := by
      refine chainSlots_congr fun c hc i hi => ?_
      obtain ⟨p, hp, -, hsector⟩ := exists_chainSlots hg hc (hl.mem_isCluster c hc) hi
      rw [← hsector]
      exact h.disk _ (.chain hl) p hp
    rw [← hcongr]
    exact .chain (h.chain hl)

theorem Same.chain_iff (hg : g.WellFormed) (hsound : Sound g s) (ho : Node (Child g s) o)
    (h : Same g s s' o) : NodeChain g s' o l ↔ NodeChain g s o l := by
  refine ⟨fun hl => ?_, h.chain⟩
  rcases hsound.exists_slots ho with ⟨slots, hslots⟩ | ⟨p, rfl, hc⟩
  · cases hslots with
    | fixed ht => exact absurd hl.1 ht
    | chain hl0 =>
      rw [hl.unique hg (h.chain hl0)]
      exact hl0
  · -- without a cluster there is no chain
    have hc' : (s'.slot g p).cluster = 0 := by rw [(h.entry p rfl).1, hc]
    have := (isCluster hl).1
    omega

theorem Same.child_iff (hg : g.WellFormed) (hsound : Sound g s) (ho : Node (Child g s) o)
    (h : Same g s s' o) : Child g s' o x ↔ Child g s o x := by
  have hdir : (∀ p, o = some p → (s'.slot g p).isDirectory = true) ↔
      ∀ p, o = some p → (s.slot g p).isDirectory = true := by
    constructor
    · intro hd p hp
      rw [← (h.entry p hp).2]
      exact hd p hp
    · intro hd p hp
      rw [(h.entry p hp).2]
      exact hd p hp
  refine and_congr hdir ?_
  rcases hsound.exists_slots ho with ⟨slots, hslots⟩ | ⟨p, rfl, hc⟩
  · have hslots' := h.nodeSlots hg hslots
    constructor
    · rintro ⟨slots', p, hs', hp, hx⟩
      rw [← hslots'.unique hg hs'] at hp
      exact ⟨slots, p, hslots, hp, hx⟩
    · rintro ⟨slots', p, hs, hp, hx⟩
      rw [← hslots.unique hg hs] at hp
      exact ⟨slots, p, hslots', hp, hx⟩
  · -- without a cluster there is no chain
    have hno : ∀ {t : Fat} {slots}, (t.slot g p).cluster = 0 → ¬NodeSlots g t (some p) slots := by
      rintro t slots ht ⟨⟩
      next l hl =>
      have := (isCluster hl).1
      omega
    constructor
    · rintro ⟨_, _, hs', -⟩
      exact absurd hs' (hno (by rw [(h.entry p rfl).1, hc]))
    · rintro ⟨_, _, hs, -⟩
      exact absurd hs (hno hc)

end HeisenKernel
