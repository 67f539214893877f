import HeisenKernel.Fat.Paths
import HeisenKernel.Fat.Supply

/-!
# A new file or directory

`CreateNewDirFileEntry` takes a cluster, puts an entry for it into the parent directory and clears
it.
-/

namespace HeisenKernel

open Lib Function List Geometry DirSlot Fat

/-- The volume after the first cluster of a new file was cleared, and that of a directory was given
its `.` and `..` entries. -/
def Geometry.finished (g : Geometry) (attributes : UInt8) (parent : Nat) (created : Slot) (s : Fat) : Fat :=
  if attributes &&& 0x10 ≠ 0 then
    ((g.clear created.cluster s).putAt g (g.clusterToSector created.cluster) 0
      (dotEntry dotName created created.cluster)).putAt g (g.clusterToSector created.cluster) 32
        (dotEntry dotDotName created parent)
  else g.clear created.cluster s

section
variable {g : Geometry} {s : Fat} {attr : UInt8} {parent x : Nat} {e : Slot}

theorem Fat.write_write (s : Fat) (lba : Nat) (b b' : Buffer) :
    (s.write lba b).write lba b' = s.write lba b' := by
  unfold write
  rw [update_idem]

theorem finishEntry_eq (hs : s.Works) (attr : UInt8) (parent : Nat) (e : Slot) :
    finishEntry g attr parent (some e) s = .ok (0, g.finished attr parent e s) := by
  rw [finishEntry, FatM.bind_eq (clearCluster_eq hs), finished]
  split
  · next hdir =>
    rw [FatM.bind_eq (readSector_eq (clear_works hs) _)]
    dsimp only
    rw [FatM.bind_eq (writeSector_eq (clear_works hs) _ _)]
    rw [putAt, putAt, write_disk_self, write_write]
    rfl
  · rfl

theorem finished_works (hs : s.Works) : (g.finished attr parent e s).Works := by
  unfold finished
  split
  · exact ((clear_works hs).putAt _ _).putAt _ _
  · exact clear_works hs

theorem finished_fields : (g.finished attr parent e s).startSearchCluster = s.startSearchCluster ∧
    (g.finished attr parent e s).rtc = s.rtc ∧ (g.finished attr parent e s).bufferRead = s.bufferRead := by
  have hclear := clear_fields (g := g) (c := e.cluster) (s := s)
  unfold finished
  split
  · exact ⟨hclear.1, hclear.2.2⟩
  · exact ⟨hclear.1, hclear.2.2⟩

theorem table_finished (hg : g.WellFormed) (hn : g.IsCluster e.cluster)
    (hx : x ≤ g.totalClusters + 1) : g.table (g.finished attr parent e s) x = g.table s x := by
  have hb := clusterToSector_bounds hg hn
  have hpos := hg.sectorsPerCluster.1
  have ht := le_trans (tableEnd_le g) hb.1
  unfold finished
  split
  · rw [table_putAt hg ht (by omega) hx, table_putAt hg ht (by omega) hx, table_clear hg hn hx]
  · exact table_clear hg hn hx

theorem finished_disk (hg : g.WellFormed) {lba : Nat} (h : ¬g.InCluster e.cluster lba) :
    (g.finished attr parent e s).disk lba = s.disk lba := by
  have hne : lba ≠ g.lba (g.clusterToSector e.cluster) := by
    rintro rfl
    exact h ⟨0, hg.sectorsPerCluster.1, rfl⟩
  unfold finished
  split
  · rw [putAt_disk_ne hne, putAt_disk_ne hne, clear_disk_of_not_inCluster h]
  · exact clear_disk_of_not_inCluster h

theorem finished_empty (hg : g.WellFormed) (hn : g.IsCluster e.cluster) (p : DirSlot) :
    ¬IsEntry (chainSlots g (g.finished attr parent e s) [e.cluster]) p := by
  have hb := clusterToSector_bounds hg hn
  have hpos := hg.sectorsPerCluster.1
  have hl : ∀ d ∈ [e.cluster], g.IsCluster d := by simpa using hn
  have hzero : ∀ p ∈ chainSlots g (g.clear e.cluster s) [e.cluster], p.slot 0 = 0x00 ∨ p.slot 0 = 0x2E := by
    intro p hp
    obtain ⟨hc, hindex, -, k, -, -, hslot⟩ := mem_chainSlots hp
    rw [mem_singleton.1 hc] at hslot
    have hdisk := clear_disk_inCluster (s := s) hg hn hindex
    rw [lba] at hdisk
    rw [hslot, hdisk]
    exact .inl rfl
  have hput : ∀ {t : Fat} (o : Nat) (a : Slot), o % 32 = 0 → a 0 = 0x2E →
      (∀ p ∈ chainSlots g t [e.cluster], p.slot 0 = 0x00 ∨ p.slot 0 = 0x2E) →
      ∀ p ∈ chainSlots g (t.putAt g (g.clusterToSector e.cluster) o a) [e.cluster],
        p.slot 0 = 0x00 ∨ p.slot 0 = 0x2E := by
    intro t o a ho ha h p hp
    have hmap := chainSlots_putAt (s := t) (p := ⟨e.cluster, 0, g.clusterToSector e.cluster, o, a⟩)
      (e := a) hg hl (by dsimp only; omega) ho
    rw [hmap] at hp
    obtain ⟨q, hq, rfl⟩ := mem_map.1 hp
    unfold DirSlot.update
    split
    · exact .inr ha
    · exact h q hq
  intro hp
  have hfirst : p.slot 0 = 0x00 ∨ p.slot 0 = 0x2E := by
    have hmem := hp.mem
    unfold finished at hmem
    split at hmem
    · exact hput 32 _ rfl rfl (hput 0 _ rfl rfl hzero) p hmem
    · exact hzero p hmem
  rcases hfirst with h | h
  · exact hp.short.first.1 h
  · exact hp.short.first.2.2 h

end

section
variable {g : Geometry} {s : Fat} {run : List DirSlot}

theorem FirstRun.append (h : FirstRun k slots pre run post) (rest : List DirSlot) :
    FirstRun k (slots ++ rest) pre run (post ++ rest) :=
  ⟨by rw [h.split, append_assoc], h.length, h.free, h.first⟩

theorem FirstRun.of_cells (h : FirstRun k slots pre run post) (hcells : slots'.map cell = slots.map cell) : ∃
    pre' run' post', FirstRun k slots' pre' run' post' ∧ run'.map cell = run.map cell := by
  rw [h.split, map_append, map_append] at hcells
  obtain ⟨front, post', rfl, hfront, -⟩ := map_eq_append_iff.1 hcells
  obtain ⟨pre', run', rfl, hpre, hrun⟩ := map_eq_append_iff.1 hfront
  have hmem : ∀ {l l' : List DirSlot}, l.map cell = l'.map cell → ∀ p ∈ l, ∃ q ∈ l', q.slot = p.slot := by
    intro l l' hl p hp
    have hp' : p.cell ∈ l'.map cell := hl ▸ mem_map_of_mem hp
    obtain ⟨q, hq, hcell⟩ := mem_map.1 hp'
    exact ⟨q, hq, congrArg Prod.snd hcell⟩
  refine ⟨pre', run', post', ⟨rfl, ?_, ?_, ?_⟩, hrun⟩
  · rw [← h.length, ← length_map cell, hrun, length_map]
  · intro p hp
    obtain ⟨q, hq, hslot⟩ := hmem hrun p hp
    rw [← hslot]
    exact h.free q hq
  · intro i hi
    rw [← length_map cell, hpre, length_map] at hi
    obtain ⟨p, hp, hfree⟩ := h.first i hi
    have hwindow : (((pre ++ run).drop i).take k).map cell = (((pre' ++ run').drop i).take k).map cell := by
      rw [map_take, map_drop, map_take, map_drop, hfront, map_append]
    obtain ⟨q, hq, hslot⟩ := hmem hwindow p hp
    exact ⟨q, hq, by rw [hslot, hfree]⟩

theorem putSlots_congr {run run' : List DirSlot} (h : run'.map cell = run.map cell)
    (es : List Slot) : s.putSlots g (run'.zip es) = s.putSlots g (run.zip es) := by
  induction run generalizing run' es s with
  | nil => rw [map_eq_nil_iff.1 h]
  | cons p run ih =>
    obtain ⟨p', run', rfl, hp, hrun⟩ := map_eq_cons_iff.1 h
    cases es with
    | nil => rfl
    | cons e es =>
      have hplace : p'.place = p.place := congrArg Prod.fst hp
      have hsector : p'.sector = p.sector := congrArg Place.sector hplace
      have hoffset : p'.offset = p.offset := congrArg Place.offset hplace
      show (s.putAt g p'.sector p'.offset e).putSlots g (run'.zip es) =
        (s.putAt g p.sector p.offset e).putSlots g (run.zip es)
      rw [hsector, hoffset]
      exact ih hrun es

theorem fixedSlots_follows (hg : g.WellFormed) : Follows g (fixedSlots g) := by
  intro s p e hp ho
  by_cases hroot : p.sector < g.single.endSector
  · exact rootSlots_follows (single_wellFormed hg) ⟨.inl rfl, le_refl _⟩ s p e hroot ho
  · -- the slot lies behind the root directory
    have hne : ∀ q ∈ fixedSlots g s, q.sector ≠ p.sector := by
      intro q hq heq
      have := (mem_fixedSlots hg hq).2
      exact hroot (by rw [← heq]; unfold endSector; simp only [single]; omega)
    rw [map_update_of_ne fun q hq hsame => hne q hq hsame.1]
    refine fixedSlots_congr hg fun q hq => putAt_disk_ne ?_
    have hq' := ((fixedSlots_slotsAt hg).sector q hq).2
    rw [ne_eq, lba_inj hg.tabled hq' hp]
    exact hne q hq

theorem RootRun.fixedRun (hg : g.WellFormed)
    (h : RootRun g s g.rootDirCluster name n pre run post) : ∃ pre' run' post',
      FirstRun (requiredLFNEntries name.length + 1) (fixedSlots g s) pre' run' post' ∧
      run'.map cell = run.map cell := by
  obtain ⟨rest, hrest⟩ := fixedSlots_cells hg h.windows g.rootDirCluster
  obtain ⟨front, back, hsplit, hfront, -⟩ := map_eq_append_iff.1 hrest
  obtain ⟨pre', run', post', hrun, hcells⟩ := h.isFirst.of_cells hfront
  rw [hsplit]
  exact ⟨pre', run', _, hrun.append back, hcells⟩

end

/-- The slots of a directory before and after it has grown by clusters. -/
inductive GrownSlots (g : Geometry) (s s' : Fat) : Option Place → List Nat → List DirSlot →
    List DirSlot → Prop
  | fixed : g.fatType ≠ .fat32 → GrownSlots g s s' none [] (fixedSlots g s) (fixedSlots g s')
  | chain {o : Option Place} {l new : List Nat} : NodeChain g s o l → Chain g s' (nodeCluster g s o)
      (l ++ new) → GrownSlots g s s' o new (chainSlots g s l) (chainSlots g s' (l ++ new))

/-- What the creation of a file or directory with the first cluster `n` changes, whose entry `q` is
in the directory `o`, which has grown by the clusters `new`. -/
structure NewNode (g : Geometry) (s s' : Fat) (o : Option Place) (n : Nat) (new : List Nat)
    (slots slots' : List DirSlot) (q : DirSlot) : Prop where
  works : s'.Works
  grown : GrownSlots g s s' o new slots slots'
  fresh : ∀ d ∈ n :: new, g.Readable d ∧ g.table s d = 0
  nodup : (n :: new).Nodup
  last : g.table s' n = g.clusterEnd
  table : ∀ x ≤ g.totalClusters + 1, x ∉ n :: new → (∀ l, NodeChain g s o l → x ∉ l) →
    g.table s' x = g.table s x
  disk : ∀ lba, ¬g.InTable lba → (∀ d ∈ n :: new, ¬g.InCluster d lba) →
    (∀ p ∈ slots, lba ≠ g.lba p.sector) → s'.disk lba = s.disk lba
  kept : ∀ p ∈ slots, p.slot.isFree = false → p ∈ slots'
  entries : ∀ x, IsEntry slots' x ↔ IsEntry slots x ∨ x = q
  cluster : q.slot.cluster = n
  empty : ∀ x, ¬IsEntry (chainSlots g s' [n]) x

variable {g : Geometry} {s s₁ : Fat} {o : Option Place} {n : Nat} {new : List Nat} {root : Bool}
  {view : Fat → List DirSlot} {slots cleared pre run post : List DirSlot} {name : List UInt8} {attr : UInt8}
  {parent : Nat}

theorem isEntry_append_end (h : ∀ p ∈ cleared, p.slot 0 = 0x00) :
    IsEntry (slots ++ cleared) x ↔ IsEntry slots x := by
  induction slots with
  | nil => exact iff_of_false (not_isEntry_of_end h) fun hx => by simpa using hx.mem
  | cons p slots ih => rw [cons_append, isEntry_cons, isEntry_cons, ih]

theorem RunIn.entries
    (h : RunIn g root s s₁ view (requiredLFNEntries name.length + 1) slots cleared pre run post)
    (hname : IsFileName name) (hattr : attr ≠ 0x08 ∧ attr ≠ 0x0F)
    (hended : slots.Pairwise fun p q => p.slot 0 = 0x00 → q.slot 0 = 0x00)
    (rtc : RealTimeClock) (target : Nat) : ∃ q, q.slot = newEntry rtc name attr target ∧
      ∀ x, IsEntry (pre ++ List.zipWith DirSlot.set run (newSlots rtc name attr target) ++ post) x ↔
        IsEntry slots x ∨ x = q := by
  have hzero : ∀ p ∈ cleared, p.slot 0 = 0x00 := fun p hp => by rw [(h.cleared p hp).1]
  have hended1 : (view s₁).Pairwise fun p q => p.slot 0 = 0x00 → q.slot 0 = 0x00 := by
    rw [h.grown]
    refine pairwise_append.2 ⟨hended, ?_, fun _ _ q hq _ => hzero q hq⟩
    exact pairwise_of_forall_mem_list fun _ _ q hq _ => hzero q hq
  obtain ⟨lfns, q, hsplit, hnamed, hslot⟩ := newSlots_named hname hattr rtc target h.first.length
  refine ⟨q, hslot, fun x => ?_⟩
  rw [hsplit, h.first.isEntry_iff hended1 (fun p hp => hnamed.lfn_slots hp) hnamed.short, h.grown,
    isEntry_append_end hzero]

theorem allocated_disk_of_not_inTable (hg : g.WellFormed) (hn : g.Readable n) {lba : Nat}
    (h : ¬g.InTable lba) : (g.allocated n s).disk lba = s.disk lba :=
  setTable_disk_of_not_inTable hg hn h

theorem newEntry_cluster_eq (hg : g.WellFormed) (hn : g.Readable n) (rtc : RealTimeClock)
    (name : List UInt8) (attr : UInt8) : (newEntry rtc name attr n).cluster = n := by
  have := hn.2.1
  have := hg.total_lt
  exact newEntry_cluster (by omega)

theorem NewNode.of_runIn (hg : g.WellFormed) (hs1 : s₁.Works)
    (hin : RunIn g root (g.allocated n s) s₁ view (requiredLFNEntries name.length + 1) slots cleared
      pre run post) (hname : IsFileName name) (hattr : attr ≠ 0x08 ∧ attr ≠ 0x0F)
    (hended : slots.Pairwise fun p q => p.slot 0 = 0x00 → q.slot 0 = 0x00)
    (hfresh : ∀ d ∈ n :: new, g.Readable d ∧ g.table s d = 0) (hnodup : (n :: new).Nodup)
    (hcleared : ∀ p ∈ cleared, ∃ d ∈ new, g.InCluster d (g.lba p.sector))
    (hlast : g.table s₁ n = g.clusterEnd)
    (htable : ∀ x ≤ g.totalClusters + 1, x ∉ n :: new → (∀ l, NodeChain g s o l → x ∉ l) →
      g.table s₁ x = g.table s x)
    (hdisk : ∀ lba, ¬g.InTable lba → (∀ d ∈ new, ¬g.InCluster d lba) →
      s₁.disk lba = (g.allocated n s).disk lba)
    (hs' : s' = g.finished attr parent (newEntry s.rtc name attr n)
      (s₁.putSlots g (run.zip (newSlots s.rtc name attr n))))
    (hview : view s' = view (s₁.putSlots g (run.zip (newSlots s.rtc name attr n))))
    (hgrown : GrownSlots g s s' o new slots (view s')) :
    ∃ q, q.slot = newEntry s.rtc name attr n ∧ NewNode g s s' o n new slots (view s') q := by
  have hn := (hfresh n mem_cons_self).1
  have hcluster := newEntry_cluster_eq hg hn s.rtc name attr
  have hnc : g.IsCluster (newEntry s.rtc name attr n).cluster := by
    rw [hcluster]
    exact hn.isCluster
  have hes := newSlots_length name s.rtc attr n
  have hput := hin.view_eq hg hes
  have hsector : ∀ x ∈ run.zip (newSlots s.rtc name attr n),
      g.tableEnd ≤ x.1.sector ∧ x.1.sector < g.endSector := by
    intro x hx
    refine hin.places.sector x.1 ?_
    rw [hin.first.split]
    exact mem_append_left _ (mem_append_right _ (of_mem_zip hx).1)
  have htable' : ∀ x ≤ g.totalClusters + 1, g.table s' x = g.table s₁ x := by
    intro x hx
    rw [hs', table_finished hg hnc hx, table_putSlots hg hsector hx]
  obtain ⟨q, hq, hentries⟩ := hin.entries hname hattr hended s.rtc n
  refine ⟨q, hq, ?_⟩
  constructor
  · rw [hs']
    exact finished_works ((putSlots_fields s₁ _).2.1.trans hs1)
  · exact hgrown
  · exact hfresh
  · exact hnodup
  · rw [htable' n hn.isCluster.2, hlast]
  · intro x hx hnew hl
    rw [htable' x hx]
    exact htable x hx hnew hl
  · intro lba ht hnew hslots
    have hrun : ∀ x ∈ run.zip (newSlots s.rtc name attr n), lba ≠ g.lba x.1.sector := by
      intro x hx
      have hmem : x.1 ∈ view s₁ := by
        rw [hin.first.split]
        exact mem_append_left _ (mem_append_right _ (of_mem_zip hx).1)
      rw [hin.grown] at hmem
      rcases mem_append.1 hmem with hmem | hmem
      · exact hslots x.1 hmem
      · obtain ⟨d, hd, hlba⟩ := hcleared x.1 hmem
        rintro rfl
        exact hnew d (mem_cons_of_mem _ hd) hlba
    rw [hs', finished_disk hg (by rw [hcluster]; exact hnew n mem_cons_self),
      putSlots_disk_ne hrun, hdisk lba ht (forall_mem_cons.1 hnew).2,
      allocated_disk_of_not_inTable hg hn ht]
  · intro p hp hfree
    have hmem : p ∈ pre ++ run ++ post := by
      rw [← hin.first.split, hin.grown]
      exact mem_append_left _ hp
    have hnot : p ∉ run := by
      intro hr
      rw [hin.first.free p hr] at hfree
      cases hfree
    rw [hview, hput]
    simp only [mem_append, hnot, or_false] at hmem ⊢
    exact hmem.imp .inl id
  · intro x
    rw [hview, hput]
    exact hentries x
  · rw [hq, hcluster]
  · intro x
    have hempty : ¬IsEntry (chainSlots g (g.finished attr parent (newEntry s.rtc name attr n)
        (s₁.putSlots g (run.zip (newSlots s.rtc name attr n)))) [_]) x := finished_empty hg hnc x
    rwa [hcluster, ← hs'] at hempty

/-- The directory `o` has room for the entry of a file, once the cluster `n` was taken for it: a
directory with a chain has a run of free slots after it has grown by the clusters `new`, and the root
directory of a FAT12 or FAT16 volume has one that begins in its first sector. -/
inductive Room (g : Geometry) (s : Fat) (o : Option Place) (name : List UInt8) (n : Nat) :
    List Nat → Fat → List DirSlot → Prop
  | chain {l new : List Nat} {s₁ : Fat} {pre run post : List DirSlot} : NodeChain g s o l →
      (∀ d ∈ l, g.Readable d) → Grown g (requiredLFNEntries name.length + 1) (g.allocated n s) l s₁
      (l ++ new) → FirstRun (requiredLFNEntries name.length + 1) (chainSlots g s₁ (l ++ new)) pre
      run post → Room g s o name n new s₁ run
  | fixed {m : Nat} {pre run post : List DirSlot} : g.fixedRoot o.isNone = true →
      RootRun g s g.rootDirCluster name m pre run post → Room g s o name n [] (g.allocated n s) run

variable {s' : Fat} {l : List Nat}

theorem NodeChain.fixedRoot (h : NodeChain g s o l) : g.fixedRoot o.isNone = false := by
  cases o with
  | none => simp [fixedRoot, h.1]
  | some _ => rfl

theorem fixedRoot_isNone (h : g.fixedRoot o.isNone = true) : o = none ∧ g.fatType ≠ .fat32 := by
  cases o with
  | none => simpa [fixedRoot] using h
  | some _ => simp [fixedRoot] at h

section
variable (hg : g.WellFormed)
include hg

theorem Chain.allocated (hn : g.Readable n) (hfree : g.table s n = 0)
    (hl : Chain g s c l) : Chain g (g.allocated n s) c l := by
  refine hl.congr fun d hd => ?_
  refine table_allocated_ne hg hn (hl.mem_isCluster d hd).2 ?_
  rintro rfl
  exact hl.taken d hd hfree

theorem chainSlots_allocated (hn : g.Readable n)
    (hl : ∀ d ∈ l, g.IsCluster d) : chainSlots g (g.allocated n s) l = chainSlots g s l :=
  chainSlots_congr fun d hd _ hi =>
    allocated_disk_of_not_inTable hg hn (cluster_not_inTable hg (hl d hd) hi)

theorem fixedSlots_allocated (hn : g.Readable n) : fixedSlots g (g.allocated n s) = fixedSlots g s := by
  refine fixedSlots_congr hg fun p hp => ?_
  have hp' := (fixedSlots_slotsAt hg).sector p hp
  exact allocated_disk hg hn hp'.1 hp'.2

theorem RootRun.allocated (hn : g.Readable n) (h : RootRun g s g.rootDirCluster name m pre run post)
    : RootRun g (g.allocated n s) g.rootDirCluster name m pre run post := by
  have hslots : rootSlots g (g.allocated n s) g.rootDirCluster m = rootSlots g s g.rootDirCluster m := by
    refine flatMap_congr fun j hj => windowSlots_congr fun i hi => ?_
    have hle := h.windows.le_end hg (mem_range.1 hj)
    refine allocated_disk hg hn ?_ (by omega)
    rw [rootStart_eq hg]
    omega
  exact ⟨h.cluster, h.windows, h.search, h.size, by rw [hslots]; exact h.isFirst, h.first, h.ended⟩

theorem Room.createEntry_eq (hs : s.Works) (hfree : g.FirstFree s n)
    (h : Room g s o name n new s₁ run) (hname : IsFileName name) (hfit : Fits g name run)
    (attr : UInt8) : createEntry g (nodeCluster g s o) name attr o.isNone n (g.allocated n s) =
      .ok (some (newEntry s.rtc name attr n), s₁.putSlots g (run.zip (newSlots s.rtc name attr n))) := by
  have hs' : (g.allocated n s).Works := allocated_works hs
  cases h with
  | chain hl hread hgrown hrun =>
    exact createEntry_chain hg hs' hl.fixedRoot (hl.chain.allocated hg hfree.read hfree.free) hread
      ⟨hname.1, hname.2.1⟩ hgrown attr n hrun hfit
  | fixed hroot hrun =>
    obtain ⟨rfl, -⟩ := fixedRoot_isNone hroot
    have hrun' := hrun.allocated hg hfree.read
    exact createEntry_fixed attr n hg hs' hroot hrun'.cluster hrun'.search hrun'.windows.single
      hrun'.size ⟨hname.1, hname.2.1⟩ hrun'.isFirst hrun'.first hfit

theorem Grown.finished (hs : s.Works) (hfree : g.FirstFree s n)
    (hl : NodeChain g s o l) (hread : ∀ d ∈ l, g.Readable d)
    (hgrown : Grown g k (g.allocated n s) l s₁ (l ++ new))
    (hrun : FirstRun k (chainSlots g s₁ (l ++ new)) pre run post)
    (hs' : s' = g.finished attr parent (newEntry s.rtc name attr n) (s₁.putSlots g (run.zip es))) :
    n ∉ l ++ new ∧ Chain g s' (nodeCluster g s o) (l ++ new) ∧ (∀ d ∈ l ++ new, g.Readable d) ∧
      chainSlots g s' (l ++ new) = chainSlots g (s₁.putSlots g (run.zip es)) (l ++ new) := by
  have hn := hfree.read
  have hcluster := newEntry_cluster_eq hg hn s.rtc name attr
  have hla := hl.chain.allocated hg hn hfree.free
  obtain ⟨-, hl1, hread1⟩ := hgrown.chain hg (allocated_works hs) hla hread
  obtain ⟨new', hnew', hfresh, -⟩ := hgrown.effect hg hla hread
  obtain rfl := append_cancel_left hnew'
  have hnot : n ∉ l ++ new := by
    intro hmem
    rcases mem_append.1 hmem with hmem | hmem
    · exact hl.taken n hmem hfree.free
    · have hzero := (hfresh n hmem).2
      rw [table_allocated hg hn] at hzero
      exact clusterEnd_ne_zero g hzero
  refine ⟨hnot, ?_, hread1, ?_⟩
  · refine (hl1.putSlots hg hrun.split es).congr fun d hd => ?_
    rw [hs']
    exact table_finished hg (by rw [hcluster]; exact hn.isCluster) (hl1.mem_isCluster d hd).2
  · refine chainSlots_congr fun d hd i hi => ?_
    rw [hs']
    refine finished_disk hg ?_
    rw [hcluster]
    refine not_inCluster_of_ne hg (hl1.mem_isCluster d hd) hn.isCluster ?_ hi
    rintro rfl
    exact hnot hd

theorem Room.newNode (hs : s.Works) (hfree : g.FirstFree s n)
    (h : Room g s o name n new s₁ run) (hname : IsFileName name)
    (hattr : attr ≠ 0x08 ∧ attr ≠ 0x0F)
    (hended : ∀ slots, NodeSlots g s o slots → slots.Pairwise fun p q => p.slot 0 = 0x00 → q.slot 0 = 0x00)
    (hs' : s' = g.finished attr parent (newEntry s.rtc name attr n)
      (s₁.putSlots g (run.zip (newSlots s.rtc name attr n)))) :
    ∃ slots slots' q, q.slot = newEntry s.rtc name attr n ∧ NewNode g s s' o n new slots slots' q := by
  have hn := hfree.read
  have hcluster := newEntry_cluster_eq hg hn s.rtc name attr
  cases h with
  | @chain l _ _ pre _ post hl hread hgrown hrun =>
    have hla := hl.chain.allocated hg hn hfree.free
    obtain ⟨hs1, hl1, -⟩ := hgrown.chain hg (allocated_works hs) hla hread
    obtain ⟨new', hnew', hfresh, htable, hdisk, -⟩ := hgrown.effect hg hla hread
    obtain rfl := append_cancel_left hnew'
    obtain ⟨cleared, hin⟩ := hgrown.runIn hg hl.fixedRoot (allocated_works hs) hla hread hrun
    rw [chainSlots_allocated hg hn hl.mem_isCluster] at hin
    obtain ⟨hnot, hchain, -, hview⟩ := hgrown.finished hg hs hfree hl hread hrun hs'
    have hnot' : n ∉ l ∧ n ∉ new := by simpa using hnot
    have hfresh' : ∀ d ∈ n :: new, g.Readable d ∧ g.table s d = 0 := by
      intro d hd
      rcases mem_cons.1 hd with heq | hdnew
      · exact heq ▸ ⟨hn, hfree.free⟩
      · obtain ⟨hread, hzero⟩ := hfresh d hdnew
        have hdn : d ≠ n := by
          rintro rfl
          exact hnot'.2 hdnew
        rw [table_allocated_ne hg hn hread.isCluster.2 hdn] at hzero
        exact ⟨hread, hzero⟩
    have hnodup : (n :: new).Nodup := nodup_cons.2 ⟨hnot'.2, (nodup_append.1 (hl1.nodup hg)).2.1⟩
    -- the slots that the directory has grown by
    have hcleared : ∀ p ∈ cleared, ∃ d ∈ new, g.InCluster d (g.lba p.sector) := by
      intro p hp
      have hmem : p ∈ chainSlots g s₁ (l ++ new) := by
        rw [show chainSlots g s₁ (l ++ new) = _ from hin.grown]
        exact mem_append_right _ hp
      obtain ⟨hc, hindex, hsector⟩ := mem_chainSlots_sector hg hl1.mem_isCluster hmem
      refine ⟨p.cluster, ?_, p.index, hindex, by rw [hsector]⟩
      rcases mem_append.1 hc with hc | hc
      · have hzero := (hin.cleared p hp).2.2
        exact absurd hzero (hla.taken _ hc)
      · exact hc
    have hlast : g.table s₁ n = g.clusterEnd := by
      rw [htable n hn.isCluster.2 hnot'.2 fun hlast => hnot'.1 (mem_of_getLast? hlast), table_allocated hg hn]
    have hkeep : ∀ x ≤ g.totalClusters + 1, x ∉ n :: new → (∀ l, NodeChain g s o l → x ∉ l) →
        g.table s₁ x = g.table s x := by
      intro x hx hxn hxl
      have hxnew : x ≠ n ∧ x ∉ new := by simpa using hxn
      rw [htable x hx hxnew.2 fun hlast => hxl l hl (mem_of_getLast? hlast),
        table_allocated_ne hg hn hx hxnew.1]
    obtain ⟨q, hq, hnode⟩ := NewNode.of_runIn hg hs1 hin hname hattr (hended _ (.chain hl))
      hfresh' hnodup hcleared hlast hkeep hdisk hs' hview (.chain hl hchain)
    exact ⟨_, _, q, hq, hnode⟩
  | @fixed m pre _ post hroot hrun =>
    obtain ⟨rfl, ht⟩ := fixedRoot_isNone hroot
    have hs1 : (g.allocated n s).Works := allocated_works hs
    obtain ⟨pre', run', post', hfirst, hcells⟩ := (hrun.allocated hg hn).fixedRun hg
    have hin : RunIn g true (g.allocated n s) (g.allocated n s) (fixedSlots g)
        (requiredLFNEntries name.length + 1) (fixedSlots g s) [] pre' run' post' := by
      refine ⟨fixedSlots_follows hg, ?_, by simp, fixedSlots_slotsAt hg, hfirst, fun _ _ _ => rfl⟩
      rw [fixedSlots_allocated hg hn, append_nil]
    rw [← putSlots_congr hcells] at hs'
    have hview : fixedSlots g s' = fixedSlots g
        ((g.allocated n s).putSlots g (run'.zip (newSlots s.rtc name attr n))) := by
      refine fixedSlots_congr hg fun p hp => ?_
      rw [hs']
      refine finished_disk hg ?_
      rw [hcluster, inCluster_iff hg hn.isCluster ((fixedSlots_slotsAt hg).sector p hp).2]
      have := (mem_fixedSlots hg hp).2
      have := (clusterToSector_bounds hg hn.isCluster).1
      omega
    have hkeep : ∀ x ≤ g.totalClusters + 1, x ∉ [n] → (∀ l, NodeChain g s none l → x ∉ l) →
        g.table (g.allocated n s) x = g.table s x := fun x hx hxn _ =>
      table_allocated_ne hg hn hx (by simpa using hxn)
    obtain ⟨q, hq, hnode⟩ := NewNode.of_runIn hg hs1 hin hname hattr (hended _ (.fixed ht))
      (by simpa using ⟨hn, hfree.free⟩) (by simp) (by simp) (table_allocated hg hn) hkeep
      (fun _ _ _ => rfl) hs' hview (.fixed ht)
    exact ⟨_, _, q, hq, hnode⟩

end

end HeisenKernel
