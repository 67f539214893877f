import HeisenKernel.Fat.Entries

/-!
# Writing the slots of a directory

The driver changes a directory slot by slot: it reads the sector, replaces 32 bytes and writes the
sector back (`putAt`).
-/

namespace HeisenKernel

open Lib List Geometry Fat

/-- The volume with one slot of a sector replaced. -/
def Fat.putAt (s : Fat) (g : Geometry) (sector offset : Nat) (e : Slot) : Fat :=
  s.write (g.lba sector) (putSlot (s.disk (g.lba sector)) offset e)

/-- The slots at the given places replaced, one after the other. -/
def Fat.putSlots (s : Fat) (g : Geometry) (changes : List (DirSlot × Slot)) : Fat :=
  changes.foldl (fun s p => s.putAt g p.1.sector p.1.offset p.2) s

/-- The slots lie at the same place. -/
def DirSlot.SamePlace (p q : DirSlot) : Prop := p.sector = q.sector ∧ p.offset = q.offset

instance (p q : DirSlot) : Decidable (p.SamePlace q) := by
  unfold DirSlot.SamePlace; infer_instance

/-- The slot with other bytes. -/
def DirSlot.set (p : DirSlot) (e : Slot) : DirSlot := { p with slot := e }

/-- The slot after the one at the place of `p` was replaced. -/
def DirSlot.update (p : DirSlot) (e : Slot) (q : DirSlot) : DirSlot :=
  if q.SamePlace p then q.set e else q

/-- The places of the slots are slots of sectors behind the table, all of them different, and the
slots are those of the volume. -/
structure SlotsAt (g : Geometry) (s : Fat) (slots : List DirSlot) : Prop where
  sector : ∀ p ∈ slots, g.tableEnd ≤ p.sector ∧ p.sector < g.endSector
  offset : ∀ p ∈ slots, p.offset % 32 = 0 ∧ p.offset + 32 ≤ g.bytesPerSector
  slot : ∀ p ∈ slots, p.slot = slotAt (s.disk (g.lba p.sector)) p.offset
  distinct : slots.Pairwise fun p q => ¬p.SamePlace q

variable {g : Geometry} {s : Fat} {n : Nat} {p : DirSlot} {e : Slot}

theorem DirSlot.update_of_same (h : q.SamePlace p) : p.update e q = q.set e :=
  if_pos h

theorem DirSlot.update_of_ne (h : ¬q.SamePlace p) : p.update e q = q := if_neg h

theorem slotAt_putAt (hg : g.WellFormed)
    (hs : sector < g.endSector) (hs' : sector' < g.endSector) (ho : offset % 32 = 0)
    (ho' : offset' % 32 = 0) : slotAt ((s.putAt g sector offset e).disk (g.lba sector')) offset' =
      if sector' = sector ∧ offset' = offset then e
      else slotAt (s.disk (g.lba sector')) offset' := by
  rw [putAt]
  by_cases hsec : sector' = sector
  · subst hsec
    rw [write_disk_self]
    by_cases hoff : offset' = offset
    · rw [if_pos ⟨rfl, hoff⟩, hoff, slotAt_putSlot]
    · rw [if_neg fun h => hoff h.2, slotAt_putSlot_ne (by omega)]
  · rw [if_neg fun h => hsec h.1, write_disk_ne]
    rw [Ne, lba_inj hg.tabled hs' hs]
    exact hsec

theorem Fat.Works.putAt (hs : s.Works) (sector offset : Nat) : (s.putAt g sector offset e).Works := hs

theorem putAt_disk_ne {lba sector offset : Nat} (h : lba ≠ g.lba sector) :
    (s.putAt g sector offset e).disk lba = s.disk lba := write_disk_ne h _

theorem putAt_disk_byte {lba sector offset o : Nat} (h : lba ≠ g.lba sector ∨ o < offset ∨ offset + 32 ≤ o)
    : (s.putAt g sector offset e).disk lba o = s.disk lba o := by
  by_cases hl : lba = g.lba sector
  · subst hl
    rw [putAt, write_disk_self, putSlot, dif_neg (by omega)]
  · rw [putAt_disk_ne hl]

theorem table_putAt (hg : g.WellFormed) (ht : g.tableEnd ≤ sector)
    (hs : sector < g.endSector) (hc : c ≤ g.totalClusters + 1) :
    g.table (s.putAt g sector offset e) c = g.table s c := table_write hg.tabled hc ht hs _

theorem windowSlots_putAt (hg : g.WellFormed) (hwin : start + g.sectorsPerCluster ≤ g.endSector)
    (hp : p.sector < g.endSector) (ho : p.offset % 32 = 0) :
    windowSlots g (s.putAt g p.sector p.offset e) c start = (windowSlots g s c start).map (p.update e) := by
  have hsize := hg.size
  have hend : start + g.sectorsPerCluster ≤ 2 ^ 32 := by
    unfold endSector at hwin
    omega
  rw [windowSlots, windowSlots, map_flatMap]
  refine flatMap_congr fun i hi => ?_
  have hi := mem_range.1 hi
  rw [map_map]
  refine map_congr_left fun k _ => ?_
  have hslot : slotAt ((s.putAt g p.sector p.offset e).disk (u32 (g.startLBA + (start + i))))
      (k * 32) = if start + i = p.sector ∧ k * 32 = p.offset then e
        else slotAt (s.disk (u32 (g.startLBA + (start + i)))) (k * 32) :=
    slotAt_putAt hg hp (show start + i < g.endSector by omega) ho (by omega)
  rw [hslot, u32_eq (show start + i < 2 ^ 32 by omega)]
  by_cases h : start + i = p.sector ∧ k * 32 = p.offset
  · rw [if_pos h]
    exact (if_pos h).symm
  · rw [if_neg h]
    exact (if_neg h).symm

theorem chainSlots_putAt (hg : g.WellFormed) (hl : ∀ d ∈ l, g.IsCluster d)
    (hp : p.sector < g.endSector) (ho : p.offset % 32 = 0) :
    chainSlots g (s.putAt g p.sector p.offset e) l = (chainSlots g s l).map (p.update e) := by
  rw [chainSlots, chainSlots, map_flatMap]
  exact flatMap_congr fun d hd =>
    windowSlots_putAt hg (clusterToSector_bounds hg (hl d hd)).2 hp ho

/-- The part of the volume that a directory is read from follows the slots that are replaced. -/
def Follows (g : Geometry) (view : Fat → List DirSlot) : Prop :=
  ∀ (s : Fat) (p : DirSlot) (e : Slot), p.sector < g.endSector → p.offset % 32 = 0 →
    view (s.putAt g p.sector p.offset e) = (view s).map (p.update e)

theorem chainSlots_follows (hg : g.WellFormed) (hl : ∀ d ∈ l, g.IsCluster d) :
    Follows g fun s => chainSlots g s l := fun _ _ _ hp ho => chainSlots_putAt hg hl hp ho

theorem map_update_of_ne {slots : List DirSlot} (h : ∀ q ∈ slots, ¬q.SamePlace p) :
    slots.map (p.update e) = slots := by
  conv_rhs => rw [← map_id slots]
  exact map_congr_left fun q hq => DirSlot.update_of_ne (h q hq)

theorem DirSlot.SamePlace.symm (h : p.SamePlace q) : q.SamePlace p :=
  ⟨h.1.symm, h.2.symm⟩

theorem map_update (h : (pre ++ p :: post).Pairwise fun p q => ¬p.SamePlace q) : (pre ++ p :: post).map
    (p.update e) = pre ++ p.set e :: post := by
  obtain ⟨-, hrest, hcross⟩ := pairwise_append.1 h
  obtain ⟨hpost, -⟩ := pairwise_cons.1 hrest
  rw [map_append, map_cons,
    map_update_of_ne fun q hq => hcross q hq p mem_cons_self,
    map_update_of_ne fun q hq hsame => hpost q hq hsame.symm,
    DirSlot.update_of_same ⟨rfl, rfl⟩]

theorem SlotsAt.putAt (hg : g.WellFormed) (h : SlotsAt g s (pre ++ p :: post)) : SlotsAt g
    (s.putAt g p.sector p.offset e) (pre ++ p.set e :: post) := by
  have hmem : p ∈ pre ++ p :: post := by simp
  have hplace : ∀ q ∈ pre ++ p.set e :: post, ∃ q' ∈ pre ++ p :: post, q.sector = q'.sector ∧
      q.offset = q'.offset ∧ q.slot = (p.update e q').slot := by
    rw [← map_update h.distinct]
    intro q hq
    obtain ⟨q', hq', rfl⟩ := mem_map.1 hq
    refine ⟨q', hq', ?_⟩
    unfold DirSlot.update
    split <;> exact ⟨rfl, rfl, rfl⟩
  refine ⟨fun q hq => ?_, fun q hq => ?_, fun q hq => ?_, ?_⟩
  · obtain ⟨q', hq', hsec, -⟩ := hplace q hq
    rw [hsec]
    exact h.sector q' hq'
  · obtain ⟨q', hq', -, hoff, -⟩ := hplace q hq
    rw [hoff]
    exact h.offset q' hq'
  · obtain ⟨q', hq', hsec, hoff, hslot⟩ := hplace q hq
    rw [hslot, hsec, hoff, slotAt_putAt hg (h.sector p hmem).2 (h.sector q' hq').2
      (h.offset p hmem).1 (h.offset q' hq').1, ← h.slot q' hq']
    by_cases hsame : q'.SamePlace p
    · rw [DirSlot.update_of_same hsame, if_pos ⟨hsame.1, hsame.2⟩]
      rfl
    · rw [DirSlot.update_of_ne hsame, if_neg fun h => hsame ⟨h.1, h.2⟩]
  · rw [← map_update h.distinct, pairwise_map]
    refine h.distinct.imp fun {a b} hab hsame => hab ?_
    have hkeep : ∀ q, (p.update e q).sector = q.sector ∧ (p.update e q).offset = q.offset := by
      intro q
      unfold DirSlot.update
      split <;> exact ⟨rfl, rfl⟩
    rw [DirSlot.SamePlace, (hkeep a).1, (hkeep a).2, (hkeep b).1, (hkeep b).2] at hsame
    exact hsame

theorem SlotsAt.putSlots (hg : g.WellFormed) (hview : Follows g view)
    (hlen : es.length = run.length)
    (hs : view s = pre ++ run ++ post) (h : SlotsAt g s (pre ++ run ++ post)) :
    view (s.putSlots g (run.zip es)) = pre ++ List.zipWith DirSlot.set run es ++ post ∧
      SlotsAt g (s.putSlots g (run.zip es)) (pre ++ List.zipWith DirSlot.set run es ++ post) := by
  induction run generalizing s pre es with
  | nil => exact ⟨by simpa [putSlots] using hs, by simpa [putSlots] using h⟩
  | cons p run ih =>
    obtain _ | ⟨e, es⟩ := es
    · cases hlen
    have hsplit : pre ++ p :: run ++ post = pre ++ p :: (run ++ post) := by simp
    rw [hsplit] at hs h
    have hmem : p ∈ pre ++ p :: (run ++ post) := by simp
    have hs' : view (s.putAt g p.sector p.offset e) = pre ++ p.set e :: (run ++ post) := by
      rw [hview s p e (h.sector p hmem).2 (h.offset p hmem).1, hs, map_update h.distinct]
    have h' := h.putAt (e := e) hg
    have hassoc : pre ++ p.set e :: (run ++ post) = pre ++ [p.set e] ++ run ++ post := by simp
    rw [hassoc] at hs' h'
    have hih := ih (by simpa using hlen) hs' h'
    simpa [putSlots] using hih

theorem putSlots_fields (s : Fat) (changes : List (DirSlot × Slot)) :
    (s.putSlots g changes).startSearchCluster = s.startSearchCluster ∧ (s.putSlots g changes).failures =
    s.failures ∧ (s.putSlots g changes).rtc = s.rtc ∧ (s.putSlots g changes).bufferRead = s.bufferRead := by
  induction changes generalizing s with
  | nil => exact ⟨rfl, rfl, rfl, rfl⟩
  | cons p changes ih => exact ih _

theorem putSlots_disk_byte {lba o : Nat} (h : ∀ p ∈ changes, lba ≠ g.lba p.1.sector ∨
    o < p.1.offset ∨ p.1.offset + 32 ≤ o) : (s.putSlots g changes).disk lba o = s.disk lba o := by
  induction changes generalizing s with
  | nil => rfl
  | cons p changes ih =>
    refine (ih (forall_mem_cons.1 h).2).trans ?_
    exact putAt_disk_byte (h p mem_cons_self)

theorem putSlots_disk_ne {lba : Nat} (h : ∀ p ∈ changes, lba ≠ g.lba p.1.sector) :
    (s.putSlots g changes).disk lba = s.disk lba := by
  funext o
  exact putSlots_disk_byte fun p hp => .inl (h p hp)

theorem table_putSlots (hg : g.WellFormed)
    (h : ∀ p ∈ changes, g.tableEnd ≤ p.1.sector ∧ p.1.sector < g.endSector)
    (hc : c ≤ g.totalClusters + 1) : g.table (s.putSlots g changes) c = g.table s c := by
  induction changes generalizing s with
  | nil => rfl
  | cons p changes ih =>
    refine (ih (forall_mem_cons.1 h).2).trans ?_
    obtain ⟨h1, h2⟩ := h p mem_cons_self
    exact table_putAt hg h1 h2 hc

theorem windowSlots_slotsAt (hg : g.WellFormed) (hstart : g.tableEnd ≤ start)
    (hend : start + g.sectorsPerCluster ≤ g.endSector) : SlotsAt g s (windowSlots g s c start) := by
  have hsize := hg.size
  have hend32 : start + g.sectorsPerCluster ≤ 2 ^ 32 := by
    unfold endSector at hend
    omega
  have hmem : ∀ p ∈ windowSlots g s c start, p.index < g.sectorsPerCluster ∧
      p.sector = start + p.index ∧ ∃ k < g.slotsPerSector, p.offset = k * 32 ∧
        p.slot = slotAt (s.disk (g.lba (start + p.index))) (k * 32) := by
    intro p hp
    obtain ⟨-, hi, hsec, hk⟩ := mem_windowSlots hp
    rw [u32_eq (by omega)] at hsec
    exact ⟨hi, hsec, hk⟩
  refine ⟨fun p hp => ?_, fun p hp => ?_, fun p hp => ?_, ?_⟩
  · obtain ⟨hi, hsec, -⟩ := hmem p hp
    omega
  · obtain ⟨-, -, k, hk, ho, -⟩ := hmem p hp
    unfold slotsPerSector at hk
    omega
  · obtain ⟨-, hsec, k, -, ho, hslot⟩ := hmem p hp
    rw [hslot, hsec, ho]
  · -- different sectors of the window, or different slots of one sector
    rw [windowSlots, pairwise_flatMap]
    refine ⟨fun i hi => ?_, ?_⟩
    · rw [pairwise_map]
      refine pairwise_lt_range.imp fun {a b} hab hsame => ?_
      have hoff : a * 32 = b * 32 := hsame.2
      omega
    · refine List.Pairwise.imp_of_mem (fun {i j} hi hj hij => ?_) pairwise_lt_range
      intro p hp q hq hsame
      obtain ⟨k, -, rfl⟩ := mem_map.1 hp
      obtain ⟨k', -, rfl⟩ := mem_map.1 hq
      have hsec : u32 (start + i) = u32 (start + j) := hsame.1
      rw [mem_range] at hi hj
      rw [u32_eq (by omega), u32_eq (by omega)] at hsec
      omega

theorem windows_slotsAt {α : Type} {ws : List α} {cl st : α → Nat} (hg : g.WellFormed)
    (hb : ∀ w ∈ ws, g.tableEnd ≤ st w ∧ st w + g.sectorsPerCluster ≤ g.endSector)
    (hdisjoint : ws.Pairwise fun v w =>
      st v + g.sectorsPerCluster ≤ st w ∨ st w + g.sectorsPerCluster ≤ st v) :
    SlotsAt g s (ws.flatMap fun w => windowSlots g s (cl w) (st w)) := by
  have hwin : ∀ w ∈ ws, SlotsAt g s (windowSlots g s (cl w) (st w)) := fun w hw =>
    windowSlots_slotsAt hg (hb w hw).1 (hb w hw).2
  have hsize := hg.size
  have hsector : ∀ w ∈ ws, ∀ p ∈ windowSlots g s (cl w) (st w),
      st w ≤ p.sector ∧ p.sector < st w + g.sectorsPerCluster := by
    intro w hw p hp
    obtain ⟨-, hi, hsec, -⟩ := mem_windowSlots hp
    have hend := (hb w hw).2
    unfold endSector at hend
    rw [hsec, u32_eq (by omega)]
    omega
  refine ⟨fun p hp => ?_, fun p hp => ?_, fun p hp => ?_, ?_⟩
  · obtain ⟨w, hw, hp⟩ := mem_flatMap.1 hp
    exact (hwin w hw).sector p hp
  · obtain ⟨w, hw, hp⟩ := mem_flatMap.1 hp
    exact (hwin w hw).offset p hp
  · obtain ⟨w, hw, hp⟩ := mem_flatMap.1 hp
    exact (hwin w hw).slot p hp
  · rw [pairwise_flatMap]
    refine ⟨fun w hw => (hwin w hw).distinct, List.Pairwise.imp_of_mem ?_ hdisjoint⟩
    intro v w hv hw hvw p hp q hq hsame
    have := hsector v hv p hp
    have := hsector w hw q hq
    have := hsame.1
    omega

theorem chainSlots_slotsAt (hg : g.WellFormed) (hl : ∀ d ∈ l, g.IsCluster d) (hnodup : l.Nodup) :
    SlotsAt g s (chainSlots g s l) := by
  refine windows_slotsAt hg (fun d hd => ?_) (List.Pairwise.imp_of_mem (fun hd hd' hne =>
    clusterToSector_disjoint hg (hl _ hd) (hl _ hd') hne) hnodup)
  have hb := clusterToSector_bounds hg (hl d hd)
  exact ⟨le_trans (tableEnd_le g) hb.1, hb.2⟩

/-- The first windows on a root directory lie in its sectors and do not overlap. -/
structure RootWindows (g : Geometry) (n : Nat) : Prop where
  single : g.sectorsPerCluster = 1 ∨ n = 1
  inside : n + g.sectorsPerCluster ≤ g.rootDirSectors + 1

theorem RootWindows.le_end (h : RootWindows g n) (hg : g.WellFormed) (hj : j < n) :
    g.rootStart + j + g.sectorsPerCluster ≤ g.endSector := by
  have := h.inside
  have := tableEnd_pos hg.tabled
  rw [rootStart_eq hg]
  unfold tableEnd endSector at *
  omega

theorem rootSlots_slotsAt (hg : g.WellFormed) (h : RootWindows g n) : SlotsAt g s (rootSlots g s c n) := by
  refine windows_slotsAt hg (fun j hj => ⟨?_, h.le_end hg (mem_range.1 hj)⟩) ?_
  · rw [rootStart_eq hg]
    exact Nat.le_add_right _ _
  · refine List.Pairwise.imp_of_mem (fun {i j} hi hj hij => .inl ?_) pairwise_lt_range
    rw [mem_range] at hi hj
    rcases h.single with h1 | h1 <;> omega

theorem rootSlots_follows (hg : g.WellFormed) (h : RootWindows g n) :
    Follows g fun s => rootSlots g s c n := by
  intro s p e hp ho
  dsimp only
  rw [rootSlots, rootSlots, map_flatMap]
  exact flatMap_congr fun j hj =>
    windowSlots_putAt hg (h.le_end hg (mem_range.1 hj)) hp ho

end HeisenKernel
