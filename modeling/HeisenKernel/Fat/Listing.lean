import HeisenKernel.Fat.Clusters
import HeisenKernel.Fat.Directory

/-!
# The slots of a directory and its listing

On a working volume the walk of the driver through a directory is a loop over the list of its slots.
-/

namespace HeisenKernel

open Lib List FatM CString Geometry

/-- A slot of a directory and where it lies: the cluster and the index of the sector in it, the
sector, and the offset in the sector. -/
structure DirSlot where
  cluster : Nat
  index : Nat
  sector : Nat
  offset : Nat
  slot : Slot

/-- The slots of the `sectorsPerCluster` sectors from `start` on. -/
def windowSlots (g : Geometry) (s : Fat) (cluster start : Nat) : List DirSlot :=
  (List.range g.sectorsPerCluster).flatMap fun i => (List.range g.slotsPerSector).map fun k =>
    ⟨cluster, i, u32 (start + i), k * 32, slotAt (s.disk (u32 (g.startLBA + (start + i)))) (k * 32)⟩

/-- The slots of the clusters of a chain. -/
def chainSlots (g : Geometry) (s : Fat) (l : List Nat) : List DirSlot :=
  l.flatMap fun c => windowSlots g s c (g.clusterToSector c)

/-- The slots of the first `n` windows on the root directory of a FAT12 or FAT16 volume. -/
def rootSlots (g : Geometry) (s : Fat) (cluster n : Nat) : List DirSlot :=
  (List.range n).flatMap fun j => windowSlots g s cluster (g.rootStart + j)

/-- `Directory g s c root slots`: the walk through the directory goes through the slots in this
order, to the end of the chain or at most to a slot that ends the directory. -/
inductive Directory (g : Geometry) (s : Fat) (c : Nat) (rootDirectory : Bool) :
    List DirSlot → Prop
  | chain {l : List Nat} : g.fixedRoot rootDirectory = false → Walk g s c l →
      l.length < walkFuel → Directory g s c rootDirectory (chainSlots g s l)
  | fixed {n : Nat} : g.fixedRoot rootDirectory = true → c ≠ 0 ∧ c < g.clusterEnd → n < walkFuel →
      g.rootStart + n < 2 ^ 32 → (∃ p ∈ rootSlots g s c n, p.slot 0 = 0x00) → Directory g s c
      rootDirectory (rootSlots g s c n)

/-- The loop of `FAT::GetDirectoryEntries` over the slots of a directory. -/
def listSlots (acc : Listing) (slots : List DirSlot) : Exec (Listing ⊕ List FATEntryInfo) :=
  forReturn (fun acc p => listSlot p.sector p.offset acc p.slot) acc slots

/-- The slot is a short entry that is in use: not free, not `.` or `..`, not the name of the volume
and not a part of a long name. -/
structure IsShortEntry (e : Slot) : Prop where
  first : e 0 ≠ 0x00 ∧ e 0 ≠ 0xE5 ∧ e 0 ≠ 0x2E
  attributes : e.attributes ≠ 0x08 ∧ e.attributes ≠ 0x0F

/-- What the loop has found, whether it went to the end or returned at the last entry. -/
def found : Listing ⊕ List FATEntryInfo → List FATEntryInfo
  | .inl acc => acc.results
  | .inr results => results

/-- The entries of a directory with the given slots. -/
def listing (slots : List DirSlot) : Exec (List FATEntryInfo) :=
  listSlots ⟨[], []⟩ slots >>= fun r => .ok (found r)

section
variable {g : Geometry} {s : Fat} {c : Nat} {root : Bool} {slots : List DirSlot}

theorem Chain.length_lt_walkFuel (hg : g.WellFormed) (h : Chain g s c l) : l.length < walkFuel := by
  have := h.length_le hg
  have := hg.total_lt
  unfold walkFuel
  omega

theorem walkSectors_eq (hs : s.Works) (start : Nat) (onError : σ → β)
    (hbody : ∀ acc i k e, body i k acc e = body' acc ⟨c, i, u32 (start + i), k, e⟩) (acc : σ) :
    walkSectors g start onError body acc s = liftExec (forReturn body' acc (windowSlots g s c start)) s := by
  rw [windowSlots, forReturn_flatMap, walkSectors]
  refine forReturn_read (fun acc i _ => ?_) acc
  rw [bind_eq (readSector_eq hs _), forReturn_map]
  simp only [hbody]

theorem listSlot_short (he : IsShortEntry e) (h5 : e 0 ≠ 0x05) (sector offset : Nat)
    (acc : Listing) : listSlot sector offset acc e = (entryName acc.lfnEntries e >>= fun filename =>
      .ok (.inl ⟨acc.results ++ [⟨e, filename, sector, offset⟩], []⟩)) := by
  rw [listSlot, if_neg he.first.1, if_neg he.first.2.1, if_neg he.first.2.2, if_neg h5,
    if_neg he.attributes.1, if_neg he.attributes.2]

theorem listSlot_cases
    (h : listSlot sector offset acc e = .ok r) :
    e 0 = 0x00 ∧ r = .inr acc.results ∨ e 0 ≠ 0x00 ∧ r = .inl acc ∨
      e 0 ≠ 0x00 ∧ r = .inl ⟨acc.results, acc.lfnEntries ++ [e]⟩ ∨
      ∃ filename, IsShortEntry e ∧ e 0 ≠ 0x05 ∧ entryName acc.lfnEntries e = .ok filename ∧
        r = .inl ⟨acc.results ++ [⟨e, filename, sector, offset⟩], []⟩ := by
  by_cases h0 : e 0 = 0x00
  · rw [listSlot, if_pos h0] at h
    cases h
    exact .inl ⟨h0, rfl⟩
  refine .inr ?_
  by_cases hskip : e 0 = 0xE5 ∨ e 0 = 0x2E ∨ e 0 = 0x05 ∨ e.attributes = 0x08
  · have : listSlot sector offset acc e = .ok (.inl acc) := by
      rw [listSlot, if_neg h0]
      rcases hskip with h | h | h | h <;> simp only [h, if_true, ite_self]
    rw [this] at h
    cases h
    exact .inl ⟨h0, rfl⟩
  push Not at hskip
  obtain ⟨hE5, h2E, h5, h08⟩ := hskip
  by_cases h0F : e.attributes = 0x0F
  · rw [listSlot, if_neg h0, if_neg hE5, if_neg h2E, if_neg h5, if_neg h08, if_pos h0F] at h
    cases h
    exact .inr (.inl ⟨h0, rfl⟩)
  · have hshort : IsShortEntry e := ⟨⟨h0, hE5, h2E⟩, h08, h0F⟩
    rw [listSlot_short hshort h5] at h
    obtain ⟨filename, hname, hr⟩ := bind_eq_ok.1 h
    cases hr
    exact .inr (.inr ⟨filename, hshort, h5, hname, rfl⟩)

theorem listSlots_cons : listSlots acc (p :: slots) =
    listSlot p.sector p.offset acc p.slot >>= orElse fun acc => listSlots acc slots :=
  forReturn_cons ..

theorem listSlots_unused (h0 : p.slot 0 ≠ 0x00)
    (h : p.slot 0 = 0xE5 ∨ p.slot 0 = 0x2E ∨ p.slot.attributes = 0x08) (acc : Listing) :
    listSlots acc (p :: ps) = listSlots acc ps := by
  have hskip : listSlot p.sector p.offset acc p.slot = .ok (.inl acc) := by
    unfold listSlot
    rw [if_neg h0]
    rcases h with h | h | h
    · rw [if_pos h]
    · rw [Slot.first, h]
      rfl
    · simp only [if_pos h, ite_self]
  rw [listSlots, forReturn_cons, hskip]
  rfl

theorem listSlots_ended (h : listSlots acc slots = .ok (.inr results)) : ∃ p ∈ slots, p.slot 0 = 0x00 := by
  induction slots generalizing acc with
  | nil => cases h
  | cons p slots ih =>
    obtain ⟨r, hr, hrest⟩ := bind_eq_ok.1 h
    rcases listSlot_cases hr with ⟨h0, -⟩ | ⟨-, rfl⟩ | ⟨-, rfl⟩ | ⟨_, -, -, -, rfl⟩
    · exact ⟨p, mem_cons_self, h0⟩
    all_goals
      obtain ⟨q, hq, h0⟩ := ih hrest
      exact ⟨q, mem_cons_of_mem _ hq, h0⟩

theorem listSlots_origin
    (h : listSlots acc slots = .ok r) (he : e ∈ found r) :
    e ∈ acc.results ∨ ∃ p ∈ slots, e.entry = p.slot ∧ e.sector = p.sector ∧
      e.offsetInSector = p.offset ∧ IsShortEntry p.slot ∧ p.slot 0 ≠ 0x05 := by
  induction slots generalizing acc with
  | nil =>
    cases h
    exact .inl he
  | cons p slots ih =>
    obtain ⟨r1, hr1, hrest⟩ := bind_eq_ok.1 h
    -- the entries of the slots behind this one
    have hbehind : ∀ acc', listSlots acc' slots = .ok r → e ∈ acc'.results ∨
        ∃ q ∈ p :: slots, e.entry = q.slot ∧ e.sector = q.sector ∧
          e.offsetInSector = q.offset ∧ IsShortEntry q.slot ∧ q.slot 0 ≠ 0x05 := by
      intro acc' h'
      rcases ih h' with hacc | ⟨q, hq, hfacts⟩
      · exact .inl hacc
      · exact .inr ⟨q, mem_cons_of_mem _ hq, hfacts⟩
    rcases listSlot_cases hr1 with ⟨-, rfl⟩ | ⟨-, rfl⟩ | ⟨-, rfl⟩ | ⟨_, hshort, h5, -, rfl⟩
    · cases hrest
      exact .inl he
    · exact hbehind _ hrest
    · exact hbehind ⟨acc.results, acc.lfnEntries ++ [p.slot]⟩ hrest
    · rcases hbehind _ hrest with hacc | hq
      · rcases mem_append.1 hacc with hacc | hacc
        · exact .inl hacc
        · rw [mem_singleton.1 hacc]
          exact .inr ⟨p, mem_cons_self, rfl, rfl, rfl, hshort, h5⟩
      · exact .inr hq

theorem listSlots_returns (h : ∃ p ∈ slots, p.slot 0 = 0x00) (acc acc' : Listing) :
    listSlots acc slots ≠ .ok (.inl acc') := by
  obtain ⟨p, hp, hend⟩ := h
  induction slots generalizing acc with
  | nil => cases hp
  | cons q slots ih =>
    rw [listSlots_cons]
    intro hok
    obtain ⟨r, hr, hrest⟩ := bind_eq_ok.1 hok
    rcases mem_cons.1 hp with rfl | hp
    · rw [listSlot, if_pos hend] at hr
      cases hr
      cases hrest
    · cases r with
      | inr b => cases hrest
      | inl acc1 => exact ih acc1 hp hrest

/-- The entries found so far stand in front of those that are found. -/
def addResults (results : List FATEntryInfo) : Listing ⊕ List FATEntryInfo → Listing ⊕ List FATEntryInfo
  | .inl acc => .inl ⟨results ++ acc.results, acc.lfnEntries⟩
  | .inr found => .inr (results ++ found)

theorem found_addResults (results : List FATEntryInfo) (r : Listing ⊕ List FATEntryInfo) :
    found (addResults results r) = results ++ found r := by
  cases r <;> rfl

theorem listSlots_results (results found : List FATEntryInfo) (lfns : List Slot) :
    listSlots ⟨results ++ found, lfns⟩ slots =
      listSlots ⟨found, lfns⟩ slots >>= fun r => .ok (addResults results r) := by
  induction slots generalizing found lfns with
  | nil => rfl
  | cons p slots ih =>
    have hslot : listSlot p.sector p.offset ⟨results ++ found, lfns⟩ p.slot =
        listSlot p.sector p.offset ⟨found, lfns⟩ p.slot >>= fun r =>
          .ok (addResults results r) := by
      unfold listSlot
      split_ifs
      all_goals first
        | rfl
        | cases entryName lfns p.slot with
          | error e => rfl
          | ok filename =>
            show Except.ok (Sum.inl (Listing.mk (results ++ found ++ _) _)) = _
            rw [append_assoc]
            rfl
    rw [listSlots_cons, listSlots_cons, hslot]
    cases listSlot p.sector p.offset ⟨found, lfns⟩ p.slot with
    | error e => rfl
    | ok r =>
      cases r with
      | inr b => rfl
      | inl acc => exact ih acc.results acc.lfnEntries

theorem walkSectors_listSlots (hs : s.Works) (c sector : Nat) (acc : Listing) :
    walkSectors g sector Listing.results (fun i offset => listSlot (u32 (sector + i)) offset) acc s =
      liftExec (listSlots acc (windowSlots g s c sector)) s :=
  walkSectors_eq hs _ _ (by intros; rfl) acc

theorem listSlots_append (acc : Listing) (l l' : List DirSlot) :
    listSlots acc (l ++ l') = listSlots acc l >>= orElse fun acc => listSlots acc l' :=
  forReturn_append ..

theorem getDirectoryEntriesFrom_walk (hs : s.Works) (hroot : g.fixedRoot root = false)
    (hw : Walk g s c l) (hfuel : l.length < fuel) (sector : Nat)
    (acc : Listing) : getDirectoryEntriesFrom g root fuel c sector acc s =
      liftExec (listSlots acc (chainSlots g s l) >>= fun r => .ok (found r)) s := by
  induction hw generalizing fuel sector acc with
  | @stop c hc =>
    obtain _ | fuel := fuel
    · omega
    rw [getDirectoryEntriesFrom, if_neg hc]
    rfl
  | @step c next l hc hread _ ih =>
    obtain _ | fuel := fuel
    · omega
    have hwin : walkSector g root c sector = g.clusterToSector c := by
      rw [walkSector, hroot]
      rfl
    rw [getDirectoryEntriesFrom, if_pos hc, hwin, bind_congr (walkSectors_listSlots hs c _ _), chainSlots,
      flatMap_cons, listSlots_append]
    cases hl : listSlots acc (windowSlots g s c (g.clusterToSector c)) with
    | error e => exact bind_error rfl
    | ok r =>
      rw [bind_eq (liftExec_ok _)]
      cases r with
      | inr results => rfl
      | inl acc' =>
        dsimp only
        rw [hroot, if_neg Bool.false_ne_true, bind_eq hread]
        exact ih (by simpa using hfuel) _ acc'

theorem rootSlots_succ (n j : Nat) :
    ((range (n + 1)).map (j + ·)).flatMap (fun j => windowSlots g s c (g.rootStart + j)) =
      windowSlots g s c (g.rootStart + j) ++ ((range n).map (j + 1 + ·)).flatMap
        fun j => windowSlots g s c (g.rootStart + j) := by
  rw [range_succ_eq_map, map_cons, flatMap_cons, map_map, add_zero]
  congr 3
  funext i
  show j + (i + 1) = j + 1 + i
  omega

theorem getDirectoryEntriesFrom_fixed (hs : s.Works) (hroot : g.fixedRoot root = true)
    (hc : c ≠ 0 ∧ c < g.clusterEnd) {n j fuel : Nat}
    (hn : g.rootStart + (j + n) < 2 ^ 32) (hfuel : n < fuel) {sector : Nat}
    (hsector : walkSector g root c sector = g.rootStart + j) (acc : Listing)
    (hend : ∀ acc', listSlots acc (((range n).map (j + ·)).flatMap
      fun j => windowSlots g s c (g.rootStart + j)) ≠ .ok (.inl acc')) :
    getDirectoryEntriesFrom g root fuel c sector acc s =
      liftExec (listSlots acc (((range n).map (j + ·)).flatMap
        fun j => windowSlots g s c (g.rootStart + j)) >>= fun r => .ok (found r)) s := by
  induction n generalizing j fuel sector acc with
  | zero => exact absurd rfl (hend acc)
  | succ n ih =>
    obtain _ | fuel := fuel
    · omega
    rw [rootSlots_succ, listSlots_append] at hend ⊢
    rw [getDirectoryEntriesFrom, if_pos hc, hsector, bind_congr (walkSectors_listSlots hs c _ _)]
    cases hl : listSlots acc (windowSlots g s c (g.rootStart + j)) with
    | error e => exact bind_error rfl
    | ok r =>
      rw [bind_eq (liftExec_ok _)]
      cases r with
      | inr results => rfl
      | inl acc' =>
        rw [hl] at hend
        dsimp only
        rw [hroot, if_pos rfl]
        refine ih (by omega) (by omega) ?_ acc' hend
        rw [walkSector, hroot, if_pos rfl, u32_eq (by omega), if_neg (by omega)]
        omega

theorem getDirectoryEntries_eq (hs : s.Works) (hd : Directory g s c root slots) :
    getDirectoryEntries g c root s = liftExec (listing slots) s := by
  cases hd with
  | chain hroot hw hlen => exact getDirectoryEntriesFrom_walk hs hroot hw hlen 0 _
  | @fixed n hroot hc hn hbound hend =>
    have hmap : (range n).map (0 + ·) = range n := by simp
    have hend' := fun acc' => listSlots_returns hend ⟨[], []⟩ acc'
    rw [rootSlots, ← hmap] at hend'
    have h := @getDirectoryEntriesFrom_fixed g s c root hs hroot hc n 0 walkFuel (by omega) hn
      0 (by rw [walkSector, hroot]; rfl) ⟨[], []⟩ hend'
    rw [hmap] at h
    exact h

theorem mem_windowSlots (h : p ∈ windowSlots g s c start) :
    p.cluster = c ∧ p.index < g.sectorsPerCluster ∧ p.sector = u32 (start + p.index) ∧
      ∃ k < g.slotsPerSector, p.offset = k * 32 ∧
        p.slot = slotAt (s.disk (u32 (g.startLBA + (start + p.index)))) (k * 32) := by
  obtain ⟨i, hi, hp⟩ := mem_flatMap.1 h
  obtain ⟨k, hk, rfl⟩ := mem_map.1 hp
  exact ⟨rfl, mem_range.1 hi, rfl, k, mem_range.1 hk, rfl, rfl⟩

theorem mem_chainSlots (h : p ∈ chainSlots g s l) :
    p.cluster ∈ l ∧ p.index < g.sectorsPerCluster ∧
      p.sector = u32 (g.clusterToSector p.cluster + p.index) ∧
      ∃ k < g.slotsPerSector, p.offset = k * 32 ∧
        p.slot = slotAt (s.disk (u32 (g.startLBA + (g.clusterToSector p.cluster + p.index)))) (k * 32) := by
  obtain ⟨c, hc, hp⟩ := mem_flatMap.1 h
  have hw := mem_windowSlots hp
  rw [hw.1]
  exact ⟨hc, hw.2⟩

theorem u32_clusterSector (hg : g.WellFormed) (hc : g.IsCluster c)
    (hi : i < g.sectorsPerCluster) : u32 (g.clusterToSector c + i) = g.clusterToSector c + i := by
  have h := (clusterToSector_bounds hg hc).2
  have hsize := hg.size
  unfold endSector at h
  exact u32_eq (by omega)

theorem chainSlots_cluster_eq (hg : g.WellFormed)
    (hp : p ∈ chainSlots g s l) (hq : q ∈ chainSlots g s l') (hl : ∀ d ∈ l, g.IsCluster d)
    (hl' : ∀ d ∈ l', g.IsCluster d) (h : p.sector = q.sector) : p.cluster = q.cluster := by
  obtain ⟨hpl, hpi, hps, -⟩ := mem_chainSlots hp
  obtain ⟨hql, hqi, hqs, -⟩ := mem_chainSlots hq
  rw [u32_clusterSector hg (hl _ hpl) hpi] at hps
  rw [u32_clusterSector hg (hl' _ hql) hqi] at hqs
  by_contra hne
  rcases clusterToSector_disjoint hg (hl _ hpl) (hl' _ hql) hne with hlt | hlt <;> omega

/-- `Lookup g s c root names r`: every directory on the way from `c` along the names has a listing,
and the search for the names ends in `r`. -/
inductive Lookup (g : Geometry) (s : Fat) :
    Nat → Bool → List (List UInt8) → Option FATEntryInfo → Prop
  | missing {c : Nat} {root : Bool} {slots : List DirSlot} {childs : List FATEntryInfo} {name : List UInt8}
      {names : List (List UInt8)} : Directory g s c root slots → listing slots = .ok childs → childs.find?
      (fun item => item.filename = name) = none → Lookup g s c root (name :: names) none
  | final {c : Nat} {root : Bool} {slots : List DirSlot} {childs : List FATEntryInfo} {name : List UInt8}
      {entry : FATEntryInfo} : Directory g s c root slots → listing slots = .ok childs → childs.find?
      (fun item => item.filename = name) = some entry → Lookup g s c root [name] (some entry)
  | descend {c : Nat} {root : Bool} {slots : List DirSlot} {childs : List FATEntryInfo}
      {name : List UInt8} {names : List (List UInt8)} {entry : FATEntryInfo}
      {r : Option FATEntryInfo} : Directory g s c root slots → listing slots = .ok childs →
      childs.find? (fun item => item.filename = name) = some entry → entry.entry.isDirectory = true
      → Lookup g s entry.entry.cluster false names r → Lookup g s c root (name :: names) r
  | blocked {c : Nat} {root : Bool} {slots : List DirSlot} {childs : List FATEntryInfo}
      {name : List UInt8} {names : List (List UInt8)} {entry : FATEntryInfo} : Directory g s c root
      slots → listing slots = .ok childs → childs.find? (fun item => item.filename = name) = some
      entry → entry.entry.isDirectory = false → names ≠ [] → Lookup g s c root (name :: names) none

theorem Lookup.ne_nil (h : Lookup g s c root names r) : names ≠ [] := by
  cases h <;> simp

theorem searchInDirectory_eq (hs : s.Works) (hd : Directory g s c root slots)
    (hl : listing slots = .ok childs) (name : List UInt8) :
    searchInDirectory g name c root s = .ok (childs.find? (fun item => item.filename = name), s) := by
  have h := getDirectoryEntries_eq hs hd
  rw [hl, liftExec_ok] at h
  rw [searchInDirectory, bind_eq h]
  rfl

theorem searchPath_eq (hs : s.Works)
    (h : Lookup g s c root names r) : searchPath g names c root s = .ok (r, s) := by
  induction h with
  | missing hd hl hf =>
    rw [searchPath, bind_eq (searchInDirectory_eq hs hd hl _), hf]
    rfl
  | final hd hl hf =>
    rw [searchPath, bind_eq (searchInDirectory_eq hs hd hl _), hf]
    rfl
  | descend hd hl hf hdir hrest ih =>
    rw [searchPath, bind_eq (searchInDirectory_eq hs hd hl _), hf]
    dsimp only
    rw [if_neg hrest.ne_nil, if_pos hdir, ih]
  | blocked hd hl hf hdir hne =>
    rw [searchPath, bind_eq (searchInDirectory_eq hs hd hl _), hf]
    dsimp only
    rw [if_neg hne, hdir, if_neg Bool.false_ne_true]
    rfl

theorem getEntryByPath_joinPath (hne : names ≠ []) (hnames : CString.Components pathSeparator names) :
    getEntryByPath g (joinPath pathSeparator names) s = searchPath g names g.rootDirCluster true s := by
  rw [getEntryByPath]
  match names, hne, hnames with
  | [name], _, hnames =>
    have hp : split (joinPath pathSeparator [name]) pathSeparator = [] :=
      split_single (hnames name mem_cons_self).2
    rw [if_pos hp, joinPath, searchPath]
    cases hr : searchInDirectory g name g.rootDirCluster true s with
    | error e => rw [bind_error hr]
    | ok r =>
      obtain ⟨r, s'⟩ := r
      rw [bind_eq hr]
      cases r <;> rfl
  | name :: name' :: names, _, hnames =>
    have hp := split_joinPath (cons_ne_nil name' names) hnames
    rw [if_neg (by rw [hp]; exact cons_ne_nil _ _), hp]

theorem getEntryByPath_eq (hs : s.Works)
    (hnames : CString.Components pathSeparator names) (h : Lookup g s g.rootDirCluster true names r)
    : getEntryByPath g (joinPath pathSeparator names) s = .ok (r, s) := by
  rw [getEntryByPath_joinPath h.ne_nil hnames, searchPath_eq hs h]

end

/-- A FAT32 volume of 65525 clusters of one sector, with one table. -/
def smallFat32 : Geometry where
  fatType := .fat32
  startLBA := 0
  bytesPerSector := 512
  rootDirSectors := 0
  sectorsPerCluster := 1
  firstDataSector := 544
  firstFatSector := 32
  rootDirCluster := 2
  totalClusters := 65525

theorem smallFat32_wellFormed : smallFat32.WellFormed where
  bytesPerSector := by decide
  sectorsPerCluster := by decide
  totalClusters := show 65525 ≤ 65525 ∧ 65525 < 0x0FFFFFF6 by decide
  table := by decide
  root := show 0 = 0 ∧ 2 ≤ 2 ∧ 2 ≤ 65526 by decide
  size := by decide

/-- A sector with the given slots at its beginning. -/
def sectorOf (slots : List Slot) : Buffer := fun i =>
  slots.getD (i / 32) (fun _ => 0) ⟨i % 32, Nat.mod_lt _ (by decide)⟩

theorem slotAt_sectorOf (slots : List Slot) (k : Nat) :
    slotAt (sectorOf slots) (k * 32) = slots.getD k fun _ => 0 := by
  funext j
  have hdiv : (k * 32 + j) / 32 = k := by omega
  have hmod : (k * 32 + j.val) % 32 = j := by omega
  simp only [slotAt, sectorOf, hdiv, hmod]

/-- The volume with the given slots in the root directory, which has one cluster. All other clusters
are free. -/
def smallVolume (slots : List Slot) : Fat where
  disk := fun lba =>
    if lba = 32 then fun o => [0, 0, 0, 0, 0, 0, 0, 0, 0xF8, 0xFF, 0xFF, 0x0F].getD o 0
    else if lba = 544 then sectorOf slots
    else fun _ => 0
  startSearchCluster := 2
  failures := fun _ => false
  rtc := ⟨12, 0, 0, 2020, 1, 1⟩
  bufferRead := 0

theorem smallVolume_chain (slots : List Slot) : Chain smallFat32 (smallVolume slots) 2 [2] := by
  have h8 : smallFat32.tableBytes (smallVolume slots) 8 = 0xF8 := rfl
  have h9 : smallFat32.tableBytes (smallVolume slots) 9 = 0xFF := rfl
  have h10 : smallFat32.tableBytes (smallVolume slots) 10 = 0xFF := rfl
  have h11 : smallFat32.tableBytes (smallVolume slots) 11 = 0x0F := rfl
  refine .last (by decide) ?_
  show 0x0FFFFFF8 ≤ word32 (smallFat32.tableBytes (smallVolume slots)) 8 % 2 ^ 28
  rw [word32, word16, word16, h8, h9, h10, h11]
  decide

theorem smallFat32_slots (h : s.disk 544 = sectorOf slots) :
    chainSlots smallFat32 s [2] = (range 16).map fun k => ⟨2, 0, 544, k * 32, slots.getD k fun _ => 0⟩ := by
  have hwin : chainSlots smallFat32 s [2] = (range 16).map fun k =>
      ⟨2, 0, 544, k * 32, slotAt (s.disk 544) (k * 32)⟩ := rfl
  rw [hwin, h]
  exact map_congr_left fun k _ => by rw [slotAt_sectorOf]

theorem smallVolume_slots (slots : List Slot) : chainSlots smallFat32 (smallVolume slots) [2] =
    (range 16).map fun k => ⟨2, 0, 544, k * 32, slots.getD k fun _ => 0⟩ := smallFat32_slots rfl

end HeisenKernel
