import HeisenKernel.Fat.Nodes

/-!
# Paths to the nodes of a volume

What the driver finds in a directory are entries of the tree (`Listed.child`), so that a path leads
through nodes, one level deeper with every name (`Path.within`).
-/

namespace HeisenKernel

open Lib List Geometry DirSlot

/-- The first cluster of a directory, as the driver knows it. -/
def nodeCluster (g : Geometry) (s : Fat) : Option Place → Nat
  | none => g.rootDirCluster
  | some p => (s.slot g p).cluster

/-- The driver reads the slots of the directory. In the root directory of a FAT12 or FAT16 volume it
finds the end before it reads a sector twice or leaves the directory. -/
structure View (g : Geometry) (s : Fat) (o : Option Place) (slots : List DirSlot) : Prop where
  directory : Directory g s (nodeCluster g s o) o.isNone slots
  fixed : g.fixedRoot o.isNone = true → ∃ n, RootWindows g n ∧ slots = rootSlots g s g.rootDirCluster n

/-- The driver finds the entries in the directory. -/
def Listed (g : Geometry) (s : Fat) (o : Option Place) (childs : List FATEntryInfo) : Prop :=
  ∃ slots, View g s o slots ∧ listing slots = .ok childs

/-- `Path g s names o`: the names lead from the root directory to the directory `o`. -/
inductive Path (g : Geometry) (s : Fat) : List (List UInt8) → Option Place → Prop
  | root : Path g s [] none
  | child {names : List (List UInt8)} {o : Option Place} {childs : List FATEntryInfo}
      {name : List UInt8} {e : FATEntryInfo} : Path g s names o → Listed g s o childs →
      childs.find? (fun item => item.filename = name) = some e → e.entry.isDirectory = true →
      Path g s (names ++ [name]) (some e.place)

variable {g : Geometry} {s s' : Fat} {o : Option Place} {l : List Nat} {p : DirSlot}
  {childs : List FATEntryInfo} {e : FATEntryInfo} {names : List (List UInt8)} {name : List UInt8}

theorem NodeChain.chain (h : NodeChain g s o l) : Chain g s (nodeCluster g s o) l := by
  cases o with
  | none => exact h.2
  | some _ => exact h

theorem listing_isEntry (h : listing slots = .ok childs) (he : e ∈ childs) :
    ∃ p, IsEntry slots p ∧ e.entry = p.slot ∧ e.place = p.place := by
  obtain ⟨r, hr, hfound⟩ := bind_eq_ok.1 h
  obtain rfl : found r = childs := Except.ok.inj hfound
  -- only the slots in front of the end are looked at
  generalize hA : slots.takeWhile (fun p => p.slot 0 ≠ 0x00) = A
  generalize hB : slots.dropWhile (fun p => p.slot 0 ≠ 0x00) = B
  have hsplit : slots = A ++ B := by rw [← hA, ← hB, takeWhile_append_dropWhile]
  have hne : ∀ q ∈ A, q.slot 0 ≠ 0x00 := by
    intro q hq
    rw [← hA] at hq
    simpa using all_eq_true.1 all_takeWhile q hq
  rw [hsplit, listSlots_append] at hr
  obtain ⟨r1, hr1, hrest⟩ := bind_eq_ok.1 hr
  have hfound1 : found r = found r1 := by
    cases r1 with
    | inr results =>
      cases hrest
      rfl
    | inl acc =>
      cases B with
      | nil =>
        cases hrest
        rfl
      | cons b B =>
        have hb : b.slot 0 = 0x00 := by
          have := head?_dropWhile_not (fun p : DirSlot => decide (p.slot 0 ≠ 0x00)) slots
          rw [hB] at this
          simpa using this
        rw [orElse, listSlots_cons, listSlot, if_pos hb] at hrest
        cases hrest
        rfl
  rw [hfound1] at he
  rcases listSlots_origin hr1 he with hnil | ⟨p, hp, hentry, hsector, hoffset, hshort, -⟩
  · simp at hnil
  · obtain ⟨pre, post, rfl⟩ := append_of_mem hp
    refine ⟨p, ⟨pre, post ++ B, by rw [hsplit]; simp, fun q hq => hne q (by simp [hq]), hshort⟩, hentry, ?_⟩
    rw [FATEntryInfo.place, hsector, hoffset]
    rfl

theorem readTable_cases (hs : s.Works) (h : readTable g c s = .ok (v, s)) :
    g.Readable c ∧ v = g.table s c ∨ (c < 2 ∨ g.totalClusters < c) ∧ v = 0 := by
  by_cases hr : g.Readable c
  · rw [readTable_eq hs hr] at h
    cases h
    exact .inl ⟨hr, rfl⟩
  by_cases hrange : c < 2 ∨ g.totalClusters < c
  · rw [readTable_refused hrange] at h
    cases h
    exact .inr ⟨hrange, rfl⟩
  · rw [readTable_crossing hs (by omega) (by omega) hr] at h
    cases h

theorem Walk.append (hs : s.Works) (h : Walk g s c l') (hl : Chain g s c l) : ∃ rest, l = l' ++ rest := by
  induction h generalizing l with
  | stop => exact ⟨l, rfl⟩
  | @step c next l' hc hread hwalk ih =>
    have hnext : next = 0 ∨ next = g.table s c := by
      rcases readTable_cases hs hread with ⟨-, h⟩ | ⟨-, h⟩
      · exact .inr h
      · exact .inl h
    have hstop : ¬(next ≠ 0 ∧ next < g.clusterEnd) → l' = [] := by
      intro hstop
      cases hwalk with
      | stop => rfl
      | step hgo => exact absurd hgo hstop
    cases hl with
    | last hcl hend =>
      have : l' = [] := hstop (by rcases hnext with rfl | rfl <;> omega)
      exact ⟨[], by rw [this]; rfl⟩
    | link hcl htail =>
      rcases hnext with rfl | rfl
      · exact ⟨_, by rw [hstop (by simp)]; rfl⟩
      · obtain ⟨rest, hrest⟩ := ih htail
        exact ⟨rest, by rw [hrest]; rfl⟩

theorem Walk.congr (hs : s.Works) (hs' : s'.Works) (h : Walk g s c l)
    (htable : ∀ d ∈ l, g.table s' d = g.table s d) : Walk g s' c l := by
  induction h with
  | stop hstop => exact .stop hstop
  | @step c next l hc hread _ ih =>
    refine .step hc ?_ (ih (forall_mem_cons.1 htable).2)
    rcases readTable_cases hs hread with ⟨hr, rfl⟩ | ⟨hrange, rfl⟩
    · rw [readTable_eq hs' hr, htable c mem_cons_self]
    · exact readTable_refused hrange

theorem rootSlots_append (n m : Nat) : rootSlots g s c (n + m) =
    rootSlots g s c n ++ (List.range m).flatMap fun j => windowSlots g s c (g.rootStart + (n + j)) := by
  rw [rootSlots, range_add, flatMap_append, flatMap_map]
  rfl

theorem rootSlots_cells (h : RootWindows g n) (c' : Nat) :
    (rootSlots g s c n).map cell = (rootSlots g.single s c' (n + g.sectorsPerCluster - 1)).map cell := by
  have hcells : ∀ (g : Geometry) (c start : Nat), (windowSlots g s c start).map cell =
      (range g.sectorsPerCluster).flatMap fun i => (range g.slotsPerSector).map fun k =>
        (⟨u32 (start + i), k * 32⟩, slotAt (s.disk (g.lba (start + i))) (k * 32)) := by
    intro g c start
    rw [windowSlots, map_flatMap]
    refine flatMap_congr fun i _ => ?_
    rw [map_map]
    rfl
  have hwindow : ∀ start, (windowSlots g.single s c' start).map cell =
      (range g.slotsPerSector).map fun k =>
        (⟨u32 start, k * 32⟩, slotAt (s.disk (g.lba start)) (k * 32)) := by
    intro start
    rw [hcells]
    simp [single, lba, slotsPerSector]
  rw [rootSlots, rootSlots, map_flatMap, map_flatMap]
  simp only [hwindow, hcells]
  rcases h.single with h1 | h1
  · simp [h1, single, rootStart]
  · simp [h1, single, rootStart]

theorem fixedSlots_cells (hg : g.WellFormed) (h : RootWindows g n) (c : Nat) : ∃ rest,
    (fixedSlots g s).map cell = (rootSlots g s c n).map cell ++ rest := by
  have hpos := hg.sectorsPerCluster.1
  obtain ⟨m, hm⟩ := Nat.exists_eq_add_of_le h.inside
  have hsplit : g.rootDirSectors = n + g.sectorsPerCluster - 1 + m := by omega
  have happend : fixedSlots g s = rootSlots g.single s g.rootDirCluster
      (n + g.sectorsPerCluster - 1) ++ (range m).flatMap fun j =>
        windowSlots g.single s g.rootDirCluster (g.single.rootStart + (n + g.sectorsPerCluster - 1 + j)) := by
    rw [fixedSlots, hsplit]
    exact rootSlots_append _ _
  rw [happend, map_append, rootSlots_cells h g.rootDirCluster]
  exact ⟨_, rfl⟩

theorem Walk.nodeChain (hs : s.Works) (hsound : Sound g s) (ho : Node (Child g s) o)
    (hroot : g.fixedRoot o.isNone = false) (h : Walk g s (nodeCluster g s o) l') :
    l' = [] ∨ ∃ rest, NodeChain g s o (l' ++ rest) := by
  rcases hsound.exists_slots ho with ⟨slots, hslots⟩ | ⟨x, rfl, hzero⟩
  · cases hslots with
    | fixed ht =>
      rw [fixedRoot] at hroot
      simp [ht] at hroot
    | @chain _ l hl =>
      obtain ⟨rest, rfl⟩ := h.append hs hl.chain
      exact .inr ⟨rest, hl⟩
  · -- a walk from cluster 0 does not start
    rw [nodeCluster, hzero] at h
    cases h with
    | stop => exact .inl rfl
    | step hgo => exact absurd rfl hgo.1

theorem none_of_fixedRoot (hroot : g.fixedRoot o.isNone = true) : o = none ∧ g.fatType ≠ .fat32 := by
  cases o with
  | none => simpa [fixedRoot] using hroot
  | some _ => simp [fixedRoot] at hroot

section
variable (hg : g.WellFormed) (hs : s.Works) (hsound : Sound g s) (ho : Node (Child g s) o)
include hg hs hsound ho

theorem View.isEntry (h : View g s o slots) (hp : IsEntry slots p) :
    ∃ slots' q, NodeSlots g s o slots' ∧ IsEntry slots' q ∧ q.cell = p.cell := by
  obtain ⟨hdir, hfixed⟩ := h
  cases hdir with
  | @chain l' hroot hwalk _ =>
    rcases hwalk.nodeChain hs hsound ho hroot with rfl | ⟨rest, hl⟩
    · simpa [chainSlots] using hp.mem
    · refine ⟨_, p, .chain hl, ?_, rfl⟩
      rw [chainSlots_append]
      exact hp.append _
  | @fixed m hroot _ _ _ hend =>
    obtain ⟨n, hn, hslots⟩ := hfixed hroot
    obtain ⟨rfl, ht⟩ := none_of_fixedRoot hroot
    rw [hslots] at hp
    obtain ⟨rest, hrest⟩ := fixedSlots_cells hg hn g.rootDirCluster
    obtain ⟨front, back, hsplit, hfront, -⟩ := map_eq_append_iff.1 hrest
    obtain ⟨q, hq, hcell⟩ := hp.of_cells hfront
    refine ⟨_, q, .fixed ht, ?_, hcell⟩
    rw [hsplit]
    exact hq.append _

theorem View.slot_place (h : View g s o slots) (hp : p ∈ slots) : s.slot g p.place = p.slot := by
  obtain ⟨hdir, hfixed⟩ := h
  cases hdir with
  | chain hroot hwalk _ =>
    rcases hwalk.nodeChain hs hsound ho hroot with rfl | ⟨rest, hl⟩
    · simp [chainSlots] at hp
    · refine ((NodeSlots.chain hl).slotsAt hg).slot_place ?_
      rw [chainSlots_append]
      exact mem_append_left _ hp
  | fixed hroot _ _ _ _ =>
    obtain ⟨n, hn, hslots⟩ := hfixed hroot
    rw [hslots] at hp
    exact (rootSlots_slotsAt hg hn).slot_place hp

theorem Listed.child (hdir : ∀ p, o = some p → (s.slot g p).isDirectory = true) (h : Listed g s o childs)
    (he : e ∈ childs) : Child g s o e.place ∧ s.slot g e.place = e.entry := by
  obtain ⟨slots, hview, hlist⟩ := h
  obtain ⟨p, hp, hentry, hplace⟩ := listing_isEntry hlist he
  obtain ⟨slots', q, hslots', hq, hcell⟩ := hview.isEntry hg hs hsound ho hp
  have hqp : q.place = e.place := (congrArg Prod.fst hcell).trans hplace.symm
  refine ⟨⟨hdir, slots', q, hslots', hq, hqp⟩, ?_⟩
  rw [← hqp, (hslots'.slotsAt hg).slot_place hq.mem, hentry]
  exact congrArg Prod.snd hcell

end

theorem Listed.listing_eq (hs : s.Works) (h : Listed g s o childs)
    (hdir : Directory g s (nodeCluster g s o) o.isNone slots) : listing slots = .ok childs := by
  obtain ⟨slots', hview, hlist⟩ := h
  have heq := getDirectoryEntries_eq hs hdir
  rw [getDirectoryEntries_eq hs hview.directory, hlist, liftExec_ok] at heq
  cases hr : listing slots with
  | error e =>
    rw [hr] at heq
    cases heq
  | ok r =>
    rw [hr] at heq
    cases heq
    rfl

theorem Path.within (hg : g.WellFormed) (hs : s.Works) (hsound : Sound g s) (h : Path g s names o) :
    Within (Child g s) names.length o ∧ ∀ p, o = some p → (s.slot g p).isDirectory = true := by
  induction h with
  | root => exact ⟨.root, by simp⟩
  | @child names o childs name e _ hlist hfind hdir ih =>
    obtain ⟨hchild, hslot⟩ := hlist.child hg hs hsound ⟨_, ih.1⟩ ih.2 (mem_of_find?_eq_some hfind)
    rw [length_append]
    refine ⟨ih.1.child hchild, ?_⟩
    rintro p ⟨⟩
    rw [hslot]
    exact hdir

theorem Path.node (hg : g.WellFormed) (hs : s.Works) (hsound : Sound g s) (h : Path g s names o) :
    Node (Child g s) o := ⟨_, (h.within hg hs hsound).1⟩

theorem Same.nodeCluster_eq (h : Same g s s' o) : nodeCluster g s' o = nodeCluster g s o := by
  cases o with
  | none => rfl
  | some p => exact (h.entry p rfl).1

section
variable (hg : g.WellFormed)
include hg

theorem exists_fixedSlots (hj : j < g.rootDirSectors) : ∃ p ∈ fixedSlots g s, p.sector = g.rootStart + j := by
  have hroot := rootStart_eq hg
  have hadd := tableEnd_add hg
  have hlt := hg.firstData_lt
  refine ⟨⟨g.rootDirCluster, 0, u32 (g.rootStart + j + 0), 0 * 32,
    slotAt (s.disk (g.lba (g.rootStart + j + 0))) (0 * 32)⟩, ?_, u32_eq (by omega)⟩
  refine mem_flatMap.2 ⟨j, mem_range.2 hj, mem_flatMap.2 ⟨0, by simp [single], ?_⟩⟩
  exact mem_map.2 ⟨0, mem_range.2 (slotsPerSector_eq hg).1, rfl⟩

theorem View.of_root (hroot : g.fixedRoot true = true)
    (hc : g.rootDirCluster ≠ 0 ∧ g.rootDirCluster < g.clusterEnd) (hn : RootWindows g n)
    (hend : ∃ p ∈ rootSlots g s g.rootDirCluster n, p.slot 0 = 0x00) :
    View g s none (rootSlots g s g.rootDirCluster n) := by
  have hstart := rootStart_eq hg
  have hadd := tableEnd_add hg
  have hlt := hg.firstData_lt
  have hinside := hn.inside
  have hpos := hg.sectorsPerCluster.1
  exact ⟨.fixed hroot hc (by unfold walkFuel; omega) (by omega) hend, fun _ => ⟨n, hn, rfl⟩⟩

section
variable (hs : s.Works) (hs' : s'.Works) (hsound : Sound g s)
include hs hs' hsound

theorem View.congr (ho : Node (Child g s) o) (h : View g s o slots) (hsame : Same g s s' o) : View g
    s' o slots := by
  obtain ⟨hdir, hfixed⟩ := h
  cases hdir with
  | @chain l' hroot hwalk hfuel =>
    have hkeep : (∀ d ∈ l', g.table s' d = g.table s d) ∧ ∀ d ∈ l', ∀ i < g.sectorsPerCluster,
        s'.disk (g.lba (g.clusterToSector d + i)) = s.disk (g.lba (g.clusterToSector d + i)) := by
      rcases hwalk.nodeChain hs hsound ho hroot with rfl | ⟨rest, hl⟩
      · exact ⟨by simp, by simp⟩
      · refine ⟨fun d hd => hsame.table _ hl d (mem_append_left _ hd), fun d hd i hi => ?_⟩
        have hmem := mem_append_left rest hd
        obtain ⟨p, hp, -, hsector⟩ := exists_chainSlots hg hmem (hl.mem_isCluster d hmem) hi
        rw [← hsector]
        exact hsame.disk _ (.chain hl) p hp
    rw [← chainSlots_congr hkeep.2] at hfixed ⊢
    refine ⟨.chain hroot ?_ hfuel, fun hr => by simp [hroot] at hr⟩
    rw [hsame.nodeCluster_eq]
    exact hwalk.congr hs hs' hkeep.1
  | @fixed m hroot hc hfuel hsize hend =>
    obtain ⟨n, hn, hslots⟩ := hfixed hroot
    obtain ⟨rfl, ht⟩ := none_of_fixedRoot hroot
    have hkeep : rootSlots g s' g.rootDirCluster n = rootSlots g s g.rootDirCluster n := by
      refine flatMap_congr fun j hj => windowSlots_congr fun i hi => ?_
      have := hn.inside
      have hj := mem_range.1 hj
      obtain ⟨p, hp, hsector⟩ := exists_fixedSlots hg
        (show j + i < g.rootDirSectors by rcases hn.single with h | h <;> omega)
      rw [add_assoc, ← hsector]
      exact hsame.disk _ (.fixed ht) p hp
    rw [hslots, ← hkeep] at hend ⊢
    exact .of_root hg hroot hc hn hend

theorem Listed.congr (ho : Node (Child g s) o) (h : Listed g s o childs) (hsame : Same g s s' o) :
    Listed g s' o childs := by
  obtain ⟨slots, hview, hlist⟩ := h
  exact ⟨slots, hview.congr hg hs hs' hsound ho hsame, hlist⟩

theorem Path.congr
    (h : Path g s names o)
    (hsame : ∀ n o, Within (Child g s) n o → n < names.length →
      (∀ p, o = some p → (s.slot g p).isDirectory = true) → Same g s s' o) :
    Path g s' names o := by
  induction h with
  | root => exact .root
  | @child names o childs name e hpath hlist hfind hdir ih =>
    rw [length_append] at hsame
    obtain ⟨hwithin, hodir⟩ := hpath.within hg hs hsound
    refine .child (ih fun n o hn hlt => hsame n o hn (Nat.lt_succ_of_lt hlt)) ?_ hfind hdir
    exact hlist.congr hg hs hs' hsound ⟨_, hwithin⟩ (hsame _ _ hwithin (Nat.lt_succ_self _) hodir)

theorem Path.lookup (h : Path g s names o)
    (hsame : ∀ o, Node (Child g s) o → (∀ p, o = some p → (s.slot g p).isDirectory = true) → Same g s s' o)
    (hr : Lookup g s' (nodeCluster g s' o) o.isNone names' r) : Lookup g s' g.rootDirCluster true
    (names ++ names') r := by
  induction h generalizing names' r with
  | root => exact hr
  | @child names o childs name e hpath hlist hfind hdir ih =>
    have ho := hpath.node hg hs hsound
    have hodir := (hpath.within hg hs hsound).2
    obtain ⟨hchild, hslot⟩ := hlist.child hg hs hsound ho hodir (mem_of_find?_eq_some hfind)
    have hdir' : ∀ p, some e.place = some p → (s.slot g p).isDirectory = true := by
      rintro p ⟨⟩
      rw [hslot]
      exact hdir
    have hcluster := (hsame _ (ho.child hchild) hdir').nodeCluster_eq
    rw [hcluster, nodeCluster, hslot] at hr
    obtain ⟨slots, hview, hlisting⟩ := hlist.congr hg hs hs' hsound ho (hsame o ho hodir)
    rw [append_assoc]
    exact ih (.descend hview.directory hlisting hfind hdir hr)

theorem Path.getEntryByPath_congr (h : Path g s names o) (hlist : Listed g s o childs)
    (hsame : ∀ o, Node (Child g s) o → (∀ p, o = some p → (s.slot g p).isDirectory = true) →
      Same g s s' o) (hnames : CString.Components pathSeparator (names ++ [name])) :
    getEntryByPath g (CString.joinPath pathSeparator (names ++ [name])) s' =
      .ok (childs.find? (fun item => item.filename = name), s') := by
  refine HeisenKernel.getEntryByPath_eq hs' hnames (h.lookup hg hs hs' hsound hsame ?_)
  obtain ⟨hwithin, hodir⟩ := h.within hg hs hsound
  have ho : Node (Child g s) o := ⟨_, hwithin⟩
  obtain ⟨slots, hview, hlisting⟩ := hlist.congr hg hs hs' hsound ho (hsame o ho hodir)
  cases hfind : childs.find? (fun item => item.filename = name) with
  | none => exact .missing hview.directory hlisting hfind
  | some e => exact .final hview.directory hlisting hfind

end

theorem Path.getEntryByPath_eq (hs : s.Works) (hsound : Sound g s)
    (h : Path g s names o) (hlist : Listed g s o childs)
    (hnames : CString.Components pathSeparator (names ++ [name])) :
    getEntryByPath g (CString.joinPath pathSeparator (names ++ [name])) s =
      .ok (childs.find? (fun item => item.filename = name), s) :=
  h.getEntryByPath_congr hg hs hs hsound hlist (fun _ _ _ => .refl) hnames

theorem Path.congr_of_ne (hs : s.Works) (hs' : s'.Works) (hsound : Sound g s) (h : Path g s names o)
    (hsame : ∀ o', Node (Child g s) o' → o' ≠ o → Same g s s' o') : Path g s' names o := by
  refine h.congr hg hs hs' hsound fun m o' ho' hlt _ => hsame o' ⟨m, ho'⟩ ?_
  -- the directories on the way are not as deep
  rintro rfl
  have hunique := Within.unique (fun _ _ _ => hsound.parent_unique hg) ho' (h.within hg hs hsound).1
  omega

end

theorem ne_of_isFile {x : Place} (hfile : (s.slot g x).isDirectory = false)
    (hdir : ∀ p, o = some p → (s.slot g p).isDirectory = true) : o ≠ some x := by
  rintro rfl
  rw [hdir x rfl] at hfile
  cases hfile

theorem Path.congr_of_file (hg : g.WellFormed) (hs : s.Works) (hs' : s'.Works)
    (hsound : Sound g s) (hfile : (s.slot g x).isDirectory = false)
    (hsame : ∀ o', Node (Child g s) o' → o' ≠ some x → Same g s s' o') (h : Path g s names o)
    (hlist : Listed g s o childs) : Path g s' names o ∧ Listed g s' o childs := by
  have hdirs := fun o' => @ne_of_isFile g s o' x hfile
  obtain ⟨hwithin, hodir⟩ := h.within hg hs hsound
  refine ⟨h.congr hg hs hs' hsound fun m o' ho' _ hdir => hsame o' ⟨m, ho'⟩ (hdirs o' hdir), ?_⟩
  exact hlist.congr hg hs hs' hsound ⟨_, hwithin⟩ (hsame o ⟨_, hwithin⟩ (hdirs o hodir))

theorem Path.node_of_mem (hg : g.WellFormed) (hs : s.Works) (hsound : Sound g s)
    (h : Path g s names o) (hlist : Listed g s o childs) (he : e ∈ childs) :
    Node (Child g s) (some e.place) ∧ s.slot g e.place = e.entry := by
  have ho := h.node hg hs hsound
  obtain ⟨hchild, hslot⟩ := hlist.child hg hs hsound ho (h.within hg hs hsound).2 he
  exact ⟨ho.child hchild, hslot⟩

/-- The file that is overwritten is found in the volume `s₁`. -/
structure Found (g : Geometry) (s₁ : Fat) (path : List UInt8) (names : List (List UInt8))
    (name : List UInt8) (o : Option Place) (childs : List FATEntryInfo) (e : FATEntryInfo) :
    Prop where
  path_eq : path = CString.joinPath pathSeparator (names ++ [name])
  components : CString.Components pathSeparator (names ++ [name])
  works : s₁.Works
  sound : Sound g s₁
  path : Path g s₁ names o
  listed : Listed g s₁ o childs
  find : childs.find? (fun item => item.filename = name) = some e

namespace Found

variable {path : List UInt8}

theorem mem (h : Found g s path names name o childs e) : e ∈ childs := mem_of_find?_eq_some h.find

theorem node (hg : g.WellFormed) (h : Found g s path names name o childs e) :
    Node (Child g s) (some e.place) ∧ s.slot g e.place = e.entry :=
  h.path.node_of_mem hg h.works h.sound h.listed h.mem

theorem getEntryByPath_eq (hg : g.WellFormed) (h : Found g s path names name o childs e) :
    getEntryByPath g path s = .ok (some e, s) := by
  rw [h.path_eq, h.path.getEntryByPath_eq hg h.works h.sound h.listed h.components, h.find]

end Found

end HeisenKernel
