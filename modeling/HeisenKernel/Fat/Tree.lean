import Mathlib.Data.List.Nodup
import HeisenKernel.Fat.Entries

/-!
# Paths in the tree of a FAT32 volume

The directories of a FAT32 volume that holds a well-formed tree have valid chains, and their slots
hold entries with long names (`Stored`).
-/

namespace HeisenKernel

open Lib List Geometry FatM

/-- An entry of a directory: its name and its short entry. -/
structure Item where
  name : List UInt8
  place : DirSlot

namespace Item

/-- What the driver returns for the entry. -/
def info (it : Item) : FATEntryInfo := ⟨it.place.slot, it.name, it.place.sector, it.place.offset⟩

def isDirectory (it : Item) : Bool := it.place.slot.isDirectory

def cluster (it : Item) : Nat := it.place.slot.cluster

@[simp] theorem info_filename (it : Item) : it.info.filename = it.name := rfl

@[simp] theorem info_isDirectory (it : Item) : it.info.entry.isDirectory = it.isDirectory := rfl

end Item

/-- The slots of a directory hold the entries: slots that are deleted, `.` and `..`, or the name of
the volume, and entries behind the slots of their long names, up to the end of the directory. -/
inductive Stored : List DirSlot → List Item → Prop
  | nil : Stored [] []
  | stop {p : DirSlot} {ps : List DirSlot} : p.slot 0 = 0x00 → Stored (p :: ps) []
  | unused {p : DirSlot} {ps : List DirSlot} {items : List Item} : p.slot 0 ≠ 0x00 → p.slot 0 = 0xE5
      ∨ p.slot 0 = 0x2E ∨ p.slot.attributes = 0x08 → Stored ps items → Stored (p :: ps) items
  | entry {lfns ps : List DirSlot} {p : DirSlot} {name : List UInt8} {items : List Item} :
      Named name lfns p → Stored ps items → Stored (lfns ++ p :: ps) (⟨name, p⟩ :: items)

/-- The directories that the root leads to, by their first clusters. -/
inductive Reach (contents : Nat → List Item) (root : Nat) : Nat → Prop
  | root : Reach contents root root
  | child {c : Nat} {it : Item} : Reach contents root c → it ∈ contents c →
      it.isDirectory = true → Reach contents root it.cluster

/-- A well-formed directory tree: every directory that the root leads to has a valid chain and holds
its entries, whose names are different. -/
structure Tree (g : Geometry) (s : Fat) where
  contents : Nat → List Item
  stored : ∀ {c : Nat}, Reach contents g.rootDirCluster c →
    ∃ l, Chain g s c l ∧ Stored (chainSlots g s l) (contents c)
  distinct : ∀ {c : Nat}, Reach contents g.rootDirCluster c → ((contents c).map Item.name).Nodup

/-- `Names contents c names it`: the names lead from the directory `c` through directories to the
entry. -/
inductive Names (contents : Nat → List Item) : Nat → List (List UInt8) → Item → Prop
  | last {c : Nat} {it : Item} : it ∈ contents c → Names contents c [it.name] it
  | child {c : Nat} {it it' : Item} {names : List (List UInt8)} : it ∈ contents c → it.isDirectory =
      true → Names contents it.cluster names it' → Names contents c (it.name :: names) it'

/-- The clusters of a chain that the driver gets to: it stops at the last cluster of the volume, the
entry of which it refuses to read. -/
def Geometry.reached (g : Geometry) : List Nat → List Nat
  | [] => []
  | c :: l => if c = g.totalClusters + 1 then [c] else c :: g.reached l

variable {g : Geometry} {s : Fat}

/-- The path is resolved as the tree has it. -/
def Tree.LookupOk (t : Tree g s) (names : List (List UInt8)) : Prop :=
  (∀ it, Names t.contents g.rootDirCluster names it →
    getEntryByPath g (CString.joinPath pathSeparator names) s = .ok (some it.info, s)) ∧
  ((∀ it, ¬Names t.contents g.rootDirCluster names it) →
    getEntryByPath g (CString.joinPath pathSeparator names) s = .ok (none, s))

/-- Every path of non-empty components is resolved as the tree has it. -/
def Tree.Resolved (t : Tree g s) : Prop :=
  ∀ names, names ≠ [] → CString.Components pathSeparator names → t.LookupOk names

/-- The driver can list the directory with the chain `l`: its names have at most 65 characters, no
short name begins with `0x05`, and no entry lies behind the last cluster of the volume. -/
def SafeDirectory (g : Geometry) (l : List Nat) (items : List Item) : Prop :=
  ∀ it ∈ items, it.name.length ≤ 65 ∧ it.place.slot.first ≠ 0x05 ∧ it.place.cluster ∈ g.reached l

/-- The driver can list every directory of the tree. -/
def Tree.Safe (t : Tree g s) : Prop :=
  ∀ c, Reach t.contents g.rootDirCluster c → ∀ l, Chain g s c l → SafeDirectory g l (t.contents c)

theorem Stored.mem (h : Stored ps items) (hit : it ∈ items) : it.place ∈ ps := by
  induction h with
  | nil => cases hit
  | stop _ => cases hit
  | unused _ _ _ ih => exact mem_cons_of_mem _ (ih hit)
  | entry _ _ ih =>
    rcases mem_cons.1 hit with rfl | hit
    · simp
    · have := ih hit
      simp [this]

theorem Stored.front (h : Stored ps items)
    (hps : ps = qs ++ rest) (hmem : ∀ it ∈ items, it.place ∉ rest) : Stored qs items := by
  induction h generalizing qs with
  | nil =>
    obtain ⟨rfl, -⟩ := append_eq_nil_iff.1 hps.symm
    exact .nil
  | stop hend =>
    cases qs with
    | nil => exact .nil
    | cons q qs =>
      obtain ⟨rfl, -⟩ := cons.inj hps
      exact .stop hend
  | @unused p ps items h0 hunused hrest ih =>
    cases qs with
    | nil =>
      cases items with
      | nil => exact .nil
      | cons it items =>
        have hin : it.place ∈ p :: ps := mem_cons_of_mem _ (hrest.mem mem_cons_self)
        rw [hps] at hin
        exact absurd hin (hmem it mem_cons_self)
    | cons q qs =>
      obtain ⟨rfl, hps'⟩ := cons.inj hps
      exact .unused h0 hunused (ih hps' hmem)
  | @entry lfns ps p name items hnamed hrest ih =>
    have hp := hmem ⟨name, p⟩ mem_cons_self
    rcases append_eq_append_iff.1 hps with ⟨as, rfl, has⟩ | ⟨bs, rfl, rfl⟩
    · cases as with
      | nil => exact absurd (by rw [← nil_append rest, ← has]; exact mem_cons_self) hp
      | cons q as =>
        obtain ⟨rfl, hps'⟩ := cons.inj has
        exact .entry hnamed (ih hps' (forall_mem_cons.1 hmem).2)
    · exact absurd (by simp) hp

theorem listSlots_cons_entry (acc : Listing) :
    listSlots acc (lfns ++ p :: ps) = listSlots acc (lfns ++ [p]) >>= orElse fun acc => listSlots acc ps := by
  rw [← listSlots_append, append_assoc]
  rfl

theorem Stored.listSlots_eq (h : Stored ps items)
    (hsafe : ∀ it ∈ items, it.name.length ≤ 65 ∧ it.place.slot 0 ≠ 0x05) (results : List FATEntryInfo) : ∃
    r, listSlots ⟨results, []⟩ ps = .ok r ∧ found r = results ++ items.map Item.info := by
  induction h generalizing results with
  | nil => exact ⟨_, rfl, by simp [found]⟩
  | stop hend =>
    refine ⟨.inr results, ?_, by simp [found]⟩
    rw [listSlots, forReturn_cons, listSlot, if_pos hend]
    rfl
  | unused h0 hunused _ ih =>
    obtain ⟨r, hr, hfound⟩ := ih hsafe results
    exact ⟨r, by rw [listSlots_unused h0 hunused, hr], hfound⟩
  | @entry lfns ps p name items hnamed _ ih =>
    obtain ⟨hlen, h5⟩ := hsafe ⟨name, p⟩ mem_cons_self
    obtain ⟨r, hr, hfound⟩ := ih (forall_mem_cons.1 hsafe).2
      (results ++ [⟨p.slot, name, p.sector, p.offset⟩])
    refine ⟨r, ?_, by rw [hfound, append_assoc]; rfl⟩
    rw [listSlots_cons_entry, hnamed.listSlots_short h5 hlen, ← hr]
    rfl

theorem Stored.listSlots_long (h : Stored ps items)
    (h5 : ∀ it ∈ items, it.place.slot 0 ≠ 0x05) (hlong : ∃ it ∈ items, 65 < it.name.length)
    (results : List FATEntryInfo) : listSlots ⟨results, []⟩ ps = .error .memory := by
  induction h generalizing results with
  | nil | stop _ => simp at hlong
  | unused h0 hunused _ ih => rw [listSlots_unused h0 hunused, ih h5 hlong]
  | @entry lfns ps p name items hnamed _ ih =>
    have hp := h5 ⟨name, p⟩ mem_cons_self
    rw [listSlots_cons_entry]
    rcases lt_or_ge 65 name.length with hlt | hge
    · rw [hnamed.listSlots_long hp hlt]
      rfl
    · rw [hnamed.listSlots_short hp hge]
      refine ih (forall_mem_cons.1 h5).2 ?_ _
      obtain ⟨it, hit, hlt⟩ := hlong
      rcases mem_cons.1 hit with rfl | hit
      · exact absurd hlt (Nat.not_lt.2 hge)
      · exact ⟨it, hit, hlt⟩

theorem Chain.walk_reached (hg : g.WellFormed) (ht : g.fatType = .fat32) (hs : s.Works)
    (h : Chain g s c l) : Walk g s c (g.reached l) := by
  -- the entry of the last cluster is taken for a free one
  have hlast : ∀ {c}, g.IsCluster c → c = g.totalClusters + 1 → Walk g s c [c] := fun hc h =>
    .step (hc.inside hg) (readTable_refused (by omega)) (.stop (by simp))
  have hread : ∀ {c}, g.IsCluster c → c ≠ g.totalClusters + 1 → g.Readable c := fun hc h =>
    readable_of_ne_fat12 hg (ht ▸ nofun) hc.1 (by have := hc.2; omega)
  induction h with
  | @last c hc hend =>
    rw [reached]
    split
    · next h => exact hlast hc h
    · next h =>
      exact .step (hc.inside hg) (readTable_eq hs (hread hc h)) (.stop fun h => Nat.not_lt.2 hend h.2)
  | @link c l hc _ ih =>
    rw [reached]
    split
    · next h => exact hlast hc h
    · next h => exact .step (hc.inside hg) (readTable_eq hs (hread hc h)) ih

theorem Geometry.reached_append (g : Geometry) (l : List Nat) : ∃ rest, l = g.reached l ++ rest := by
  induction l with
  | nil => exact ⟨[], rfl⟩
  | cons c l ih =>
    rw [reached]
    split
    · exact ⟨l, rfl⟩
    · obtain ⟨rest, hrest⟩ := ih
      exact ⟨rest, by rw [cons_append, ← hrest]⟩

theorem Chain.directory (hg : g.WellFormed) (ht : g.fatType = .fat32) (hs : s.Works) (h : Chain g s c l)
    (root : Bool) : Directory g s c root (chainSlots g s (g.reached l)) := by
  refine .chain (by rw [fixedRoot, ht]; simp) (h.walk_reached hg ht hs) ?_
  obtain ⟨rest, hrest⟩ := g.reached_append l
  have hlen := congrArg length hrest
  rw [length_append] at hlen
  have := h.length_lt_walkFuel hg
  omega

theorem Chain.not_mem_rest (hg : g.WellFormed) (h : Chain g s c l)
    (hrest : l = g.reached l ++ rest) (hp : p.cluster ∈ g.reached l) : p ∉ chainSlots g s rest := by
  intro hmem
  have hnodup := h.nodup hg
  rw [hrest] at hnodup
  exact (disjoint_of_nodup_append hnodup) hp (mem_chainSlots hmem).1

variable {items : List Item}

theorem chainSlots_reached (g : Geometry) (s : Fat) (l : List Nat) : ∃ rest, l = g.reached l ++ rest ∧
    chainSlots g s l = chainSlots g s (g.reached l) ++ chainSlots g s rest := by
  obtain ⟨rest, hrest⟩ := g.reached_append l
  exact ⟨rest, hrest, by rw [chainSlots, chainSlots, chainSlots, ← flatMap_append, ← hrest]⟩

theorem SafeDirectory.listing_eq (hg : g.WellFormed) (hl : Chain g s c l)
    (hst : Stored (chainSlots g s l) items) (hsafe : SafeDirectory g l items) :
    listing (chainSlots g s (g.reached l)) = .ok (items.map Item.info) := by
  obtain ⟨rest, hrest, hsplit⟩ := chainSlots_reached g s l
  have hfront := hst.front hsplit fun it hit =>
    hl.not_mem_rest hg hrest (hsafe it hit).2.2
  obtain ⟨r, hr, hfound⟩ := hfront.listSlots_eq (fun it hit => ⟨(hsafe it hit).1, (hsafe it hit).2.1⟩) []
  rw [listing, hr]
  exact congrArg Except.ok hfound

theorem SafeDirectory.of_found (hg : g.WellFormed) (hl : Chain g s c l)
    (hst : Stored (chainSlots g s l) items)
    (h : ∀ it ∈ items, ∃ childs, listing (chainSlots g s (g.reached l)) = .ok childs ∧
      it.info ∈ childs) : SafeDirectory g l items := by
  obtain ⟨rest, hrest, hsplit⟩ := chainSlots_reached g s l
  have hreached : ∀ d ∈ g.reached l, g.IsCluster d := fun d hd =>
    hl.mem_isCluster d (by rw [hrest]; exact mem_append_left _ hd)
  have hseen : ∀ it ∈ items, it.place.slot 0 ≠ 0x05 ∧ it.place.cluster ∈ g.reached l := by
    intro it hit
    obtain ⟨childs, hchilds, hmem⟩ := h it hit
    obtain ⟨r, hr, hfound⟩ := bind_eq_ok.1 hchilds
    cases hfound
    rcases listSlots_origin hr hmem with hnil | ⟨q, hq, hslot, hsector, -, -, h5⟩
    · cases hnil
    · have hcl := chainSlots_cluster_eq hg (hst.mem hit) hq hl.mem_isCluster hreached hsector
      refine ⟨?_, by rw [hcl]; exact (mem_chainSlots hq).1⟩
      rw [show it.place.slot = q.slot from hslot]
      exact h5
  intro it hit
  refine ⟨?_, hseen it hit⟩
  by_contra hlong
  -- the listing would have failed at the long name
  have hfront := hst.front hsplit fun it hit => hl.not_mem_rest hg hrest (hseen it hit).2
  have herr := hfront.listSlots_long (fun it hit => (hseen it hit).1) ⟨it, hit, Nat.lt_of_not_le hlong⟩ []
  obtain ⟨childs, hchilds, -⟩ := h it hit
  rw [listing, herr] at hchilds
  cases hchilds

theorem find?_info (hnodup : (items.map Item.name).Nodup) (hit : it ∈ items) :
    (items.map Item.info).find? (fun item => item.filename = it.name) = some it.info := by
  cases hf : (items.map Item.info).find? (fun item => item.filename = it.name) with
  | none =>
    have := find?_eq_none.1 hf it.info (mem_map_of_mem hit)
    simp at this
  | some e =>
    obtain ⟨it', hit', rfl⟩ := mem_map.1 (mem_of_find?_eq_some hf)
    have hname := find?_some hf
    rw [decide_eq_true_eq, Item.info_filename] at hname
    rw [inj_on_of_nodup_map hnodup hit' hit hname]

theorem Stored.isFileName (h : Stored ps items) (hit : it ∈ items) : IsFileName it.name := by
  induction h with
  | nil | stop _ => cases hit
  | unused _ _ _ ih => exact ih hit
  | entry hnamed _ ih =>
    rcases mem_cons.1 hit with rfl | hit
    · exact hnamed.isFileName
    · exact ih hit

theorem IsFileName.component (h : IsFileName name) : name ≠ [] ∧ pathSeparator ∉ name :=
  ⟨length_pos_iff.1 h.1, fun hmem => (h.2.2 _ hmem).2.2 rfl⟩

namespace Tree

variable {t : Tree g s} {c : Nat}

/-- Some names lead the search from the root to the directory at `c`. -/
def Leads (t : Tree g s) (c : Nat) : Prop :=
  ∃ names root, CString.Components pathSeparator names ∧ ∀ rest, rest ≠ [] →
    searchPath g (names ++ rest) g.rootDirCluster true s = searchPath g rest c root s ∧
    ∀ it, Names t.contents c rest it → Names t.contents g.rootDirCluster (names ++ rest) it

section
variable (hg : g.WellFormed) (ht : g.fatType = .fat32) (hs : s.Works)
include hg ht hs

theorem search_safe
    (hc : Reach t.contents g.rootDirCluster c)
    (hsafe : ∀ l, Chain g s c l → SafeDirectory g l (t.contents c)) (name : List UInt8)
    (root : Bool) : searchInDirectory g name c root s =
      .ok (((t.contents c).map Item.info).find? (fun item => item.filename = name), s) := by
  obtain ⟨l, hl, hst⟩ := t.stored hc
  exact searchInDirectory_eq hs (hl.directory hg ht hs root) ((hsafe l hl).listing_eq hg hl hst) name

theorem searchPath_safe (hsafe : t.Safe) (hne : names ≠ []) (hc : Reach t.contents g.rootDirCluster c)
    (root : Bool) : (∀ it, Names t.contents c names it → searchPath g names c root s = .ok (some it.info, s))
    ∧ ((∀ it, ¬Names t.contents c names it) → searchPath g names c root s = .ok (none, s)) := by
  induction names generalizing c root with
  | nil => exact absurd rfl hne
  | cons name names ih =>
    have hsearch := search_safe hg ht hs hc (hsafe c hc) name root
    constructor
    · intro it hit
      cases hit with
      | last hmem =>
        rw [find?_info (t.distinct hc) hmem] at hsearch
        rw [searchPath, bind_eq hsearch]
        rfl
      | @child _ d _ _ hmem hdir hnames =>
        have hne' : names ≠ [] := by cases hnames <;> simp
        rw [find?_info (t.distinct hc) hmem] at hsearch
        rw [searchPath, bind_eq hsearch]
        dsimp only
        rw [if_neg hne', Item.info_isDirectory, if_pos hdir]
        exact (ih hne' (.child hc hmem hdir) false).1 it hnames
    · intro hnone
      rw [searchPath, bind_eq hsearch]
      cases hf : ((t.contents c).map Item.info).find? (fun item => item.filename = name) with
      | none => rfl
      | some e =>
        obtain ⟨it, hit, rfl⟩ := mem_map.1 (mem_of_find?_eq_some hf)
        have hname := find?_some hf
        rw [decide_eq_true_eq, Item.info_filename] at hname
        subst hname
        dsimp only
        rw [if_neg]
        · cases hdir : it.isDirectory with
          | false =>
            rw [Item.info_isDirectory, hdir, if_neg Bool.false_ne_true]
            rfl
          | true =>
            rw [Item.info_isDirectory, if_pos hdir]
            have hne' : names ≠ [] := by
              rintro rfl
              exact hnone it (.last hit)
            exact (ih hne' (.child hc hit hdir) false).2 fun it' h => hnone it' (.child hit hdir h)
        · rintro rfl
          exact hnone it (.last hit)

theorem reach_safe (hok : t.Resolved) (hc : Reach t.contents g.rootDirCluster c) : t.Leads c ∧ ∀ l, Chain g
    s c l → SafeDirectory g l (t.contents c) := by
  -- a directory that the search gets to can be listed, since all its entries are found
  have hsafe : ∀ {c}, Reach t.contents g.rootDirCluster c → t.Leads c →
      ∀ l, Chain g s c l → SafeDirectory g l (t.contents c) := by
    rintro c hc ⟨names, root, hnames, hsearch⟩ l hl
    obtain ⟨l', hl', hst⟩ := t.stored hc
    obtain rfl := hl'.unique hg hl
    refine SafeDirectory.of_found hg hl hst fun it hit => ?_
    have hcomp : CString.Components pathSeparator (names ++ [it.name]) :=
      forall_mem_append.2 ⟨hnames, forall_mem_singleton.2 (hst.isFileName hit).component⟩
    obtain ⟨hpath, hnamed⟩ := hsearch [it.name] (by simp)
    have hfound := (hok _ (by simp) hcomp).1 it (hnamed it (.last hit))
    rw [getEntryByPath_joinPath (by simp) hcomp, hpath] at hfound
    have hdir := getDirectoryEntries_eq hs (hl.directory hg ht hs root)
    cases hlist : listing (chainSlots g s (g.reached l')) with
    | error e =>
      rw [hlist] at hdir
      have herr : searchInDirectory g it.name c root s = .error e := bind_error hdir
      rw [searchPath, bind_error herr] at hfound
      cases hfound
    | ok childs =>
      refine ⟨childs, rfl, ?_⟩
      rw [searchPath, bind_eq (searchInDirectory_eq hs (hl.directory hg ht hs root) hlist _)]
        at hfound
      cases hf : childs.find? (fun item => item.filename = it.name) with
      | none =>
        rw [hf] at hfound
        cases hfound
      | some e =>
        rw [hf] at hfound
        cases hfound
        exact mem_of_find?_eq_some hf
  induction hc with
  | root =>
    have hroot : t.Leads g.rootDirCluster := ⟨[], true, forall_mem_nil _, fun rest _ => ⟨rfl, fun _ h => h⟩⟩
    exact ⟨hroot, hsafe .root hroot⟩
  | @child c it hc hit hdir ih =>
    obtain ⟨⟨names, root, hnames, hsearch⟩, hlist⟩ := ih
    obtain ⟨l, hl, hst⟩ := t.stored hc
    have hchild : t.Leads it.cluster := by
      refine ⟨names ++ [it.name], false, ?_, fun rest hrest => ?_⟩
      · exact forall_mem_append.2 ⟨hnames, forall_mem_singleton.2 (hst.isFileName hit).component⟩
      · obtain ⟨hpath, hnamed⟩ := hsearch (it.name :: rest) (by simp)
        rw [append_assoc]
        refine ⟨?_, fun it' h => hnamed it' (.child hit hdir h)⟩
        have hfound := search_safe hg ht hs hc hlist it.name root
        rw [find?_info (t.distinct hc) hit] at hfound
        rw [singleton_append, hpath, searchPath, bind_eq hfound]
        dsimp only
        rw [if_neg hrest, Item.info_isDirectory, if_pos hdir]
        rfl
    exact ⟨hchild, hsafe (.child hc hit hdir) hchild⟩

end

end Tree

/-- `GetEntryByPath` resolves every path of a FAT32 volume with a well-formed directory tree exactly
when the tree has no entry with a name of more than 65 characters, no short name that begins with
`0x05`, and no entry behind the last cluster of the volume. -/
theorem getEntryByPath_iff_safe (hg : g.WellFormed) (ht : g.fatType = .fat32) (hs : s.Works)
    (t : Tree g s) : t.Resolved ↔ t.Safe := by
  constructor
  · intro hok c hc
    exact (Tree.reach_safe hg ht hs hok hc).2
  · intro hsafe names hne hnames
    have h := Tree.searchPath_safe hg ht hs hsafe hne .root true
    rw [← getEntryByPath_joinPath hne hnames] at h
    exact h

/-- The volume with a file of the given name in the root directory. -/
def oneFile (name : List UInt8) : Fat := smallVolume (newSlots ⟨12, 0, 0, 2020, 1, 1⟩ name 0 3)

variable {name : List UInt8}

theorem oneFile_works (name : List UInt8) : (oneFile name).Works := rfl

theorem oneFile_chain (name : List UInt8) : Chain smallFat32 (oneFile name) 2 [2] :=
  smallVolume_chain _

/-- A slot of the root directory. -/
def oneFileSlot (name : List UInt8) (k : Nat) : DirSlot :=
  ⟨2, 0, 544, k * 32, (newSlots ⟨12, 0, 0, 2020, 1, 1⟩ name 0 3).getD k fun _ => 0⟩

theorem oneFile_slots (name : List UInt8) :
    chainSlots smallFat32 (oneFile name) [2] = (List.range 16).map (oneFileSlot name) :=
  smallVolume_slots _

theorem oneFileSlot_short (name : List UInt8) :
    (oneFileSlot name (requiredLFNEntries name.length)).slot = newEntry ⟨12, 0, 0, 2020, 1, 1⟩ name 0 3 := by
  show (newSlots _ name 0 3).getD _ _ = _
  rw [newSlots, getD_append_right _ _ _ _ (le_of_eq (createLFNEntriesFromName_length ..)),
    createLFNEntriesFromName_length, Nat.sub_self]
  rfl

theorem oneFile_stored (hname : IsFileName name) (hlen : name.length ≤ 182) :
    Stored (chainSlots smallFat32 (oneFile name) [2])
      [⟨name, oneFileSlot name (requiredLFNEntries name.length)⟩] := by
  obtain ⟨hpos, -, hcover⟩ := requiredLFNEntries_bounds hname.1
  have hshort := oneFileSlot_short name
  generalize hn : requiredLFNEntries name.length = n at *
  have hlfn : (createLFNEntriesFromName name n (checksum (createShortFilename name))).length = n :=
    createLFNEntriesFromName_length ..
  have hfront : ((range n).map (oneFileSlot name)).map DirSlot.slot =
      createLFNEntriesFromName name n (checksum (createShortFilename name)) := by
    refine ext_getElem (by simp [hlfn]) fun k hk hk' => ?_
    simp only [getElem_map, getElem_range]
    show (newSlots _ name 0 3).getD k _ = _
    rw [newSlots, hn, getD_append _ _ _ _ hk', getD_eq_getElem _ _ hk']
  have hend : ∀ k, n < k → (oneFileSlot name k).slot 0 = 0x00 := by
    intro k hk
    have : (oneFileSlot name k).slot = fun _ => 0 :=
      getD_eq_default _ _ (by rw [newSlots, hn]; simp [hlfn]; omega)
    rw [this]
  have hsplit : (range 16).map (oneFileSlot name) = (range n).map (oneFileSlot name) ++
      oneFileSlot name n :: (oneFileSlot name (n + 1) ::
        (range (14 - n)).map fun k => oneFileSlot name (n + (2 + k))) := by
    have h16 : 16 = n + (2 + (14 - n)) := by omega
    rw [h16, range_add, map_append, map_map, range_add, map_append, map_map]
    rfl
  rw [oneFile_slots, hsplit]
  refine .entry ⟨hname, ?_, by simp [hn], ?_⟩ (.stop (hend _ (Nat.lt_succ_self n)))
  · rw [hfront, hshort, newEntry_fileName, hn]
    exact createLFNEntriesFromName_nameSlots ..
  · rw [hshort]
    exact newEntry_isShortEntry hname (by decide)

/-- The tree of the volume with one file. -/
def oneFileTree (name : List UInt8) (hname : IsFileName name) (hlen : name.length ≤ 182) :
    Tree smallFat32 (oneFile name) where
  contents := fun c =>
    if c = 2 then [⟨name, oneFileSlot name (requiredLFNEntries name.length)⟩] else []
  stored := by
    intro c hc
    induction hc with
    | root => exact ⟨[2], oneFile_chain name, oneFile_stored hname hlen⟩
    | @child c it _ hit hdir _ =>
      -- the only entry is a file
      split at hit
      · rw [List.mem_singleton.1 hit, Item.isDirectory, oneFileSlot_short, newEntry_isDirectory]
          at hdir
        exact absurd hdir (by decide)
      · cases hit
  distinct := by
    intro c hc
    split <;> simp

/-- Every path of the volume with a file `a` is resolved. -/
theorem getEntryByPath_iff_safe_letter :
    (oneFileTree letterName letterName_isFileName (by decide)).Resolved := by
  refine (getEntryByPath_iff_safe smallFat32_wellFormed rfl (oneFile_works _) _).2 fun c hc l hl it hit => ?_
  have hc2 : c = 2 := by
    by_contra h
    have hit' : it ∈ if c = 2 then _ else [] := hit
    rw [if_neg h] at hit'
    cases hit'
  subst hc2
  obtain rfl := hl.unique smallFat32_wellFormed (oneFile_chain _)
  rw [mem_singleton.1 hit]
  decide

/-- A name of 66 characters. -/
def name66 : List UInt8 := List.replicate 66 0x61

theorem name66_isFileName : IsFileName name66 := by
  refine ⟨by decide, by decide, fun c hc => ?_⟩
  rw [eq_of_mem_replicate hc]
  decide

/-- The path of a file with a name of 66 characters, alone in the root directory, is not resolved:
the driver writes outside the buffer for its name. -/
theorem getEntryByPath_fails_name66 :
    getEntryByPath smallFat32 name66 (oneFile name66) = .error .memory ∧
      ¬(oneFileTree name66 name66_isFileName (by decide)).LookupOk [name66] := by
  have herr : getEntryByPath smallFat32 name66 (oneFile name66) = .error .memory := by
    have hfault : (getEntryByPath smallFat32 name66 (oneFile name66)).map (fun _ => ()) =
        .error .memory := by decide +kernel
    cases h : getEntryByPath smallFat32 name66 (oneFile name66) with
    | ok r => rw [h] at hfault; cases hfault
    | error e => rw [h] at hfault; cases hfault; rfl
  refine ⟨herr, fun hok => ?_⟩
  have := hok.1 ⟨name66, _⟩ (@Names.last _ 2 ⟨name66, _⟩ (mem_singleton_self _))
  rw [show CString.joinPath pathSeparator [name66] = name66 from rfl, herr] at this
  cases this

end HeisenKernel
