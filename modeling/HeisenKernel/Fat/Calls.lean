import HeisenKernel.Fat.LastCluster
import HeisenKernel.Lib.Run

/-!
# Runs of calls

The calls that change a volume are `CreateFile`, `CreateDirectory` and `WriteFile`.
-/

namespace HeisenKernel

open Lib List CString FatM Geometry

/-- A call that changes the volume. -/
inductive FatCall where
  | createFile (path : List UInt8)
  | createDirectory (path : List UInt8)
  | writeFile (path : List UInt8) (buffer : Buffer) (len : Nat) (create : Bool)

namespace FatCall

def exec (g : Geometry) : FatCall → FatM Int
  | createFile path => HeisenKernel.createFile g path
  | createDirectory path => HeisenKernel.createDirectory g path
  | writeFile path buffer len create => HeisenKernel.writeFile g path buffer len create

def path : FatCall → List UInt8
  | createFile path | createDirectory path | writeFile path _ _ _ => path

/-- The call returns, and leaves the volume `s'`. -/
def Step (g : Geometry) (s : Fat) (call : FatCall) (s' : Fat) : Prop :=
  ∃ r, call.exec g s = .ok (r, s')

end FatCall

/-- The creation of the path goes well, or its parent directory is not found. -/
inductive SafeCreate (g : Geometry) (s : Fat) : List UInt8 → Prop
  | missing {names : List (List UInt8)} {name : List UInt8} : names ≠ [] → CString.Components
      pathSeparator (names ++ [name]) → (names ++ [name]).length < 2 ^ 32 → Lookup g s
      g.rootDirCluster true names none → SafeCreate g s (joinPath pathSeparator (names ++ [name]))
  | creatable {names : List (List UInt8)} {name : List UInt8} {o : Option Place} {n : Nat}
      {new : List Nat} {s₁ : Fat} {run : List DirSlot} : Creatable g s names name o n new s₁ run →
      SafeCreate g s (joinPath pathSeparator (names ++ [name]))

/-- There is no file to write to: it is not found and not to be created, or the directory is not found
in which it is to be created. -/
inductive NoFile (g : Geometry) (s : Fat) : List UInt8 → Bool → Prop
  | missing {names : List (List UInt8)} : CString.Components pathSeparator names → Lookup g s
      g.rootDirCluster true names none → NoFile g s (joinPath pathSeparator names) false
  | noParent {names : List (List UInt8)} {name : List UInt8} : names ≠ [] → CString.Components
      pathSeparator (names ++ [name]) → (names ++ [name]).length < 2 ^ 32 → Lookup g s
      g.rootDirCluster true names none → NoFile g s (joinPath pathSeparator (names ++ [name])) true

/-- The file of the path can be overwritten, or created and overwritten, or there is none. -/
inductive SafeWrite (g : Geometry) (s : Fat) (len : Nat) : List UInt8 → Bool → Prop
  | noFile {path : List UInt8} {create : Bool} : NoFile g s path create → SafeWrite g s len path create
  | existing {names : List (List UInt8)} {name : List UInt8} {o : Option Place} {childs : List FATEntryInfo}
      {e : FATEntryInfo} {new : List Nat} {create : Bool} : Path g s names o → CString.Components
      pathSeparator (names ++ [name]) → Listed g s o childs → childs.find?
      (fun item => item.filename = name) = some e → create = false ∨ e.entry.isDirectory = false →
      Overwritable g s e.entry len new → SafeWrite g s len (joinPath pathSeparator (names ++ [name])) create
  | created {names : List (List UInt8)} {name : List UInt8} {o : Option Place} {childs : List FATEntryInfo}
      {n : Nat} {new more : List Nat} {s₁ : Fat} {run : List DirSlot} : Creatable g s names name o n new s₁
      run → Listed g s o childs → childs.find? (fun item => item.filename = name) = none → name.length ≤ 65
      → (∀ slots, View g s o slots → Tidy slots) → Supply g s (n :: new ++ more) → more.length =
      requiredClusters g len → SafeWrite g s len (joinPath pathSeparator (names ++ [name])) true

/-- No transfer fails, and the call is one that goes well. -/
def FatCall.Safe (g : Geometry) (s : Fat) (call : FatCall) : Prop :=
  s.Works ∧
    match call with
    | createFile path | createDirectory path => SafeCreate g s path
    | writeFile path _ len create => SafeWrite g s len path create

/-- The file that a call is about: the one that the path leads to, or a new one. -/
def Target (g : Geometry) (s : Fat) (path : List UInt8) (x : Place) : Prop :=
  (∃ e, getEntryByPath g path s = .ok (some e, s) ∧ e.place = x) ∨ ¬Node (Child g s) (some x)

/-- The call returns; the volume is sound again, and nothing but the table, the directories and the
file that the call is about has changed. -/
def StepOk (g : Geometry) (s : Fat) (path : List UInt8) (call : FatM Int) : Prop :=
  ∃ r s', call s = .ok (r, s') ∧ s'.Works ∧ Sound g s' ∧ (s' = s ∨ ∃ x, Target g s path x ∧ Frame g s s' x)

theorem SafeCreate.createNewDirFileEntry_cases (hg : g.WellFormed) (hs : s.Works) (hsound : Sound g s)
    (h : SafeCreate g s path) (hattr : attr ≠ 0x08 ∧ attr ≠ 0x0F) :
    createNewDirFileEntry g path attr s = .ok (-1, s) ∨ ∃ s' o n new slots slots' q, createNewDirFileEntry g
      path attr s = .ok (0, s') ∧ Node (Child g s) o ∧ (∀ p, o = some p → (s.slot g p).isDirectory = true) ∧
      NewNode g s s' o n new slots slots' q := by
  cases h with
  | missing hne hcomps hlen hlookup =>
    have hlookup := getEntryByPath_eq hs (fun part hpart => hcomps part (by simp [hpart])) hlookup
    exact .inl ((createNewDirFileEntry_nested hne hcomps hlen hlookup attr).1 rfl)
  | creatable h =>
    obtain ⟨parent, hexec⟩ := h.createNewDirFileEntry_eq hg hs hsound attr
    obtain ⟨ho, hdir⟩ := h.node hg hs hsound
    obtain ⟨slots, slots', q, -, hnew⟩ := h.newNode hg hs hattr parent
    exact .inr ⟨_, _, _, _, slots, slots', q, hexec, ho, hdir, hnew⟩

theorem SafeCreate.createNewDirFileEntry_ok (hg : g.WellFormed) (hs : s.Works) (hsound : Sound g s)
    (h : SafeCreate g s path) (hattr : attr ≠ 0x08 ∧ attr ≠ 0x0F) :
    StepOk g s path (createNewDirFileEntry g path attr) := by
  rcases h.createNewDirFileEntry_cases hg hs hsound hattr with
    hexec | ⟨s', o, n, new, slots, slots', q, hexec, ho, hdir, hnew⟩
  · exact ⟨-1, s, hexec, hs, hsound, .inl rfl⟩
  · exact ⟨0, s', hexec, hnew.works, hnew.sound hg hsound ho hdir, .inr ⟨q.place,
      .inr (hnew.not_node hg hsound ho), hnew.frame hg hsound ho hdir⟩⟩

theorem Lookup.none_append (h : Lookup g s c root names r) (hr : r = none)
    (more : List (List UInt8)) : Lookup g s c root (names ++ more) none := by
  induction h with
  | missing hdir hlist hfind => exact .missing hdir hlist hfind
  | final => cases hr
  | descend hdir hlist hfind hisdir _ ih => exact .descend hdir hlist hfind hisdir (ih hr)
  | blocked hdir hlist hfind hisdir hne =>
    exact .blocked hdir hlist hfind hisdir (by simp [hne])

theorem fileExists_eq (h : getEntryByPath g path s = .ok (r, s)) :
    fileExists g path s = .ok (r.any fun e => !e.entry.isDirectory, s) := by
  rw [fileExists, bind_eq h]
  cases r <;> rfl

theorem writeFile_overwrite (h : getEntryByPath g path s = .ok (r, s))
    (hr : create = false ∨ (r.any fun e => !e.entry.isDirectory) = true) (buffer : Buffer)
    (len : Nat) : writeFile g path buffer len create s = overwriteFile g path buffer len s := by
  rw [writeFile, bind_eq (fileExists_eq h), if_neg]
  rintro ⟨hfalse, hcreate⟩
  rcases hr with rfl | hr
  · cases hcreate
  · rw [hr] at hfalse
    cases hfalse

theorem writeFile_create (h : getEntryByPath g path s = .ok (none, s)) (buffer : Buffer)
    (len : Nat) : writeFile g path buffer len true s = (createFile g path >>= fun r =>
      if r ≠ 0 then pure (-1) else overwriteFile g path buffer len) s := by
  rw [writeFile, bind_eq (fileExists_eq h), if_pos ⟨rfl, rfl⟩]

theorem overwriteFile_missing (h : getEntryByPath g path s = .ok (none, s)) (buffer : Buffer)
    (len : Nat) : overwriteFile g path buffer len s = .ok (-1, s) := by
  rw [overwriteFile, bind_eq h]
  rfl

variable {g : Geometry} {s s₁ : Fat} {names : List (List UInt8)} {name : List UInt8} {o : Option Place}
  {childs : List FATEntryInfo} {e : FATEntryInfo} {n len : Nat} {new : List Nat} {run : List DirSlot}

theorem Overwritable.writeFile_ok (hg : g.WellFormed)
    (hf : Found g s path names name o childs e) (h : Overwritable g s e.entry len new)
    (buffer : Buffer) : ∃ s', overwriteFile g path buffer len s = .ok (0, s') ∧ s'.Works ∧
      (∃ e', getEntryByPath g path s' = .ok (some e', s') ∧ e'.place = e.place) ∧
      Node (Child g s) (some e.place) ∧ Overwritten g s s' e.place new := by
  obtain ⟨cs, t, s', hexec, hworks, -, -, ht, hre, hmod⟩ := h.overwriteFile_eq hg hf buffer
  have hx := (hf.node hg).1
  obtain ⟨hpath, hlist⟩ := hre.found hg hf.sound hx hf.works hf.path hf.listed
  have hsound := hre.sound hg hf.sound hx
  obtain ⟨hpath', hlist'⟩ := hmod.found hg ht.works hsound hpath hlist hf.mem
  have hsound' := hmod.sound hg hsound ((hre.node_iff hg hf.sound hx).2 hx)
  have hentry := hpath'.getEntryByPath_eq hg hworks hsound' hlist' hf.components
  rw [find_put hf.find, ← hf.path_eq] at hentry
  exact ⟨s', hexec, hworks, ⟨_, hentry, rfl⟩, hx, t, _, hre, hmod⟩

/-- The volume after `CreateFile`, in front of `WriteFile`: the file is found with the entry `info`,
and has the cluster `n`. -/
structure NewFile (g : Geometry) (s s' : Fat) (names : List (List UInt8)) (name : List UInt8)
    (o : Option Place) (n : Nat) (childs : List FATEntryInfo) (info : FATEntryInfo) : Prop where
  works : s'.Works
  sound : Sound g s'
  path : Path g s' names o
  listed : Listed g s' o childs
  find : childs.find? (fun item => item.filename = name) = some info
  entry : info.entry = newEntry s.rtc name 0 n
  cluster : info.entry.cluster = n
  readable : g.Readable n
  chain : NodeChain g s' (some info.place) [n]
  not_node : ¬Node (Child g s) (some info.place)
  frame : Frame g s s' info.place
  exact : Exact g s → Exact g s'

theorem NewFile.isFile (h : NewFile g s s' names name o n childs info) : info.entry.isDirectory = false := by
  rw [h.entry, newEntry_isDirectory]
  rfl

theorem NewFile.overwritable (h : NewFile g s s' names name o n childs info) (hsup : Supply g s' more)
    (hmore : more.length = requiredClusters g len) : Overwritable g s' info.entry len more :=
  ⟨hsup, hmore, fun _ => ⟨h.isFile, h.cluster ▸ h.readable⟩⟩

theorem NewFile.filling (h : NewFile g s s' names name o n childs info)
    (hsup : Supply g s' more) (hex : Exhausted g s' more) (hmore : more.length + 1 = requiredClusters g len)
    : Filling g s' info.entry len more :=
  ⟨hsup, hex, hmore, h.isFile, h.cluster ▸ h.readable⟩

section
variable (hg : g.WellFormed) (hs : s.Works) (hsound : Sound g s) (h : Creatable g s names name o n new s₁ run)
  (hlist : Listed g s o childs) (hfind : childs.find? (fun item => item.filename = name) = none)
  (hlen : name.length ≤ 65) (htidy : ∀ slots, View g s o slots → Tidy slots)
include hg hs hsound h hlist hfind hlen htidy

theorem Creatable.found {attr : UInt8} (hattr : attr ≠ 0x08 ∧ attr ≠ 0x0F) :
    ∃ parent a b info slots slots' q,
      createNewDirFileEntry g (joinPath pathSeparator (names ++ [name])) attr s =
        .ok (0, createdVolume g s s₁ name n run attr parent) ∧
      NewNode g s (createdVolume g s s₁ name n run attr parent) o n new slots slots' q ∧
      childs = a ++ b ∧ info.filename = name ∧ info.entry = newEntry s.rtc name attr n ∧
      info.place = q.place ∧
      Found g (createdVolume g s s₁ name n run attr parent)
        (joinPath pathSeparator (names ++ [name])) names name o (a ++ info :: b) info := by
  obtain ⟨parent, hexec⟩ := h.createNewDirFileEntry_eq hg hs hsound attr
  obtain ⟨ho, hdir⟩ := h.node hg hs hsound
  obtain ⟨slots, slots', q, hq, hnew⟩ := h.newNode hg hs hattr parent
  have hsound' := hnew.sound hg hsound ho hdir
  have hpath' := hnew.path hg hsound ho hs h.path
  obtain ⟨a, b, info, rfl, hlist', hname, hentry⟩ := h.room.listed hg hs h.free h.isFileName hattr
    hlen hlist htidy rfl (hnew.nodeCluster_eq hg hsound ho)
  -- the entry that is found is the new one
  obtain ⟨hchild, hslot⟩ := hlist'.child hg hnew.works hsound' (hpath'.node hg hnew.works hsound')
    (hpath'.within hg hnew.works hsound').2 (show info ∈ a ++ info :: b by simp)
  have hplace : info.place = q.place := hnew.place_eq hg hsound ho hdir hchild (by
    rw [hslot, hentry, newEntry_cluster_eq hg h.free.read])
  have hfind' : (a ++ info :: b).find? (fun item => item.filename = name) = some info := by
    rw [find?_append, Option.or_eq_none_iff] at hfind
    rw [find?_append, hfind.1, find?_cons_of_pos (by simpa using hname)]
    rfl
  exact ⟨parent, a, b, info, slots, slots', q, hexec, hnew, rfl, hname, hentry, hplace, rfl,
    h.components, hnew.works, hsound', hpath', hlist', hfind'⟩

theorem Creatable.writeFile_eq (hsup : Supply g s (n :: new ++ more)) :
    ∃ s' childs' info,
      (∀ buffer len, writeFile g (joinPath pathSeparator (names ++ [name])) buffer len true s =
        overwriteFile g (joinPath pathSeparator (names ++ [name])) buffer len s') ∧
      Found g s' (joinPath pathSeparator (names ++ [name])) names name o childs' info ∧
      NewFile g s s' names name o n childs' info ∧ Supply g s' more ∧
      (∀ bound, SearchedTo g s (n :: new ++ more) bound → SearchedTo g s' more bound) ∧
      s'.startSearchCluster ∈ n :: new ∧ s'.rtc = s.rtc ∧ s'.bufferRead = s.bufferRead := by
  have hattr : (0 : UInt8) ≠ 0x08 ∧ (0 : UInt8) ≠ 0x0F := by decide
  have hlookup := h.path.getEntryByPath_eq hg hs hsound hlist h.components
  rw [hfind] at hlookup
  obtain ⟨ho, hdir⟩ := h.node hg hs hsound
  obtain ⟨parent, a, b, info, slots, slots', q, hexec, hnew, -, -, hentry, hplace, hfound⟩ :=
    h.found hg hs hsound hlist hfind hlen htidy hattr
  refine ⟨_, a ++ info :: b, info, fun buffer len => ?_, hfound, ?_, h.supply hg hs hsup,
    fun bound => h.searchedTo hg hs hsound hattr, ?_, h.createdVolume_fields⟩
  · rw [writeFile_create hlookup, bind_eq (show createFile g _ s = _ from hexec)]
    rfl
  · exact {
      works := hfound.works
      sound := hfound.sound
      path := hfound.path
      listed := hfound.listed
      find := hfound.find
      entry := hentry
      cluster := by rw [hentry, newEntry_cluster_eq hg h.free.read]
      readable := h.free.read
      chain := by rw [hplace]; exact hnew.chain_new hg hsound ho
      not_node := by rw [hplace]; exact hnew.not_node hg hsound ho
      frame := by rw [hplace]; exact hnew.frame hg hsound ho hdir
      exact := hnew.exact hg hsound ho hdir }
  · rw [Creatable.createdVolume_start]
    exact h.room.start_mem

end

theorem NoFile.writeFile_eq (hs : s.Works) (h : NoFile g s path create)
    (buffer : Buffer) (len : Nat) : writeFile g path buffer len create s = .ok (-1, s) := by
  cases h with
  | missing hcomps hlookup =>
    have hentry := getEntryByPath_eq hs hcomps hlookup
    rw [writeFile_overwrite hentry (.inl rfl), overwriteFile_missing hentry]
  | @noParent names name hne hcomps hlen hlookup =>
    have hparent := getEntryByPath_eq hs (fun part hpart => hcomps part (by simp [hpart])) hlookup
    have hentry := getEntryByPath_eq hs hcomps (hlookup.none_append rfl [name])
    have hcreate : createFile g (joinPath pathSeparator (names ++ [name])) s = .ok (-1, s) :=
      (createNewDirFileEntry_nested hne hcomps hlen hparent 0).1 rfl
    rw [writeFile_create hentry, bind_eq hcreate]
    rfl

theorem SafeWrite.found {path : List UInt8} {create : Bool} (hg : g.WellFormed) (hs : s.Works)
    (hsound : Sound g s) (h : SafeWrite g s len path create) (buffer : Buffer) :
    NoFile g s path create ∨ ∃ s₁ names name o childs e new,
      writeFile g path buffer len create s = overwriteFile g path buffer len s₁ ∧
      Found g s₁ path names name o childs e ∧ Overwritable g s₁ e.entry len new ∧
      (Exact g s → Exact g s₁) ∧
      (s₁ = s ∨ ¬Node (Child g s) (some e.place) ∧ Frame g s s₁ e.place ∧
        ∃ n, NodeChain g s₁ (some e.place) [n]) := by
  cases h with
  | noFile h => exact .inl h
  | @existing names name o childs e new _ hpath hcomps hlist hfind hfile h =>
    have hentry := hpath.getEntryByPath_eq hg hs hsound hlist hcomps
    rw [hfind] at hentry
    exact .inr ⟨s, names, name, o, childs, e, new,
      writeFile_overwrite hentry (hfile.imp id fun hfile => by simp [hfile]) buffer len,
      ⟨rfl, hcomps, hs, hsound, hpath, hlist, hfind⟩, h, id, .inl rfl⟩
  | @created names name o childs n new more s₁ run h hlist hfind hlen htidy hsup hmore =>
    obtain ⟨s', childs', info, hwrite, hfound, hnew, hsup', -⟩ :=
      h.writeFile_eq hg hs hsound hlist hfind hlen htidy hsup
    exact .inr ⟨s', names, name, o, childs', info, more, hwrite buffer len, hfound,
      hnew.overwritable hsup' hmore, hnew.exact, .inr ⟨hnew.not_node, hnew.frame, n, hnew.chain⟩⟩

theorem SafeWrite.writeFile_ok (hg : g.WellFormed)
    (hs : s.Works) (hsound : Sound g s) (h : SafeWrite g s len path create) (buffer : Buffer) :
    StepOk g s path (writeFile g path buffer len create) := by
  rcases h.found hg hs hsound buffer with h | ⟨s₁, names, name, o, childs, e, new, heq, hfound, hok, -, hs1⟩
  · exact ⟨-1, s, h.writeFile_eq hs buffer len, hs, hsound, .inl rfl⟩
  · obtain ⟨s', hexec, hworks, -, hnode, hover⟩ := hok.writeFile_ok hg hfound buffer
    refine ⟨0, s', heq.trans hexec, hworks, hover.sound hg hfound.sound hnode, .inr ⟨e.place, ?_⟩⟩
    rcases hs1 with rfl | ⟨hnew, hframe, n, hchain⟩
    · exact ⟨.inl ⟨e, hfound.getEntryByPath_eq hg, rfl⟩, hover.frame hg hsound hnode⟩
    · exact ⟨.inr hnew, hframe.overwritten hg hfound.sound hnode hchain hover⟩

variable {call : FatCall}

theorem FatCall.Safe.stepOk (hg : g.WellFormed) (hsound : Sound g s) (h : call.Safe g s) :
    StepOk g s call.path (call.exec g) := by
  obtain ⟨hs, h⟩ := h
  cases call with
  | createFile path => exact h.createNewDirFileEntry_ok hg hs hsound (by decide)
  | createDirectory path => exact h.createNewDirFileEntry_ok hg hs hsound (by decide)
  | writeFile path buffer len create => exact h.writeFile_ok hg hs hsound buffer

/-- A FAT32 volume with the given table, whose root directory is the cluster 2 with the given
slots. -/
def rootVolume (table : Nat → Nat) (slots : List Slot) : Fat where
  disk := fun lba =>
    if 32 ≤ lba ∧ lba < 544 then fun o =>
      UInt8.ofNat (table ((lba - 32) * 128 + o / 4) / 256 ^ (o % 4))
    else if lba = 544 then sectorOf slots
    else fun _ => 0
  startSearchCluster := 2
  failures := fun _ => false
  rtc := ⟨12, 0, 0, 2020, 1, 1⟩
  bufferRead := 0

variable {table : Nat → Nat}

theorem rootVolume_table (c : Nat) (hc : c ≤ 65526) :
    smallFat32.table (rootVolume table slots) c = table c % 2 ^ 28 := by
  have hbyte : ∀ j < 4, smallFat32.tableBytes (rootVolume table slots) (c * 4 + j) =
      UInt8.ofNat (table c / 256 ^ j) := by
    intro j hj
    have hlba : smallFat32.lba (smallFat32.firstFatSector + (c * 4 + j) / 512) = 32 + (c * 4 + j) / 512 := by
      show u32 (0 + (32 + (c * 4 + j) / 512)) = _
      rw [u32_eq (by omega)]
      omega
    show (rootVolume table slots).disk (smallFat32.lba (smallFat32.firstFatSector +
      (c * 4 + j) / 512)) ((c * 4 + j) % 512) = _
    rw [hlba, rootVolume]
    dsimp only
    rw [if_pos (by omega)]
    congr 3 <;> omega
  have hoffset : smallFat32.fatOffset c = c * 4 := u32_eq (by omega)
  show word32 (smallFat32.tableBytes (rootVolume table slots)) (smallFat32.fatOffset c) % 2 ^ 28 = _
  have h0 := hbyte 0 (by decide)
  rw [add_zero] at h0
  rw [hoffset, word32, word16, word16, add_assoc (c * 4) 2 1, h0, hbyte 1 (by decide),
    hbyte 2 (by decide), hbyte 3 (by decide)]
  simp only [UInt8.toNat_ofNat', Nat.reducePow, Nat.div_one]
  omega

theorem rootVolume_slots : chainSlots smallFat32 (rootVolume table slots) [2] =
    (List.range 16).map fun k => ⟨2, 0, 544, k * 32, slots.getD k fun _ => 0⟩ := smallFat32_slots rfl

theorem rootVolume_nodeChain (h2 : 0x0FFFFFF8 ≤ table 2 % 2 ^ 28) :
    NodeChain smallFat32 (rootVolume table slots) none [2] := by
  refine ⟨rfl, .last (by decide) ?_⟩
  show 0x0FFFFFF8 ≤ smallFat32.table (rootVolume table slots) 2
  rw [rootVolume_table 2 (by decide)]
  exact h2

theorem rootVolume_nil_slots
    (hp : p ∈ chainSlots smallFat32 (rootVolume table []) [2]) : p.slot = fun _ => 0 := by
  rw [rootVolume_slots] at hp
  obtain ⟨k, -, rfl⟩ := mem_map.1 hp
  rfl

theorem rootVolume_sound (h2 : 0x0FFFFFF8 ≤ table 2 % 2 ^ 28) : Sound smallFat32 (rootVolume table []) := by
  have hno : ∀ p, ¬IsEntry (chainSlots smallFat32 (rootVolume table []) [2]) p := fun p =>
    not_isEntry_of_end fun q hq => by rw [rootVolume_nil_slots hq]
  exact sound_flat smallFat32_wellFormed (rootVolume_nodeChain h2) (fun p hp => absurd hp (hno p))
    (fun p _ hp => absurd hp (hno p)) fun p hp => absurd hp (hno p)

theorem rootVolume_listed (table : Nat → Nat) (h2 : 0x0FFFFFF8 ≤ table 2 % 2 ^ 28) :
    Listed smallFat32 (rootVolume table []) none [] ∧
      ∀ slots, View smallFat32 (rootVolume table []) none slots → Tidy slots := by
  have hend : ∀ p ∈ chainSlots smallFat32 (rootVolume table []) [2], p.slot 0 = 0x00 := fun p hp => by
    rw [rootVolume_nil_slots hp]
  have hdir : Directory smallFat32 (rootVolume table []) 2 true
      (chainSlots smallFat32 (rootVolume table []) [2]) :=
    (rootVolume_nodeChain h2).2.directory_of_readable smallFat32_wellFormed rfl rfl fun d hd => by
      rw [mem_singleton.1 hd]
      decide
  refine ⟨⟨_, ⟨hdir, by simp [smallFat32, fixedRoot]⟩, @listing_append_end [] _ hend⟩, fun slots hview => ?_⟩
  cases hview.directory with
  | @chain l _ hwalk _ =>
    obtain ⟨rest, hrest⟩ := hwalk.append (s := rootVolume table []) rfl (rootVolume_nodeChain h2).2
    refine tidy_nil.append fun p hp => hend p ?_
    rw [hrest, chainSlots_append]
    exact mem_append_left _ hp
  | fixed hroot => cases hroot

theorem rootVolume_creatable (table : Nat → Nat) (h2 : 0x0FFFFFF8 ≤ table 2 % 2 ^ 28)
    (h3 : table 3 % 2 ^ 28 = 0) :
    ∃ run, Creatable smallFat32 (rootVolume table []) [] letterName none 3 []
      (smallFat32.allocated 3 (rootVolume table [])) run := by
  have hg := smallFat32_wellFormed
  have hfree : smallFat32.FirstFree (rootVolume table []) 3 := by
    refine ⟨show 2 ≤ 3 by decide, by decide, ?_, fun d hd hlt => ?_, fun d hd hle => ?_⟩
    · rw [rootVolume_table 3 (by decide), h3]
    · obtain rfl : d = 2 := le_antisymm (Nat.le_of_lt_succ hlt) hd
      rw [rootVolume_table 2 (by decide)]
      omega
    · exact readable_of_ne_fat12 hg (by decide) hd (le_trans hle (by decide))
  have hchain : NodeChain smallFat32 (rootVolume table []) none [2] := rootVolume_nodeChain h2
  have hread : ∀ d ∈ [2], smallFat32.Readable d := fun d hd => by
    rw [mem_singleton.1 hd]
    decide
  have hslots : chainSlots smallFat32 (smallFat32.allocated 3 (rootVolume table [])) ([2] ++ []) =
      chainSlots smallFat32 (rootVolume table []) [2] :=
    chainSlots_allocated hg hfree.read hchain.mem_isCluster
  have hzero : ∀ p ∈ chainSlots smallFat32 (rootVolume table []) [2], p.slot = fun _ => 0 :=
    fun p hp => rootVolume_nil_slots hp
  have hrun : FirstRun (requiredLFNEntries letterName.length + 1)
      (chainSlots smallFat32 (smallFat32.allocated 3 (rootVolume table [])) ([2] ++ [])) []
      ((chainSlots smallFat32 (rootVolume table []) [2]).take 2)
      ((chainSlots smallFat32 (rootVolume table []) [2]).drop 2) := by
    rw [hslots]
    refine ⟨(take_append_drop 2 _).symm, ?_, fun p hp => ?_, by simp⟩
    · rw [rootVolume_slots]
      rfl
    · rw [hzero p (mem_of_mem_take hp)]
      rfl
  refine ⟨_, .root, ?_, by decide, letterName_isFileName, hfree, .chain hchain hread .refl hrun, ?_, ?_⟩
  · intro part hpart
    obtain rfl : part = letterName := mem_singleton.1 hpart
    exact ⟨by decide, by decide⟩
  · intro p hp
    rw [rootVolume_slots] at hp
    cases hp
    decide
  · intro slots hnode
    rw [hchain.slots_eq hg hnode]
    refine pairwise_of_forall_mem_list fun _ _ q hq _ => ?_
    rw [hzero q hq]

/-- The table of a volume on which only the cluster of the root directory is taken. -/
def emptyTable (c : Nat) : Nat := if c = 2 then 0x0FFFFFF8 else 0

/-- The table of a volume on which only the cluster 3 is free. -/
def fullTable (c : Nat) : Nat := if c = 3 then 0 else 0x0FFFFFF8

theorem rootVolume_writeFile (h2 : 0x0FFFFFF8 ≤ table 2 % 2 ^ 28)
    (h3 : table 3 % 2 ^ 28 = 0) (hsup : Supply smallFat32 (rootVolume table []) (3 :: more)) :
    ∃ s childs info, (∀ buffer len, writeFile smallFat32 letterName buffer len true (rootVolume table []) =
        overwriteFile smallFat32 letterName buffer len s) ∧
      Found smallFat32 s letterName [] letterName none childs info ∧
      NewFile smallFat32 (rootVolume table []) s [] letterName none 3 childs info ∧
      Supply smallFat32 s more ∧ ∀ bound, SearchedTo smallFat32 (rootVolume table []) (3 :: more) bound →
        SearchedTo smallFat32 s more bound := by
  obtain ⟨hlist, htidy⟩ := rootVolume_listed table h2
  obtain ⟨run, h⟩ := rootVolume_creatable table h2 h3
  have hs : (rootVolume table []).Works := rfl
  obtain ⟨s, childs, info, hwrite, hfound, hnew, hsup', hto, -⟩ := h.writeFile_eq smallFat32_wellFormed hs
    (rootVolume_sound h2) hlist rfl (by decide) htidy hsup
  exact ⟨s, childs, info, hwrite, hfound, hnew, hsup', hto⟩

theorem emptyTable_safe : Sound smallFat32 (rootVolume emptyTable []) ∧
    FatCall.Safe smallFat32 (rootVolume emptyTable []) (.createFile letterName) := by
  obtain ⟨run, h⟩ := rootVolume_creatable emptyTable (by decide) (by decide)
  exact ⟨rootVolume_sound (by decide), rfl, .creatable h⟩

theorem fullTable_free (hd : 2 ≤ d) (hle : d ≤ 65525) : smallFat32.Readable d ∧
    (smallFat32.table (rootVolume fullTable []) d = 0 ↔ d = 3) := by
  refine ⟨readable_of_ne_fat12 smallFat32_wellFormed (by decide) hd hle, ?_⟩
  rw [rootVolume_table d (by omega), fullTable]
  split <;> simp_all

theorem fullTable_supply : Supply smallFat32 (rootVolume fullTable []) [3] := by
  refine ⟨by simp, by simp [rootVolume], by simp [smallFat32], ?_, ?_⟩
  · rintro c hc ⟨d, hd, hle⟩
    rw [mem_singleton]
    exact (fullTable_free hc (by have := mem_singleton.1 hd; omega)).2
  · rintro c hc ⟨d, hd, hle⟩
    exact (fullTable_free hc (by have := mem_singleton.1 hd; omega)).1

theorem fullTable_exhausted : Exhausted smallFat32 (rootVolume fullTable []) [3] := fun _ hd hlt =>
  ⟨(fullTable_free hd (le_of_lt hlt)).1, fun hzero =>
    mem_singleton.2 ((fullTable_free hd (le_of_lt hlt)).2.1 hzero)⟩

/-- `CreateNewDirFileEntry` adds one entry of the name to the directory `o`, `GetEntryByPath` then
finds it, and the other directories are as before. -/
def EntryAdded (g : Geometry) (s : Fat) (path name : List UInt8) (attr : UInt8) (o : Option Place)
    (childs : List FATEntryInfo) : Prop :=
  ∃ s' a b info, createNewDirFileEntry g path attr s = .ok (0, s') ∧ childs = a ++ b ∧ Listed g s' o
    (a ++ info :: b) ∧ info.filename = name ∧ getEntryByPath g path s' = .ok (some info, s') ∧ ∀ o'
    childs', Node (Child g s) o' → o' ≠ o → Listed g s o' childs' → Listed g s' o' childs'

/-- Whether the parent is a directory, what the creation of the path returns, and whether the path and
the parent are then found. -/
def createPath (parent path : List UInt8) : FatM (Bool × Int × Bool × Bool) := do
  let before ← getEntryByPath smallFat32 parent
  let r ← createNewDirFileEntry smallFat32 path 0
  let found ← getEntryByPath smallFat32 path
  let after ← getEntryByPath smallFat32 parent
  pure (before.any (·.entry.isDirectory), r, found.isSome, after.isSome)

/-- The volume with the directory `a` in the cluster 3. -/
def directoryVolume : Fat :=
  rootVolume (fun c => if c ≤ 3 then 0x0FFFFFF8 else 0)
    [directoryEntry (createShortFilename letterName) 0x10 0 0 0 0 3 0 0 0]

end HeisenKernel
