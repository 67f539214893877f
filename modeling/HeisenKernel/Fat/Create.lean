import HeisenKernel.Fat.NewLeaf

/-!
# CreateFile and CreateDirectory

`Creatable` is the condition under which the creation of a file or directory goes well: the parent
directory is found, there is a free cluster, and the parent has room for the entry.
-/

namespace HeisenKernel

open Lib List CString Geometry

/-- A file or directory with the name can be created in the directory `o` that the names lead to. The
cluster `n` is free for it, and the parent grows by the clusters `new` to the volume `s₁`, where the
slots `run` are free. -/
structure Creatable (g : Geometry) (s : Fat) (names : List (List UInt8)) (name : List UInt8)
    (o : Option Place) (n : Nat) (new : List Nat) (s₁ : Fat) (run : List DirSlot) : Prop where
  path : Path g s names o
  components : CString.Components pathSeparator (names ++ [name])
  length : (names ++ [name]).length < 2 ^ 32
  isFileName : IsFileName name
  free : g.FirstFree s n
  room : Room g s o name n new s₁ run
  /-- The long name slots end in the sector in which they begin. -/
  fits : Fits g name run
  /-- Nothing is left behind the end of the parent directory. -/
  ended : ∀ slots, NodeSlots g s o slots → slots.Pairwise fun p q => p.slot 0 = 0x00 → q.slot 0 = 0x00

variable {g : Geometry} {s s₁ : Fat} {name : List UInt8} {n parent : Nat} {run : List DirSlot} {attr : UInt8}

/-- The volume after the creation. -/
def createdVolume (g : Geometry) (s s₁ : Fat) (name : List UInt8) (n : Nat) (run : List DirSlot)
    (attr : UInt8) (parent : Nat) : Fat :=
  g.finished attr parent (newEntry s.rtc name attr n) (s₁.putSlots g (run.zip (newSlots s.rtc name attr n)))

theorem Grown.works (h : Grown g k s l s' l') (hs : s.Works) : s'.Works := by
  induction h with
  | refl => exact hs
  | grow _ _ _ _ ih => exact ih (extended_works hs)

theorem Room.works (hs : s.Works) (h : Room g s o name n new s₁ run) : s₁.Works := by
  cases h with
  | chain _ _ hgrown _ => exact hgrown.works (allocated_works hs)
  | fixed => exact allocated_works hs

theorem Grown.start_le (h : Grown g k s l s' l') : s.startSearchCluster ≤ s'.startSearchCluster := by
  induction h with
  | refl => exact le_refl _
  | grow _ _ hfree _ ih => exact le_trans hfree.start_le (by rwa [extended_fields.1] at ih)

theorem Room.start_le (hfree : g.FirstFree s n) (h : Room g s o name n new s₁ run) :
    s.startSearchCluster ≤ s₁.startSearchCluster := by
  cases h with
  | chain _ _ hgrown _ => exact le_trans hfree.start_le hgrown.start_le
  | fixed => exact hfree.start_le

theorem Grown.start_mem (h : Grown g k s l s' l')
    (hnew : l' = l ++ new) : s'.startSearchCluster ∈ s.startSearchCluster :: new := by
  induction h generalizing new with
  | refl => exact mem_cons_self
  | @grow s s' l l' d c' _ _ _ hgrown ih =>
    obtain ⟨rest, hrest⟩ := hgrown.exists_append
    rw [hrest, append_assoc] at hnew
    obtain rfl := append_cancel_left hnew
    have hmem := ih hrest
    rw [extended_fields.1] at hmem
    exact mem_cons_of_mem _ hmem

theorem Room.start_mem (h : Room g s o name n new s₁ run) : s₁.startSearchCluster ∈ n :: new := by
  cases h with
  | chain _ _ hgrown _ => exact hgrown.start_mem rfl
  | fixed => exact mem_cons_self

theorem Room.fields (h : Room g s o name n new s₁ run) : s₁.rtc = s.rtc ∧ s₁.bufferRead = s.bufferRead := by
  cases h with
  | chain _ _ hgrown _ => exact hgrown.fields
  | fixed => exact ⟨rfl, rfl⟩

theorem Room.supply (hg : g.WellFormed) (hs : s.Works) (hfree : g.FirstFree s n)
    (h : Room g s o name n new s₁ run) (hsup : Supply g s (n :: new ++ more)) :
    Supply g s₁ more ∧ ∀ p ∈ run, g.tableEnd ≤ p.sector ∧ p.sector < g.endSector := by
  have hn := hfree.read
  have hsup' := hsup.allocated hg
  cases h with
  | @chain l _ _ pre _ post hl hread hgrown hrun =>
    have hla := hl.chain.allocated hg hn hfree.free
    refine ⟨hgrown.supply hg hla hread rfl hsup', fun p hp => ?_⟩
    obtain ⟨-, hl1, -⟩ := hgrown.chain hg (allocated_works hs) hla hread
    refine (chainSlots_slotsAt (s := s₁) hg hl1.mem_isCluster (hl1.nodup hg)).sector p ?_
    rw [hrun.split]
    exact mem_append_left _ (mem_append_right _ hp)
  | @fixed m pre _ post hroot hrun =>
    refine ⟨hsup', fun p hp => (rootSlots_slotsAt (s := s) (c := g.rootDirCluster) hg
      hrun.windows).sector p ?_⟩
    rw [hrun.isFirst.split]
    exact mem_append_left _ (mem_append_right _ hp)

theorem createNewDirFileEntry_single (hname : pathSeparator ∉ name) (attr : UInt8) :
    createNewDirFileEntry g name attr s = (allocateCluster g >>= fun newCluster =>
      createEntry g g.rootDirCluster name attr true newCluster >>= finishEntry g attr 0) s := by
  rw [createNewDirFileEntry, if_pos (split_single hname)]

theorem createNewDirFileEntry_nested (hne : names ≠ [])
    (hcomps : CString.Components pathSeparator (names ++ [name]))
    (hlen : (names ++ [name]).length < 2 ^ 32)
    (hr : getEntryByPath g (joinPath pathSeparator names) s = .ok (r, s)) (attr : UInt8) :
    (r = none → createNewDirFileEntry g (joinPath pathSeparator (names ++ [name])) attr s = .ok (-1, s)) ∧
    ∀ e, r = some e →
      createNewDirFileEntry g (joinPath pathSeparator (names ++ [name])) attr s =
        (allocateCluster g >>= fun newCluster =>
          createEntry g e.entry.cluster name attr false newCluster >>=
            finishEntry g attr e.entry.cluster) s := by
  obtain ⟨first, rest, rfl⟩ := exists_cons_of_ne_nil hne
  have hcomp : CString.Components pathSeparator (first :: rest) :=
    (forall_mem_append.1 hcomps).1
  have hsplit : split (joinPath pathSeparator (first :: rest ++ [name]))
      pathSeparator = first :: rest ++ [name] := split_joinPath (by simp) hcomps
  have hcount : sub32 (first :: rest ++ [name]).length 2 = rest.length := by
    rw [sub32_eq hlen (by simp)]
    simp
  have hindex : indexOf (joinPath pathSeparator (first :: rest ++ [name]))
      pathSeparator rest.length = some (joinPath pathSeparator (first :: rest)).length :=
    indexOf_joinPath hcomp
  have hpath : joinPath pathSeparator (first :: rest ++ [name]) =
      joinPath pathSeparator (first :: rest) ++ pathSeparator :: name :=
    joinPath_concat (by simp)
  have hdrop : (joinPath pathSeparator (first :: rest) ++ pathSeparator :: name).drop
      ((joinPath pathSeparator (first :: rest)).length + 1) = name := by
    rw [← drop_drop, drop_left]
    rfl
  rw [createNewDirFileEntry, hsplit, if_neg (by simp), hcount, hindex]
  dsimp only
  rw [hpath, take_left, hdrop, FatM.bind_eq hr]
  constructor
  · rintro rfl
    rfl
  · rintro e rfl
    rfl

namespace Creatable

section
variable (hg : g.WellFormed) (hs : s.Works) (hsound : Sound g s) (h : Creatable g s names name o n new s₁ run)
include hg hs hsound h

theorem createNewDirFileEntry_parent (attr : UInt8) :
    ∃ parent, createNewDirFileEntry g (joinPath pathSeparator (names ++ [name])) attr s =
      (allocateCluster g >>= fun newCluster =>
        createEntry g (nodeCluster g s o) name attr o.isNone newCluster >>=
          finishEntry g attr parent) s := by
  cases h.path with
  | root => exact ⟨0, createNewDirFileEntry_single (h.components name (by simp)).2 attr⟩
  | @child names o childs last e hpath hlist hfind hdir =>
    have hentry := hpath.getEntryByPath_eq hg hs hsound hlist fun part hpart =>
      h.components part (mem_append_left _ hpart)
    rw [hfind] at hentry
    have hslot := (hpath.node_of_mem hg hs hsound hlist (mem_of_find?_eq_some hfind)).2
    refine ⟨e.entry.cluster, ?_⟩
    rw [nodeCluster, hslot]
    exact (createNewDirFileEntry_nested (by simp) h.components h.length hentry attr).2 e rfl

theorem createNewDirFileEntry_eq (attr : UInt8) : ∃ parent,
      createNewDirFileEntry g (joinPath pathSeparator (names ++ [name])) attr s =
        .ok (0, createdVolume g s s₁ name n run attr parent) := by
  obtain ⟨parent, hparent⟩ := h.createNewDirFileEntry_parent hg hs hsound attr
  have hcreate := h.room.createEntry_eq hg hs h.free h.isFileName h.fits attr
  have hworks : (s₁.putSlots g (run.zip (newSlots s.rtc name attr n))).Works :=
    (putSlots_fields s₁ _).2.1.trans (h.room.works hs)
  refine ⟨parent, ?_⟩
  rw [hparent, FatM.bind_eq (allocateCluster_eq hs h.free), FatM.bind_eq hcreate, finishEntry_eq hworks]
  rfl

theorem node : Node (Child g s) o ∧ ∀ p, o = some p → (s.slot g p).isDirectory = true :=
  ⟨h.path.node hg hs hsound, (h.path.within hg hs hsound).2⟩

end

theorem newNode (hg : g.WellFormed) (hs : s.Works)
    (h : Creatable g s names name o n new s₁ run) (hattr : attr ≠ 0x08 ∧ attr ≠ 0x0F)
    (parent : Nat) : ∃ slots slots' q, q.slot = newEntry s.rtc name attr n ∧
      NewNode g s (createdVolume g s s₁ name n run attr parent) o n new slots slots' q :=
  h.room.newNode hg hs h.free h.isFileName hattr h.ended rfl

theorem supply (hg : g.WellFormed) (hs : s.Works) (h : Creatable g s names name o n new s₁ run)
    (hsup : Supply g s (n :: new ++ more)) : Supply g (createdVolume g s s₁ name n run attr parent) more := by
  have hn := h.free.read
  obtain ⟨hsup1, hsector⟩ := h.room.supply hg hs h.free hsup
  refine hsup1.congr ?_ fun x hx => ?_
  · exact finished_fields.1.trans (putSlots_fields s₁ _).1
  · rw [createdVolume, table_finished hg ?_ hx.isCluster.2, table_putSlots hg ?_ hx.isCluster.2]
    · intro y hy
      exact hsector y.1 (of_mem_zip hy).1
    · rw [newEntry_cluster_eq hg hn]
      exact hn.isCluster

theorem createdVolume_fields (h : Creatable g s names name o n new s₁ run) :
    (createdVolume g s s₁ name n run attr parent).rtc = s.rtc ∧
      (createdVolume g s s₁ name n run attr parent).bufferRead = s.bufferRead := by
  have hroom := h.room.fields
  have hput := (putSlots_fields (g := g) s₁ (run.zip (newSlots s.rtc name attr n))).2.2
  exact ⟨finished_fields.2.1.trans (hput.1.trans hroom.1), finished_fields.2.2.trans (hput.2.trans hroom.2)⟩

theorem createdVolume_start (g : Geometry) (s s₁ : Fat) (name : List UInt8) (n : Nat)
    (run : List DirSlot) (attr : UInt8) (parent : Nat) :
    (createdVolume g s s₁ name n run attr parent).startSearchCluster = s₁.startSearchCluster :=
  finished_fields.1.trans (putSlots_fields s₁ _).1

theorem searchedTo (hg : g.WellFormed) (hs : s.Works) (hsound : Sound g s)
    (h : Creatable g s names name o n new s₁ run) (hattr : attr ≠ 0x08 ∧ attr ≠ 0x0F)
    (hto : SearchedTo g s (n :: new ++ more) bound) :
    SearchedTo g (createdVolume g s s₁ name n run attr parent) more bound := by
  obtain ⟨ho, -⟩ := h.node hg hs hsound
  obtain ⟨slots, slots', q, -, hnew⟩ := h.newNode hg hs hattr parent
  intro d hd hlt
  rw [createdVolume_start] at hd
  obtain ⟨hread, hfree⟩ := hto d (le_trans (h.room.start_le h.free) hd) hlt
  refine ⟨hread, fun hzero => ?_⟩
  -- the clusters that were taken and those of the parent are not free
  have hnot : d ∉ n :: new := by
    intro hmem
    rcases mem_cons.1 hmem with rfl | hmem
    · rw [hnew.last] at hzero
      exact clusterEnd_ne_zero g hzero
    · have hchain := fun l hl => hnew.nodeChain hg hsound ho (l := l) hl
      cases hnew.grown with
      | fixed => cases hmem
      | @chain _ l _ hl => exact (hchain l hl).taken d (mem_append_right _ hmem) hzero
  have hpar : ∀ l, NodeChain g s o l → d ∉ l := fun l hl hmem =>
    (hnew.nodeChain hg hsound ho hl).taken d (mem_append_left _ hmem) hzero
  rw [hnew.table d hread.isCluster.2 hnot hpar] at hzero
  exact (mem_append.1 (hfree hzero)).resolve_left hnot

end Creatable

end HeisenKernel
