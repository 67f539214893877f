import HeisenKernel.Fat.Create
import HeisenKernel.Fat.Overwrite
import Mathlib.Data.List.Nodup

/-!
# WriteFile

`Overwritable` is the condition under which `WriteFile` overwrites a file as it should: there is a
free cluster for every cluster that the content needs, one more than the file takes besides its
first cluster.
-/

namespace HeisenKernel

open Lib List FatM

/-- The content of `len` bytes can be written to the file or directory with the entry. The clusters
`new` are the ones that the driver takes for it. -/
structure Overwritable (g : Geometry) (s : Fat) (e : Slot) (len : Nat) (new : List Nat) : Prop where
  supply : Supply g s new
  length : new.length = requiredClusters g len
  file : new ≠ [] → e.isDirectory = false ∧ g.Readable e.cluster

/-- The file at the place was given a new chain, if content was written to it. -/
inductive Rechained (g : Geometry) (s : Fat) (x : Place) : Fat → List Nat → Prop
  | empty : Rechained g s x s []
  | content {t : Fat} {new : List Nat} : (s.slot g x).isDirectory = false → new ≠ [] →
      Rewritten g s t (s.slot g x).cluster new → Rechained g s x t new

/-- The file at the place was overwritten. -/
def Overwritten (g : Geometry) (s s' : Fat) (x : Place) (new : List Nat) : Prop :=
  ∃ t e, Rechained g s x t new ∧ Modified g t s' x e

section
variable {g : Geometry} {s s' t : Fat} {o : Option Place} {a : Place}

namespace Rechained
variable (hg : g.WellFormed) (hsound : Sound g s) (hx : Node (Child g s) (some x)) (h : Rechained g s x t new)

include hg hsound hx h

theorem sound : Sound g t := by
  cases h with
  | empty => exact hsound
  | content hfile _ h => exact h.sound hg hsound hx rfl hfile

theorem node_iff : Node (Child g t) o ↔ Node (Child g s) o := by
  cases h with
  | empty => rfl
  | content hfile _ h => exact h.node_iff hg hsound hx rfl hfile

theorem slot_eq (ha : Node (Child g s) (some a)) : t.slot g a = s.slot g a := by
  cases h with
  | empty => rfl
  | content hfile _ h => exact h.slot_eq hg hsound hx rfl hfile ha

theorem nodeSlots (ho : Node (Child g s) o) (hdir : ∀ p, o = some p → (s.slot g p).isDirectory = true)
    (hslots : NodeSlots g s o slots) : NodeSlots g t o slots := by
  cases h with
  | empty => exact hslots
  | content hfile _ h =>
    refine (h.same hg hsound hx rfl hfile ho ?_).nodeSlots hg hslots
    rintro rfl
    rw [hdir x rfl] at hfile
    cases hfile

theorem disk (hlba : t.disk lba ≠ s.disk lba) : g.InTable lba ∨ InFile g t x lba := by
  cases h with
  | empty => exact absurd rfl hlba
  | content hfile _ h =>
    by_contra hout
    simp only [not_or] at hout
    refine hlba (h.disk lba hout.1 fun d hd hin => hout.2 ?_)
    exact ⟨_, h.nodeChain hg hsound hx rfl hfile, d, hd, hin⟩

theorem found (hs : s.Works) {names : List (List UInt8)} {childs : List FATEntryInfo}
    (hpath : Path g s names o) (hlist : Listed g s o childs) : Path g t names o ∧ Listed g t o childs := by
  cases h with
  | empty => exact ⟨hpath, hlist⟩
  | content hfile _ h =>
    exact hpath.congr_of_file hg hs h.works hsound hfile
      (fun o' ho' hne => h.same hg hsound hx rfl hfile ho' hne) hlist

end Rechained

namespace Overwritten
variable (hg : g.WellFormed) (hsound : Sound g s) (hx : Node (Child g s) (some x))
  (h : Overwritten g s s' x new)

include hg hsound hx h

theorem sound : Sound g s' := by
  obtain ⟨t, e, ht, hm⟩ := h
  exact hm.sound hg (ht.sound hg hsound hx) ((ht.node_iff hg hsound hx).2 hx)

theorem node_iff : Node (Child g s') o ↔ Node (Child g s) o := by
  obtain ⟨t, e, ht, hm⟩ := h
  rw [hm.node_iff hg (ht.sound hg hsound hx) ((ht.node_iff hg hsound hx).2 hx), ht.node_iff hg hsound hx]

theorem entry (ha : Node (Child g s) (some a)) : (s'.slot g a).cluster = (s.slot g a).cluster ∧
    (s'.slot g a).isDirectory = (s.slot g a).isDirectory := by
  obtain ⟨t, e, ht, hm⟩ := h
  have hnode := fun {o} => ht.node_iff hg hsound hx (o := o)
  have hentry := hm.entry hg (hnode.2 hx) (hnode.2 ha)
  rwa [ht.slot_eq hg hsound hx ha] at hentry

theorem inDirectory (hin : InDirectory g s lba) : InDirectory g s' lba := by
  have hdir' := fun {a} => h.entry hg hsound hx (a := a)
  have hnode' := fun {o} => h.node_iff hg hsound hx (o := o)
  obtain ⟨t, e, ht, hm⟩ := h
  obtain ⟨o, slots, ho, hdir, hslots, p, hp, rfl⟩ := hin
  have hnode := fun {o} => ht.node_iff hg hsound hx (o := o)
  have hslots' := hm.nodeSlots hg (hnode.2 hx) (hnode.2 ho) (ht.nodeSlots hg hsound hx ho hdir hslots)
  refine ⟨o, _, hnode'.2 ho, ?_, hslots', _, mem_map_of_mem hp, ?_⟩
  · rintro a rfl
    rw [(hdir' ho).2]
    exact hdir a rfl
  · exact congrArg g.lba (congrArg Place.sector (DirSlot.place_update ..).symm)

theorem nodeChain_content (hne : new ≠ []) : NodeChain g s' (some x) ((s.slot g x).cluster :: new) := by
  obtain ⟨t, e, ht, hm⟩ := h
  refine (hm.nodeChain_iff hg ((ht.node_iff hg hsound hx).2 hx) ((ht.node_iff hg hsound hx).2 hx)).2 ?_
  cases ht with
  | empty => exact absurd rfl hne
  | content hfile _ h => exact h.nodeChain hg hsound hx rfl hfile

theorem nodeChain (hl : NodeChain g s (some x) l) : NodeChain g s' (some x)
    (if new = [] then l else (s.slot g x).cluster :: new) := by
  split
  · next hnil =>
    obtain ⟨t, e, ht, hm⟩ := h
    cases ht with
    | empty => exact (hm.nodeChain_iff hg hx hx).2 hl
    | content _ hne _ => exact absurd hnil hne
  · next hne => exact h.nodeChain_content hg hsound hx hne

theorem frame : Frame g s s' x := by
  have hindir : ∀ {lba}, InDirectory g s lba → InDirectory g s' lba := h.inDirectory hg hsound hx
  obtain ⟨t, e, ht, hm⟩ := h
  have hx' := (ht.node_iff hg hsound hx).2 hx
  intro lba hlba
  by_cases hsector : lba = g.lba x.sector
  · -- the sector of the entry
    obtain ⟨o, ho, hdir, slots, p, hslots, hp, rfl⟩ := hx.parent
    exact .inr (.inl (hindir ⟨o, slots, ho, hdir, hslots, p, hp.mem, hsector⟩))
  · rw [hm.disk hsector] at hlba
    rcases ht.disk hg hsound hx hlba with hin | ⟨l, hl, hin⟩
    · exact .inl hin
    · exact .inr (.inr ⟨l, (hm.nodeChain_iff hg hx' hx').2 hl, hin⟩)

end Overwritten

theorem Frame.overwritten (hg : g.WellFormed) (hsound : Sound g s)
    (hx : Node (Child g s) (some x)) (hframe : Frame g s0 s x) (hl : NodeChain g s (some x) [n])
    (h : Overwritten g s s' x new) : Frame g s0 s' x := by
  intro lba hlba
  by_cases hfirst : s.disk lba = s0.disk lba
  · rw [← hfirst] at hlba
    exact h.frame hg hsound hx lba hlba
  · rcases hframe lba hfirst with hin | hin | ⟨l, hl', d, hd, hin⟩
    · exact .inl hin
    · exact .inr (.inl (h.inDirectory hg hsound hx hin))
    · -- the first cluster of the file
      rw [hl'.unique hg hl] at hd
      refine .inr (.inr ⟨_, h.nodeChain hg hsound hx hl, d, ?_, hin⟩)
      split
      · exact hd
      · obtain ⟨t, ht⟩ := Chain.head hl
        rw [← (cons.inj ht).1, mem_singleton.1 hd]
        exact mem_cons_self

end

variable {g : Geometry} {s t : Fat} {o : Option Place} {names : List (List UInt8)} {name path : List UInt8}
  {childs : List FATEntryInfo} {e : FATEntryInfo} {len : Nat} {new : List Nat} {buffer : Buffer}

theorem modifyEntry_eq (hs : s.Works) (h : s.slot g e.place = e.entry) (newVersion : Slot) :
    modifyEntry g e newVersion s = .ok (true, s.putAt g e.sector e.offsetInSector newVersion) := by
  have hslot : ∀ k, slotAt (s.disk (u32 (g.startLBA + e.sector))) e.offsetInSector k = e.entry k := congrFun h
  rw [modifyEntry, bind_eq (readSector_eq hs _)]
  dsimp only
  rw [if_pos hslot, writeSector_eq hs]
  rfl

theorem exists_clusters (c : Nat) (new : List Nat) :
    ∃ cs : Nat → Nat, cs 0 = c ∧ (range' 1 new.length).map cs = new := by
  refine ⟨fun j => (c :: new).getD j 0, rfl, ext_getElem (by simp) fun j hj hj' => ?_⟩
  simp [add_comm 1 j, hj']

theorem Supply.clusters (h : Supply g s new) (hread : g.Readable (cs 0))
    (htaken : g.table s (cs 0) ≠ 0) (hnew : (range' 1 new.length).map cs = new) :
    (∀ j ≤ new.length, g.Readable (cs j)) ∧ ∀ i ≤ new.length, ∀ j ≤ new.length, cs i = cs j → i = j := by
  constructor
  · intro j hj
    cases j with
    | zero => exact hread
    | succ j =>
      refine (h.fresh (hnew ▸ mem_map_of_mem ?_)).1
      rw [mem_range'_1]
      omega
  · have hnodup : ((range' 0 (new.length + 1)).map cs).Nodup := by
      rw [range'_succ, map_cons, hnew]
      exact nodup_cons.2 ⟨fun hmem => htaken (h.fresh hmem).2, h.nodup⟩
    exact fun i hi j hj => inj_on_of_nodup_map hnodup (by rw [mem_range'_1]; omega)
      (by rw [mem_range'_1]; omega)

theorem Sound.table_cluster_ne_zero (hsound : Sound g s) (hx : Node (Child g s) (some x))
    (hread : g.Readable (s.slot g x).cluster) : g.table s (s.slot g x).cluster ≠ 0 := by
  obtain ⟨l, hl⟩ := hsound.chain x hx (by have := hread.1; omega)
  obtain ⟨t, rfl⟩ := hl.head
  exact hl.taken _ mem_cons_self

theorem Overwritable.written (hg : g.WellFormed) (hs : s.Works) (hsound : Sound g s)
    (he : Node (Child g s) (some e.place)) (hslot : s.slot g e.place = e.entry)
    (h : Overwritable g s e.entry len new) (buffer : Buffer) : ∃ cs a t,
      cs 0 = e.entry.cluster ∧ (range' 1 new.length).map cs = new ∧
      forReturn (writeFileCluster g buffer len) (e.entry.cluster, 0)
        (range (requiredClusters g len)) s = .ok (.inl a, t) ∧
      Written g buffer len cs new.length s new.length t ∧ Rechained g s e.place t new := by
  obtain ⟨cs, hcs, hnew⟩ := exists_clusters e.entry.cluster new
  have hsupply := h.supply
  rw [← hnew] at hsupply
  rw [← h.length]
  by_cases hempty : new = []
  · subst hempty
    exact ⟨cs, _, s, hcs, rfl, rfl, .zero hs hsupply, .empty⟩
  · obtain ⟨hfile, hread⟩ := h.file hempty
    have htaken := hsound.table_cluster_ne_zero he (by rwa [hslot])
    rw [hslot, ← hcs] at htaken
    rw [← hcs] at hread ⊢
    obtain ⟨hreads, hinj⟩ := h.supply.clusters hread htaken hnew
    obtain ⟨t, hloop, ht, -⟩ := writeFileClusters_eq hg hreads hinj hs hsupply htaken buffer len
    have hre := ht.rewritten (length_pos_iff.2 hempty) hreads hsupply
    rw [hnew, hcs, ← hslot] at hre
    exact ⟨cs, _, t, rfl, hnew, hloop, ht, .content (by rw [hslot]; exact hfile) hempty hre⟩

theorem overwriteFile_eq
    (hentry : getEntryByPath g path s = .ok (some e, s))
    (hloop : forReturn (writeFileCluster g buffer len) (e.entry.cluster, 0)
      (range (requiredClusters g len)) s = .ok (.inl a, t))
    (ht : t.Works) (hslot : t.slot g e.place = e.entry) (hrtc : t.rtc = s.rtc) :
    overwriteFile g path buffer len s = .ok (0, t.putAt g e.sector e.offsetInSector
      (e.entry.modified len (fatTime s.rtc) (fatDate s.rtc))) := by
  rw [overwriteFile, bind_eq hentry]
  dsimp only
  rw [bind_eq hloop]
  dsimp only
  rw [bind_eq get_eq, bind_eq (modifyEntry_eq ht hslot _), hrtc]
  rfl

theorem modified_putAt (hslot : t.slot g e.place = e.entry) (time date : Nat) :
    Modified g t (t.putAt g e.sector e.offsetInSector (e.entry.modified len time date)) e.place
      (e.entry.modified len time date) where
  volume := rfl
  fileName := by rw [hslot, modified_fileName]
  attributes := by rw [hslot, modified_attributes]
  cluster := by rw [hslot, modified_cluster]

theorem Overwritable.overwriteFile_eq (hg : g.WellFormed) (hf : Found g s path names name o childs e)
    (h : Overwritable g s e.entry len new) (buffer : Buffer) : ∃ cs t s', overwriteFile g path buffer len s
      = .ok (0, s') ∧ s'.Works ∧ cs 0 = e.entry.cluster ∧ (range' 1 new.length).map cs = new ∧ Written
      g buffer len cs new.length s new.length t ∧ Rechained g s e.place t new ∧ Modified g t s' e.place
      (e.entry.modified len (fatTime s.rtc) (fatDate s.rtc)) := by
  obtain ⟨he, hslot⟩ := hf.node hg
  obtain ⟨cs, a, t, hcs, hnew, hloop, ht, hre⟩ := h.written hg hf.works hf.sound he hslot buffer
  have hslot' : t.slot g e.place = e.entry := (hre.slot_eq hg hf.sound he he).trans hslot
  exact ⟨cs, t, _, HeisenKernel.overwriteFile_eq (hf.getEntryByPath_eq hg) hloop ht.works hslot' ht.rtc,
    ht.works, hcs, hnew, ht, hre, modified_putAt hslot' _ _⟩

end HeisenKernel
