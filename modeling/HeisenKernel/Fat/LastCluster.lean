import HeisenKernel.Fat.WriteFile

/-!
# WriteFile and the last free cluster

`WriteFile` looks for one cluster more than the content needs.
-/

namespace HeisenKernel

open Lib List Geometry

/-- The entry of the cluster `c` was set to zero. -/
structure Cut (g : Geometry) (s t : Fat) (c : Nat) : Prop where
  works : t.Works
  zero : g.table t c = 0
  table : ∀ x ≤ g.totalClusters + 1, x ≠ c → g.table t x = g.table s x
  disk : ∀ lba, ¬g.InTable lba → t.disk lba = s.disk lba

/-- The content takes the clusters `new` and the first one of the file, and these are the last free
ones. -/
structure Filling (g : Geometry) (s : Fat) (e : Slot) (len : Nat) (new : List Nat) : Prop where
  supply : Supply g s new
  exhausted : Exhausted g s new
  length : new.length + 1 = requiredClusters g len
  file : e.isDirectory = false
  readable : g.Readable e.cluster

variable {g : Geometry} {s t : Fat} {x : Place} {c : Nat}

theorem Cut.not_chain (hg : g.WellFormed) (h : Cut g s t c) (hl : Chain g s d l) (hc : c ∈ l) :
    ¬Chain g t d l' := by
  have hfirst : ∀ {d l'}, Chain g t d l' → d ≠ c := by
    rintro d l' hl' rfl
    obtain ⟨t, rfl⟩ := hl'.head
    exact hl'.taken d mem_cons_self h.zero
  induction hl generalizing l' with
  | last => exact fun hl' => hfirst hl' (mem_singleton.1 hc).symm
  | @link d l hd hl ih =>
    intro hl'
    have hne := hfirst hl'
    have hnext := h.table d hd.2 hne
    cases hl' with
    | last _ hend =>
      have := lt_clusterEnd hg hl.isCluster.2
      omega
    | link _ hl' =>
      rw [hnext] at hl'
      exact ih ((mem_cons.1 hc).resolve_left fun heq => hne heq.symm) hl'

theorem Cut.walk (hg : g.WellFormed) (h : Cut g s t c) (hl : Chain g s d l) (hnodup : l.Nodup)
    (hlast : l.getLast? = some c) (hread : ∀ x ∈ l, g.Readable x) : Walk g t d l := by
  have hin : ∀ {x}, g.IsCluster x → x ≠ 0 ∧ x < g.clusterEnd := fun hx =>
    ⟨by have := hx.1; omega, lt_clusterEnd hg hx.2⟩
  induction hl with
  | @last d hd _ =>
    have hentry := readTable_eq h.works (hread d mem_cons_self)
    obtain rfl : d = c := Option.some.inj hlast
    rw [h.zero] at hentry
    exact .step (hin hd) hentry (.stop fun hne => hne.1 rfl)
  | @link d l hd hl ih =>
    obtain ⟨l', rfl⟩ := hl.head
    rw [getLast?_cons_cons] at hlast
    obtain ⟨hnot, hnodup⟩ := nodup_cons.1 hnodup
    have hne : c ≠ d := ne_of_mem_of_not_mem (mem_of_getLast? hlast) hnot
    have hentry := readTable_eq h.works (hread d mem_cons_self)
    rw [h.table d hd.2 hne.symm] at hentry
    exact .step (hin hd) hentry (ih hnodup hlast (forall_mem_cons.1 hread).2)

namespace Cut
variable (hg : g.WellFormed) (hsound : Sound g s) (hx : Node (Child g s) (some x))
  (hl : NodeChain g s (some x) l) (hc : c ∈ l) (h : Cut g s t c)

include hg h

theorem slot_eq (ha : Node (Child g s) (some a)) : t.slot g a = s.slot g a := by
  obtain ⟨o, -, -, slots, p, hslots, hp, rfl⟩ := ha.parent
  show slotAt (t.disk (g.lba p.sector)) p.offset = slotAt (s.disk (g.lba p.sector)) p.offset
  rw [h.disk _ (hslots.not_inTable hg hp.mem)]

include hsound hx hl hc

theorem same (ho : Node (Child g s) o) (hne : o ≠ some x) : Same g s t o where
  entry := by
    rintro p rfl
    rw [h.slot_eq hg ho]
    exact ⟨rfl, rfl⟩
  table := by
    intro l1 hl1 d hd
    refine h.table d (hl1.mem_isCluster d hd).2 ?_
    rintro rfl
    exact hsound.disjoint o (some x) l1 l ho hx hne hl1 hl hd hc
  disk := fun _ hslots _ hp => h.disk _ (hslots.not_inTable hg hp)

end Cut

theorem Cut.putAt (hg : g.WellFormed) (hx : g.tableEnd ≤ x.sector ∧ x.sector < g.endSector)
    (hc : c ≤ g.totalClusters + 1) (h : Cut g s t c) (e : Slot) :
    Cut g (s.putAt g x.sector x.offset e) (t.putAt g x.sector x.offset e) c where
  works := h.works
  zero := by
    rw [table_putAt hg hx.1 hx.2 hc]
    exact h.zero
  table := by
    intro y hy hne
    rw [table_putAt hg hx.1 hx.2 hy, table_putAt hg hx.1 hx.2 hy]
    exact h.table y hy hne
  disk := by
    intro lba hlba
    by_cases hsector : lba = g.lba x.sector
    · subst hsector
      rw [Fat.putAt, Fat.putAt, Fat.write_disk_self, Fat.write_disk_self, h.disk _ hlba]
    · rw [putAt_disk_ne hsector, putAt_disk_ne hsector]
      exact h.disk lba hlba

variable {o : Option Place} {names : List (List UInt8)} {name path : List UInt8} {childs : List FATEntryInfo}
  {e : FATEntryInfo} {len : Nat} {new : List Nat} {buffer : Buffer} {cs : Nat → Nat} {r : Nat}

theorem Written.taken_below (hread : ∀ j ≤ r, g.Readable (cs j))
    (hto : SearchedTo g s ((range' 1 r).map cs) bound) (h : Written g buffer len cs r s r t) :
    ∀ d, t.startSearchCluster ≤ d → d < bound → g.Readable d ∧ g.table t d ≠ 0 := by
  intro d hd hlt
  obtain ⟨hreadable, hfree⟩ := hto d (le_trans h.start hd) hlt
  refine ⟨hreadable, fun hzero => ?_⟩
  -- the clusters of the new chain are taken
  have htaken : 0 < r → ∀ j ≤ r, d ≠ cs j := by
    rintro hr j hj rfl
    rcases eq_or_lt_of_le hj with rfl | hj
    · rw [h.last hr] at hzero
      exact clusterEnd_ne_zero g hzero
    · rw [h.link j hj] at hzero
      have := (hread (j + 1) hj).1
      omega
  rw [h.table d hreadable.isCluster.2 htaken] at hzero
  obtain ⟨j, hj, rfl⟩ := mem_map.1 (hfree hzero)
  rw [mem_range'_1] at hj
  exact htaken (by omega) j (by omega) rfl

/-- What the passes of the loop leave in the clusters of the file, and what they have read of the
buffer of the caller. -/
structure ContentStored (g : Geometry) (buffer : Buffer) (len : Nat) (cs : Nat → Nat) (r b : Nat)
    (t : Fat) : Prop where
  data : ∀ j < r, ∀ k < g.sectorsPerCluster, t.disk (g.lba (g.clusterToSector (cs j) + k)) =
    fileData g buffer len (j * g.sectorsPerCluster + k)
  read : t.bufferRead = callerRead g len b (r * g.sectorsPerCluster)

theorem Written.cut (hg : g.WellFormed) (hread : ∀ j ≤ r, g.Readable (cs j))
    (hinj : ∀ i ≤ r, ∀ j ≤ r, cs i = cs j → i = j)
    (hsupply : Supply g s ((range' 1 r).map cs)) (h : Written g buffer len cs r s r t) :
    ∃ u, Rewritten g s u (cs 0) ((range' 1 r).map cs) ∧
      Cut g u (g.setTable (cs r) 0 (putCluster g buffer len s.bufferRead r (cs r) t)) (cs r) ∧
      ContentStored g buffer len cs (r + 1) s.bufferRead
        (g.setTable (cs r) 0 (putCluster g buffer len s.bufferRead r (cs r) t)) := by
  have hrr := hread r (le_refl r)
  have htable : ∀ x ≤ g.totalClusters + 1, x ≠ cs r → ∀ v,
      g.table (g.setTable (cs r) v (putCluster g buffer len s.bufferRead r (cs r) t)) x = g.table t x := by
    intro x hx hne v
    rw [table_setTable_ne hg.tabled hrr hx hne, table_putCluster hg hrr.isCluster hx]
  have hdisk : ∀ lba v, ¬g.InTable lba →
      (g.setTable (cs r) v (putCluster g buffer len s.bufferRead r (cs r) t)).disk lba =
        (putCluster g buffer len s.bufferRead r (cs r) t).disk lba :=
    fun lba v hlba => setTable_disk_of_not_inTable hg hrr hlba
  refine ⟨g.setTable (cs r) g.clusterEnd (putCluster g buffer len s.bufferRead r (cs r) t), ?_, ?_, ?_, ?_⟩
  · constructor
    · exact putCluster_works (b := s.bufferRead) h.works
    · have hchain := chain_of_links (fun j hj => (hread j hj).isCluster)
        (fun j hj => by
          have hne : cs j ≠ cs r := fun heq => by
            have := hinj j (le_of_lt hj) r (le_refl r) heq
            omega
          rw [htable _ (hread j (le_of_lt hj)).isCluster.2 hne]
          exact h.link j hj)
        (by rw [table_setTable hg.tabled hrr, clusterEnd_mod]) (zero_add r)
      rwa [range'_succ, map_cons] at hchain
    · exact fun d hd => hsupply.fresh hd
    · intro x hx hnot
      have hne : ∀ j ≤ r, x ≠ cs j := by
        rintro j hj rfl
        exact hnot (mem_clusters cs hj)
      rw [htable x hx (hne r (le_refl r))]
      exact h.table x hx fun _ => hne
    · intro lba hlba hout
      rw [hdisk lba _ hlba, putCluster_disk_ne (hout _ (mem_clusters cs (le_refl r)))]
      exact h.disk lba hlba fun j hj => hout _ (mem_clusters cs (le_of_lt hj))
  · constructor
    · exact putCluster_works (b := s.bufferRead) h.works
    · rw [table_setTable hg.tabled hrr, Nat.zero_mod]
    · intro x hx hne
      rw [htable x hx hne, htable x hx hne]
    · intro lba hlba
      rw [hdisk lba _ hlba, hdisk lba _ hlba]
  · intro j hj k hk
    have hrj := (hread j (Nat.le_of_lt_succ hj)).isCluster
    rw [hdisk _ _ (cluster_not_inTable hg hrj hk)]
    rcases eq_or_lt_of_le (Nat.le_of_lt_succ hj) with rfl | hlt
    · exact putCluster_disk hg hrr.isCluster hk
    · have hne : cs j ≠ cs r := fun heq => by
        have := hinj j (le_of_lt hlt) r (le_refl r) heq
        omega
      rw [putCluster_disk_ne (not_inCluster_of_ne hg hrj hrr.isCluster hne hk)]
      exact h.data j hlt k hk
  · rfl

theorem Filling.written (hg : g.WellFormed) (hs : s.Works) (hsound : Sound g s)
    (he : Node (Child g s) (some e.place)) (hslot : s.slot g e.place = e.entry)
    (h : Filling g s e.entry len new) (buffer : Buffer) : ∃ cs a t u,
      cs 0 = e.entry.cluster ∧ (range' 1 new.length).map cs = new ∧
      forReturn (writeFileCluster g buffer len) (e.entry.cluster, 0)
        (range (requiredClusters g len)) s = .ok (.inl a, t) ∧ t.rtc = s.rtc ∧
      Rewritten g s u e.entry.cluster new ∧ Cut g u t (cs new.length) ∧
      ContentStored g buffer len cs (new.length + 1) s.bufferRead t := by
  obtain ⟨cs, hcs, hnew⟩ := exists_clusters e.entry.cluster new
  have hsupply := h.supply
  have hex := h.exhausted
  rw [← hnew] at hsupply hex
  have htaken := hsound.table_cluster_ne_zero he (by rw [hslot]; exact h.readable)
  rw [hslot, ← hcs] at htaken
  obtain ⟨hreads, hinj⟩ := h.supply.clusters (by rw [hcs]; exact h.readable) htaken hnew
  obtain ⟨t, hloop, ht, -⟩ := writeFileClusters_eq hg hreads hinj hs hsupply htaken buffer len
  obtain ⟨u, hre, hcut, hstored⟩ := ht.cut hg hreads hinj hsupply
  have hlast := @writeFileCluster_full g t buffer len s.bufferRead new.length _ hg ht.works
    (hreads _ (le_refl _)) (ht.taken_below hreads hex) ht.read
  have hexec : forReturn (writeFileCluster g buffer len) (e.entry.cluster, 0)
      (range (requiredClusters g len)) s =
      .ok (.inl (0, u32 ((new.length + 1) * g.sectorsPerCluster * g.bytesPerSector)),
        g.setTable (cs new.length) 0
          (putCluster g buffer len s.bufferRead new.length (cs new.length) t)) := by
    rw [← h.length, range_succ, forReturn_append, ← hcs, FatM.bind_eq hloop]
    show forReturn (writeFileCluster g buffer len) _ [new.length] t = _
    rw [forReturn_cons, FatM.bind_eq hlast]
    rfl
  rw [hnew, hcs] at hre
  exact ⟨cs, _, _, u, hcs, hnew, hexec, (writeSectors_fields.2.2.1).trans ht.rtc, hre, hcut, hstored⟩

theorem Filling.overwriteFile_eq (hg : g.WellFormed) (hf : Found g s path names name o childs e)
    (h : Filling g s e.entry len new) (buffer : Buffer) : ∃ cs u u' t s',
      overwriteFile g path buffer len s = .ok (0, s') ∧ cs 0 = e.entry.cluster ∧
      (range' 1 new.length).map cs = new ∧
      Rewritten g s u e.entry.cluster new ∧
      Modified g u u' e.place (e.entry.modified len (fatTime s.rtc) (fatDate s.rtc)) ∧
      ContentStored g buffer len cs (new.length + 1) s.bufferRead t ∧
      s' = t.putAt g e.sector e.offsetInSector
        (e.entry.modified len (fatTime s.rtc) (fatDate s.rtc)) ∧ Cut g u' s' (cs new.length) := by
  have hsound := hf.sound
  obtain ⟨he, hslot⟩ := hf.node hg
  obtain ⟨cs, a, t, u, hcs, hnew, hloop, hrtc, hre, hcut, hstored⟩ :=
    h.written hg hf.works hsound he hslot buffer
  have hcluster : (s.slot g e.place).cluster = e.entry.cluster := by rw [hslot]
  have hfile : (s.slot g e.place).isDirectory = false := by rw [hslot]; exact h.file
  have hu := (hre.node_iff hg hsound he hcluster hfile).2 he
  have hslotu : u.slot g e.place = e.entry := (hre.slot_eq hg hsound he hcluster hfile he).trans hslot
  have hslott : t.slot g e.place = e.entry := (hcut.slot_eq hg hu).trans hslotu
  have hplace := node_place hg hu
  have hlast : cs new.length ≤ g.totalClusters + 1 := by
    have hmem := mem_clusters cs (le_refl new.length)
    rw [hnew, hcs] at hmem
    exact (hre.chain.mem_isCluster _ hmem).2
  exact ⟨cs, u, _, t, _, HeisenKernel.overwriteFile_eq (hf.getEntryByPath_eq hg) hloop hcut.works hslott
    hrtc, hcs, hnew, hre, modified_putAt hslotu _ _, hstored, rfl,
    hcut.putAt hg ⟨hplace.1, hplace.2.1⟩ hlast _⟩

variable {u u' s' : Fat}

section
variable (hg : g.WellFormed) (hs : s.Works) (hsound : Sound g s) (hpath : Path g s names o)
  (hlist : Listed g s o childs) (he : e ∈ childs) (hfile : e.entry.isDirectory = false)
  (hre : Rewritten g s u e.entry.cluster new)
include hg hs hsound hpath hlist he hfile hre

theorem Cut.found {c : Nat} {version : Slot}
    (hmod : Modified g u u' e.place version) (hcut : Cut g u' s' c)
    (hc : c ∈ e.entry.cluster :: new) : Path g s' names o ∧
      Listed g s' o (childs.map (.put e.place version)) ∧ s'.slot g e.place = version ∧
      Chain g u' e.entry.cluster (e.entry.cluster :: new) ∧
      ∀ name, CString.Components pathSeparator (names ++ [name]) →
        getEntryByPath g (CString.joinPath pathSeparator (names ++ [name])) s' = .ok
          ((childs.map (.put e.place version)).find? (fun item => item.filename = name), s') := by
  obtain ⟨hx, hslot⟩ := hpath.node_of_mem hg hs hsound hlist he
  have hcluster : (s.slot g e.place).cluster = e.entry.cluster := by rw [hslot]
  have hfile : (s.slot g e.place).isDirectory = false := by rw [hslot]; exact hfile
  -- the volume with the content
  have hx1 := (hre.node_iff hg hsound hx hcluster hfile).2 hx
  have hsound1 := hre.sound hg hsound hx hcluster hfile
  have hslot1 := hre.slot_eq hg hsound hx hcluster hfile hx
  obtain ⟨hpath1, hlist1⟩ := hpath.congr_of_file hg hs hre.works hsound hfile
    (fun o' ho' hne => hre.same hg hsound hx hcluster hfile ho' hne) hlist
  -- the volume with the new entry
  have hx2 := (hmod.node_iff hg hsound1 hx1).2 hx1
  have hsound2 := hmod.sound hg hsound1 hx1
  obtain ⟨hpath2, hlist2⟩ := hmod.found hg hre.works hsound1 hpath1 hlist1 he
  have hentry := hmod.entry hg hx1 hx1
  have hfile2 : (u'.slot g e.place).isDirectory = false := by rw [hentry.2, hslot1, hfile]
  have hchain2 := (hmod.nodeChain_iff hg hx1 hx1).2 (hre.nodeChain hg hsound hx hcluster hfile)
  have hsame := fun o' ho' hne => hcut.same (o := o') hg hsound2 hx2 hchain2 hc ho' hne
  obtain ⟨hpath3, hlist3⟩ := hpath2.congr_of_file hg (hmod.works hre.works) hcut.works hsound2 hfile2
    hsame hlist2
  refine ⟨hpath3, hlist3, ?_, ?_, fun name hcomps => ?_⟩
  · rw [hcut.slot_eq hg hx2, hmod.slot_self hg hx1]
  · have hchain : Chain g u' (u'.slot g e.place).cluster (e.entry.cluster :: new) := hchain2
    rwa [hentry.1, hslot1, hcluster] at hchain
  · exact hpath2.getEntryByPath_congr hg (hmod.works hre.works) hcut.works hsound2 hlist2
      (fun o' ho' hdir => hsame o' ho' (ne_of_isFile hfile2 hdir)) hcomps

theorem Cut.not_sound (hmod : Modified g u u' e.place version) (hcut : Cut g u' s' c)
    (hc : c ∈ e.entry.cluster :: new) (hversion : version.cluster = e.entry.cluster) : ¬Sound g s' := by
  intro hsound'
  obtain ⟨hpath', hlist', hslot, hchain, -⟩ := hcut.found hg hs hsound hpath hlist he hfile hre hmod hc
  have hx := (hpath'.node_of_mem hg hcut.works hsound' hlist' (mem_map_of_mem he)).1
  rw [FATEntryInfo.put, if_pos rfl] at hx
  have hcluster : (s'.slot g e.place).cluster = e.entry.cluster := by rw [hslot, hversion]
  obtain ⟨l, hl⟩ := hsound'.chain e.place hx (by
    have := hre.chain.isCluster.1
    omega)
  rw [hcluster] at hl
  exact hcut.not_chain hg hchain hc hl

end

end HeisenKernel
