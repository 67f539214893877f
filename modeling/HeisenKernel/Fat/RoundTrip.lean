import HeisenKernel.Fat.Account
import HeisenKernel.Fat.ReadFile

/-!
# What is written is read back

`RoundTrip` says that a new file is written and read back as it should be: `ReadFile` gives the
content that `WriteFile` was given, and neither goes over the end of the buffer of its caller.
-/

namespace HeisenKernel

open Lib List Geometry FatM

/-- The content of the file is that of the buffer, and the calls keep to the length of the buffers. -/
structure ReadsBack (g : Geometry) (s : Fat) (path : List UInt8) (buffer : Buffer) (len : Nat) :
    Prop where
  /-- `WriteFile` has read no byte of the buffer at the length or behind it. -/
  bufferRead : s.bufferRead ≤ len
  getFileSize : getFileSize g path s = .ok (len, s)
  readFile : ∀ out, ∃ out', readFile g path out len s = .ok ((0, out'), s) ∧
    (∀ i < len, out' i = buffer i) ∧ ∀ i, len ≤ i → out' i = out i

/-- A new file is written and then read back. -/
def RoundTrip (g : Geometry) (s : Fat) (path : List UInt8) (buffer : Buffer) (len : Nat) : Prop :=
  ∃ s', writeFile g path buffer len true s = .ok (0, s') ∧ ReadsBack g s' path buffer len

/-- No sector of the clusters of a content begins behind its end. -/
def EndsInLastSector (g : Geometry) (len : Nat) : Prop :=
  (requiredClusters g len * g.sectorsPerCluster - 1) * g.bytesPerSector ≤ len

/-- What `WriteFile` leaves of a content: the chain of the file has the clusters `l`, and the content
is in the sectors of the first ones. The end of what was read of the buffer of the caller was `b`
before. -/
structure HasContent (g : Geometry) (s : Fat) (path : List UInt8) (buffer : Buffer) (len b : Nat)
    (l : List Nat) : Prop where
  works : s.Works
  entry : ∃ e, getEntryByPath g path s = .ok (some e, s) ∧ e.entry.isDirectory = false ∧
    e.entry.fileSize = len ∧ Walk g s e.entry.cluster l
  length : l.length < walkFuel
  data : ∀ j < requiredClusters g len * g.sectorsPerCluster, sectorData g s l j = fileData g buffer len j
  read : s.bufferRead = callerRead g len b (requiredClusters g len * g.sectorsPerCluster)

theorem requiredClusters_bounds (hg : g.WellFormed) (hlen : 0 < len) : 0 < requiredClusters g len ∧
    len ≤ requiredClusters g len * g.sectorsPerCluster * g.bytesPerSector ∧
    (requiredClusters g len - 1) * (g.sectorsPerCluster * g.bytesPerSector) < len := by
  have hsize := clusterSize_eq hg
  rw [mul_comm] at hsize
  have hpos : 0 < g.clusterSize := by
    rw [hsize]
    exact mul_pos hg.sectorsPerCluster.1 (by have := hg.bytes_bounds; omega)
  have hdiv := Nat.div_add_mod len g.clusterSize
  have hmod := Nat.mod_lt len hpos
  rw [mul_assoc, ← hsize]
  rw [mul_comm] at hdiv
  unfold requiredClusters
  split
  · next hne =>
    rw [Nat.add_sub_cancel, Nat.succ_mul]
    exact ⟨Nat.succ_pos _, by omega, by omega⟩
  · next heq =>
    have hq : 0 < len / g.clusterSize := by
      refine pos_of_ne_zero fun hzero => ?_
      rw [hzero] at hdiv
      omega
    rw [Nat.sub_mul]
    omega

theorem requiredClusters_le (hg : g.WellFormed) (hpow : g.sectorsPerCluster ∣ 128) (hlen : 0 < len)
    (hlt : len < 2 ^ 32) :
    requiredClusters g len * g.sectorsPerCluster * g.bytesPerSector ≤ 2 ^ 32 ∧
      (requiredClusters g len * g.sectorsPerCluster * g.bytesPerSector < 2 ^ 32 →
        (requiredClusters g len + 1) * g.sectorsPerCluster * g.bytesPerSector ≤ 2 ^ 32) := by
  have hbytes : g.bytesPerSector ∣ 4096 := by
    have hb := hg.bytesPerSector
    simp only [mem_cons, not_mem_nil, or_false] at hb
    rcases hb with hb | hb | hb | hb <;> rw [hb] <;> decide
  have hdvd : g.sectorsPerCluster * g.bytesPerSector ∣ 2 ^ 32 :=
    (mul_dvd_mul hpow hbytes).trans (by decide)
  -- a multiple of the size of a cluster below the end of the words has room for one more
  have hnext : ∀ k, k * (g.sectorsPerCluster * g.bytesPerSector) < 2 ^ 32 →
      (k + 1) * (g.sectorsPerCluster * g.bytesPerSector) ≤ 2 ^ 32 := by
    intro k hk
    obtain ⟨q, hq⟩ := hdvd
    rw [hq, mul_comm k] at hk
    rw [hq, mul_comm (k + 1)]
    exact Nat.mul_le_mul_left _ (Nat.lt_of_mul_lt_mul_left hk)
  obtain ⟨hpos, -, hbelow⟩ := requiredClusters_bounds hg hlen
  rw [mul_assoc, mul_assoc]
  refine ⟨?_, hnext _⟩
  have hle := hnext (requiredClusters g len - 1) (by omega)
  rwa [Nat.sub_add_cancel hpos] at hle

theorem fileData_eq (hlen : len < 2 ^ 32) (hlt : j * g.bytesPerSector + k < len) :
    fileData g buffer len j k = buffer (j * g.bytesPerSector + k) := by
  rw [fileData, u32_eq (by omega), sub32_eq hlen (by omega)]
  split
  · exact if_pos (by omega)
  · rfl

theorem sectorData_eq (hg : g.WellFormed)
    (hl : l = (List.range' 0 n).map cs) (hr : r ≤ n)
    (hdata : ∀ j < r, ∀ k < g.sectorsPerCluster, s.disk (g.lba (g.clusterToSector (cs j) + k)) =
      fileData g buffer len (j * g.sectorsPerCluster + k)) :
    ∀ j < r * g.sectorsPerCluster, sectorData g s l j = fileData g buffer len j := by
  intro j hj
  have hlt := Nat.div_lt_of_lt_mul (mul_comm r _ ▸ hj)
  have hget : l.getD (j / g.sectorsPerCluster) 0 = cs (j / g.sectorsPerCluster) := by
    rw [hl, getD_eq_getElem?_getD, getElem?_map, getElem?_range' (by omega)]
    simp
  rw [sectorData, hget, hdata _ hlt _ (Nat.mod_lt j hg.sectorsPerCluster.1), Nat.div_add_mod']

namespace HasContent

theorem readFile_eq (hg : g.WellFormed) (h : HasContent g s path buffer len b l) (out : Buffer) :
    HeisenKernel.readFile g path out len s =
      .ok ((0, readInto g len (sectorData g s l) out (l.length * g.sectorsPerCluster)), s) := by
  obtain ⟨e, hentry, hfile, hsize, hwalk⟩ := h.entry
  exact HeisenKernel.readFile_eq hg h.works hentry hfile hsize hwalk h.length out

theorem readsBack (hg : g.WellFormed) (h : HasContent g s path buffer len b l) (hlen : 0 < len)
    (hlt : len < 2 ^ 32) (hb : b ≤ len) (hl : requiredClusters g len ≤ l.length)
    (hend : (l.length * g.sectorsPerCluster - 1) * g.bytesPerSector ≤ len) :
    ReadsBack g s path buffer len := by
  have hstart : ∀ j < l.length * g.sectorsPerCluster, j * g.bytesPerSector ≤ len := fun j hj =>
    le_trans (Nat.mul_le_mul_right _ (by omega)) hend
  have hsectors := Nat.mul_le_mul_right g.sectorsPerCluster hl
  obtain ⟨-, hfits, -⟩ := requiredClusters_bounds hg hlen
  have hbytes := Nat.mul_le_mul_right g.bytesPerSector hsectors
  refine ⟨?_, ?_, fun out => ⟨_, h.readFile_eq hg out, ?_⟩⟩
  · rw [h.read]
    exact callerRead_le hlt hb fun j hj => hstart j (by omega)
  · obtain ⟨e, hentry, hfile, hsize, -⟩ := h.entry
    rw [getFileSize_eq hentry hfile, hsize]
  · have hdata : ∀ j < l.length * g.sectorsPerCluster, ∀ k < g.bytesPerSector,
        j * g.bytesPerSector + k < len → sectorData g s l j k = buffer (j * g.bytesPerSector + k) := by
      intro j _ k _ hjk
      have hj : j < requiredClusters g len * g.sectorsPerCluster :=
        Nat.lt_of_mul_lt_mul_right (a := g.bytesPerSector) (by omega)
      rw [h.data j hj, fileData_eq hlt hjk]
    have hread := readInto_eq hlt hstart hdata out
    refine ⟨fun i hi => ?_, fun i hi => ?_⟩
    · rw [hread i, if_pos (by omega)]
    · rw [hread i, if_neg (by omega)]

section
variable (hg : g.WellFormed) (hpow : g.sectorsPerCluster ∣ 128) (h : HasContent g s path buffer len b l)
  (hlen : 0 < len) (hlt : len < 2 ^ 32)
include hg hpow h hlen hlt

theorem endsInLastSector (hback : ReadsBack g s path buffer len) : EndsInLastSector g len := by
  refine Nat.le_of_not_lt fun hbehind => ?_
  have hwords := (requiredClusters_le hg hpow hlen hlt).1
  have hpos : 0 < requiredClusters g len * g.sectorsPerCluster :=
    mul_pos (requiredClusters_bounds hg hlen).1 hg.sectorsPerCluster.1
  have hbytes := hg.bytes_bounds
  have hread := lt_callerRead (b := b) hg hlt hbehind (by
    rw [Nat.sub_mul]
    omega)
  rw [Nat.sub_add_cancel hpos, ← h.read] at hread
  exact not_le.2 hread hback.bufferRead

theorem fills_of_longer
    (hl : l.length = requiredClusters g len + 1) (hback : ReadsBack g s path buffer len) :
    (g.sectorsPerCluster = 1 ∧ len = requiredClusters g len * g.bytesPerSector) ∨
      buffer 0 = sectorData g s l (requiredClusters g len * g.sectorsPerCluster) 0 := by
  obtain ⟨hwords, hmore⟩ := requiredClusters_le hg hpow hlen hlt
  obtain ⟨hpos, hfits, -⟩ := requiredClusters_bounds hg hlen
  have hspc := hg.sectorsPerCluster.1
  have hbytes := hg.bytes_bounds
  have hread := h.readFile_eq hg
  rw [hl] at hread
  generalize requiredClusters g len = r at *
  rw [Nat.succ_mul] at hread
  rcases eq_or_lt_of_le hwords with hend | hend
  · -- the sectors of the last cluster are copied to the front
    refine .inr ?_
    obtain ⟨out', hout, hcontent, -⟩ := hback.readFile (fun _ => 0)
    rw [hread] at hout
    cases hout
    rw [← hcontent 0 hlen]
    have hfirst : ∀ j, r * g.sectorsPerCluster + 1 ≤ j → j < r * g.sectorsPerCluster + 1 +
        (g.sectorsPerCluster - 1) → 0 < u32 (j * g.bytesPerSector) := by
      intro j hj hlast
      have hlow := Nat.mul_le_mul_right g.bytesPerSector hj
      have hhigh := Nat.mul_le_mul_right g.bytesPerSector (Nat.le_of_lt_succ
        (show j < r * g.sectorsPerCluster + g.sectorsPerCluster - 1 + 1 by omega))
      have hcluster := mul_le_mul hg.sectorsPerCluster.2 hbytes.2.1
      rw [Nat.succ_mul] at hlow
      rw [Nat.sub_mul, add_mul] at hhigh
      unfold u32
      omega
    rw [show r * g.sectorsPerCluster + g.sectorsPerCluster =
        r * g.sectorsPerCluster + 1 + (g.sectorsPerCluster - 1) by omega, readInto_add _ hfirst,
      readInto, copyInto, hend, show u32 (2 ^ 32) = 0 from rfl]
    have hsector : 0 < sectorLength g len (r * g.sectorsPerCluster) :=
      sectorLength_pos hg (by rw [hend]; exact ne_of_lt hlen) hlt
    rw [if_pos (by omega), Nat.sub_zero]
  · refine .inl ?_
    have hnext := hmore hend
    rw [add_mul, one_mul] at hnext
    -- the last sector does not begin behind the end of the buffer
    have hlast : (r * g.sectorsPerCluster + g.sectorsPerCluster - 1) * g.bytesPerSector ≤ len := by
      refine Nat.le_of_not_lt fun hbehind => ?_
      have hcopied := readInto_behind hg hlt hbehind (by rw [Nat.sub_mul]; omega) (sectorData g s l)
      rw [Nat.sub_add_cancel (by omega)] at hcopied
      generalize sectorData g s l (r * g.sectorsPerCluster + g.sectorsPerCluster - 1) 0 = x at hcopied
      obtain ⟨out', hout, -, hkeep⟩ := hback.readFile (fun _ => x + 1)
      rw [hread] at hout
      cases hout
      have hsame := hkeep _ (le_of_lt hbehind)
      rw [hcopied] at hsame
      exact absurd hsame (by simp)
    have hone : g.sectorsPerCluster = 1 := by
      by_contra hne
      have hmul := Nat.mul_le_mul_right g.bytesPerSector
        (show r * g.sectorsPerCluster + 1 ≤ r * g.sectorsPerCluster + g.sectorsPerCluster - 1 by omega)
      rw [Nat.succ_mul] at hmul
      omega
    rw [hone] at hlast hfits
    simp only [mul_one, Nat.add_sub_cancel] at hlast hfits
    exact ⟨hone, le_antisymm hfits hlast⟩

end

end HasContent

variable {g : Geometry} {s s₁ : Fat} {o : Option Place} {names : List (List UInt8)} {name path : List UInt8}
  {childs : List FATEntryInfo} {e : FATEntryInfo} {n len : Nat} {new more : List Nat} {run : List DirSlot}
  {buffer : Buffer}

theorem Sound.data_ne_entry (hg : g.WellFormed) (hsound : Sound g s) (hx : Node (Child g s) (some x))
    (hfile : (s.slot g x).isDirectory = false) (hl : NodeChain g s (some x) l) (hd : d ∈ l)
    (hi : i < g.sectorsPerCluster) : g.lba (g.clusterToSector d + i) ≠ g.lba x.sector := by
  obtain ⟨o, ho, hdir, slots, p, hslots, hp, rfl⟩ := hx.parent
  obtain ⟨q, hq, -, hsector⟩ := exists_chainSlots hg hd (hl.mem_isCluster d hd) hi
  have hne := hslots.ne_sector hg hsound ho hx (ne_of_isFile hfile hdir) (.chain hl) hp.mem hq
  rw [← hsector]
  intro heq
  rw [DirSlot.place, lba_inj hg.tabled (((NodeSlots.chain hl).slotsAt hg).sector q hq).2
    ((hslots.slotsAt hg).sector p hp.mem).2] at heq
  exact hne heq.symm

theorem Overwritable.stored (hg : g.WellFormed) (hfound : Found g s path names name o childs e)
    (h : Overwritable g s e.entry len new) (hnew : new ≠ []) (hlt : len < 2 ^ 32)
    (buffer : Buffer) : ∃ s', overwriteFile g path buffer len s = .ok (0, s') ∧
      HasContent g s' path buffer len s.bufferRead (e.entry.cluster :: new) ∧
      sectorData g s' (e.entry.cluster :: new) (requiredClusters g len * g.sectorsPerCluster) =
        s.disk (g.lba (g.clusterToSector (new.getLast hnew))) := by
  obtain rfl := hfound.path_eq
  obtain ⟨cs, t, s', hexec, hworks, hcs, hmap, ht, hre, hmod⟩ := h.overwriteFile_eq hg hfound buffer
  obtain ⟨hfile, hread⟩ := h.file hnew
  obtain ⟨hx, hslot⟩ := hfound.node hg
  obtain ⟨hpath, hlist⟩ := hre.found hg hfound.sound hx hfound.works hfound.path hfound.listed
  have hsound := hre.sound hg hfound.sound hx
  have hx' := (hre.node_iff hg hfound.sound hx).2 hx
  have hslot' := hre.slot_eq hg hfound.sound hx hx
  obtain ⟨hpath', hlist'⟩ := hmod.found hg ht.works hsound hpath hlist hfound.mem
  have hentry := hpath'.getEntryByPath_eq hg hworks (hmod.sound hg hsound hx') hlist' hfound.components
  rw [find_put hfound.find] at hentry
  -- the chain of the file
  have hchain : NodeChain g t (some e.place) (e.entry.cluster :: new) := by
    cases hre with
    | empty => exact absurd rfl hnew
    | content hfile _ hre =>
      have hchain := hre.nodeChain hg hfound.sound hx rfl hfile
      rwa [hslot] at hchain
  have hchain' := (hmod.nodeChain_iff hg hx' hx').2 hchain
  have hcluster : (s'.slot g e.place).cluster = e.entry.cluster := by
    rw [(hmod.entry hg hx' hx').1, hslot', hslot]
  rw [NodeChain, hcluster] at hchain'
  have hreads : ∀ d ∈ e.entry.cluster :: new, g.Readable d :=
    forall_mem_cons.2 ⟨hread, fun d hd => (h.supply.fresh hd).1⟩
  have hl : e.entry.cluster :: new = (range' 0 (new.length + 1)).map cs := by
    rw [range'_succ, map_cons, hmap, hcs]
  have hdisk : ∀ d ∈ e.entry.cluster :: new, ∀ k < g.sectorsPerCluster,
      s'.disk (g.lba (g.clusterToSector d + k)) = t.disk (g.lba (g.clusterToSector d + k)) :=
    fun d hd k hk => hmod.disk (hsound.data_ne_entry hg hx' (by rw [hslot', hslot, hfile]) hchain hd hk)
  have hmem : ∀ j ≤ new.length, cs j ∈ e.entry.cluster :: new := fun j hj => by
    rw [hl]
    exact mem_map_of_mem (mem_range'_1.2 ⟨Nat.zero_le j, by omega⟩)
  refine ⟨s', hexec, ⟨hworks, ⟨_, hentry, ?_, modified_fileSize hlt,
    hchain'.walk hg hworks hreads⟩, ?_, ?_, ?_⟩, ?_⟩
  · rw [modified_isDirectory, hfile]
  · exact hchain'.length_lt_walkFuel hg
  · refine sectorData_eq hg hl (by rw [← h.length]; omega) fun j hj k hk => ?_
    rw [← h.length] at hj
    rw [hdisk _ (hmem j (le_of_lt hj)) k hk]
    exact ht.data j hj k hk
  · rw [hmod.volume]
    show t.bufferRead = _
    rw [ht.read, h.length]
  · have hspc := hg.sectorsPerCluster.1
    have hlast : new.getLast hnew ∈ e.entry.cluster :: new := mem_cons_of_mem _ (getLast_mem hnew)
    have hget : (e.entry.cluster :: new).getD new.length 0 = new.getLast hnew := by
      rw [getD_eq_getElem?_getD, ← getLast_cons hnew (a := e.entry.cluster), getLast_eq_getElem]
      simp
    rw [← h.length, sectorData, Nat.mul_div_cancel _ hspc, Nat.mul_mod_left, hget, hdisk _ hlast 0 hspc]
    have hend : cs new.length = new.getLast hnew := by
      rw [← hget, hl, getD_eq_getElem?_getD, getElem?_map, getElem?_range' (by omega)]
      simp
    refine ht.disk _ (cluster_not_inTable hg (hreads _ hlast).isCluster hspc) fun j hj => ?_
    refine not_inCluster_of_ne hg (hreads _ hlast).isCluster
      (hreads _ (hmem j (le_of_lt hj))).isCluster ?_ hspc
    rw [← hend]
    intro heq
    have hnodup := hchain.nodup hg
    rw [hl] at hnodup
    have := inj_on_of_nodup_map hnodup (mem_range'_1.2 ⟨Nat.zero_le _, by omega⟩)
      (mem_range'_1.2 ⟨Nat.zero_le j, by omega⟩) heq
    omega

theorem Filling.stored (hg : g.WellFormed) (hfound : Found g s path names name o childs e)
    (h : Filling g s e.entry len new) (hlt : len < 2 ^ 32) (buffer : Buffer) :
    ∃ s', overwriteFile g path buffer len s = .ok (0, s') ∧
      HasContent g s' path buffer len s.bufferRead (e.entry.cluster :: new) := by
  obtain rfl := hfound.path_eq
  obtain ⟨cs, u, u', t, s', hexec, hcs, hmap, hre, hmod, hstored, hs', hcut⟩ := h.overwriteFile_eq hg
    hfound buffer
  obtain ⟨hx, hslot⟩ := hfound.node hg
  have hl : e.entry.cluster :: new = (range' 0 (new.length + 1)).map cs := by
    rw [range'_succ, map_cons, hmap, hcs]
  have hmem : ∀ j ≤ new.length, cs j ∈ e.entry.cluster :: new := fun j hj => by
    rw [hl]
    exact mem_map_of_mem (mem_range'_1.2 ⟨Nat.zero_le j, by omega⟩)
  obtain ⟨-, -, -, hchain, hentry⟩ := hcut.found hg hfound.works hfound.sound hfound.path
    hfound.listed hfound.mem h.file hre hmod (hmem _ (le_refl _))
  have hentry := hentry name hfound.components
  rw [find_put hfound.find] at hentry
  have hreads : ∀ d ∈ e.entry.cluster :: new, g.Readable d :=
    forall_mem_cons.2 ⟨h.readable, fun d hd => (h.supply.fresh hd).1⟩
  -- the volume before the entry was put
  have hcluster : (s.slot g e.place).cluster = e.entry.cluster := by rw [hslot]
  have hfile : (s.slot g e.place).isDirectory = false := by rw [hslot]; exact h.file
  have hsound := hre.sound hg hfound.sound hx hcluster hfile
  have hx' := (hre.node_iff hg hfound.sound hx hcluster hfile).2 hx
  have hfile' : (u.slot g e.place).isDirectory = false := by
    rw [hre.slot_eq hg hfound.sound hx hcluster hfile hx, hfile]
  have hlast : (e.entry.cluster :: new).getLast? = some (cs new.length) := by
    rw [hl, getLast?_map, getLast?_range']
    simp
  refine ⟨s', hexec, ⟨hcut.works, ⟨_, hentry, ?_, modified_fileSize hlt,
    hcut.walk hg hchain (hchain.nodup hg) hlast hreads⟩, ?_, ?_, ?_⟩⟩
  · rw [modified_isDirectory, h.file]
  · exact hchain.length_lt_walkFuel hg
  · refine sectorData_eq hg hl (by rw [← h.length]) fun j hj k hk => ?_
    rw [← h.length] at hj
    have hne := hsound.data_ne_entry hg hx' hfile'
      (hre.nodeChain hg hfound.sound hx hcluster hfile) (hmem j (by omega)) hk
    rw [FATEntryInfo.place] at hne
    rw [hs', putAt_disk_ne hne]
    exact hstored.data j hj k hk
  · rw [hs']
    show t.bufferRead = _
    rw [hstored.read, h.length]

theorem writeFileCluster_crossing {b i c d : Nat} (hg : g.WellFormed) (hs : s.Works)
    (hc : g.IsCluster c) (hread : s.bufferRead = callerRead g len b (i * g.sectorsPerCluster))
    (hstart : s.startSearchCluster ≤ d) (h2 : 2 ≤ d) (hlt : d < g.totalClusters)
    (hcross : ¬g.Readable d)
    (htaken : ∀ x, s.startSearchCluster ≤ x → x < d → g.Readable x ∧ g.table s x ≠ 0) :
    writeFileCluster g buffer len (c, u32 (i * g.sectorsPerCluster * g.bytesPerSector)) i s =
      .error .memory := by
  have hfield : (putCluster g buffer len b i c s).startSearchCluster = s.startSearchCluster :=
    writeSectors_fields.1
  rw [writeFileCluster, bind_eq (writeFileSectors_eq hg hs c hread)]
  refine bind_error (allocateCluster_crossing (putCluster_works hs)
    (by rwa [hfield]) h2 hlt hcross fun x hx hxd => ?_)
  rw [hfield] at hx
  rw [table_putCluster hg hc (by omega)]
  exact htaken x hx hxd

theorem overwriteFile_crossing (hg : g.WellFormed) (hfound : Found g s path names name o childs e)
    (hsupply : Supply g s new) (hlength : new.length + 1 = requiredClusters g len)
    (hread : g.Readable e.entry.cluster) (hto : SearchedTo g s new d) (hlt : d < g.totalClusters)
    (hcross : ¬g.Readable d) (hstart : s.startSearchCluster < d) (hbelow : ∀ c ∈ new, c < d) (h2 : 2 ≤ d)
    (buffer : Buffer) : overwriteFile g path buffer len s = .error .memory := by
  obtain ⟨hx, hslot⟩ := hfound.node hg
  obtain ⟨cs, hcs, hmap⟩ := exists_clusters e.entry.cluster new
  have htaken := hfound.sound.table_cluster_ne_zero hx (by rwa [hslot])
  rw [hslot, ← hcs] at htaken
  obtain ⟨hreads, hinj⟩ := hsupply.clusters (by rwa [hcs]) htaken hmap
  rw [← hmap] at hsupply hto
  obtain ⟨t, hloop, ht, hstart'⟩ := writeFileClusters_eq hg hreads hinj hfound.works hsupply htaken buffer len
  have ht' : t.startSearchCluster ≤ d := by
    rw [hmap] at hstart'
    rcases mem_cons.1 hstart' with heq | hmem
    · omega
    · exact le_of_lt (hbelow _ hmem)
  have hlast := @writeFileCluster_crossing g t len buffer s.bufferRead new.length (cs new.length) d hg
    ht.works (hreads _ (le_refl _)).isCluster ht.read ht' h2 hlt hcross (ht.taken_below hreads hto)
  have hpass : forReturn (writeFileCluster g buffer len) (e.entry.cluster, 0)
      (range (requiredClusters g len)) s = .error .memory := by
    rw [← hlength, range_succ, forReturn_append, ← hcs, bind_eq hloop]
    show forReturn (writeFileCluster g buffer len) _ [new.length] t = _
    rw [forReturn_cons, bind_error hlast]
  rw [overwriteFile, bind_eq (hfound.getEntryByPath_eq hg)]
  dsimp only
  rw [bind_error hpass]

/-- A new file is written and read back as it should be, whatever its content, exactly when no sector of
its clusters begins behind the end of the content, and its last cluster is the last free one. The only
other case is a volume with clusters of one sector, all of which the content fills. -/
theorem roundTrip_iff (hg : g.WellFormed) (hpow : g.sectorsPerCluster ∣ 128) (hs : s.Works)
    (hsound : Sound g s) (hread : s.bufferRead = 0)
    (h : Creatable g s names name o n new s₁ run) (hlist : Listed g s o childs)
    (hfind : childs.find? (fun item => item.filename = name) = none) (hname : name.length ≤ 65)
    (htidy : ∀ slots, View g s o slots → Tidy slots) (hsup : Supply g s (n :: new ++ more))
    (hlen : 0 < len) (hlt : len < 2 ^ 32) (hmore : more.length + 1 = requiredClusters g len) :
    (∀ buffer, RoundTrip g s (CString.joinPath pathSeparator (names ++ [name])) buffer len) ↔
      EndsInLastSector g len ∧ (Exhausted g s (n :: new ++ more) ∨
        (∃ x, Supply g s (n :: new ++ more ++ [x])) ∧ g.sectorsPerCluster = 1 ∧
          len = requiredClusters g len * g.bytesPerSector) := by
  have hwrite := fun {more : List Nat} (hsup : Supply g s (n :: new ++ more)) =>
    h.writeFile_eq hg hs hsound hlist hfind hname htidy hsup
  rcases hsup.next_cases (cons_ne_nil _ _) with hex | ⟨x, hx⟩ | ⟨d, hd, hcross, hto, hbelow⟩
  · -- the content takes the last free clusters
    obtain ⟨s', childs', info, heq, hfound, hnew, hsup', hto, -, -, hread'⟩ := hwrite hsup
    have hstored := fun buffer => (hnew.filling hsup' (hto _ hex) hmore).stored hg hfound hlt buffer
    rw [hread', hread] at hstored
    constructor
    · intro hall
      refine ⟨?_, .inl hex⟩
      obtain ⟨t, hexec, hback⟩ := hall fun _ => 0
      obtain ⟨s'', hexec', hstored⟩ := hstored fun _ => 0
      rw [heq, hexec'] at hexec
      cases hexec
      exact hstored.endsInLastSector hg hpow hlen hlt hback
    · rintro ⟨hends, -⟩ buffer
      obtain ⟨s'', hexec, hstored⟩ := hstored buffer
      refine ⟨s'', (heq buffer len).trans hexec, hstored.readsBack hg hlen hlt (Nat.zero_le len) ?_ ?_⟩
      · rw [length_cons, hmore]
      · rw [length_cons, hmore]
        exact hends
  · -- another cluster is linked behind the content
    have hx' := hx
    rw [append_assoc] at hx'
    obtain ⟨s', childs', info, heq, hfound, hnew, hsup', -, -, -, hread'⟩ := hwrite hx'
    have hlength : (more ++ [x]).length = requiredClusters g len := by
      rw [length_append, ← hmore]
      rfl
    have hne : more ++ [x] ≠ [] := by simp
    have hstored := fun buffer => (hnew.overwritable hsup' hlength).stored hg hfound hne hlt buffer
    rw [hread', hread] at hstored
    constructor
    · intro hall
      -- a content that differs in its first byte from what was in the last cluster
      let buffer : Buffer := fun _ => s'.disk (g.lba (g.clusterToSector ((more ++ [x]).getLast hne))) 0 + 1
      obtain ⟨t, hexec, hback⟩ := hall buffer
      obtain ⟨s'', hexec', hstored, hdata⟩ := hstored buffer
      rw [heq, hexec'] at hexec
      cases hexec
      refine ⟨hstored.endsInLastSector hg hpow hlen hlt hback, .inr ⟨⟨x, hx⟩, ?_⟩⟩
      refine (hstored.fills_of_longer hg hpow hlen hlt ?_ hback).resolve_right ?_
      · rw [length_cons, hlength]
      · rw [hdata]
        simp [buffer]
    · rintro ⟨-, hcond⟩ buffer
      have hfull : g.sectorsPerCluster = 1 ∧ len = requiredClusters g len * g.bytesPerSector := by
        rcases hcond with hex | ⟨-, hfull⟩
        · exact absurd (hx.lt_total x (by simp)) (not_lt.2 (SearchedTo.bound_le hex hx))
        · exact hfull
      obtain ⟨s'', hexec, hstored, -⟩ := hstored buffer
      refine ⟨s'', (heq buffer len).trans hexec, hstored.readsBack hg hlen hlt (Nat.zero_le len) ?_ ?_⟩
      · rw [length_cons, hlength]
        exact Nat.le_succ _
      · rw [length_cons, hlength, hfull.1, mul_one, Nat.add_sub_cancel]
        exact le_of_eq hfull.2.symm
  · -- the search for another cluster ends in a fault
    obtain ⟨s', childs', info, heq, hfound, hnew, hsup', hto', hstart, -⟩ := hwrite hsup
    have h2 : 2 ≤ d := le_trans h.free.read.1 (le_of_lt (hbelow n mem_cons_self))
    have hfault := overwriteFile_crossing hg hfound hsup' hmore (hnew.cluster ▸ hnew.readable) (hto' _ hto)
      hd hcross (hbelow _ (mem_append_left _ hstart)) (forall_mem_append.1 hbelow).2 h2
    constructor
    · intro hall
      obtain ⟨t, hexec, -⟩ := hall fun _ => 0
      rw [heq, hfault] at hexec
      cases hexec
    · rintro ⟨-, hcond⟩
      have hdle : s.startSearchCluster ≤ d := le_trans h.free.start_le (le_of_lt (hbelow n mem_cons_self))
      rcases hcond with hex | ⟨⟨x, hx⟩, -⟩
      · exact absurd (hex d hdle hd).1 hcross
      · exact absurd (hx.readable d hdle ⟨x, by simp, hto.bound_le hx⟩) hcross

/-- A content of one sector is written to the last free cluster. -/
theorem roundTrip_iff_lastCluster : EndsInLastSector smallFat32 512 ∧
    ∀ buffer, RoundTrip smallFat32 (rootVolume fullTable []) letterName buffer 512 := by
  obtain ⟨hlist, htidy⟩ := rootVolume_listed fullTable (by decide)
  obtain ⟨run, h⟩ := rootVolume_creatable fullTable (by decide) (by decide)
  have hs : (rootVolume fullTable []).Works := rfl
  have hsup : Supply smallFat32 (rootVolume fullTable []) (3 :: [] ++ []) := fullTable_supply
  have hends : EndsInLastSector smallFat32 512 := by
    unfold EndsInLastSector
    decide
  exact ⟨hends, (roundTrip_iff smallFat32_wellFormed (by decide) hs (rootVolume_sound (by decide)) rfl h
    hlist rfl (by decide) htidy hsup (by decide) (by decide) (by decide)).2
      ⟨hends, .inl fullTable_exhausted⟩⟩

/-- A file with one byte of content is written where many clusters are free. `ReadFile` copies the
cluster behind the content over the end of the buffer. -/
theorem readFile_overruns : ∃ s, writeFile smallFat32 letterName (fun _ => 0) 1 true
      (rootVolume emptyTable []) = .ok (0, s) ∧
    ∃ out out', readFile smallFat32 letterName out 1 s = .ok ((0, out'), s) ∧ out' 512 ≠ out 512 := by
  have hg := smallFat32_wellFormed
  obtain ⟨s', childs, info, hwrite, hfound, hnew, hsup, -⟩ :=
    rootVolume_writeFile (by decide) (by decide) emptyTable_supply
  have hok : Overwritable smallFat32 s' info.entry 1 [4] := hnew.overwritable hsup (by decide)
  obtain ⟨s'', hexec, hstored, -⟩ := hok.stored hg hfound (by simp) (by decide) fun _ => 0
  refine ⟨s'', (hwrite _ _).trans hexec, ?_⟩
  let x := sectorData smallFat32 s'' [info.entry.cluster, 4] 1 0
  refine ⟨fun _ => x + 1, _, hstored.readFile_eq hg _, ?_⟩
  have hcopied := readInto_behind (n := 1) hg (show 1 < 2 ^ 32 by decide) (by decide) (by decide)
    (sectorData smallFat32 s'' [info.entry.cluster, 4]) fun _ => x + 1
  show readInto smallFat32 1 _ _ (1 + 1) (1 * smallFat32.bytesPerSector) ≠ x + 1
  rw [hcopied]
  simp [x]

end HeisenKernel
