import HeisenKernel.Fat.File
import HeisenKernel.Fat.Supply
import Mathlib.Tactic.Ring

/-!
# The loop of WriteFile

`WriteFile` goes through the clusters that the content needs. It writes the sectors of a cluster,
takes the next free cluster and links it behind the one just written.
-/

namespace HeisenKernel

open Lib Geometry FatM List Nat

/-- What `WriteFile` puts into the `j`-th sector of a file. The number of bytes that are left is
computed modulo the word size. -/
def fileData (g : Geometry) (buffer : Buffer) (len j : Nat) : Buffer :=
  if sub32 len (u32 (j * g.bytesPerSector)) < g.bytesPerSector then fun k =>
    if k < sub32 len (u32 (j * g.bytesPerSector)) then buffer (u32 (j * g.bytesPerSector) + k) else 0
  else fun k => buffer (u32 (j * g.bytesPerSector) + k)

/-- The number of bytes that `WriteFile` reads of the buffer of its caller for the `j`-th sector. -/
def sectorLength (g : Geometry) (len j : Nat) : Nat :=
  min (sub32 len (u32 (j * g.bytesPerSector))) g.bytesPerSector

/-- The end of what was read of the buffer of the caller, after `j` sectors; `b` is the end before. -/
def callerRead (g : Geometry) (len b : Nat) : Nat → Nat
  | 0 => b
  | j + 1 =>
    if sectorLength g len j = 0 then callerRead g len b j
    else max (callerRead g len b j) (u32 (j * g.bytesPerSector) + sectorLength g len j)

/-- The volume with another end of what was read of the buffer of the caller. -/
def Fat.setRead (s : Fat) (b : Nat) : Fat := { s with bufferRead := b }

/-- The volume after the sectors of the `i`-th cluster of a file were written to the cluster `c`. -/
def putCluster (g : Geometry) (buffer : Buffer) (len b i c : Nat) (s : Fat) : Fat :=
  (g.writeSectors (g.clusterToSector c) g.sectorsPerCluster
    (fun k => fileData g buffer len (i * g.sectorsPerCluster + k)) s).setRead
      (callerRead g len b ((i + 1) * g.sectorsPerCluster))

variable {g : Geometry} {s t : Fat} {buffer : Buffer} {len b i c : Nat}

theorem clusterSize_eq (hg : g.WellFormed) : g.clusterSize = g.bytesPerSector * g.sectorsPerCluster := by
  have hb := hg.bytes_bounds
  have hmul := mul_le_mul hb.2.1 hg.sectorsPerCluster.2
  exact u32_eq (by omega)

theorem u32_add_u32 (m n : Nat) : u32 (u32 m + n) = u32 (m + n) := by
  exact mod_add_mod ..

theorem writeFileSector_eq (hg : g.WellFormed) (hs : s.Works) (sector k : Nat)
    (hread : s.bufferRead = callerRead g len b (i * g.sectorsPerCluster + k)) :
    writeFileSector g buffer len i sector (u32 ((i * g.sectorsPerCluster + k) * g.bytesPerSector)) k s =
      .ok (.inl (u32 ((i * g.sectorsPerCluster + k + 1) * g.bytesPerSector)),
        (s.write (g.lba (sector + k))
          (fileData g buffer len (i * g.sectorsPerCluster + k))).setRead
            (callerRead g len b (i * g.sectorsPerCluster + k + 1))) := by
  have hoffset : i * g.clusterSize + k * g.bytesPerSector =
      (i * g.sectorsPerCluster + k) * g.bytesPerSector := by
    rw [clusterSize_eq hg]
    ring
  have hnext : u32 (u32 ((i * g.sectorsPerCluster + k) * g.bytesPerSector) + g.bytesPerSector) =
      u32 ((i * g.sectorsPerCluster + k + 1) * g.bytesPerSector) := by
    rw [u32_add_u32]
    congr 1
    ring
  generalize i * g.sectorsPerCluster + k = j at *
  rw [writeFileSector, hoffset, ← hnext, callerRead, ← hread]
  have hwrite : ∀ (n : Nat) (d : Buffer), sectorLength g len j = n → fileData g buffer len j = d →
      (do
        readCaller (u32 (j * g.bytesPerSector)) n
        if ← writeSector (g.lba (sector + k)) d then
          pure (.inl (u32 (u32 (j * g.bytesPerSector) + g.bytesPerSector)))
        else pure (.inr ()) : FatM (Nat ⊕ Unit)) s =
      .ok (.inl (u32 (u32 (j * g.bytesPerSector) + g.bytesPerSector)),
        (s.write (g.lba (sector + k)) (fileData g buffer len j)).setRead
          (if sectorLength g len j = 0 then s.bufferRead
          else max s.bufferRead (u32 (j * g.bytesPerSector) + sectorLength g len j))) := by
    rintro _ _ rfl rfl
    have hworks : (s.setRead (if sectorLength g len j = 0 then s.bufferRead
        else max s.bufferRead (u32 (j * g.bytesPerSector) + sectorLength g len j))).Works := hs
    rw [readCaller, bind_eq (modify_eq _)]
    exact bind_eq (writeSector_eq hworks _ _)
  split
  · next hlt => exact hwrite _ _ (min_eq_left (le_of_lt hlt)) (if_pos hlt)
  · next hlt => exact hwrite _ _ (Nat.min_eq_right (Nat.le_of_not_lt hlt)) (if_neg hlt)

theorem writeFileSectors_eq (hg : g.WellFormed) (hs : s.Works) (c : Nat)
    (hread : s.bufferRead = callerRead g len b (i * g.sectorsPerCluster)) :
    forReturn (writeFileSector g buffer len i (g.clusterToSector c))
        (u32 (i * g.sectorsPerCluster * g.bytesPerSector)) (range g.sectorsPerCluster) s =
      .ok (.inl (u32 ((i + 1) * g.sectorsPerCluster * g.bytesPerSector)),
        putCluster g buffer len b i c s) := by
  obtain ⟨a, t, hloop, rfl, rfl⟩ := forReturn_range
    (f := writeFileSector g buffer len i (g.clusterToSector c))
    (a := u32 (i * g.sectorsPerCluster * g.bytesPerSector)) (s := s)
    (I := fun k a t => a = u32 ((i * g.sectorsPerCluster + k) * g.bytesPerSector) ∧
      t = (g.writeSectors (g.clusterToSector c) k
        (fun k => fileData g buffer len (i * g.sectorsPerCluster + k)) s).setRead
          (callerRead g len b (i * g.sectorsPerCluster + k)))
    ⟨rfl, by rw [add_zero, ← hread]; rfl⟩ (by
      rintro k - a t ⟨rfl, rfl⟩
      refine ⟨_, _, writeFileSector_eq hg ?_ _ k rfl, rfl, ?_⟩
      · exact writeSectors_fields.2.1.trans hs
      · rw [writeSectors_succ]
        rfl)
  rw [hloop, putCluster, succ_mul]

theorem table_putCluster (hg : g.WellFormed) (hc : g.IsCluster c)
    (hx : x ≤ g.totalClusters + 1) : g.table (putCluster g buffer len b i c s) x = g.table s x := by
  have hb := clusterToSector_bounds hg hc
  exact table_writeSectors hg hx (le_trans (tableEnd_le g) hb.1) hb.2

theorem putCluster_disk_ne {lba : Nat} (h : ¬g.InCluster c lba) :
    (putCluster g buffer len b i c s).disk lba = s.disk lba :=
  writeSectors_disk_ne fun k hk heq => h ⟨k, hk, heq⟩

theorem putCluster_disk (hg : g.WellFormed) (hc : g.IsCluster c)
    (hk : k < g.sectorsPerCluster) :
    (putCluster g buffer len b i c s).disk (g.lba (g.clusterToSector c + k)) =
      fileData g buffer len (i * g.sectorsPerCluster + k) :=
  writeSectors_disk hg (clusterToSector_bounds hg hc).2 hk

theorem putCluster_works (hs : s.Works) : (putCluster g buffer len b i c s).Works :=
  writeSectors_fields.2.1.trans hs

theorem writeFileCluster_eq (hg : g.WellFormed) (hs : s.Works) (hc : g.Readable c)
    (hfree : g.FirstFree s c')
    (hread : s.bufferRead = callerRead g len b (i * g.sectorsPerCluster)) :
    writeFileCluster g buffer len (c, u32 (i * g.sectorsPerCluster * g.bytesPerSector)) i s =
      .ok (.inl (c', u32 ((i + 1) * g.sectorsPerCluster * g.bytesPerSector)),
        g.setTable c c' (g.allocated c' (putCluster g buffer len b i c s))) := by
  have hfree' : g.FirstFree (putCluster g buffer len b i c s) c' := by
    have hstart : (putCluster g buffer len b i c s).startSearchCluster = s.startSearchCluster :=
      writeSectors_fields.1
    refine ⟨by rw [hstart]; exact hfree.start_le, hfree.lt_total, ?_, ?_, ?_⟩
    · rw [table_putCluster hg hc.isCluster hfree.read.isCluster.2]
      exact hfree.free
    · intro d hd hlt
      rw [hstart] at hd
      rw [table_putCluster hg hc.isCluster (by have := hfree.lt_total; omega)]
      exact hfree.taken d hd hlt
    · rw [hstart]
      exact hfree.readable
  have hworks : (putCluster g buffer len b i c s).Works := putCluster_works hs
  rw [writeFileCluster, bind_eq (writeFileSectors_eq hg hs c hread)]
  dsimp only
  rw [bind_eq (allocateCluster_eq hworks hfree'), bind_eq (writeTable_eq (allocated_works hworks) hc)]
  rfl

theorem writeFileCluster_full (hg : g.WellFormed) (hs : s.Works) (hc : g.Readable c)
    (hfull : g.Full s) (hread : s.bufferRead = callerRead g len b (i * g.sectorsPerCluster)) :
    writeFileCluster g buffer len (c, u32 (i * g.sectorsPerCluster * g.bytesPerSector)) i s =
      .ok (.inl (0, u32 ((i + 1) * g.sectorsPerCluster * g.bytesPerSector)),
        g.setTable c 0 (putCluster g buffer len b i c s)) := by
  have hfull' : g.Full (putCluster g buffer len b i c s) := by
    intro d hd hlt
    have hstart : (putCluster g buffer len b i c s).startSearchCluster = s.startSearchCluster :=
      writeSectors_fields.1
    rw [hstart] at hd
    rw [table_putCluster hg hc.isCluster (by omega)]
    exact hfull d hd hlt
  have hworks : (putCluster g buffer len b i c s).Works := putCluster_works hs
  rw [writeFileCluster, bind_eq (writeFileSectors_eq hg hs c hread)]
  dsimp only
  rw [bind_eq (allocateCluster_full hworks hfull'), bind_eq (writeTable_eq hworks hc)]
  rfl

/-- The volume after `i` clusters of a file were written to the clusters `cs 0`, `cs 1` and so on,
where `r` are written in all. -/
structure Written (g : Geometry) (buffer : Buffer) (len : Nat) (cs : Nat → Nat) (r : Nat) (s : Fat)
    (i : Nat) (t : Fat) : Prop where
  works : t.Works
  rtc : t.rtc = s.rtc
  start : s.startSearchCluster ≤ t.startSearchCluster
  supply : Supply g t ((List.range' (i + 1) (r - i)).map cs)
  link : ∀ j < i, g.table t (cs j) = cs (j + 1)
  last : 0 < i → g.table t (cs i) = g.clusterEnd
  table : ∀ x ≤ g.totalClusters + 1, (0 < i → ∀ j ≤ i, x ≠ cs j) → g.table t x = g.table s x
  disk : ∀ lba, ¬g.InTable lba → (∀ j < i, ¬g.InCluster (cs j) lba) → t.disk lba = s.disk lba
  data : ∀ j < i, ∀ k < g.sectorsPerCluster, t.disk (g.lba (g.clusterToSector (cs j) + k)) =
    fileData g buffer len (j * g.sectorsPerCluster + k)
  read : t.bufferRead = callerRead g len s.bufferRead (i * g.sectorsPerCluster)

section
variable {cs : Nat → Nat} {r : Nat} (hg : g.WellFormed) (hread : ∀ j ≤ r, g.Readable (cs j))
  (hinj : ∀ i ≤ r, ∀ j ≤ r, cs i = cs j → i = j)

theorem Written.zero (hs : s.Works) (hsupply : Supply g s ((range' 1 r).map cs)) :
    Written g buffer len cs r s 0 s where
  works := hs
  rtc := rfl
  start := le_refl _
  supply := hsupply
  link := by simp
  last := by simp
  table := fun _ _ _ => rfl
  disk := fun _ _ _ => rfl
  data := by simp
  read := by rw [zero_mul]; rfl

include hread

theorem Written.taken (h : Written g buffer len cs r s i t) (hc : g.table s (cs 0) ≠ 0) :
    g.table t (cs i) ≠ 0 := by
  cases i with
  | zero =>
    rw [h.table (cs 0) (hread 0 (zero_le r)).isCluster.2 (by simp)]
    exact hc
  | succ i =>
    rw [h.last (succ_pos i)]
    exact clusterEnd_ne_zero g

include hg hinj

theorem Written.step (h : Written g buffer len cs r s i t) (hi : i < r)
    (hc : g.table s (cs 0) ≠ 0) : Written g buffer len cs r s (i + 1)
      (g.setTable (cs i) (cs (i + 1)) (g.allocated (cs (i + 1))
        (putCluster g buffer len s.bufferRead i (cs i) t))) := by
  have hri := hread i (le_of_lt hi)
  have hrn := hread (i + 1) hi
  have hne : cs (i + 1) ≠ cs i := fun heq => by have := hinj _ hi _ (le_of_lt hi) heq; omega
  -- the table entries of the two clusters are the ones that change
  have htable : ∀ x ≤ g.totalClusters + 1,
      g.table (g.setTable (cs i) (cs (i + 1)) (g.allocated (cs (i + 1))
        (putCluster g buffer len s.bufferRead i (cs i) t))) x =
      if x = cs i then cs (i + 1) else if x = cs (i + 1) then g.clusterEnd else g.table t x := by
    intro x hx
    by_cases hxi : x = cs i
    · rw [if_pos hxi, hxi, table_setTable hg.tabled hri, mod_entryBits hg hrn.isCluster.2]
    · rw [if_neg hxi, table_setTable_ne hg.tabled hri hx hxi]
      by_cases hxn : x = cs (i + 1)
      · rw [if_pos hxn, hxn, table_allocated hg hrn]
      · rw [if_neg hxn, table_allocated_ne hg hrn hx hxn, table_putCluster hg hri.isCluster hx]
  have hdisk : ∀ lba, ¬g.InTable lba →
      (g.setTable (cs i) (cs (i + 1)) (g.allocated (cs (i + 1))
        (putCluster g buffer len s.bufferRead i (cs i) t))).disk lba =
      (putCluster g buffer len s.bufferRead i (cs i) t).disk lba := by
    intro lba hlba
    rw [setTable_disk_of_not_inTable hg hri hlba]
    exact setTable_disk_of_not_inTable hg hrn hlba
  have hsupply := h.supply
  rw [show r - i = (r - (i + 1)) + 1 by omega, range'_succ, map_cons] at hsupply
  constructor
  · exact putCluster_works (b := s.bufferRead) h.works
  · exact (writeSectors_fields.2.2.1).trans h.rtc
  · exact le_trans h.start (hsupply.start_le _ mem_cons_self)
  · have hput : Supply g (putCluster g buffer len s.bufferRead i (cs i) t)
        (cs (i + 1) :: (range' (i + 1 + 1) (r - (i + 1))).map cs) :=
      hsupply.congr writeSectors_fields.1 fun x hx => by
        rw [table_putCluster hg hri.isCluster hx.isCluster.2]
    refine (hput.allocated hg).congr rfl fun x hx => ?_
    by_cases hxi : x = cs i
    · -- the cluster was taken, and is
      rw [hxi, table_setTable hg.tabled hri, mod_entryBits hg hrn.isCluster.2,
        table_allocated_ne hg hrn hri.isCluster.2 hne.symm,
        table_putCluster hg hri.isCluster hri.isCluster.2]
      have := hrn.1
      exact iff_of_false (by omega) (h.taken hread hc)
    · rw [table_setTable_ne hg.tabled hri hx.isCluster.2 hxi]
  · intro j hj
    rw [htable _ (hread j (by omega)).isCluster.2]
    by_cases hji : j = i
    · rw [if_pos (by rw [hji]), hji]
    · have hji' : cs j ≠ cs i := fun heq => hji (hinj _ (by omega) _ (by omega) heq)
      have hjn : cs j ≠ cs (i + 1) := fun heq => by
        have := hinj _ (by omega) _ (by omega) heq
        omega
      rw [if_neg hji', if_neg hjn]
      exact h.link j (by omega)
  · intro _
    rw [htable _ hrn.isCluster.2, if_neg hne, if_pos rfl]
  · intro x hx hxj
    have hxj := hxj (succ_pos i)
    rw [htable x hx, if_neg (hxj i (by omega)), if_neg (hxj (i + 1) (le_refl _))]
    exact h.table x hx fun _ j hj => hxj j (by omega)
  · intro lba hlba hout
    rw [hdisk lba hlba, putCluster_disk_ne (hout i (by omega))]
    exact h.disk lba hlba fun j hj => hout j (by omega)
  · intro j hj k hk
    have hrj := (hread j (by omega)).isCluster
    rw [hdisk _ (cluster_not_inTable hg hrj hk)]
    by_cases hji : j = i
    · rw [hji]
      exact putCluster_disk hg hri.isCluster hk
    · have hji' : cs j ≠ cs i := fun heq => hji (hinj _ (by omega) _ (by omega) heq)
      rw [putCluster_disk_ne (not_inCluster_of_ne hg hrj hri.isCluster hji' hk)]
      exact h.data j (by omega) k hk
  · rfl

theorem writeFileClusters_eq (hs : s.Works) (hsupply : Supply g s ((range' 1 r).map cs))
    (hc : g.table s (cs 0) ≠ 0) (buffer : Buffer) (len : Nat) :
    ∃ t, forReturn (writeFileCluster g buffer len) (cs 0, 0) (range r) s = .ok
      (.inl (cs r, u32 (r * g.sectorsPerCluster * g.bytesPerSector)), t) ∧ Written g buffer len cs r
      s r t ∧ t.startSearchCluster ∈ s.startSearchCluster :: (range' 1 r).map cs := by
  obtain ⟨_, t, hloop, rfl, ht, hstart⟩ := forReturn_range (n := r)
    (a := (cs 0, 0))
    (I := fun i a t => a = (cs i, u32 (i * g.sectorsPerCluster * g.bytesPerSector)) ∧
      Written g buffer len cs r s i t ∧
      t.startSearchCluster ∈ s.startSearchCluster :: (range' 1 r).map cs)
    ⟨by simp [u32], .zero hs hsupply, mem_cons_self⟩ (by
      rintro i hi a t ⟨rfl, ht, -⟩
      have hsupply := ht.supply
      rw [show r - i = (r - (i + 1)) + 1 by omega, range'_succ, map_cons] at hsupply
      exact ⟨_, _, writeFileCluster_eq hg ht.works (hread i (le_of_lt hi)) hsupply.firstFree
        ht.read, rfl, ht.step hg hread hinj hi hc, mem_cons_of_mem _ (mem_map_of_mem
          (mem_range'_1.2 ⟨le_add_left 1 i, by omega⟩))⟩)
  exact ⟨t, hloop, ht, hstart⟩

end

end HeisenKernel
