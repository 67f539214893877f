import Mathlib.Data.List.Perm.Subperm
import Mathlib.Data.Nat.Find
import HeisenKernel.Fat.Table

/-!
# Clusters and chains of a working volume

The sectors of the clusters of a volume are disjoint. Clearing a cluster writes its sectors and
nothing else, and an allocation takes the first free cluster of the search range.
-/

namespace HeisenKernel

open Lib List FatM Geometry Nat

theorem forReturn_read {body : σ → α → FatM (σ ⊕ β)}
    (h : ∀ acc, ∀ a ∈ l, body acc a s = liftExec (body' acc a) s) (acc : σ) :
    forReturn body acc l s = liftExec (forReturn body' acc l) s := by
  induction l generalizing acc with
  | nil => rfl
  | cons a l ih =>
    rw [forReturn_cons, forReturn_cons]
    have ha := h acc a mem_cons_self
    cases hb : body' acc a with
    | error e =>
      rw [hb] at ha
      rw [bind_error ha]
      rfl
    | ok r =>
      rw [hb] at ha
      rw [bind_eq ha]
      cases r with
      | inl acc' => exact ih (fun acc b hb => h acc b (mem_cons_of_mem _ hb)) acc'
      | inr b => rfl

namespace Geometry

/-- The number of a cluster of the data region. -/
def IsCluster (g : Geometry) (c : Nat) : Prop := 2 ≤ c ∧ c ≤ g.totalClusters + 1

instance (g : Geometry) (c : Nat) : Decidable (g.IsCluster c) := by
  unfold IsCluster; infer_instance

/-- The sectors `base`, ..., `base + k - 1` replaced. -/
def writeSectors (g : Geometry) (base k : Nat) (f : Nat → Buffer) (s : Fat) : Fat :=
  (List.range k).foldl (fun s i => s.write (g.lba (base + i)) (f i)) s

/-- The volume with the sectors of a cluster cleared. -/
def clear (g : Geometry) (c : Nat) (s : Fat) : Fat :=
  g.writeSectors (g.clusterToSector c) g.sectorsPerCluster (fun _ _ => 0) s

variable {g : Geometry} {s : Fat} {c i n : Nat}

theorem Readable.isCluster (h : g.Readable c) : g.IsCluster c := ⟨h.1, le_succ_of_le h.2.1⟩

theorem clusterToSector_eq (hg : g.WellFormed) (hc : g.IsCluster c) :
    g.clusterToSector c = (c - 2) * g.sectorsPerCluster + g.firstDataSector := by
  have hlt := hg.total_lt
  have hsize := hg.size
  have hle : (c - 2) * g.sectorsPerCluster ≤ g.totalClusters * g.sectorsPerCluster :=
    mul_le_mul_right _ (by have := hc.2; omega)
  rw [clusterToSector, sub32_eq (by have := hc.2; omega) hc.1, u32_eq (by omega)]

theorem clusterToSector_bounds (hg : g.WellFormed) (hc : g.IsCluster c) :
    g.firstDataSector ≤ g.clusterToSector c ∧ g.clusterToSector c + g.sectorsPerCluster ≤ g.endSector := by
  have hle : (c - 2) * g.sectorsPerCluster + g.sectorsPerCluster ≤ g.totalClusters * g.sectorsPerCluster := by
    rw [← succ_mul]
    exact mul_le_mul_right _ (by have := hc.2; have := hc.1; omega)
  rw [clusterToSector_eq hg hc, endSector]
  omega

theorem clusterToSector_disjoint (hg : g.WellFormed) (hc : g.IsCluster c) (hc' : g.IsCluster c')
    (h : c ≠ c') : g.clusterToSector c + g.sectorsPerCluster ≤ g.clusterToSector c' ∨
      g.clusterToSector c' + g.sectorsPerCluster ≤ g.clusterToSector c := by
  have key : ∀ {d d'}, g.IsCluster d → g.IsCluster d' → d < d' →
      g.clusterToSector d + g.sectorsPerCluster ≤ g.clusterToSector d' := by
    intro d d' hd hd' hlt
    have hle : (d - 2) * g.sectorsPerCluster + g.sectorsPerCluster ≤ (d' - 2) * g.sectorsPerCluster := by
      rw [← succ_mul]
      exact mul_le_mul_right _ (by have := hd.1; omega)
    rw [clusterToSector_eq hg hd, clusterToSector_eq hg hd']
    omega
  rcases lt_or_gt_of_ne h with hlt | hgt
  · exact .inl (key hc hc' hlt)
  · exact .inr (key hc' hc hgt)

theorem writeSectors_succ : g.writeSectors base (k + 1) f s =
    (g.writeSectors base k f s).write (g.lba (base + k)) (f k) := by
  rw [writeSectors, range_succ, foldl_append]
  rfl

theorem writeSectors_fields : (g.writeSectors base k f s).startSearchCluster = s.startSearchCluster
    ∧ (g.writeSectors base k f s).failures = s.failures ∧ (g.writeSectors base k f s).rtc = s.rtc ∧
    (g.writeSectors base k f s).bufferRead = s.bufferRead := by
  induction k with
  | zero => exact ⟨rfl, rfl, rfl, rfl⟩
  | succ k ih =>
    rw [writeSectors_succ]
    exact ih

theorem writeSectors_disk_ne (h : ∀ i < k, a ≠ g.lba (base + i)) :
    (g.writeSectors base k f s).disk a = s.disk a := by
  induction k with
  | zero => rfl
  | succ k ih =>
    rw [writeSectors_succ, Fat.write_disk_ne (h k (lt_succ_self k)), ih fun i hi => h i (lt_succ_of_lt hi)]

theorem writeSectors_disk (hg : g.WellFormed) (hk : base + k ≤ g.endSector) (hi : i < k) :
    (g.writeSectors base k f s).disk (g.lba (base + i)) = f i := by
  induction k with
  | zero => omega
  | succ k ih =>
    rw [writeSectors_succ]
    by_cases h : i = k
    · rw [h, Fat.write_disk_self]
    · rw [Fat.write_disk_ne, ih (by omega) (by omega)]
      rw [Ne, lba_inj hg.tabled (by omega) (by omega)]
      omega

theorem table_writeSectors (hg : g.WellFormed) (hc : c ≤ g.totalClusters + 1) (hb : g.tableEnd ≤ base)
    (hk : base + k ≤ g.endSector) : g.table (g.writeSectors base k f s) c = g.table s c := by
  induction k with
  | zero => rfl
  | succ k ih => rw [writeSectors_succ, table_write hg.tabled hc (by omega) (by omega), ih (by omega)]

theorem clearSector_eq (hs : s.Works) (i : Nat) : clearSector g c () i s =
    .ok (.inl (), s.write (g.lba (g.clusterToSector c + i)) fun _ => 0) := by
  rw [clearSector, bind_eq (writeSector_eq hs _ _)]
  rfl

theorem clearCluster_eq (hs : s.Works) : clearCluster g c s = .ok ((), g.clear c s) := by
  have hloop : ∀ (l : List Nat) (t : Fat), t.Works → forReturn (clearSector g c) () l t =
      .ok (.inl (), l.foldl (fun t i => t.write (g.lba (g.clusterToSector c + i)) fun _ => 0) t) := by
    intro l
    induction l with
    | nil => exact fun _ _ => rfl
    | cons i l ih =>
      intro t ht
      rw [forReturn_cons, bind_eq (clearSector_eq ht i)]
      exact ih _ (ht.write _ _)
  rw [clearCluster, bind_eq (hloop _ s hs)]
  rfl

theorem clear_fields : (g.clear c s).startSearchCluster = s.startSearchCluster ∧ (g.clear c s).failures =
    s.failures ∧ (g.clear c s).rtc = s.rtc ∧ (g.clear c s).bufferRead = s.bufferRead := writeSectors_fields

theorem clear_works (hs : s.Works) : (g.clear c s).Works := clear_fields.2.1.trans hs

theorem table_clear (hg : g.WellFormed) (hc : g.IsCluster c) (hc' : c' ≤ g.totalClusters + 1) :
    g.table (g.clear c s) c' = g.table s c' := by
  have := clusterToSector_bounds hg hc
  exact table_writeSectors hg hc' (by have := tableEnd_le g; omega) this.2

/-- The sector is one of the allocation tables. -/
def InTable (g : Geometry) (lba : Nat) : Prop :=
  ∃ n, g.firstFatSector ≤ n ∧ n < g.tableEnd ∧ lba = g.lba n

/-- The sector belongs to the cluster. -/
def InCluster (g : Geometry) (c lba : Nat) : Prop :=
  ∃ i < g.sectorsPerCluster, lba = g.lba (g.clusterToSector c + i)

theorem setTable_disk_of_not_inTable (hg : g.WellFormed) (hc : g.Readable c) {v lba : Nat}
    (h : ¬g.InTable lba) : (g.setTable c v s).disk lba = s.disk lba := by
  have hsec := fatSector_lt hg.tabled (le_succ_of_le hc.2.1) (entryBytes_pos)
  refine Fat.write_disk_ne (fun heq => h ⟨_, ?_, hsec, heq⟩) _
  exact Nat.le_add_right ..

theorem clear_disk_of_not_inCluster {lba : Nat} (h : ¬g.InCluster c lba) :
    (g.clear c s).disk lba = s.disk lba :=
  writeSectors_disk_ne fun i hi heq => h ⟨i, hi, heq⟩

theorem not_inTable (hg : g.WellFormed) (hn : g.tableEnd ≤ n) (hend : n < g.endSector) :
    ¬g.InTable (g.lba n) := by
  rintro ⟨m, -, hm, heq⟩
  rw [lba_inj hg.tabled hend (by have := tableEnd_le_end g; omega)] at heq
  omega

theorem inCluster_iff (hg : g.WellFormed) (hc : g.IsCluster c) (hend : n < g.endSector) :
    g.InCluster c (g.lba n) ↔ g.clusterToSector c ≤ n ∧ n < g.clusterToSector c + g.sectorsPerCluster := by
  have hb := clusterToSector_bounds hg hc
  constructor
  · rintro ⟨i, hi, heq⟩
    rw [lba_inj hg.tabled hend (by omega)] at heq
    omega
  · intro h
    refine ⟨n - g.clusterToSector c, by omega, ?_⟩
    rw [Nat.add_sub_cancel' h.1]

theorem not_inCluster_of_ne (hg : g.WellFormed) (hc : g.IsCluster c) (hc' : g.IsCluster c') (h : c ≠ c')
    (hi : i < g.sectorsPerCluster) : ¬g.InCluster c' (g.lba (g.clusterToSector c + i)) := by
  have hb := clusterToSector_bounds hg hc
  rw [inCluster_iff hg hc' (by omega)]
  rcases clusterToSector_disjoint hg hc hc' h with hlt | hlt <;> omega

theorem clear_disk_inCluster (hg : g.WellFormed) (hc : g.IsCluster c) (hi : i < g.sectorsPerCluster) :
    (g.clear c s).disk (g.lba (g.clusterToSector c + i)) = fun _ => 0 :=
  writeSectors_disk hg (clusterToSector_bounds hg hc).2 hi

/-- The volume after `AllocateCluster` has taken the cluster. -/
def allocated (g : Geometry) (c : Nat) (s : Fat) : Fat :=
  g.setTable c g.clusterEnd { s with startSearchCluster := c }

/-- The first free cluster of the search range, which the driver finds when it can read the entries
in front of it. -/
structure FirstFree (g : Geometry) (s : Fat) (c : Nat) : Prop where
  start_le : s.startSearchCluster ≤ c
  lt_total : c < g.totalClusters
  free : g.table s c = 0
  taken : ∀ d, s.startSearchCluster ≤ d → d < c → g.table s d ≠ 0
  readable : ∀ d, s.startSearchCluster ≤ d → d ≤ c → g.Readable d

theorem allocateFrom_eq (hs : s.Works) (hle : cluster ≤ c) (hlt : c < cluster + left)
    (hfree : g.table s c = 0) (htaken : ∀ d, cluster ≤ d → d < c → g.table s d ≠ 0)
    (hread : ∀ d, cluster ≤ d → d ≤ c → g.Readable d) : allocateFrom g left cluster s = .ok
    (c, g.allocated c s) := by
  induction left generalizing cluster with
  | zero => omega
  | succ left ih =>
    rw [allocateFrom, bind_eq (readTable_eq hs (hread cluster (le_refl _) hle))]
    rcases Nat.eq_or_lt_of_le hle with rfl | hlt'
    · rw [if_pos hfree]
      have hw := writeTable_eq (v := g.clusterEnd)
        (show Fat.Works { s with startSearchCluster := cluster } from hs)
        (hread cluster (le_refl _) (le_refl _))
      exact (bind_eq (modify_eq _)).trans (bind_eq hw)
    · rw [if_neg (htaken cluster (le_refl _) hlt')]
      exact ih hlt' (by omega) (fun d hd => htaken d (by omega)) fun d hd => hread d (by omega)

theorem allocateCluster_eq (hs : s.Works) (h : g.FirstFree s c) :
    allocateCluster g s = .ok (c, g.allocated c s) :=
  allocateFrom_eq hs h.start_le (by have := h.lt_total; have := h.start_le; omega) h.free h.taken h.readable

/-- No cluster of the search range is free. -/
def Full (g : Geometry) (s : Fat) : Prop :=
  ∀ d, s.startSearchCluster ≤ d → d < g.totalClusters → g.Readable d ∧ g.table s d ≠ 0

theorem firstFree_or_full (g : Geometry)
    (hread : ∀ d, s.startSearchCluster ≤ d → d < g.totalClusters → g.Readable d) :
    (∃ c, g.FirstFree s c) ∨ g.Full s := by
  classical
  by_cases h : ∃ c, s.startSearchCluster ≤ c ∧ c < g.totalClusters ∧ g.table s c = 0
  · left
    obtain ⟨hle, hlt, hfree⟩ := Nat.find_spec h
    refine ⟨Nat.find h, hle, hlt, hfree, fun d hd hdc htable => ?_, fun d hd hdc =>
      hread d hd (lt_of_le_of_lt hdc hlt)⟩
    exact Nat.find_min h hdc ⟨hd, lt_trans hdc hlt, htable⟩
  · right
    exact fun d hd hdt => ⟨hread d hd hdt, fun htable => h ⟨d, hd, hdt, htable⟩⟩

theorem allocateCluster_full (hs : s.Works) (h : g.Full s) : allocateCluster g s = .ok (0, s) := by
  have hloop : ∀ left cluster, cluster + left ≤ g.totalClusters → s.startSearchCluster ≤ cluster →
      allocateFrom g left cluster s = .ok (0, s) := by
    intro left
    induction left with
    | zero => exact fun _ _ _ => rfl
    | succ left ih =>
      intro cluster hle hstart
      obtain ⟨hread, htaken⟩ := h cluster hstart (by omega)
      rw [allocateFrom, bind_eq (readTable_eq hs hread), if_neg htaken]
      exact ih (cluster + 1) (by omega) (by omega)
  rcases le_total s.startSearchCluster g.totalClusters with hle | hle
  · exact hloop _ _ (by omega) (le_refl _)
  · show allocateFrom g (g.totalClusters - s.startSearchCluster) s.startSearchCluster s = _
    rw [Nat.sub_eq_zero_of_le hle]
    rfl

theorem allocateCluster_crossing (hs : s.Works) (hstart : s.startSearchCluster ≤ d)
    (h2 : 2 ≤ d) (hlt : d < g.totalClusters) (hcross : ¬g.Readable d)
    (htaken : ∀ c, s.startSearchCluster ≤ c → c < d → g.Readable c ∧ g.table s c ≠ 0) :
    allocateCluster g s = .error .memory := by
  have hloop : ∀ left cluster, cluster ≤ d → d < cluster + left → s.startSearchCluster ≤ cluster →
      allocateFrom g left cluster s = .error .memory := by
    intro left
    induction left with
    | zero => exact fun _ _ _ _ => absurd ‹_› (by omega)
    | succ left ih =>
      intro cluster hle hd hcluster
      rw [allocateFrom]
      rcases Nat.eq_or_lt_of_le hle with rfl | hlt'
      · rw [bind_error (readTable_crossing hs h2 (le_of_lt hlt) hcross)]
      · obtain ⟨hread, hne⟩ := htaken cluster hcluster hlt'
        rw [bind_eq (readTable_eq hs hread), if_neg hne]
        exact ih (cluster + 1) hlt' (by omega) (by omega)
  exact hloop _ _ hstart (by omega) (le_refl _)

theorem clusterEnd_mod : g.clusterEnd % 2 ^ g.entryBits = g.clusterEnd := by
  unfold clusterEnd entryBits
  cases g.fatType <;> rfl

theorem lt_clusterEnd (hg : g.WellFormed) (hc : c ≤ g.totalClusters + 1) : c < g.clusterEnd := by
  have h := hg.totalClusters
  unfold clusterEnd
  cases ht : g.fatType <;> simp only [ht] at h ⊢ <;> omega

theorem IsCluster.inside (hc : g.IsCluster c) (hg : g.WellFormed) : c ≠ 0 ∧ c < g.clusterEnd :=
  ⟨by have := hc.1; omega, lt_clusterEnd hg hc.2⟩

theorem clusterEnd_lt : g.clusterEnd < 2 ^ g.entryBits := by
  unfold clusterEnd entryBits
  cases g.fatType <;> decide

theorem mod_entryBits (hg : g.WellFormed) (hc : c ≤ g.totalClusters + 1) : c % 2 ^ g.entryBits = c :=
  mod_eq_of_lt (lt_trans (lt_clusterEnd hg hc) clusterEnd_lt)

theorem FirstFree.read (h : g.FirstFree s c) : g.Readable c := h.readable c h.start_le (le_refl c)

theorem allocated_works (hs : s.Works) : (g.allocated c s).Works := hs

theorem table_allocated (hg : g.WellFormed) (hc : g.Readable c) :
    g.table (g.allocated c s) c = g.clusterEnd := by
  rw [allocated, table_setTable hg.tabled hc, clusterEnd_mod]

theorem table_allocated_ne (hg : g.WellFormed) (hc : g.Readable c) (hc' : c' ≤ g.totalClusters + 1)
    (h : c' ≠ c) : g.table (g.allocated c s) c' = g.table s c' := table_setTable_ne hg.tabled hc hc' h

theorem allocated_disk (hg : g.WellFormed) (hc : g.Readable c) (hn : g.tableEnd ≤ n)
    (hend : n < g.endSector) : (g.allocated c s).disk (g.lba n) = s.disk (g.lba n) :=
  setTable_disk hg.tabled hc hn hend

end Geometry

/-- `Chain g s c l`: the links of the table lead from the cluster `c` through the clusters `l` to a
mark for the end of a chain. -/
inductive Chain (g : Geometry) (s : Fat) : Nat → List Nat → Prop
  | last {c : Nat} : g.IsCluster c → g.clusterEnd ≤ g.table s c → Chain g s c [c]
  | link {c : Nat} {l : List Nat} : g.IsCluster c → Chain g s (g.table s c) l → Chain g s c (c :: l)

/-- `Walk g s c l`: the loop over a chain that starts at `c` goes through the clusters `l`. -/
inductive Walk (g : Geometry) (s : Fat) : Nat → List Nat → Prop
  | stop {c : Nat} : ¬(c ≠ 0 ∧ c < g.clusterEnd) → Walk g s c []
  | step {c next : Nat} {l : List Nat} : c ≠ 0 ∧ c < g.clusterEnd →
      readTable g c s = .ok (next, s) → Walk g s next l → Walk g s c (c :: l)

theorem Chain.isCluster (h : Chain g s c l) : g.IsCluster c := by
  cases h <;> assumption

theorem Chain.mem_isCluster (h : Chain g s c l) : ∀ d ∈ l, g.IsCluster d := by
  induction h with
  | last hc _ => simpa using hc
  | link hc _ ih =>
    exact forall_mem_cons.2 ⟨hc, ih⟩

theorem Chain.head (h : Chain g s c l) : ∃ t, l = c :: t := by
  cases h <;> exact ⟨_, rfl⟩

theorem Chain.unique (hg : g.WellFormed) (h : Chain g s c l) (h' : Chain g s c l') : l = l' := by
  induction h generalizing l' with
  | last _ hend =>
    cases h' with
    | last => rfl
    | link _ hl =>
      have := lt_clusterEnd hg hl.isCluster.2
      omega
  | link _ hl ih =>
    cases h' with
    | last _ hend =>
      have := lt_clusterEnd hg hl.isCluster.2
      omega
    | link _ hl' => rw [ih hl']

theorem Chain.suffix (h : Chain g s c l) (hl : l = l1 ++ d :: l2) : Chain g s d (d :: l2) := by
  induction h generalizing l1 with
  | last hc hend =>
    cases l1 with
    | nil =>
      obtain ⟨rfl, rfl⟩ := cons.inj hl
      exact .last hc hend
    | cons _ l1 =>
      have := (cons.inj hl).2
      simp at this
  | link hc hl' ih =>
    cases l1 with
    | nil =>
      obtain ⟨rfl, rfl⟩ := cons.inj hl
      exact .link hc hl'
    | cons _ l1 => exact ih (cons.inj hl).2

theorem Chain.nodup (hg : g.WellFormed) (h : Chain g s c l) : l.Nodup := by
  induction h with
  | last => simp
  | link hc hl ih =>
    refine nodup_cons.2 ⟨fun hmem => ?_, ih⟩
    obtain ⟨l1, l2, hsplit⟩ := append_of_mem hmem
    -- the part behind the second occurrence would be as long as the whole chain
    have hlen := congrArg length (Chain.unique hg (hl.suffix hsplit) (.link hc hl))
    rw [hsplit] at hlen
    simp at hlen
    omega

theorem Chain.congr (h : Chain g s c l) (heq : ∀ d ∈ l, g.table s' d = g.table s d) : Chain g s' c l := by
  induction h with
  | last hc hend => exact .last hc (by rwa [heq _ mem_cons_self])
  | link hc _ ih =>
    refine .link hc ?_
    rw [heq _ mem_cons_self]
    exact ih (forall_mem_cons.1 heq).2

theorem Chain.taken (h : Chain g s c l) : ∀ d ∈ l, g.table s d ≠ 0 := by
  induction h with
  | last hc hend =>
    intro d hd
    rw [mem_singleton.1 hd]
    have : 0 < g.clusterEnd := by unfold clusterEnd; cases g.fatType <;> decide
    omega
  | link hc hl ih =>
    intro d hd
    rcases mem_cons.1 hd with rfl | hd
    · have := hl.isCluster.1
      omega
    · exact ih d hd

theorem Chain.walk (hg : g.WellFormed) (hs : s.Works) (h : Chain g s c l)
    (hread : ∀ d ∈ l, g.Readable d) : Walk g s c l := by
  induction h with
  | last hc hend =>
    exact .step (hc.inside hg) (readTable_eq hs (hread _ mem_cons_self)) (.stop fun h => not_lt.2 hend h.2)
  | link hc _ ih =>
    exact .step (hc.inside hg) (readTable_eq hs (hread _ mem_cons_self))
      (ih (forall_mem_cons.1 hread).2)

theorem Chain.extend (h : Chain g s c l) (hnodup : l.Nodup)
    (hlast : l.getLast? = some d) (hkeep : ∀ x ∈ l, x ≠ d → g.table s' x = g.table s x)
    (hd : g.table s' d = c') (h' : Chain g s' c' l') : Chain g s' c (l ++ l') := by
  induction h with
  | @last c hc _ =>
    obtain rfl : c = d := by simpa using hlast
    exact .link hc (by rw [hd]; exact h')
  | @link c l hc hl ih =>
    obtain ⟨hnot, hnodup⟩ := nodup_cons.1 hnodup
    have hlast' : l.getLast? = some d := by
      obtain ⟨t, rfl⟩ := hl.head
      rwa [getLast?_cons_cons] at hlast
    have hne : c ≠ d := fun heq => hnot (heq ▸ mem_of_getLast? hlast')
    refine .link hc ?_
    rw [hkeep c mem_cons_self hne]
    exact ih hnodup hlast' (forall_mem_cons.1 hkeep).2

theorem Chain.getLast (h : Chain g s c l) : ∃ d, l.getLast? = some d ∧ g.clusterEnd ≤ g.table s d := by
  induction h with
  | last _ hend => exact ⟨_, rfl, hend⟩
  | link _ hl ih =>
    obtain ⟨d, hd, hend⟩ := ih
    refine ⟨d, ?_, hend⟩
    obtain ⟨t, rfl⟩ := hl.head
    rwa [getLast?_cons_cons]

theorem Chain.length_le (hg : g.WellFormed) (h : Chain g s c l) : l.length ≤ g.totalClusters + 2 := by
  have hsub : l ⊆ range (g.totalClusters + 2) := fun d hd =>
    mem_range.2 (by have := (h.mem_isCluster d hd).2; omega)
  have := (subperm_of_subset (h.nodup hg) hsub).length_le
  rwa [length_range] at this

end HeisenKernel
