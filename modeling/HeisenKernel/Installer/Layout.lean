import HeisenKernel.Installer

/-!
# The layout of a formatted partition

The installer computes the size of a table from an estimate of the number of clusters, and
`FAT::Initialize` computes the number of clusters from the size of the tables.
-/

namespace HeisenKernel

open BpbField Geometry Function Nat

variable {length : Nat}

theorem getLsbD_lowMask : ∀ k < 7, ∀ i < 32, (BitVec.ofNat 32 (2 ^ k) - 1#32).getLsbD i = decide (i < k) := by
  decide

theorem and_not_lowMask (hk : k < 7) (w : BitVec 32) :
    (w &&& ~~~(BitVec.ofNat 32 (2 ^ k) - 1#32)).toNat = w.toNat / 2 ^ k * 2 ^ k := by
  have hshift : w &&& ~~~(BitVec.ofNat 32 (2 ^ k) - 1#32) = w >>> k <<< k := by
    refine BitVec.eq_of_getLsbD_eq fun i hi => ?_
    rw [BitVec.getLsbD_and, BitVec.getLsbD_not, getLsbD_lowMask k hk i hi,
      BitVec.getLsbD_shiftLeft, BitVec.getLsbD_ushiftRight]
    rcases lt_or_ge i k with hlow | hhigh
    · simp [hlow]
    · simp [Nat.not_lt.2 hhigh, hi, Nat.add_sub_cancel' hhigh]
  have hle := div_mul_le_self w.toNat (2 ^ k)
  rw [hshift, BitVec.toNat_shiftLeft, BitVec.toNat_ushiftRight, Nat.shiftLeft_eq,
    shiftRight_eq_div_pow, mod_eq_of_lt (lt_of_le_of_lt hle w.isLt)]

theorem alignSector_eq (hk : k < 7) (h : sectors + 2 ^ k < 2 ^ 32) :
    alignSector sectors (2 ^ k) = (sectors + 2 ^ k - 1) / 2 ^ k * 2 ^ k := by
  have hpos := Nat.two_pow_pos k
  have hone : (1 : BitVec 32) = 1#32 := rfl
  have hsum : (BitVec.ofNat 32 sectors + BitVec.ofNat 32 (2 ^ k) - 1#32).toNat = sectors + 2 ^ k - 1 := by
    rw [BitVec.toNat_sub, BitVec.toNat_add, BitVec.toNat_ofNat, BitVec.toNat_ofNat, BitVec.toNat_ofNat]
    omega
  rw [alignSector, hone, and_not_lowMask hk, hsum]

theorem formatSectorsPerCluster_cases (hL : length < 2 ^ 32) :
    formatSectorsPerCluster length = 2 ^ 0 ∧ length < 2 ^ 20 ∨
    ∃ k, 3 ≤ k ∧ k < 7 ∧ formatSectorsPerCluster length = 2 ^ k := by
  have hsize : sizeMB length = length / 1024 * 512 / 1024 := by
    rw [sizeMB, u32_eq (by omega)]
  unfold formatSectorsPerCluster
  split
  · exact .inr ⟨6, by decide, by decide, rfl⟩
  · split
    · exact .inr ⟨5, by decide, by decide, rfl⟩
    · split
      · exact .inr ⟨4, by decide, by decide, rfl⟩
      · split
        · exact .inr ⟨3, by decide, by decide, rfl⟩
        · exact .inl ⟨rfl, by omega⟩

theorem formatSectorsPerCluster_bounds (hL : length < 2 ^ 32) :
    0 < formatSectorsPerCluster length ∧ formatSectorsPerCluster length ≤ 64 := by
  rcases formatSectorsPerCluster_cases hL with ⟨hspc, -⟩ | ⟨k, -, hk, hspc⟩
  · rw [hspc]
    decide
  · rw [hspc]
    exact ⟨Nat.two_pow_pos k, Nat.pow_le_pow_right Nat.two_pos (by omega : k ≤ 6)⟩

theorem formatClusters_eq (hL : length < 2 ^ 32) :
    formatClusters length = (length * 512 + 16) / (formatSectorsPerCluster length * 512 + 8) ∧
    formatClusters length < 2 ^ 29 := by
  have hbounds := formatSectorsPerCluster_bounds hL
  set d := formatSectorsPerCluster length * 512 + 8
  have hdiv : divide64 (u64 (length * 512 + 16)) d = ((length * 512 + 16) / d, (length * 512 + 16) % d) := by
    have hu : u64 (length * 512 + 16) = length * 512 + 16 := mod_eq_of_lt (by omega)
    rw [hu]
    exact divide64_eq (by omega) (by omega) (by omega)
  have hlt : (length * 512 + 16) / d < 2 ^ 29 := by
    rw [div_lt_iff_lt_mul (by omega)]
    rcases formatSectorsPerCluster_cases hL with ⟨hspc, hsmall⟩ | ⟨k, hk, -, hspc⟩
    · omega
    · have : 2 ^ 3 ≤ 2 ^ k := Nat.pow_le_pow_right Nat.two_pos hk
      omega
  have hentries : formatNumOfFats * 8 = 16 := rfl
  have hwords : formatNumOfFats * 4 = 8 := rfl
  rw [formatClusters, hentries, hwords, hdiv, u32_eq (by omega)]
  exact ⟨rfl, hlt⟩

theorem formatSectorsPerFat_bounds (hL : length < 2 ^ 32) :
    formatClusters length + 2 ≤ 128 * formatSectorsPerFat length ∧
    formatSectorsPerFat length < 2 ^ 23 := by
  obtain ⟨-, hn⟩ := formatClusters_eq hL
  have hcdiv : cdiv (u32 (u32 (formatClusters length + 2) * 4)) 512 =
      ((formatClusters length + 2) * 4 + 511) / 512 := by
    have hu : u32 (u32 (formatClusters length + 2) * 4) = (formatClusters length + 2) * 4 := by
      rw [u32_eq (n := formatClusters length + 2) (by omega), u32_eq (by omega)]
    rw [cdiv, hu, u32_eq (by omega), sub32_eq (by omega) (by omega)]
    omega
  obtain ⟨k, hk, hspc⟩ : ∃ k < 7, formatSectorsPerCluster length = 2 ^ k := by
    rcases formatSectorsPerCluster_cases hL with ⟨hspc, -⟩ | ⟨k, -, hk, hspc⟩
    · exact ⟨0, by decide, hspc⟩
    · exact ⟨k, hk, hspc⟩
  have hle : 2 ^ k ≤ 2 ^ 6 := Nat.pow_le_pow_right Nat.two_pos (by omega)
  have hpos := Nat.two_pow_pos k
  rw [formatSectorsPerFat, hcdiv, hspc, alignSector_eq hk (by omega)]
  set x := ((formatClusters length + 2) * 4 + 511) / 512 with hx
  have hup : x ≤ (x + 2 ^ k - 1) / 2 ^ k * 2 ^ k := by
    have := lt_div_mul_add (a := x + 2 ^ k - 1) hpos
    omega
  have hdown : (x + 2 ^ k - 1) / 2 ^ k * 2 ^ k ≤ x + 2 ^ k - 1 := div_mul_le_self _ _
  omega

theorem dataStart_eq : formatReservedSectors + formatNumOfFats * formatSectorsPerFat length =
    32 + 2 * formatSectorsPerFat length := by
  rw [formatReservedSectors, formatNumOfFats]

theorem totalClusters_le (hL : length < 2 ^ 32)
    (hdata : formatReservedSectors + formatNumOfFats * formatSectorsPerFat length < length) :
    (length - (formatReservedSectors + formatNumOfFats * formatSectorsPerFat length)) /
      formatSectorsPerCluster length + 2 ≤ 128 * formatSectorsPerFat length := by
  rw [dataStart_eq] at hdata ⊢
  obtain ⟨hn, -⟩ := formatClusters_eq hL
  obtain ⟨hfat, -⟩ := formatSectorsPerFat_bounds hL
  obtain ⟨hpos, -⟩ := formatSectorsPerCluster_bounds hL
  set spc := formatSectorsPerCluster length
  set t := (length - (32 + 2 * formatSectorsPerFat length)) / spc with ht
  have hts : t * spc ≤ length - (32 + 2 * formatSectorsPerFat length) := div_mul_le_self _ _
  -- otherwise the clusters and their entries would take more than there is
  by_contra hlt
  have hmore : formatClusters length + 1 ≤ t := by omega
  have hest : length * 512 + 16 < (formatClusters length + 1) * (spc * 512 + 8) := by
    rw [hn, add_one_mul]
    exact lt_div_mul_add (by omega)
  have hspan : (formatClusters length + 1) * spc ≤ t * spc := mul_le_mul_right spc hmore
  have hexpand : (formatClusters length + 1) * (spc * 512 + 8) =
      (formatClusters length + 1) * spc * 512 + (formatClusters length + 1) * 8 := by ring
  omega

variable {entry : PartitionTableEntry}

theorem get_biosParameterBlock (f : BpbField) :
    f.get (biosParameterBlock entry rtc) = bpbValue entry rtc f % 256 ^ f.width := by
  rw [biosParameterBlock, get_foldl_put, if_pos (mem_all f)]

/-- The geometry of a partition that was formatted. -/
def formatGeometry (entry : PartitionTableEntry) : Geometry :=
  let dataStart := formatReservedSectors + formatNumOfFats * formatSectorsPerFat entry.length
  let totalClusters := (entry.length - dataStart) / formatSectorsPerCluster entry.length
  { fatType := fatTypeOf totalClusters
    startLBA := entry.startLba
    bytesPerSector := 512
    rootDirSectors := 0
    sectorsPerCluster := formatSectorsPerCluster entry.length
    firstDataSector := dataStart
    firstFatSector := formatReservedSectors
    rootDirCluster := if fatTypeOf totalClusters = .fat32 then 2 else dataStart
    totalClusters }

/-- The data region of the partition is not empty. -/
def HasData (entry : PartitionTableEntry) : Prop :=
  formatReservedSectors + formatNumOfFats * formatSectorsPerFat entry.length < entry.length

theorem geometryOf_eq (hL : entry.length < 2 ^ 32) (hdata : HasData entry)
    (hget : ∀ f : BpbField, f.get bpb = bpbValue entry rtc f % 256 ^ f.width) :
    geometryOf entry.startLba bpb = formatGeometry entry := by
  have hspc : sectorsPerCluster.get bpb = formatSectorsPerCluster entry.length :=
    (hget _).trans (mod_eq_of_lt (lt_of_le_of_lt (formatSectorsPerCluster_bounds hL).2 (by decide)))
  have hfat : sectorsPerFat32.get bpb = formatSectorsPerFat entry.length :=
    (hget _).trans (mod_eq_of_lt (lt_trans (formatSectorsPerFat_bounds hL).2 (by decide)))
  have hlength : totalSectorsBig.get bpb = entry.length := (hget _).trans (mod_eq_of_lt hL)
  have hbytes : bytesPerSector.get bpb = 512 := hget _
  have hreserved : reservedSectors.get bpb = formatReservedSectors := hget _
  have hnum : numOfFats.get bpb = formatNumOfFats := hget _
  have hentries : numDirEntries.get bpb = 0 := hget _
  have hsmall : totalSectorsSmall.get bpb = 0 := hget _
  have hfat12 : sectorsPerFat12.get bpb = 0 := hget _
  have hroot : rootDirCluster.get bpb = 2 := hget _
  have hstart := u32_eq (lt_trans hdata hL)
  have hsub := sub32_eq hL (le_of_lt hdata)
  have hrootSectors : (0 * 32 + (512 - 1)) / 512 = 0 := rfl
  rw [geometryOf, formatGeometry, hspc, hfat, hlength, hbytes, hreserved, hnum, hentries, hsmall, hfat12,
    hroot, if_neg (not_not.2 rfl), if_neg (not_not.2 rfl), hrootSectors, add_zero, hstart, hsub]

theorem formatFsInfo_start : word32 formatFsInfo startSearchOffset = 0xFFFFFFFF := by
  rw [formatFsInfo, startSearchOffset, word32_putWord32_ne (by decide), word32_putWord32]
  rfl

theorem readSector_of_ok (h : s.failures 0 = false) (lba : Nat) :
    readSector lba s = .ok (some (s.disk lba), { s with failures := fun n => s.failures (n + 1) }) := by
  rw [readSector, h]
  rfl

theorem searchStart_unknown (t : FatType) : searchStart t 0xFFFFFFFF = 2 := if_pos (.inl rfl)

theorem mount_of_bootSector (hL : entry.length < 2 ^ 32) (hdata : HasData entry)
    (hread : s.failures 0 = false ∧ s.failures 1 = false)
    (hboot : s.disk entry.startLba = biosParameterBlock entry rtc)
    (hinfo : s.disk (u32 (entry.startLba + 1)) = formatFsInfo) :
    ∃ k, mount entry.startLba s = .ok (some (formatGeometry entry),
      { s with startSearchCluster := 2, failures := fun i => s.failures (i + k) }) := by
  obtain ⟨bpb, hbpb, hget⟩ : ∃ bpb, s.disk entry.startLba = bpb ∧
      ∀ f : BpbField, f.get bpb = bpbValue entry rtc f % 256 ^ f.width :=
    ⟨_, hboot, get_biosParameterBlock⟩
  have hbytes : bytesPerSector.get bpb = 512 := hget _
  have hinfoSector : fsInfoSector.get bpb = 1 := hget _
  have hgeo := geometryOf_eq hL hdata hget
  have hspc : sectorsPerCluster.get bpb ≠ 0 := by
    have hpos := (formatSectorsPerCluster_bounds hL).1
    have heq : (geometryOf entry.startLba bpb).sectorsPerCluster =
        formatSectorsPerCluster entry.length := congrArg sectorsPerCluster hgeo
    exact fun h => ne_of_gt hpos (heq.symm.trans h)
  rw [mount, FatM.bind_eq (readSector_of_ok hread.1 entry.startLba), hbpb]
  dsimp only
  rw [if_neg (by rw [hbytes]; exact not_or.2 ⟨by decide, hspc⟩), hgeo, hinfoSector]
  by_cases htype : (formatGeometry entry).fatType = .fat32
  · refine ⟨2, ?_⟩
    rw [if_pos ⟨htype, one_pos⟩, FatM.bind_eq (readSector_of_ok hread.2 _), hinfo]
    dsimp only
    rw [formatFsInfo_start, searchStart_unknown]
    rfl
  · refine ⟨1, ?_⟩
    rw [if_neg fun h => htype h.1]
    have hsearch : searchStart (formatGeometry entry).fatType 0 = 2 := if_pos (.inr htype)
    rw [hsearch]
    rfl

theorem u32_add_inj (hi : i < 2 ^ 32) (hj : j < 2 ^ 32) (h : u32 (a + i) = u32 (a + j)) : i = j := by
  unfold u32 at h
  omega

theorem formattedDisk_bootSector (disk : Nat → Buffer) :
    formattedDisk entry rtc disk entry.startLba = biosParameterBlock entry rtc := by
  have hne : entry.startLba ≠ u32 (entry.startLba + 1) := by
    unfold u32
    omega
  rw [formattedDisk, update_of_ne hne, update_self]

theorem formattedDisk_fsInfo (disk : Nat → Buffer) :
    formattedDisk entry rtc disk (u32 (entry.startLba + 1)) = formatFsInfo := by
  rw [formattedDisk, update_self]

theorem formattedDisk_rootDir (hstart : entry.startLba < 2 ^ 32) (hL : entry.length < 2 ^ 32)
    (hdata : HasData entry) (disk : Nat → Buffer) :
    formattedDisk entry rtc disk (rootDirLba entry) = formatRootDir := by
  have hsmall : formatReservedSectors + formatNumOfFats * formatSectorsPerFat entry.length < 2 ^ 32 :=
    lt_trans hdata hL
  have hreserved : formatReservedSectors = 32 := rfl
  have haddr : rootDirLba entry = u32 (entry.startLba +
      (formatReservedSectors + formatNumOfFats * formatSectorsPerFat entry.length)) := by
    rw [rootDirLba, add_assoc]
  have hne1 : rootDirLba entry ≠ u32 (entry.startLba + 1) := by
    rw [haddr]
    intro h
    have := u32_add_inj hsmall (by decide) h
    omega
  have hne0 : rootDirLba entry ≠ entry.startLba := by
    rw [haddr]
    intro h
    have := u32_add_inj hsmall (by decide : 0 < 2 ^ 32) (h.trans (u32_eq hstart).symm)
    omega
  rw [formattedDisk, update_of_ne hne1, update_of_ne hne0, update_self]

theorem fatOffset_le {g : Geometry} {sectors c : Nat} (hle : g.totalClusters + 2 ≤ 128 * sectors)
    (hsmall : sectors < 2 ^ 23) (hc : c ≤ g.totalClusters + 1) :
    g.fatOffset c + g.entryBytes ≤ sectors * 512 ∧ ∀ c' < c, g.fatOffset c' < g.fatOffset c := by
  have hu : ∀ n ≤ 4 * c, u32 n = n := fun n hn => u32_eq (by omega)
  unfold fatOffset entryBytes
  split
  · rw [hu (c * 4) (by omega)]
    refine ⟨by omega, fun c' hc' => ?_⟩
    rw [hu (c' * 4) (by omega)]
    omega
  · rw [hu (c * 2) (by omega)]
    refine ⟨by omega, fun c' hc' => ?_⟩
    rw [hu (c' * 2) (by omega)]
    omega
  · rw [hu (c + c / 2) (by omega)]
    refine ⟨by omega, fun c' hc' => ?_⟩
    rw [hu (c' + c' / 2) (by omega)]
    omega

theorem clusterToSector_formatGeometry (hL : entry.length < 2 ^ 32)
    (hc : 2 ≤ c) (hc' : c ≤ (formatGeometry entry).totalClusters + 1) :
    (formatGeometry entry).clusterToSector c = (formatGeometry entry).firstDataSector +
      (c - 2) * formatSectorsPerCluster entry.length ∧
    (formatGeometry entry).firstDataSector + (c - 2) * formatSectorsPerCluster entry.length +
      formatSectorsPerCluster entry.length ≤ entry.length := by
  have hreserved : 32 ≤ (formatGeometry entry).firstDataSector := le_add_right formatReservedSectors _
  have hspan : (formatGeometry entry).totalClusters * formatSectorsPerCluster entry.length ≤
      entry.length - (formatGeometry entry).firstDataSector := div_mul_le_self _ _
  have hmul : (c - 2 + 1) * formatSectorsPerCluster entry.length ≤
      (formatGeometry entry).totalClusters * formatSectorsPerCluster entry.length :=
    mul_le_mul_right _ (by omega)
  rw [add_one_mul] at hmul
  have hpos := (formatSectorsPerCluster_bounds hL).1
  have hc32 : c < 2 ^ 32 := by
    have hle := Nat.le_mul_of_pos_right (c - 2) hpos
    omega
  refine ⟨?_, by omega⟩
  have hspc : (formatGeometry entry).sectorsPerCluster = formatSectorsPerCluster entry.length := rfl
  rw [clusterToSector, hspc, sub32_eq hc32 hc, add_comm, u32_eq (by omega)]

/-- For every size of the disk, that is for every length of the partition, for which the data region is not
empty: the partition that `CreateFatPartition` writes mounts, with an entry in the first table for every
cluster, the reserved sectors, the tables and the clusters one behind the other inside the partition, and
cluster 2 where the root directory was written. -/
theorem createFatPartition_layout (size : Nat) (s : Fat) (hdata : HasData (newPartition size))
    (hok : ∀ i < formatWrites (newPartition size) + 2, s.failures i = false) :
    ∃ s', createFatPartition size s = .ok (newPartition size, s') ∧
    ∃ g s'', mount (newPartition size).startLba s' = .ok (some g, s'') ∧
      -- the first table
      (∀ c, 2 ≤ c → c ≤ g.totalClusters + 1 → g.fatOffset c + g.entryBytes ≤
        formatSectorsPerFat (newPartition size).length * g.bytesPerSector ∧
          ∀ c' < c, g.fatOffset c' < g.fatOffset c) ∧
      -- the regions
      g.firstFatSector = formatReservedSectors ∧
      g.firstDataSector = g.firstFatSector +
        formatNumOfFats * formatSectorsPerFat (newPartition size).length ∧
      (∀ c, 2 ≤ c → c ≤ g.totalClusters + 1 → g.firstDataSector ≤ g.clusterToSector c ∧
        g.clusterToSector c + g.sectorsPerCluster ≤ (newPartition size).length ∧
        ∀ c' < c, 2 ≤ c' → g.clusterToSector c' + g.sectorsPerCluster ≤ g.clusterToSector c) ∧
      -- the root directory
      g.lba (g.clusterToSector 2) = rootDirLba (newPartition size) ∧
      s'.disk (rootDirLba (newPartition size)) = formatRootDir := by
  have hL : (newPartition size).length < 2 ^ 32 := sub32_lt _ _
  have hstart : (newPartition size).startLba < 2 ^ 32 := show 2048 < 2 ^ 32 by decide
  have hrun := createFatPartition_eq size s
  rw [if_pos fun i hi => hok i (by omega)] at hrun
  refine ⟨_, hrun, ?_⟩
  -- from here on it is about any entry
  revert hL hstart hdata hok
  clear hrun
  generalize newPartition size = entry
  intro hdata hok hL hstart
  obtain ⟨k, hmount⟩ := mount_of_bootSector
    (s := s.transferred (formatWrites entry) (formattedDisk entry s.rtc s.disk)) hL hdata
    ⟨hok _ (by omega), hok _ (by omega)⟩ (formattedDisk_bootSector s.disk) (formattedDisk_fsInfo s.disk)
  have htable : (formatGeometry entry).totalClusters + 2 ≤ 128 * formatSectorsPerFat entry.length := by
    rw [formatGeometry]
    exact totalClusters_le hL hdata
  refine ⟨_, _, hmount, fun c _ hc => fatOffset_le htable (formatSectorsPerFat_bounds hL).2 hc, rfl,
    rfl, fun c hc hc' => ?_, ?_, formattedDisk_rootDir hstart hL hdata s.disk⟩
  · obtain ⟨hsector, hend⟩ := clusterToSector_formatGeometry hL hc hc'
    rw [hsector]
    refine ⟨le_add_right _ _, hend, fun b hb hb' => ?_⟩
    obtain ⟨hsector', -⟩ := clusterToSector_formatGeometry hL hb' (by omega)
    have hmul : (b - 2 + 1) * formatSectorsPerCluster entry.length ≤
        (c - 2) * formatSectorsPerCluster entry.length := mul_le_mul_right _ (by omega)
    rw [add_one_mul] at hmul
    rw [hsector', add_assoc]
    exact Nat.add_le_add_left hmul _
  · have hsector : (formatGeometry entry).clusterToSector 2 =
        u32 (formatReservedSectors + formatNumOfFats * formatSectorsPerFat entry.length) := by
      rw [clusterToSector, show sub32 2 2 = 0 from rfl, zero_mul, zero_add]
      rfl
    rw [hsector, u32_eq (lt_trans hdata hL), lba, rootDirLba, add_assoc]
    rfl

/-- A disk of 5096 sectors, whose partition has 1000. -/
theorem createFatPartition_layout_small : HasData (newPartition (5096 * 512)) ∧
    ∃ s', createFatPartition (5096 * 512) zeroDisk = .ok (newPartition (5096 * 512), s') ∧
      s'.disk (rootDirLba (newPartition (5096 * 512))) = formatRootDir := by
  have hlength : (newPartition (5096 * 512)).length = 1000 := by
    show sub32 (sub32 (u32 (divide64 (5096 * 512) 512).1) 2048) _ = 1000
    rw [divide64_eq (by decide) (by decide) (by decide)]
    decide
  have hclusters : formatClusters 1000 = 984 := (formatClusters_eq (by decide)).1
  have hfat : formatSectorsPerFat 1000 = 8 := by
    rw [formatSectorsPerFat, hclusters]
    decide
  have hdata : HasData (newPartition (5096 * 512)) := by
    rw [HasData, hlength, hfat]
    decide
  obtain ⟨s', hrun, -, -, -, -, -, -, -, -, hroot⟩ :=
    createFatPartition_layout (5096 * 512) zeroDisk hdata fun _ _ => rfl
  exact ⟨hdata, s', hrun, hroot⟩

end HeisenKernel
