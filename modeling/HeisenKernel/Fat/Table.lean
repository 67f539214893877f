import HeisenKernel.Fat

/-!
# The allocation table of a working volume

On a disk whose transfers succeed a call of the driver is a function of the volume.
-/

namespace HeisenKernel

open Lib Nat List Fat

/-- No transfer of the disk fails. -/
def Fat.Works (s : Fat) : Prop := s.failures = fun _ => false

/-- The volume with one sector replaced. -/
def Fat.write (s : Fat) (lba : Nat) (buffer : Buffer) : Fat :=
  { s with disk := Function.update s.disk lba buffer }

variable {s : Fat}

theorem FatM.bind_eq {α β : Type} {x : FatM α} {f : α → FatM β} {s' : Fat} {a : α}
    (h : x s = .ok (a, s')) : (x >>= f) s = f a s' := by
  show (x s >>= fun p => f p.1 p.2) = _
  rw [h]
  rfl

theorem FatM.bind_congr {f : α → FatM β} (h : x s = y s) : (x >>= f) s = (y >>= f) s :=
  congrArg (fun r : Except Fault (α × Fat) => r >>= fun p => f p.1 p.2) h

theorem FatM.bind_error {α β : Type} {x : FatM α} {f : α → FatM β} {e : Fault}
    (h : x s = .error e) : (x >>= f) s = .error e := by
  show (x s >>= fun p => f p.1 p.2) = _
  rw [h]
  rfl

theorem modify_eq (f : Fat → Fat) : (modify f : FatM PUnit) s = .ok ((), f s) := rfl

theorem get_eq : (get : FatM Fat) s = .ok (s, s) := rfl

theorem liftExec_ok (a : α) : liftExec (.ok a) s = .ok (a, s) := rfl

theorem Fat.Works.shift (hs : s.Works) : { s with failures := fun n => s.failures (n + 1) } = s := by
  rcases s with ⟨disk, start, failures, rtc, read⟩
  obtain rfl : failures = fun _ => false := hs
  rfl

theorem readSector_eq (hs : s.Works) (lba : Nat) : readSector lba s = .ok (some (s.disk lba), s) := by
  have h0 : s.failures 0 = false := by rw [hs]
  rw [readSector, h0, hs.shift]
  rfl

theorem Fat.Works.write (hs : s.Works) (lba : Nat) (b : Buffer) : (s.write lba b).Works := hs

theorem writeSector_eq (hs : s.Works) (lba : Nat) (b : Buffer) :
    writeSector lba b s = .ok (true, s.write lba b) := by
  have h0 : s.failures 0 = false := by rw [hs]
  have hw := (hs.write lba b).shift
  rw [writeSector, h0, if_neg Bool.false_ne_true]
  exact congrArg (fun t => Except.ok (true, t)) hw

theorem Fat.write_disk_self (lba : Nat) (b : Buffer) : (s.write lba b).disk lba = b :=
  Function.update_self ..

theorem Fat.write_disk_ne (h : lba' ≠ lba) (b : Buffer) :
    (s.write lba b).disk lba' = s.disk lba' := Function.update_of_ne h ..

namespace Geometry

/-- The volume is laid out as the FAT specification has it: the table, which has an entry for every
cluster, lies in front of the root directory, and that in front of the data; the sectors of the
volume have addresses below `2 ^ 32`. -/
structure WellFormed (g : Geometry) : Prop where
  bytesPerSector : g.bytesPerSector ∈ [512, 1024, 2048, 4096]
  sectorsPerCluster : 0 < g.sectorsPerCluster ∧ g.sectorsPerCluster ≤ 128
  totalClusters : match g.fatType with
    | .fat12 => g.totalClusters < 4085
    | .fat16 => 4085 ≤ g.totalClusters ∧ g.totalClusters < 65525
    | .fat32 => 65525 ≤ g.totalClusters ∧ g.totalClusters < 0x0FFFFFF6
  table : g.fatOffset (g.totalClusters + 1) + g.entryBytes ≤
    (g.firstDataSector - g.rootDirSectors - g.firstFatSector) * g.bytesPerSector
  root : match g.fatType with
    | .fat32 => g.rootDirSectors = 0 ∧ 2 ≤ g.rootDirCluster ∧ g.rootDirCluster ≤ g.totalClusters + 1
    | _ => 0 < g.rootDirSectors ∧ g.rootDirCluster = g.firstDataSector - g.rootDirSectors
  size : g.startLBA + g.firstDataSector + g.totalClusters * g.sectorsPerCluster < 2 ^ 32

/-- Bits of an entry that `ReadTable` returns. -/
def entryBits (g : Geometry) : Nat :=
  match g.fatType with
  | .fat12 => 12
  | .fat16 => 16
  | .fat32 => 28

variable {g : Geometry} {b b' : Buffer} {o v c c' : Nat}

theorem decodeEntry_congr (h : ∀ j < g.entryBytes, b (o + j) = b' (o + j)) :
    g.decodeEntry c b o = g.decodeEntry c b' o := by
  have h0 : b o = b' o := h 0 (by unfold entryBytes; split <;> omega)
  have h1 : b (o + 1) = b' (o + 1) := h 1 (by unfold entryBytes; split <;> omega)
  unfold decodeEntry
  split
  · next ht =>
    have hb : g.entryBytes = 4 := by rw [entryBytes, ht]
    rw [word32, word32, word16_congr h0 h1, word16_congr (h 2 (by omega)) (h 3 (by omega))]
  · rw [word16_congr h0 h1]
  · rw [word16_congr h0 h1]

theorem encodeEntry_ne (h : i < o ∨ o + g.entryBytes ≤ i) : g.encodeEntry c v b o i = b i := by
  unfold entryBytes at h
  unfold encodeEntry
  cases ht : g.fatType <;> simp only [ht] at h ⊢
  case fat32 =>
    rw [putWord32, putWord16_ne (by omega) (by omega), putWord16_ne (by omega) (by omega)]
  case fat16 => exact putWord16_ne (by omega) (by omega)
  case fat12 => split <;> exact putWord16_ne (by omega) (by omega)

theorem decodeEntry_encodeEntry : g.decodeEntry c (g.encodeEntry c v b o) o = v % 2 ^ g.entryBits := by
  unfold decodeEntry encodeEntry entryBits
  cases g.fatType with
  | fat32 =>
    simp only [word32_putWord32]
    omega
  | fat16 => exact word16_putWord16
  | fat12 =>
    dsimp only
    by_cases hc : c % 2 = 1
    · rw [if_pos hc, if_pos hc, word16_putWord16]
      omega
    · rw [if_neg hc, if_neg hc, word16_putWord16]
      omega

theorem decodeEntry_encodeEntry_fat12 (ht : g.fatType = .fat12) (h : c ≠ c') :
    g.decodeEntry c' (g.encodeEntry c v b (c + c / 2)) (c' + c' / 2) = g.decodeEntry c' b (c' + c' / 2) := by
  unfold decodeEntry encodeEntry
  simp only [ht]
  have hword : ∀ i, (b i).toNat < 256 := fun i => (b i).toNat_lt
  rcases Nat.lt_or_ge (c' + c' / 2 + 1) (c + c / 2) with hlt | hge
  · split <;> split <;> rw [word16_putWord16_ne (by omega)]
  rcases Nat.lt_or_ge (c + c / 2 + 1) (c' + c' / 2) with hlt | hge'
  · split <;> split <;> rw [word16_putWord16_ne (by omega)]
  -- the only neighbours left share the byte in the middle
  rcases mod_two_eq_zero_or_one c with hc | hc
  · obtain rfl : c' = c + 1 := by omega
    have ho : c + 1 + (c + 1) / 2 = c + c / 2 + 1 := by omega
    rw [if_pos (by omega), if_neg (by omega), if_pos (by omega), ho]
    simp only [word16, putWord16_apply]
    rw [if_neg (by omega), if_pos trivial, if_neg (by omega), if_neg (by omega), UInt8.toNat_ofNat']
    have := hword (c + c / 2)
    have := hword (c + c / 2 + 1)
    omega
  · obtain _ | d := c
    · omega
    obtain rfl : c' = d := by omega
    have ho : c' + 1 + (c' + 1) / 2 = c' + c' / 2 + 1 := by omega
    rw [if_neg (by omega), if_pos (by omega), if_neg (by omega), ho]
    simp only [word16, putWord16_apply]
    rw [if_neg (by omega), if_neg (by omega), if_pos trivial, UInt8.toNat_ofNat']
    omega

theorem encodeEntry_shift (h : ∀ j < g.entryBytes, b (o + j) = b' (o' + j))
    (hj : j < g.entryBytes) : g.encodeEntry c v b o (o + j) = g.encodeEntry c v b' o' (o' + j) := by
  have hword : word16 b o = word16 b' o' := by
    have h0 := h 0 (by unfold entryBytes; split <;> omega)
    have h1 := h 1 (by unfold entryBytes; split <;> omega)
    rw [add_zero, add_zero] at h0
    rw [word16, word16, h0, h1]
  have hb := h j hj
  unfold encodeEntry
  have key : ∀ w, putWord16 b o w (o + j) = putWord16 b' o' w (o' + j) := by
    intro w
    rw [putWord16_apply, putWord16_apply, hb]
    simp only [Nat.add_eq_left, Nat.add_right_inj]
  cases ht : g.fatType <;> simp only [hword] at hj ⊢
  case fat32 =>
    rw [putWord32, putWord32, putWord16_apply, putWord16_apply (o := o' + 2), key]
    simp only [add_assoc, add_right_inj]
  case fat16 => exact key _
  case fat12 => split <;> exact key _

/-- First sector behind the table. -/
def tableEnd (g : Geometry) : Nat := g.firstDataSector - g.rootDirSectors

/-- First sector behind the volume. -/
def endSector (g : Geometry) : Nat := g.firstDataSector + g.totalClusters * g.sectorsPerCluster

/-- Address of a sector of the volume. -/
def lba (g : Geometry) (sector : Nat) : Nat := u32 (g.startLBA + sector)

/-- The table has an entry for every cluster and lies in front of the root directory and the data, in
sectors whose size is a power of two and whose addresses are below `2 ^ 32`. -/
structure Tabled (g : Geometry) : Prop where
  bytesPerSector : ∃ k, 9 ≤ k ∧ g.bytesPerSector = 2 ^ k
  totalClusters : g.totalClusters < 0x0FFFFFF6
  table : g.fatOffset (g.totalClusters + 1) + g.entryBytes ≤
    (g.tableEnd - g.firstFatSector) * g.bytesPerSector
  size : g.startLBA + g.firstDataSector + g.totalClusters * g.sectorsPerCluster < 2 ^ 32

/-- The entry of the cluster can be read and written by the driver. -/
def Readable (g : Geometry) (c : Nat) : Prop :=
  2 ≤ c ∧ c ≤ g.totalClusters ∧ g.fatOffset c % g.bytesPerSector + g.entryBytes ≤ g.bytesPerSector

instance (g : Geometry) (c : Nat) : Decidable (g.Readable c) := by
  unfold Readable; infer_instance

variable {n m : Nat}

theorem WellFormed.bytes_bounds (hg : g.WellFormed) :
    512 ≤ g.bytesPerSector ∧ g.bytesPerSector ≤ 4096 ∧ g.bytesPerSector % 32 = 0 := by
  have h := hg.bytesPerSector
  simp only [mem_cons, not_mem_nil, or_false] at h
  omega

theorem WellFormed.total_lt (hg : g.WellFormed) : g.totalClusters < 0x0FFFFFF6 := by
  have h := hg.totalClusters
  split at h <;> omega

theorem WellFormed.tabled (hg : g.WellFormed) : g.Tabled := by
  refine ⟨?_, hg.total_lt, hg.table, hg.size⟩
  have h := hg.bytesPerSector
  simp only [mem_cons, not_mem_nil, or_false] at h
  rcases h with h | h | h | h
  · exact ⟨9, by omega, h⟩
  · exact ⟨10, by omega, h⟩
  · exact ⟨11, by omega, h⟩
  · exact ⟨12, by omega, h⟩

theorem Tabled.bytes_pos (hg : g.Tabled) : 0 < g.bytesPerSector := by
  obtain ⟨k, -, hk⟩ := hg.bytesPerSector
  rw [hk]
  exact Nat.two_pow_pos k

theorem WellFormed.firstData_lt (hg : g.WellFormed) : g.firstDataSector < 2 ^ 32 := by
  have := hg.size
  omega

theorem lba_eq (hg : g.Tabled) (h : n < g.endSector) : g.lba n = g.startLBA + n := by
  have := hg.size
  unfold endSector at h
  exact u32_eq (by omega)

theorem lba_inj (hg : g.Tabled) (hn : n < g.endSector) (hm : m < g.endSector) :
    g.lba n = g.lba m ↔ n = m := by
  rw [lba_eq hg hn, lba_eq hg hm]
  omega

theorem fatOffset_eq (hg : g.Tabled) (hc : c ≤ g.totalClusters + 1) :
    g.fatOffset c = match g.fatType with
      | .fat32 => c * 4
      | .fat16 => c * 2
      | .fat12 => c + c / 2 := by
  have ht := hg.totalClusters
  unfold fatOffset
  cases g.fatType <;> exact u32_eq (by omega)

theorem readable_of_ne_fat12 (hg : g.WellFormed) (ht : g.fatType ≠ .fat12) (h2 : 2 ≤ c)
    (hc : c ≤ g.totalClusters) : g.Readable c := by
  refine ⟨h2, hc, ?_⟩
  have hb := hg.bytesPerSector
  have hoff := fatOffset_eq hg.tabled (le_succ_of_le hc)
  simp only [mem_cons, not_mem_nil, or_false] at hb
  rw [hoff, entryBytes]
  cases hft : g.fatType with
  | fat12 => exact absurd hft ht
  | fat16 =>
    dsimp only
    rcases hb with h | h | h | h <;> rw [h] <;> omega
  | fat32 =>
    dsimp only
    rcases hb with h | h | h | h <;> rw [h] <;> omega

theorem entryBytes_pos : 0 < g.entryBytes := by
  unfold entryBytes; split <;> omega

theorem fatOffset_le (hg : g.Tabled) (hc : c ≤ g.totalClusters + 1) :
    g.fatOffset c + g.entryBytes ≤ (g.tableEnd - g.firstFatSector) * g.bytesPerSector := by
  have h := hg.table
  have hle : g.fatOffset c ≤ g.fatOffset (g.totalClusters + 1) := by
    rw [fatOffset_eq hg hc, fatOffset_eq hg (Nat.le_refl _)]
    split <;> omega
  omega

theorem fatSector_lt (hg : g.Tabled) (hc : c ≤ g.totalClusters + 1) (hj : j < g.entryBytes) :
    g.firstFatSector + (g.fatOffset c + j) / g.bytesPerSector < g.tableEnd := by
  have h := fatOffset_le hg hc
  have : (g.fatOffset c + j) / g.bytesPerSector < g.tableEnd - g.firstFatSector :=
    Nat.div_lt_of_lt_mul (by rw [mul_comm]; omega)
  exact add_lt_of_lt_sub' this

theorem tableEnd_pos (hg : g.Tabled) : g.firstFatSector < g.tableEnd := by
  have := fatSector_lt hg (zero_le (g.totalClusters + 1)) (entryBytes_pos)
  exact Nat.lt_of_le_of_lt (Nat.le_add_right ..) this

theorem rootStart_eq (hg : g.WellFormed) : g.rootStart = g.tableEnd := by
  have := tableEnd_pos hg.tabled
  unfold tableEnd at this ⊢
  exact sub32_eq hg.firstData_lt (by omega)

theorem tableEnd_le (g : Geometry) : g.tableEnd ≤ g.firstDataSector := sub_le ..

theorem tableEnd_le_end (g : Geometry) : g.tableEnd ≤ g.endSector := by
  have := tableEnd_le g
  unfold endSector
  omega

theorem decodeEntry_encodeEntry_ne (hg : g.Tabled) (hc : c ≤ g.totalClusters + 1)
    (hc' : c' ≤ g.totalClusters + 1) (h : c ≠ c') :
    g.decodeEntry c' (g.encodeEntry c v b (g.fatOffset c)) (g.fatOffset c') =
      g.decodeEntry c' b (g.fatOffset c') := by
  cases ht : g.fatType with
  | fat12 =>
    have hoff : ∀ {d}, d ≤ g.totalClusters + 1 → g.fatOffset d = d + d / 2 := by
      intro d hd
      rw [fatOffset_eq hg hd, ht]
    rw [hoff hc, hoff hc', decodeEntry_encodeEntry_fat12 ht h]
  | fat16 =>
    have hb : g.entryBytes = 2 := by rw [entryBytes, ht]
    rw [fatOffset_eq hg hc, fatOffset_eq hg hc', ht]
    exact decodeEntry_congr fun j hj => encodeEntry_ne (by dsimp only; omega)
  | fat32 =>
    have hb : g.entryBytes = 4 := by rw [entryBytes, ht]
    rw [fatOffset_eq hg hc, fatOffset_eq hg hc', ht]
    exact decodeEntry_congr fun j hj => encodeEntry_ne (by dsimp only; omega)

/-- The bytes of the table. -/
def tableBytes (g : Geometry) (s : Fat) : Buffer := fun k =>
  s.disk (g.lba (g.firstFatSector + k / g.bytesPerSector)) (k % g.bytesPerSector)

/-- The entry of a cluster in the table of the volume. -/
def table (g : Geometry) (s : Fat) (c : Nat) : Nat :=
  g.decodeEntry c (g.tableBytes s) (g.fatOffset c)

/-- The volume with the entry of a cluster replaced. -/
def setTable (g : Geometry) (c v : Nat) (s : Fat) : Fat :=
  s.write (g.fatLBA c) (g.encodeEntry c v (s.disk (g.fatLBA c)) (g.fatOffset c % g.bytesPerSector))

theorem fatLBA_eq : g.fatLBA c = g.lba (g.firstFatSector + g.fatOffset c / g.bytesPerSector) := rfl

theorem tableBytes_sector
    (h : o % g.bytesPerSector + j < g.bytesPerSector) :
    g.tableBytes s (o + j) =
      s.disk (g.lba (g.firstFatSector + o / g.bytesPerSector)) (o % g.bytesPerSector + j) := by
  have hpos : 0 < g.bytesPerSector := by omega
  have hdiv : (o + j) / g.bytesPerSector = o / g.bytesPerSector := by
    conv_lhs => rw [← div_add_mod o g.bytesPerSector, add_assoc]
    rw [mul_add_div hpos, div_eq_of_lt h, add_zero]
  have hmod : (o + j) % g.bytesPerSector = o % g.bytesPerSector + j := by
    conv_lhs => rw [← div_add_mod o g.bytesPerSector, add_assoc]
    rw [mul_add_mod, mod_eq_of_lt h]
  rw [tableBytes, hdiv, hmod]

theorem table_eq_decode (hc : g.Readable c) :
    g.table s c = g.decodeEntry c (s.disk (g.fatLBA c)) (g.fatOffset c % g.bytesPerSector) := by
  -- the entry is decoded from the same bytes at another place
  have h : ∀ j < g.entryBytes, g.tableBytes s (g.fatOffset c + j) =
      s.disk (g.fatLBA c) (g.fatOffset c % g.bytesPerSector + j) := fun j hj =>
    tableBytes_sector (by have := hc.2.2; omega)
  have h0 := h 0 (by unfold entryBytes; split <;> omega)
  have h1 := h 1 (by unfold entryBytes; split <;> omega)
  have hw : word16 (g.tableBytes s) (g.fatOffset c) =
      word16 (s.disk (g.fatLBA c)) (g.fatOffset c % g.bytesPerSector) := by
    rw [add_zero, add_zero] at h0
    rw [word16, word16, h0, h1]
  unfold table decodeEntry
  cases ht : g.fatType <;> simp only
  case fat32 =>
    have hb : g.entryBytes = 4 := by rw [entryBytes, ht]
    have h2 := h 2 (by omega)
    have h3 := h 3 (by omega)
    have hw' : word16 (g.tableBytes s) (g.fatOffset c + 2) =
        word16 (s.disk (g.fatLBA c)) (g.fatOffset c % g.bytesPerSector + 2) := by
      rw [word16, word16, h2, add_assoc, h3, add_assoc]
    rw [word32, word32, hw, hw']
  case fat16 => exact hw
  case fat12 => rw [hw]

theorem readTable_eq (hs : s.Works) (hc : g.Readable c) : readTable g c s = .ok (g.table s c, s) := by
  have h1 : ¬(c < 2 ∨ g.totalClusters < c) := by have := hc.1; have := hc.2.1; omega
  rw [readTable, if_neg h1, FatM.bind_eq (readSector_eq hs _)]
  dsimp only
  rw [if_pos hc.2.2, table_eq_decode hc]
  rfl

theorem readTable_refused (hc : c < 2 ∨ g.totalClusters < c) : readTable g c s = .ok (0, s) := by
  rw [readTable, if_pos hc]
  rfl

theorem writeTable_eq (hs : s.Works) (hc : g.Readable c) :
    writeTable g c v s = .ok ((), g.setTable c v s) := by
  have h1 : ¬(c < 2 ∨ g.totalClusters < c) := by have := hc.1; have := hc.2.1; omega
  rw [writeTable, if_neg h1, FatM.bind_eq (readSector_eq hs _)]
  dsimp only
  rw [if_pos hc.2.2, FatM.bind_eq (writeSector_eq hs _ _)]
  rfl

theorem writeTable_refused (hc : c < 2 ∨ g.totalClusters < c) : writeTable g c v s = .ok ((), s) := by
  rw [writeTable, if_pos hc]
  rfl

section
variable (hg : g.Tabled) (hc : g.Readable c)
include hg hc

theorem tableBytes_setTable (hk : g.firstFatSector + k / g.bytesPerSector < g.tableEnd) : g.tableBytes
    (g.setTable c v s) k = g.encodeEntry c v (g.tableBytes s) (g.fatOffset c) k := by
  have hpos := hg.bytes_pos
  have hend := tableEnd_le_end g
  have hsec := fatSector_lt hg (le_succ_of_le hc.2.1) (entryBytes_pos)
  rw [add_zero] at hsec
  have hshift : ∀ j < g.entryBytes, s.disk (g.fatLBA c) (g.fatOffset c % g.bytesPerSector + j) =
      g.tableBytes s (g.fatOffset c + j) := fun j hj =>
    (tableBytes_sector (by have := hc.2.2; omega)).symm
  have hodm := div_add_mod (g.fatOffset c) g.bytesPerSector
  have hkdm := div_add_mod k g.bytesPerSector
  rw [tableBytes, setTable, fatLBA_eq]
  by_cases hq : k / g.bytesPerSector = g.fatOffset c / g.bytesPerSector
  · rw [hq, write_disk_self]
    rw [hq] at hkdm
    by_cases hin : g.fatOffset c ≤ k ∧ k < g.fatOffset c + g.entryBytes
    · obtain ⟨j, rfl⟩ := Nat.exists_eq_add_of_le hin.1
      have hmod : (g.fatOffset c + j) % g.bytesPerSector = g.fatOffset c % g.bytesPerSector + j := by omega
      rw [hmod]
      exact encodeEntry_shift hshift (Nat.lt_of_add_lt_add_left hin.2)
    · rw [encodeEntry_ne (by omega), encodeEntry_ne (by omega), tableBytes, hq]
  · have hk' : k < g.fatOffset c ∨ g.fatOffset c + g.entryBytes ≤ k := by
      by_contra hcon
      obtain ⟨j, rfl⟩ := Nat.exists_eq_add_of_le (show g.fatOffset c ≤ k by omega)
      have hlt : g.fatOffset c % g.bytesPerSector + j < g.bytesPerSector := by
        have := hc.2.2
        omega
      apply hq
      conv_lhs => rw [← hodm, add_assoc]
      rw [mul_add_div hpos, div_eq_of_lt hlt, add_zero]
    rw [write_disk_ne, encodeEntry_ne hk', tableBytes]
    rw [Ne, lba_inj hg (by omega) (by omega)]
    omega

theorem table_setTable : g.table (g.setTable c v s) c = v % 2 ^ g.entryBits := by
  have hle : c ≤ g.totalClusters + 1 := le_succ_of_le hc.2.1
  rw [table, ← decodeEntry_encodeEntry]
  exact decodeEntry_congr fun j hj => tableBytes_setTable hg hc (fatSector_lt hg hle hj)

theorem table_setTable_ne (hc' : c' ≤ g.totalClusters + 1) (h : c' ≠ c) : g.table (g.setTable c v s)
    c' = g.table s c' := by
  have hle : c ≤ g.totalClusters + 1 := le_succ_of_le hc.2.1
  exact (decodeEntry_congr fun j hj => tableBytes_setTable hg hc (fatSector_lt hg hc' hj)).trans
    (decodeEntry_encodeEntry_ne hg hle hc' (Ne.symm h))

theorem setTable_disk (hn : g.tableEnd ≤ n)
    (hend : n < g.endSector) : (g.setTable c v s).disk (g.lba n) = s.disk (g.lba n) := by
  have hsec := fatSector_lt hg (le_succ_of_le hc.2.1) (entryBytes_pos)
  rw [add_zero] at hsec
  rw [setTable, fatLBA_eq]
  refine write_disk_ne ?_ _
  rw [Ne, lba_inj hg hend (by omega)]
  omega

end

theorem table_write (hg : g.Tabled) (hc : c ≤ g.totalClusters + 1) (hn : g.tableEnd ≤ n)
    (hend : n < g.endSector) (b : Buffer) : g.table (s.write (g.lba n) b) c = g.table s c := by
  refine decodeEntry_congr fun j hj => ?_
  have hsec := fatSector_lt hg hc hj
  rw [tableBytes, tableBytes, write_disk_ne]
  rw [Ne, lba_inj hg (by have := tableEnd_le_end g; omega) hend]
  omega

theorem readTable_crossing (hs : s.Works) (h2 : 2 ≤ c) (hc : c ≤ g.totalClusters)
    (hcross : ¬ g.Readable c) : readTable g c s = .error .memory := by
  rw [readTable, if_neg (by omega), FatM.bind_eq (readSector_eq hs _)]
  exact congrFun (if_neg fun h => hcross ⟨h2, hc, h⟩) s

theorem writeTable_crossing (hs : s.Works) (h2 : 2 ≤ c) (hc : c ≤ g.totalClusters)
    (hcross : ¬ g.Readable c) : writeTable g c v s = .error .memory := by
  rw [writeTable, if_neg (by omega), FatM.bind_eq (readSector_eq hs _)]
  exact congrFun (if_neg fun h => hcross ⟨h2, hc, h⟩) s

theorem readTable_congr (hs : s.Works) (hs' : s'.Works) (h : g.table s' c = g.table s c)
    : (readTable g c s').map Prod.fst = (readTable g c s).map Prod.fst := by
  by_cases hrefused : c < 2 ∨ g.totalClusters < c
  · rw [readTable_refused hrefused, readTable_refused hrefused]
    rfl
  · by_cases hc : g.Readable c
    · rw [readTable_eq hs hc, readTable_eq hs' hc, h]
      rfl
    · rw [readTable_crossing hs (by omega) (by omega) hc, readTable_crossing hs' (by omega) (by omega) hc]

/-- What `WriteTable(c, v)` has to do: `ReadTable(c)` gives the value in the width of an entry
afterwards, `ReadTable` of the other data clusters gives what it gave before, and no byte of the disk
changes but those of the entry. -/
def WritesEntry (g : Geometry) (s : Fat) (c v : Nat) : Prop :=
  ∃ s', writeTable g c v s = .ok ((), s') ∧
    (∃ s'', readTable g c s' = .ok (v % 2 ^ g.entryBits, s'')) ∧
    (∀ c', 2 ≤ c' → c' ≤ g.totalClusters + 1 → c' ≠ c →
      (readTable g c' s').map Prod.fst = (readTable g c' s).map Prod.fst) ∧
    ∀ n i, ¬ (n = g.fatLBA c ∧ g.fatOffset c % g.bytesPerSector ≤ i ∧
      i < g.fatOffset c % g.bytesPerSector + g.entryBytes) → s'.disk n i = s.disk n i

theorem writesEntry_of_readable (hg : g.Tabled) (hs : s.Works) (hc : g.Readable c) : g.WritesEntry s c v := by
  have hs' : (g.setTable c v s).Works := hs.write ..
  refine ⟨g.setTable c v s, writeTable_eq hs hc, ⟨g.setTable c v s, ?_⟩, ?_, ?_⟩
  · rw [readTable_eq hs' hc, table_setTable hg hc]
  · intro c' h2 hc' hne
    exact readTable_congr hs hs' (table_setTable_ne hg hc hc' hne)
  · intro n i houtside
    by_cases hn : n = g.fatLBA c
    · rw [hn, setTable, write_disk_self]
      exact encodeEntry_ne (by omega)
    · rw [setTable, write_disk_ne hn]

theorem writesEntry_last_iff (hc : g.totalClusters < c) : g.WritesEntry s c v ↔ v % 2 ^ g.entryBits = 0 := by
  have hwrite : writeTable g c v s = .ok ((), s) := writeTable_refused (.inr hc)
  have hread : readTable g c s = .ok (0, s) := readTable_refused (.inr hc)
  constructor
  · rintro ⟨s', hs', ⟨s'', hs''⟩, -, -⟩
    rw [hwrite] at hs'
    cases hs'
    rw [hread, Except.ok.injEq] at hs''
    exact (congrArg Prod.fst hs'').symm
  · intro hv
    exact ⟨s, hwrite, ⟨s, by rw [hread, hv]⟩, fun _ _ _ _ => rfl, fun _ _ _ => rfl⟩

theorem not_writesEntry_crossing (hs : s.Works) (h2 : 2 ≤ c) (hc : c ≤ g.totalClusters)
    (hcross : ¬ g.Readable c) : ¬ g.WritesEntry s c v := by
  rintro ⟨s', hs', -⟩
  rw [writeTable_crossing hs h2 hc hcross] at hs'
  cases hs'

/-- On a disk without failures, for every table and every data cluster: the value that was written is
read back, no other entry and no byte outside the entry changes, exactly if the cluster is not the
last one (for which only zero is right) and its entry does not lie across two sectors. -/
theorem writeTable_readTable_iff (g : Geometry) (hg : g.Tabled) (s : Fat) (hs : s.Works) (c v : Nat)
    (h2 : 2 ≤ c) : g.WritesEntry s c v ↔ g.Readable c ∨ g.totalClusters < c ∧ v % 2 ^ g.entryBits = 0 := by
  by_cases hlast : g.totalClusters < c
  · have hnot : ¬ g.Readable c := fun h => Nat.not_lt.2 h.2.1 hlast
    rw [writesEntry_last_iff hlast]
    simp [hnot, hlast]
  · by_cases hr : g.Readable c
    · exact ⟨fun _ => .inl hr, fun _ => writesEntry_of_readable hg hs hr⟩
    · have hnot := not_writesEntry_crossing (v := v) hs h2 (by omega) hr
      simp [hnot, hr, hlast]

/-- A FAT12 volume of 400 clusters of one sector, with a table of two sectors. -/
def smallFat12 : Geometry := ⟨.fat12, 0, 512, 1, 1, 4, 1, 3, 400⟩

theorem smallFat12_tabled : smallFat12.Tabled :=
  ⟨⟨9, by decide, rfl⟩, by decide, by decide, by decide⟩

/-- A disk of zeros on which no transfer fails. -/
def zeroDisk : Fat := ⟨fun _ _ => 0, 2, fun _ => false, ⟨0, 0, 0, 0, 0, 0⟩, 0⟩

/-- The entry of the cluster 5 is written and read back. -/
theorem writeTable_readTable_iff_five : smallFat12.WritesEntry zeroDisk 5 0xABC :=
  (writeTable_readTable_iff smallFat12 smallFat12_tabled zeroDisk rfl 5 0xABC
    (by decide)).2 (.inl (by decide))

/-- The entry of the last cluster, 401, is not written, and that of the cluster 341, at the end of the
first sector, is written behind the end of the buffer. -/
theorem writeTable_readTable_fails :
    ¬ smallFat12.WritesEntry zeroDisk 401 1 ∧ ¬ smallFat12.WritesEntry zeroDisk 341 1 := by
  constructor
  · rw [writesEntry_last_iff (by decide)]
    decide
  · exact not_writesEntry_crossing rfl (by decide) (by decide) (by decide)

end Geometry

end HeisenKernel
