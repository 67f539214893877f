import HeisenKernel.Fat.LastCluster

/-!
# ReadFile

`ReadFile` copies all sectors of the chain of a file to the buffer of the caller, one behind the
other; the size of the file does not end the loop. `readInto` is the buffer after some sectors
(`readFile_eq`).
-/

namespace HeisenKernel

open Lib Nat FatM

/-- The buffer of the caller of `ReadFile` after `j` sectors with the contents `data`. -/
def readInto (g : Geometry) (len : Nat) (data : Nat → Buffer) (out : Buffer) : Nat → Buffer
  | 0 => out
  | j + 1 => copyInto (readInto g len data out j) (u32 (j * g.bytesPerSector)) (sectorLength g len j) (data j)

/-- The contents of the sectors of a chain. -/
def sectorData (g : Geometry) (s : Fat) (l : List Nat) (j : Nat) : Buffer :=
  s.disk (g.lba (g.clusterToSector (l.getD (j / g.sectorsPerCluster) 0) + j % g.sectorsPerCluster))

variable {g : Geometry} {s : Fat} {len i c fuel : Nat} {data : Nat → Buffer} {out : Buffer} {l : List Nat}

theorem readClusterSectors_eq (hs : s.Works) (c : Nat)
    (hdata : ∀ k < g.sectorsPerCluster, s.disk (g.lba (g.clusterToSector c + k)) =
      data (i * g.sectorsPerCluster + k)) :
    readClusterSectors g len (g.clusterToSector c) (u32 (i * g.sectorsPerCluster * g.bytesPerSector),
        readInto g len data out (i * g.sectorsPerCluster)) s =
      .ok (.inl (u32 ((i + 1) * g.sectorsPerCluster * g.bytesPerSector),
        readInto g len data out ((i + 1) * g.sectorsPerCluster)), s) := by
  have hrange : ∃ a t, readClusterSectors g len (g.clusterToSector c)
      (u32 (i * g.sectorsPerCluster * g.bytesPerSector),
        readInto g len data out (i * g.sectorsPerCluster)) s = .ok (.inl a, t) ∧
      a = (u32 ((i * g.sectorsPerCluster + g.sectorsPerCluster) * g.bytesPerSector),
        readInto g len data out (i * g.sectorsPerCluster + g.sectorsPerCluster)) ∧ t = s := by
    refine forReturn_range (I := fun k a t =>
      a = (u32 ((i * g.sectorsPerCluster + k) * g.bytesPerSector),
        readInto g len data out (i * g.sectorsPerCluster + k)) ∧ t = s) ⟨rfl, rfl⟩ ?_
    rintro k hk a t ⟨rfl, rfl⟩
    refine ⟨_, t, bind_eq (readSector_eq hs _), ?_, rfl⟩
    have hnext : u32 (u32 ((i * g.sectorsPerCluster + k) * g.bytesPerSector) + g.bytesPerSector) =
        u32 ((i * g.sectorsPerCluster + (k + 1)) * g.bytesPerSector) := by
      rw [u32_add_u32, ← add_assoc, succ_mul]
    have hsector := hdata k hk
    rw [Geometry.lba] at hsector
    rw [hnext, hsector]
    rfl
  obtain ⟨a, t, hloop, rfl, rfl⟩ := hrange
  rw [succ_mul]
  exact hloop

theorem readFileFrom_eq (hs : s.Works) (hwalk : Walk g s c l) (hfuel : l.length < fuel)
    (hdata : ∀ j d, l[j]? = some d → ∀ k < g.sectorsPerCluster,
      s.disk (g.lba (g.clusterToSector d + k)) = data ((i + j) * g.sectorsPerCluster + k)) :
    readFileFrom g len fuel c (u32 (i * g.sectorsPerCluster * g.bytesPerSector),
        readInto g len data out (i * g.sectorsPerCluster)) s =
      .ok ((0, readInto g len data out ((i + l.length) * g.sectorsPerCluster)), s) := by
  induction hwalk generalizing i fuel with
  | stop hstop =>
    obtain _ | fuel := fuel
    · omega
    rw [readFileFrom, if_neg hstop]
    rfl
  | @step c next l hc htable _ ih =>
    obtain _ | fuel := fuel
    · omega
    have hcluster := hdata 0 c rfl
    rw [add_zero] at hcluster
    rw [readFileFrom, if_pos hc, bind_eq (readClusterSectors_eq hs c hcluster)]
    dsimp only
    rw [bind_eq htable, ih (by simpa using hfuel) fun j d hd => ?_, List.length_cons,
      add_assoc i 1, add_comm 1]
    have hnext := hdata (j + 1) d hd
    rwa [← add_assoc, add_right_comm] at hnext

theorem getFileSize_eq (hentry : getEntryByPath g path s = .ok (some e, s))
    (hfile : e.entry.isDirectory = false) : getFileSize g path s = .ok (e.entry.fileSize, s) := by
  rw [getFileSize, bind_eq hentry]
  simp only [hfile]
  rfl

theorem readFileFrom_sectors (hg : g.WellFormed) (hs : s.Works) (hwalk : Walk g s c l)
    (hfuel : l.length < fuel) (out : Buffer) : readFileFrom g len fuel c (0, out) s =
      .ok ((0, readInto g len (sectorData g s l) out (l.length * g.sectorsPerCluster)), s) := by
  have hloop := @readFileFrom_eq g s len 0 c fuel (sectorData g s l) out l hs hwalk
    hfuel (by
      intro j d hd k hk
      rw [zero_add, sectorData, mul_comm j, mul_add_div hg.sectorsPerCluster.1,
        div_eq_of_lt hk, add_zero, mul_add_mod, mod_eq_of_lt hk, List.getD, hd]
      rfl)
  rw [zero_add, zero_mul, zero_mul] at hloop
  exact hloop

theorem readFile_eq (hg : g.WellFormed) (hs : s.Works)
    (hentry : getEntryByPath g path s = .ok (some e, s)) (hfile : e.entry.isDirectory = false)
    (hsize : e.entry.fileSize = len) (hwalk : Walk g s e.entry.cluster l)
    (hfuel : l.length < walkFuel) (out : Buffer) :
    readFile g path out len s =
      .ok ((0, readInto g len (sectorData g s l) out (l.length * g.sectorsPerCluster)), s) := by
  have hlength : readLength g path len s = .ok (len, s) := by
    unfold readLength
    split
    · rw [getFileSize_eq hentry hfile, hsize]
    · rfl
  rw [readFile, bind_eq hlength, bind_eq hentry]
  simp only [hfile]
  exact readFileFrom_sectors hg hs hwalk hfuel out

variable {j : Nat} {buffer : Buffer}

theorem sectorLength_of_le (hlen : len < 2 ^ 32) (h : j * g.bytesPerSector ≤ len) :
    u32 (j * g.bytesPerSector) = j * g.bytesPerSector ∧
      sectorLength g len j = min (len - j * g.bytesPerSector) g.bytesPerSector := by
  have hu := u32_eq (lt_of_le_of_lt h hlen)
  rw [sectorLength, hu, sub32_eq hlen h]
  exact ⟨rfl, rfl⟩

theorem sectorLength_pos (hg : g.WellFormed) (h : u32 (j * g.bytesPerSector) ≠ len)
    (hlen : len < 2 ^ 32) : 0 < sectorLength g len j := by
  have hb := hg.bytes_bounds
  have hlt := u32_lt (j * g.bytesPerSector)
  unfold sectorLength sub32
  omega

theorem readInto_eq (hlen : len < 2 ^ 32) (hstart : ∀ j < n, j * g.bytesPerSector ≤ len)
    (hdata : ∀ j < n, ∀ k < g.bytesPerSector, j * g.bytesPerSector + k < len →
      data j k = buffer (j * g.bytesPerSector + k)) (out : Buffer) (i : Nat) :
    readInto g len data out n i =
      if i < min len (n * g.bytesPerSector) then buffer i else out i := by
  induction n with
  | zero => simp [readInto]
  | succ n ih =>
    obtain ⟨hu, hlength⟩ := sectorLength_of_le hlen (hstart n (lt_succ_self n))
    rw [readInto, copyInto, hu, hlength, ih (fun j hj => hstart j (by omega)) fun j hj => hdata j (by omega)]
    have hle := hstart n (lt_succ_self n)
    have hlast := hdata n (lt_succ_self n)
    rw [succ_mul]
    generalize n * g.bytesPerSector = m at hle hlast ⊢
    split
    · next hin =>
      rw [hlast (i - m) (by omega) (by omega), if_pos (by omega), Nat.add_sub_cancel' hin.1]
    · next hout => exact if_congr (by omega) rfl rfl

theorem readInto_behind (hg : g.WellFormed) (hlen : len < 2 ^ 32) (hbehind : len < n * g.bytesPerSector)
    (hend : n * g.bytesPerSector < 2 ^ 32) (data : Nat → Buffer) (out : Buffer) : readInto g len data out
    (n + 1) (n * g.bytesPerSector) = data n 0 := by
  have hu := u32_eq hend
  have hpos := @sectorLength_pos g len n hg (by omega) hlen
  rw [readInto, copyInto, hu, if_pos (by omega), Nat.sub_self]

theorem readInto_add (k : Nat) (h : ∀ j, n ≤ j → j < n + k → i < u32 (j * g.bytesPerSector)) :
    readInto g len data out (n + k) i = readInto g len data out n i := by
  induction k with
  | zero => rfl
  | succ k ih =>
    have hj := h (n + k) (by omega) (by omega)
    rw [← add_assoc, readInto, copyInto, if_neg (by omega)]
    exact ih fun j hn hk => h j hn (by omega)

theorem callerRead_le (hlen : len < 2 ^ 32) (hb : b ≤ len)
    (hstart : ∀ j < n, j * g.bytesPerSector ≤ len) : callerRead g len b n ≤ len := by
  induction n with
  | zero => exact hb
  | succ n ih =>
    have hle := hstart n (lt_succ_self n)
    obtain ⟨hu, hlength⟩ := sectorLength_of_le hlen hle
    have ih := ih fun j hj => hstart j (by omega)
    rw [callerRead, hu, hlength]
    split <;> omega

theorem lt_callerRead (hg : g.WellFormed) (hlen : len < 2 ^ 32) (hbehind : len < n * g.bytesPerSector)
    (hend : n * g.bytesPerSector < 2 ^ 32) : len < callerRead g len b (n + 1) := by
  have hu := u32_eq hend
  have hpos := @sectorLength_pos g len n hg (by omega) hlen
  rw [callerRead, hu, if_neg (by omega)]
  omega

end HeisenKernel
