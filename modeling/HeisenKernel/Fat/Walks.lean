import HeisenKernel.Fat.ReadFile

/-!
# What the walks visit

The loops over a chain look for no cycle, and that over a fixed root directory has its own bounds.
-/

namespace HeisenKernel

open List

/-- The walks from the cluster `c` on go through the clusters of `l` once, `FindEntryStartpoint` also
through those that it adds. -/
structure WalksOnce (g : Geometry) (s : Fat) (c : Nat) (l : List Nat) : Prop where
  nodup : l.Nodup
  distinct : (chainSlots g s l).Pairwise fun p q => ¬p.SamePlace q
  list : ∀ root, g.fixedRoot root = false →
    getDirectoryEntries g c root s = liftExec (listing (chainSlots g s l)) s
  find : ∀ root k, g.fixedRoot root = false → 0 < k → ∃ s' l' r t, Grown g k s l s' l' ∧ l'.Nodup ∧
    findEntryStartpoint g c k root s = .ok (r, t)
  read : ∀ len out, readFileFrom g len walkFuel c (0, out) s =
    .ok ((0, readInto g len (sectorData g s l) out (l.length * g.sectorsPerCluster)), s)

/-- The walks through a fixed root directory go through its first `n` sectors once. -/
structure RootOnce (g : Geometry) (s : Fat) (c n : Nat) (root : Bool) : Prop where
  distinct : (rootSlots g s c n).Pairwise fun p q => ¬p.SamePlace q
  inside : ∀ p ∈ rootSlots g s c n, g.rootStart ≤ p.sector ∧ p.sector < g.rootStart + g.rootDirSectors
  list : (∃ p ∈ rootSlots g s c n, p.slot 0 = 0x00) →
    getDirectoryEntries g c root s = liftExec (listing (rootSlots g s c n)) s
  find : ∀ k pre run post, 0 < k → FirstRun k (rootSlots g s c n) pre run post →
    findEntryStartpoint g c k root s = .ok (some (startpoint run), s)

/-- A FAT16 volume whose root directory is the sector 543. -/
def smallFat16 : Geometry :=
  { smallFat32 with fatType := .fat16, rootDirSectors := 1, totalClusters := 5000 }

/-- The root directory of the volume is full, and the first data sector looks like a directory. -/
def fullRoot : Fat :=
  { smallVolume [] with
    disk := fun lba => sectorOf (if lba = 543 then replicate 16 labelSlot
      else if lba = 544 then [newEntry (smallVolume []).rtc letterName 0 3] else []) }

end HeisenKernel
