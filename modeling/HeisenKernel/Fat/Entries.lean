import HeisenKernel.Fat.LongNames

/-!
# New and changed entries

The fields of the slots that the driver writes: the short entry of a new file, which stands behind
the slots of its long name, the `.` and `..` entries of a new directory, and the entry of a file
whose content was replaced.
-/

namespace HeisenKernel

open CString UInt8 List

theorem forall_byte {P : UInt8 → Prop} (h : ∀ n : Fin 256, P (UInt8.ofNat n)) (c : UInt8) : P c := by
  have := h ⟨c.toNat, c.toNat_lt⟩
  rwa [UInt8.ofNat_toNat] at this

theorem uppercase_ne (c : UInt8) (h : 32 ≤ c ∧ c ≤ 126 ∧ c ≠ 0x2E) :
    uppercase c ≠ 0x00 ∧ uppercase c ≠ 0xE5 ∧ uppercase c ≠ 0x2E ∧ uppercase c ≠ 0x05 := by
  revert h
  exact forall_byte (P := fun c => 32 ≤ c ∧ c ≤ 126 ∧ c ≠ 0x2E →
    uppercase c ≠ 0x00 ∧ uppercase c ≠ 0xE5 ∧ uppercase c ≠ 0x2E ∧
      uppercase c ≠ 0x05) (by decide +kernel) c

theorem createShortFilename_first (h : IsFileName name) :
    createShortFilename name 0 ≠ 0x00 ∧ createShortFilename name 0 ≠ 0xE5 ∧
      createShortFilename name 0 ≠ 0x2E ∧ createShortFilename name 0 ≠ 0x05 := by
  obtain ⟨c, rest, rfl⟩ := exists_cons_of_length_pos h.1
  obtain ⟨h32, h126, -⟩ := h.2.2 c mem_cons_self
  by_cases hdot : c = 0x2E
  · -- a name that begins with a dot has an empty main part
    subst hdot
    have : createShortFilename (0x2E :: rest) 0 = 0x20 := by
      simp [createShortFilename, indexOf, indexOfFrom]
    rw [this]
    decide
  · have hfirst : createShortFilename (c :: rest) 0 = uppercase c ∨
        createShortFilename (c :: rest) 0 = 0x20 := by
      generalize hflen : (indexOf (c :: rest) 0x2E 0).getD (c :: rest).length = flen
      have hdef : createShortFilename (c :: rest) 0 =
          if 8 < flen then uppercase c
          else if 0 < flen then uppercase c else 0x20 := by
        rw [← hflen]
        rfl
      rw [hdef]
      split
      · exact .inl rfl
      split
      · exact .inl rfl
      · exact .inr rfl
    rcases hfirst with h | h <;> rw [h]
    · exact uppercase_ne c ⟨h32, h126, hdot⟩
    · decide

variable {size : Nat}

theorem directoryEntry_fileName : (directoryEntry name attributes tenth creationTime creationDate
    accessDate cluster modifyTime modifyDate size).fileName = name := by
  funext k
  exact dif_pos k.isLt

theorem directoryEntry_cluster (h : cluster < 2 ^ 32) : (directoryEntry name attributes tenth
    creationTime creationDate accessDate cluster modifyTime modifyDate size).cluster = cluster := by
  show (ofNat cluster).toNat + 256 * (ofNat (cluster / 256)).toNat +
    65536 * ((ofNat (cluster / 65536)).toNat + 256 * (ofNat (cluster / 65536 / 256)).toNat) = cluster
  simp only [toNat_ofNat']
  omega

theorem newEntry_fileName : (newEntry rtc name attr cluster).fileName = createShortFilename name :=
  directoryEntry_fileName

theorem newEntry_isDirectory : (newEntry rtc name attr cluster).isDirectory = (attr &&& 0x10 != 0) :=
  rfl

theorem newEntry_cluster (h : cluster < 2 ^ 32) : (newEntry rtc name attr cluster).cluster = cluster :=
  directoryEntry_cluster h

theorem newEntry_first (h : IsFileName name) : newEntry rtc name attr cluster 0 ≠ 0x00 ∧
    newEntry rtc name attr cluster 0 ≠ 0xE5 ∧ newEntry rtc name attr cluster 0 ≠ 0x2E ∧
      newEntry rtc name attr cluster 0 ≠ 0x05 := createShortFilename_first h

theorem newEntry_isShortEntry (h : IsFileName name) (hattr : attr ≠ 0x08 ∧ attr ≠ 0x0F) :
    IsShortEntry (newEntry rtc name attr cluster) :=
  ⟨⟨(newEntry_first h).1, (newEntry_first h).2.1, (newEntry_first h).2.2.1⟩, hattr⟩

/-- The slots for a new file: those of its long name, and its short entry. -/
def newSlots (rtc : RealTimeClock) (name : List UInt8) (attr : UInt8) (target : Nat) : List Slot :=
  createLFNEntriesFromName name (requiredLFNEntries name.length)
    (checksum (createShortFilename name)) ++ [newEntry rtc name attr target]

theorem newSlots_length (name : List UInt8) (rtc : RealTimeClock) (attr : UInt8) (target : Nat) :
    (newSlots rtc name attr target).length = requiredLFNEntries name.length + 1 := by
  rw [newSlots, length_append, createLFNEntriesFromName_length, length_singleton]

variable {e : Slot} {time date : Nat}

theorem modified_of_lt (h : k.val < 22) : e.modified size time date k = e k := if_pos h

theorem modified_fileName : (e.modified size time date).fileName = e.fileName := by
  funext k
  exact modified_of_lt (by show k.val < 22; omega)

theorem modified_attributes : (e.modified size time date).attributes = e.attributes := rfl

theorem modified_isDirectory : (e.modified size time date).isDirectory = e.isDirectory := rfl

theorem modified_cluster : (e.modified size time date).cluster = e.cluster := rfl

theorem modified_fileSize (h : size < 2 ^ 32) : (e.modified size time date).fileSize = size := by
  show (ofNat size).toNat + 256 * (ofNat (size / 256)).toNat +
    65536 * ((ofNat (size / 65536)).toNat + 256 * (ofNat (size / 65536 / 256)).toNat) = size
  simp only [toNat_ofNat']
  omega

theorem slotAt_putSlot : slotAt (putSlot b o e) o = e := by
  funext k
  rw [slotAt, putSlot, dif_pos ⟨by omega, by omega⟩]
  congr 1
  exact Fin.ext (Nat.add_sub_cancel_left ..)

theorem slotAt_putSlot_ne (h : o' + 32 ≤ o ∨ o + 32 ≤ o') : slotAt (putSlot b o e) o' = slotAt b o' := by
  funext k
  rw [slotAt, putSlot, dif_neg (by omega)]
  rfl

end HeisenKernel
