import Mathlib.Data.List.GetD
import HeisenKernel.Fat.Listing

/-!
# Long names

The slots of a long name stand in front of its short entry, the last thirteen characters first, and
each slot carries its number and the checksum of the short name (`NameSlots`).
-/

namespace HeisenKernel

open Lib List DirSlot CString Nat

/-- The slot holds the `n`-th thirteen characters of the name, up to the terminating zero. -/
structure IsNameSlot (name : List UInt8) (sum : UInt8) (num n : Nat) (e : Slot) : Prop where
  index : e 0 = lfnIndex num n
  attributes : e.attributes = 0x0F
  checksum : e 13 = sum
  chars : ∀ k < 13, 13 * n + k ≤ name.length → e.nameChars.getD k 0 = nameChar name (13 * n + k)

/-- The slots hold the name, the last characters first. -/
def NameSlots (name : List UInt8) (sum : UInt8) (num : Nat) : List Slot → Prop
  | [] => True
  | e :: l => IsNameSlot name sum num l.length e ∧ NameSlots name sum num l

/-- The characters of a file name: printable, and none of them a separator of paths. -/
def IsFileName (name : List UInt8) : Prop :=
  0 < name.length ∧ name.length ≤ 255 ∧ ∀ c ∈ name, 32 ≤ c ∧ c ≤ 126 ∧ c ≠ pathSeparator

variable {name : List UInt8} {sum : UInt8} {num n : Nat}

theorem lfnIndex_low (hn : n < num) (hnum : num ≤ 20) : (lfnIndex num n &&& 0x0F).toNat = (n + 1) % 16 := by
  have h : ∀ num < 21, ∀ n < num, (lfnIndex num n &&& 0x0F).toNat = (n + 1) % 16 := by decide
  exact h num (by omega) n hn

theorem lfnIndex_ne (hn : n < num) (hnum : num ≤ 20) :
    lfnIndex num n ≠ 0x00 ∧ lfnIndex num n ≠ 0xE5 ∧ lfnIndex num n ≠ 0x2E := by
  have h : ∀ num < 21, ∀ n < num,
      lfnIndex num n ≠ 0x00 ∧ lfnIndex num n ≠ 0xE5 ∧ lfnIndex num n ≠ 0x2E := by decide
  exact h num (by omega) n hn

theorem lfnIndex_eq_five (hn : n < num) (hnum : num ≤ 20) : lfnIndex num n = 0x05 ↔ n = 4 ∧ 5 < num := by
  have h : ∀ num < 21, ∀ n < num, (lfnIndex num n = 0x05 ↔ n = 4 ∧ 5 < num) := by decide
  exact h num (by omega) n hn

theorem requiredLFNEntries_bounds (h : 0 < len) : 0 < requiredLFNEntries len ∧
    len ≤ 13 * requiredLFNEntries len ∧ 13 * requiredLFNEntries len < len + 13 := by
  unfold requiredLFNEntries
  split <;> omega

theorem NameSlots.mem (h : NameSlots name sum num l) (he : e ∈ l) :
    ∃ n < l.length, IsNameSlot name sum num n e := by
  induction l with
  | nil => cases he
  | cons e' l ih =>
    rcases mem_cons.1 he with rfl | he
    · exact ⟨l.length, by simp, h.1⟩
    · obtain ⟨n, hn, hslot⟩ := ih h.2 he
      exact ⟨n, by simp; omega, hslot⟩

theorem NameSlots.exists (h : NameSlots name sum num l) (hn : n < l.length) :
    ∃ e ∈ l, IsNameSlot name sum num n e := by
  induction l with
  | nil => exact absurd hn (not_lt_zero n)
  | cons e' l ih =>
    rcases lt_or_ge n l.length with hlt | hge
    · obtain ⟨e, he, hslot⟩ := ih h.2 hlt
      exact ⟨e, mem_cons_of_mem _ he, hslot⟩
    · obtain rfl : n = l.length := by simp at hn; omega
      exact ⟨e', mem_cons_self, h.1⟩

theorem lfnEntryOfName_isNameSlot (name : List UInt8) (num : Nat) (sum : UInt8) (n : Nat) :
    IsNameSlot name sum num n (lfnEntryOfName name num sum n) where
  index := rfl
  attributes := rfl
  checksum := rfl
  chars := by
    intro k hk _
    match k, hk with
    | 0, _ | 1, _ | 2, _ | 3, _ | 4, _ | 5, _ | 6, _ | 7, _ | 8, _ | 9, _ | 10, _ | 11, _
    | 12, _ => rfl

theorem createLFNEntries_succ (name : List UInt8) (num : Nat) (sum : UInt8) (k : Nat) :
    ((List.range (k + 1)).map (lfnEntryOfName name num sum)).reverse =
      lfnEntryOfName name num sum k :: ((List.range k).map (lfnEntryOfName name num sum)).reverse := by
  rw [range_succ, map_append, reverse_append]
  rfl

theorem createLFNEntriesFromName_length (name : List UInt8) (num : Nat) (sum : UInt8) :
    (createLFNEntriesFromName name num sum).length = num := by
  simp [createLFNEntriesFromName]

theorem createLFNEntriesFromName_nameSlots (name : List UInt8) (num : Nat) (sum : UInt8) :
    NameSlots name sum num (createLFNEntriesFromName name num sum) := by
  have h : ∀ k, NameSlots name sum num ((range k).map (lfnEntryOfName name num sum)).reverse := by
    intro k
    induction k with
    | zero => trivial
    | succ k ih =>
      rw [createLFNEntries_succ]
      refine ⟨?_, ih⟩
      have hlen : ((range k).map (lfnEntryOfName name num sum)).reverse.length = k := by simp
      rw [hlen]
      exact lfnEntryOfName_isNameSlot ..
  exact h num

theorem overwrite_length (h : o + bytes.length ≤ b.length) : (overwrite b o bytes).length = b.length := by
  rw [overwrite, length_append, length_append, length_take, length_drop]
  omega

theorem overwrite_getD (h : o + bytes.length ≤ b.length)
    (p : Nat) : (overwrite b o bytes).getD p 0 =
      if o ≤ p ∧ p < o + bytes.length then bytes.getD (p - o) 0 else b.getD p 0 := by
  have htake : (b.take o).length = o := by rw [length_take]; omega
  rw [overwrite, append_assoc]
  rcases lt_or_ge p o with hp | hp
  · rw [if_neg (by omega), getD_append _ _ _ _ (by omega), getD_eq_getElem?_getD,
      getElem?_take_of_lt hp, ← getD_eq_getElem?_getD]
  rw [getD_append_right _ _ _ _ (by omega), htake]
  rcases lt_or_ge p (o + bytes.length) with hp' | hp'
  · rw [if_pos ⟨hp, hp'⟩, getD_append _ _ _ _ (by omega)]
  · rw [if_neg (by omega), getD_append_right _ _ _ _ (by omega), getD_eq_getElem?_getD,
      getElem?_drop, ← getD_eq_getElem?_getD]
    congr 1
    omega

theorem nameChars_length (e : Slot) : e.nameChars.length = 13 := rfl

theorem parseLFNFrom_eq (h : NameSlots name sum num l) (hl : l.length ≤ 15) (hnum : num ≤ 15)
    (hle : l.length ≤ num) (hb : b.length = num * 13 + 1) :
    ∃ b', parseLFNFrom sum l b = .ok b' ∧ b'.length = b.length ∧
      (∀ p < 13 * l.length, p ≤ name.length → b'.getD p 0 = copyChar (nameChar name p)) ∧
      ∀ p, 13 * l.length ≤ p → b'.getD p 0 = b.getD p 0 := by
  induction l generalizing b with
  | nil => exact ⟨b, rfl, rfl, fun p hp => absurd hp (not_lt_zero p), fun _ _ => rfl⟩
  | cons e l ih =>
    obtain ⟨hslot, hrest⟩ := h
    rw [length_cons] at hl hle
    have hidx : (e 0 &&& 0x0F).toNat = l.length + 1 := by
      rw [hslot.index, lfnIndex_low (by omega) (by omega)]
      omega
    have hfit : (l.length + 1 - 1) * 13 + (e.nameChars.map copyChar).length ≤ b.length := by
      rw [length_map, nameChars_length]
      omega
    have hlen := overwrite_length hfit
    obtain ⟨b', hb', hlen', hin, hout⟩ := ih hrest (by omega) (by omega) (hlen.trans hb)
    have hstep : parseLFNFrom sum (e :: l) b = .ok b' := by
      rw [parseLFNFrom, if_neg (not_not.2 hslot.checksum)]
      rw [hidx, if_pos ⟨by omega, by omega⟩, hb']
    refine ⟨b', hstep, hlen'.trans hlen, fun p hp hpn => ?_, fun p hp => ?_⟩
    · rcases lt_or_ge p (13 * l.length) with hlt | hge
      · exact hin p hlt hpn
      · rw [length_cons] at hp
        obtain ⟨k, rfl⟩ := Nat.exists_eq_add_of_le hge
        rw [hout _ hge, overwrite_getD hfit, length_map, nameChars_length,
          if_pos ⟨by omega, by omega⟩]
        have hk : 13 * l.length + k - (l.length + 1 - 1) * 13 = k := by omega
        rw [hk, ← hslot.chars k (by omega) hpn]
        simp only [getD_eq_getElem?_getD, getElem?_map]
        rw [getElem?_eq_getElem (by rw [nameChars_length]; omega)]
        rfl
    · rw [length_cons] at hp
      rw [hout p (by omega), overwrite_getD hfit, length_map, nameChars_length,
        if_neg (by omega)]

theorem ofBuffer_eq (hlen : name.length < b.length) (h : ∀ p ≤ name.length, b.getD p 0 = nameChar name p)
    (hpos : ∀ c ∈ name, c ≠ 0) : ofBuffer b = name := by
  induction name generalizing b with
  | nil =>
    cases b with
    | nil => rfl
    | cons x b =>
      have h0 : x = 0 := h 0 (zero_le _)
      rw [ofBuffer, takeWhile_cons, h0]
      rfl
  | cons c name ih =>
    obtain _ | ⟨x, b⟩ := b
    · exact absurd hlen (not_lt_zero _)
    have h0 : x = c := h 0 (zero_le _)
    have hc := hpos c mem_cons_self
    have hrest : ofBuffer b = name := by
      refine ih (by simpa using hlen) (fun p hp => ?_) fun d hd =>
        hpos d (mem_cons_of_mem _ hd)
      exact h (p + 1) (by simpa using hp)
    rw [ofBuffer, takeWhile_cons, h0, if_pos (by simpa using hc)]
    exact congrArg (c :: ·) hrest

theorem copyChar_eq (h : 32 ≤ c ∧ c ≤ 126) : copyChar c = c := by
  refine if_pos ⟨h.1, Std.le_trans h.2 (by decide)⟩

/-- The name `a`. -/
def letterName : List UInt8 := [0x61]

theorem letterName_isFileName : IsFileName letterName := by
  refine ⟨by decide, by decide, fun c hc => ?_⟩
  rw [mem_singleton.1 hc]
  decide

theorem IsFileName.printable (h : IsFileName name) : ∀ c ∈ name, 32 ≤ c ∧ c ≤ 126 := by
  intro c hc
  exact ⟨(h.2.2 c hc).1, (h.2.2 c hc).2.1⟩

theorem parseLFNEntries_eq (hchars : ∀ c ∈ name, 32 ≤ c ∧ c ≤ 126)
    (h : NameSlots name (checksum sfn.fileName) num l) (hcover : name.length ≤ 13 * num)
    (hlen : l.length = num) (hle : num ≤ 15) : parseLFNEntries l sfn = .ok name := by
  have hb : (replicate (l.length * 13 + 1) (0 : UInt8)).length = num * 13 + 1 := by
    rw [length_replicate, hlen]
  obtain ⟨b', hb', hlen', hin, hout⟩ := parseLFNFrom_eq h (by omega) hle (by omega) hb
  have hstr : ofBuffer b' = name := by
    have hpos : ∀ c ∈ name, c ≠ 0 := by
      rintro c hc rfl
      exact absurd (hchars 0 hc).1 (by decide)
    refine ofBuffer_eq (by rw [hlen', hb]; omega) (fun p hp => ?_) hpos
    rcases lt_or_ge p (13 * l.length) with hlt | hge
    · rw [hin p hlt hp]
      rcases lt_or_ge p name.length with hlt' | hge'
      · have hmem : nameChar name p ∈ name := by
          rw [nameChar, getD_eq_getElem _ _ hlt']
          exact getElem_mem _
        exact copyChar_eq (hchars _ hmem)
      · rw [nameChar, getD_eq_default _ _ hge']
        rfl
    · have hz : nameChar name p = 0 := getD_eq_default _ _ (by omega)
      rw [hout p hge, hz]
      simp [getD_eq_getElem?_getD]
  rw [parseLFNEntries, hb', ← hstr]
  rfl

theorem parseLFNFrom_error (hsum : ∀ e ∈ l, e 13 = sum) (he : e ∈ l)
    (hbad : ¬(1 ≤ (e 0 &&& 0x0F).toNat ∧ ((e 0 &&& 0x0F).toNat - 1) * 13 + 13 ≤ b.length)) :
    parseLFNFrom sum l b = .error .memory := by
  induction l generalizing b with
  | nil => cases he
  | cons e' l ih =>
    rw [parseLFNFrom, if_neg (not_not.2 (hsum e' mem_cons_self))]
    dsimp only
    split
    · next hok =>
      have hfit := hok.2
      rcases mem_cons.1 he with rfl | he
      · exact absurd hok hbad
      · refine ih (forall_mem_cons.1 hsum).2 he ?_
        rwa [overwrite_length hfit]
    · rfl

theorem parseLFNEntries_long (h : NameSlots name (checksum sfn.fileName) num l)
    (hlen : l.length = num) (hlong : 5 < num) (hle : num ≤ 20) : parseLFNEntries
    (l.filter fun e => e 0 ≠ 0x05) sfn = .error .memory := by
  have hsum : ∀ e ∈ l.filter fun e => e 0 ≠ 0x05, e 13 = checksum sfn.fileName := by
    intro e he
    obtain ⟨_, _, hslot⟩ := h.mem (mem_of_mem_filter he)
    exact hslot.checksum
  have hlt : (l.filter fun e => e 0 ≠ 0x05).length < num := by
    obtain ⟨e, he, hslot⟩ := h.exists (n := 4) (by omega)
    have h5 : e 0 = 0x05 := by
      rw [hslot.index, (lfnIndex_eq_five (by omega) hle).2 ⟨rfl, hlong⟩]
    rw [← hlen]
    exact length_filter_lt_length_iff_exists.2 ⟨e, he, by simp [h5]⟩
  -- the slot with the number zero, or the last one, which comes first
  obtain ⟨n, hn, hbad⟩ : ∃ n < num, n ≠ 4 ∧ ((n + 1) % 16 = 0 ∨ n + 1 = num ∧ num < 16) := by
    rcases lt_or_ge num 16 with hlt | hge
    · exact ⟨num - 1, by omega, by omega, .inr ⟨by omega, hlt⟩⟩
    · exact ⟨15, by omega, by omega, .inl rfl⟩
  obtain ⟨e, he, hslot⟩ := h.exists (n := n) (by omega)
  have hmem : e ∈ l.filter fun e => e 0 ≠ 0x05 := by
    refine mem_filter.2 ⟨he, ?_⟩
    rw [hslot.index]
    have := (lfnIndex_eq_five hn hle).not.2 (by omega)
    simpa using this
  rw [parseLFNEntries, parseLFNFrom_error hsum hmem]
  · rfl
  · rw [hslot.index, lfnIndex_low hn hle, length_replicate]
    omega

theorem parseLFNEntries_sixteen (h : NameSlots name (checksum sfn.fileName) num l) (hlen : l.length = num)
    (hlong : 15 < num) (hle : num ≤ 20) : parseLFNEntries l sfn = .error .memory := by
  have hsum : ∀ e ∈ l, e 13 = checksum sfn.fileName := by
    intro e he
    obtain ⟨_, _, hslot⟩ := h.mem he
    exact hslot.checksum
  obtain ⟨e, he, hslot⟩ := h.exists (n := 15) (by omega)
  have hzero : (e 0 &&& 0x0F).toNat = 0 := by
    rw [hslot.index, lfnIndex_low hlong hle]
  rw [parseLFNEntries, parseLFNFrom_error hsum he (by omega)]
  rfl

/-- The slots that the driver makes of a name of 1 to 255 printable characters, parsed again with a
short entry of the same checksum, give the name back without a write outside the buffer exactly if
the name has at most 195 characters. The sixteenth slot of a longer one has the number zero. -/
theorem parseLFNEntries_createLFNEntries_iff (name : List UInt8) (hpos : 1 ≤ name.length)
    (hmax : name.length ≤ 255) (hchars : ∀ c ∈ name, 32 ≤ c ∧ c ≤ 126) (sum : UInt8) (sfn : Slot)
    (hsum : checksum sfn.fileName = sum) :
    parseLFNEntries (createLFNEntriesFromName name ((name.length + 12) / 13) sum) sfn = .ok name ↔
      name.length ≤ 195 := by
  subst hsum
  have hslots := createLFNEntriesFromName_nameSlots name ((name.length + 12) / 13) (checksum sfn.fileName)
  have hlen := createLFNEntriesFromName_length name ((name.length + 12) / 13) (checksum sfn.fileName)
  constructor
  · intro hok
    by_contra hlong
    rw [parseLFNEntries_sixteen hslots hlen (by omega) (by omega)] at hok
    cases hok
  · intro hshort
    exact parseLFNEntries_eq hchars hslots (by omega) hlen (by omega)

/-- The name `a` in one slot, in front of a short entry of zeros. -/
theorem parseLFNEntries_createLFNEntries_iff_letter :
    parseLFNEntries (createLFNEntriesFromName letterName 1 (checksum (Slot.fileName fun _ => 0)))
      (fun _ => 0) = .ok letterName :=
  (parseLFNEntries_createLFNEntries_iff letterName (by decide) (by decide)
    letterName_isFileName.printable _ (fun _ => 0) rfl).2 (by decide)

/-- A name of 196 characters is copied outside its buffer. -/
theorem parseLFNEntries_fails_name196 :
    parseLFNEntries (createLFNEntriesFromName (List.replicate 196 0x61) 16
      (checksum (Slot.fileName fun _ => 0))) (fun _ => 0) = .error .memory :=
  parseLFNEntries_sixteen (createLFNEntriesFromName_nameSlots ..)
    (createLFNEntriesFromName_length ..) (by decide) (by decide)

theorem listSlots_nameSlots
    (h : NameSlots name sum num (ps.map slot)) (hlen : ps.length ≤ num) (hnum : num ≤ 20)
    (acc : Listing) : listSlots acc ps = .ok (.inl ⟨acc.results,
      acc.lfnEntries ++ (ps.map slot).filter fun e => e 0 ≠ 0x05⟩) := by
  induction ps generalizing acc with
  | nil => simp [listSlots, forReturn, pure, Except.pure]
  | cons p ps ih =>
    obtain ⟨hslot, hrest⟩ := h
    rw [length_map] at hslot
    rw [length_cons] at hlen
    obtain ⟨h0, hE5, h2E⟩ := @lfnIndex_ne num ps.length (by omega) hnum
    rw [← hslot.index] at h0 hE5 h2E
    have hstep : listSlot p.sector p.offset acc p.slot = .ok (.inl
        (if p.slot 0 = 0x05 then acc else
          { acc with lfnEntries := acc.lfnEntries ++ [p.slot] })) := by
      rw [listSlot, if_neg h0, if_neg hE5, if_neg h2E, hslot.attributes]
      by_cases h5 : p.slot 0 = 0x05
      · rw [if_pos h5, if_pos h5]
      · rw [if_neg h5, if_neg h5, if_neg (by decide), if_pos rfl]
    rw [listSlots, forReturn_cons, hstep]
    show listSlots _ ps = _
    rw [ih hrest (by omega), map_cons, filter_cons]
    by_cases h5 : p.slot 0 = 0x05
    · simp [h5]
    · simp [h5]

/-- An entry with the slots of its name in front of it. -/
structure Named (name : List UInt8) (lfns : List DirSlot) (p : DirSlot) : Prop where
  isFileName : IsFileName name
  slots : NameSlots name (checksum p.slot.fileName) (requiredLFNEntries name.length) (lfns.map slot)
  length : lfns.length = requiredLFNEntries name.length
  short : IsShortEntry p.slot

section
variable (h : Named name lfns p) (h5 : p.slot 0 ≠ 0x05)
include h h5

theorem Named.listSlots_eq
    (results : List FATEntryInfo) : listSlots ⟨results, []⟩ (lfns ++ [p]) =
      (parseLFNEntries ((lfns.map slot).filter fun e => e 0 ≠ 0x05) p.slot >>=
        fun filename => .ok (.inl ⟨results ++ [⟨p.slot, filename, p.sector, p.offset⟩], []⟩)) := by
  obtain ⟨hpos, hcover, hcover'⟩ := requiredLFNEntries_bounds h.isFileName.1
  have hle := h.isFileName.2.1
  have hnum : requiredLFNEntries name.length ≤ 20 := by omega
  rw [listSlots_append, listSlots_nameSlots h.slots (le_of_eq h.length) hnum, nil_append]
  show listSlots _ [p] = _
  rw [listSlots, forReturn_cons, listSlot_short h.short h5, entryName, if_pos]
  · cases parseLFNEntries _ p.slot <;> rfl
  · -- the first slot of the name is always collected
    obtain ⟨e, he, hslot⟩ := h.slots.exists (by rw [length_map, h.length]; exact hpos)
    refine length_pos_of_mem (mem_filter.2 ⟨he, ?_⟩)
    rw [hslot.index]
    have := (lfnIndex_eq_five hpos hnum).not.2 (by omega)
    simpa using this

theorem Named.listSlots_short
    (hshort : name.length ≤ 65) (results : List FATEntryInfo) :
    listSlots ⟨results, []⟩ (lfns ++ [p]) =
      .ok (.inl ⟨results ++ [⟨p.slot, name, p.sector, p.offset⟩], []⟩) := by
  obtain ⟨-, hcover, hcover'⟩ := requiredLFNEntries_bounds h.isFileName.1
  have hall : (lfns.map slot).filter (fun e => e 0 ≠ 0x05) = lfns.map slot := by
    refine filter_eq_self.2 fun e he => ?_
    obtain ⟨n, hn, hslot⟩ := h.slots.mem he
    rw [length_map, h.length] at hn
    have := (lfnIndex_eq_five hn (by omega)).not.2 (by omega)
    rw [hslot.index]
    simpa using this
  rw [h.listSlots_eq h5, hall, parseLFNEntries_eq h.isFileName.printable h.slots hcover
    (by rw [length_map, h.length]) (by omega)]
  rfl

theorem Named.listSlots_long (hlong : 65 < name.length) (results : List FATEntryInfo) : listSlots
    ⟨results, []⟩ (lfns ++ [p]) = .error .memory := by
  obtain ⟨-, hcover, hcover'⟩ := requiredLFNEntries_bounds h.isFileName.1
  have hle := h.isFileName.2.1
  rw [h.listSlots_eq h5, parseLFNEntries_long h.slots (by rw [length_map, h.length]) (by omega) (by omega)]
  rfl

end

end HeisenKernel
