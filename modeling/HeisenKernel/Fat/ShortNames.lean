import HeisenKernel.Fat.Entries
import Mathlib.Data.List.TakeWhile

/-!
# Short names and back

A lower-case name `base` or `base.ext` comes back from the eleven bytes of its short name, unless it fills both
fields: the text then has twelve bytes, and the buffer of `ParseShortFilename` has no room for the zero behind it.
-/

namespace HeisenKernel

open List CString Nat

/-- Printable characters other than the space, the dot and the capital letters. -/
def IsPlain (c : UInt8) : Prop := 33 ≤ c ∧ c ≤ 126 ∧ c ≠ 0x2E ∧ ¬(65 ≤ c ∧ c ≤ 90)

instance : DecidablePred IsPlain := fun _ => inferInstanceAs (Decidable (_ ∧ _))

/-- `base`, and `ext` behind a dot if there is one. -/
def shortText (base ext : List UInt8) : List UInt8 := if ext = [] then base else base ++ 0x2E :: ext

variable {ext : List UInt8}

theorem IsPlain.uppercase (h : IsPlain c) : uppercase c ≠ 0x20 ∧
    uppercase c ≠ 0 ∧ lowercase (uppercase c) = c := by
  revert h
  exact forall_byte (P := fun c => IsPlain c → CString.uppercase c ≠ 0x20 ∧ CString.uppercase c ≠ 0 ∧
    CString.lowercase (CString.uppercase c) = c) (by decide +kernel) c

theorem fieldEnd_eq (hkn : k ≤ n) (hlt : ∀ i < k, field i ≠ 0x20)
    (hge : ∀ i, k ≤ i → i < n → field i = 0x20) : fieldEnd field n = k := by
  induction n with
  | zero =>
    rw [le_zero.1 hkn]
    rfl
  | succ n ih =>
    rw [fieldEnd]
    rcases eq_or_lt_of_le hkn with rfl | hlt'
    · exact if_neg (hlt n (lt_succ_self n))
    · rw [if_pos (hge n (le_of_lt_succ hlt') (lt_succ_self n))]
      exact ih (le_of_lt_succ hlt') fun i hi hin => hge i hi (lt_succ_of_lt hin)

theorem map_range_fieldEnd {field : Nat → UInt8} {l : List UInt8} {n : Nat} (hl : l.length ≤ n)
    (hplain : ∀ c ∈ l, IsPlain c)
    (hfield : ∀ i < n, field i = if i < l.length then uppercase (nameChar l i) else 0x20) :
    fieldEnd field n = l.length ∧ (List.range l.length).map field = l.map uppercase := by
  have hget : ∀ i (hi : i < l.length), field i = uppercase l[i] := by
    intro i hi
    rw [hfield i (by omega), if_pos hi, nameChar, getD_eq_getElem _ _ hi]
  refine ⟨fieldEnd_eq hl (fun i hi => ?_) fun i hi hin => ?_, ext_getElem (by simp) fun i hi hi' => ?_⟩
  · rw [hget i hi]
    exact (hplain _ (getElem_mem hi)).uppercase.1
  · rw [hfield i hin, if_neg (not_lt.2 hi)]
  · rw [getElem_map, getElem_map, getElem_range]
    exact hget i (by simpa using hi)

theorem indexOf_shortText (hbase : 0x2E ∉ base) :
    indexOf (shortText base ext) 0x2E 0 = if ext = [] then none else some base.length := by
  unfold shortText indexOf
  split
  · rw [← append_nil base, indexOfFrom_append hbase]
    rfl
  · rw [indexOfFrom_append hbase]
    simp [indexOfFrom]

theorem nameChar_shortText (h : i < base.length) : nameChar (shortText base ext) i = nameChar base i := by
  unfold shortText
  split
  · rfl
  · exact getD_append _ _ _ _ h

theorem createShortFilename_base (hbase : 0x2E ∉ base) (hb : base.length ≤ 8) (hi : i < 8)
    (h : i < 11) : createShortFilename (shortText base ext) ⟨i, h⟩ =
      if i < base.length then uppercase (nameChar base i) else 0x20 := by
  have hflen : (indexOf (shortText base ext) 0x2E 0).getD (shortText base ext).length = base.length := by
    rw [indexOf_shortText hbase, shortText]
    split <;> rfl
  simp only [createShortFilename, hflen]
  rw [if_pos hi, if_neg (by omega)]
  split
  · next hlt => rw [nameChar_shortText hlt]
  · rfl

theorem createShortFilename_ext (hbase : 0x2E ∉ base) (hi : i < 3) (h : i + 8 < 11) :
    createShortFilename (shortText base ext) ⟨i + 8, h⟩ =
      if i < ext.length then uppercase (nameChar ext i) else 0x20 := by
  simp only [createShortFilename, indexOf_shortText hbase]
  rw [if_neg (by omega)]
  by_cases hext : ext = []
  · simp [hext]
  · simp only [if_neg hext, shortText, nameChar, length_append, length_cons, Nat.add_sub_cancel]
    by_cases hlt : i < ext.length
    · rw [if_neg (by omega), if_pos hlt, getD_append_right _ _ _ _ (by omega)]
      rw [show base.length + 1 + i - base.length = i + 1 by omega]
      rfl
    · rw [if_pos (by omega), if_neg hlt]

/-- A lower-case name comes back from its short name unless it fills both fields. -/
theorem parse_createShortFilename_iff (base ext : List UInt8) (hb : base.length ≤ 8) (he : ext.length ≤ 3)
    (hplain : ∀ c ∈ base ++ ext, IsPlain c) :
    parseShortFilename (createShortFilename (shortText base ext)) = .ok (shortText base ext) ↔
      base.length + ext.length < 11 := by
  have hbase : 0x2E ∉ base := fun h => (hplain _ (mem_append_left _ h)).2.2.1 rfl
  obtain ⟨hmain, hmainText⟩ := @map_range_fieldEnd
    (fun i => if h : i < 11 then createShortFilename (shortText base ext) ⟨i, h⟩ else 0) base 8 hb
    (forall_mem_append.1 hplain).1 fun i hi => by
      rw [dif_pos (by omega)]
      exact createShortFilename_base hbase hb hi _
  obtain ⟨hend, hextText⟩ := @map_range_fieldEnd
    (fun i => if h : i + 8 < 11 then createShortFilename (shortText base ext) ⟨i + 8, h⟩ else 0) ext 3 he
    (forall_mem_append.1 hplain).2 fun i hi => by
      rw [dif_pos (by omega)]
      exact createShortFilename_ext hbase hi _
  have htext : base.map uppercase ++ (if ext.length = 0 then [] else 0x2E :: ext.map uppercase) =
      (shortText base ext).map uppercase := by
    unfold shortText
    by_cases hext : ext = []
    · simp [hext]
    · rw [if_neg hext, if_neg (by simpa using hext), map_append, map_cons]
      rfl
  have hchars : ∀ c ∈ shortText base ext, IsPlain c ∨ c = 0x2E := by
    intro c hc
    unfold shortText at hc
    split at hc
    · exact .inl (hplain c (mem_append_left _ hc))
    · rcases mem_append.1 hc with hc | hc
      · exact .inl (hplain c (mem_append_left _ hc))
      · exact (mem_cons.1 hc).symm.imp_left fun hc => hplain c (mem_append_right _ hc)
  have hzero : ∀ c ∈ (shortText base ext).map uppercase, c ≠ 0 := by
    refine forall_mem_map.2 fun c hmem => ?_
    rcases hchars c hmem with h | rfl
    · exact h.uppercase.2.1
    · decide
  have hlower : ((shortText base ext).map uppercase).map lowercase = shortText base ext := by
    rw [map_map]
    refine (map_congr_left fun c hc => ?_).trans (map_id _)
    rcases hchars c hc with h | rfl
    · exact h.uppercase.2.2
    · rfl
  have hlen : (shortText base ext).length = 12 ↔ ¬base.length + ext.length < 11 := by
    unfold shortText
    split
    · next hext =>
      rw [hext, length_nil]
      omega
    · rw [length_append, length_cons]
      omega
  have hbuffer : ofBuffer ((shortText base ext).map uppercase) = (shortText base ext).map uppercase :=
    takeWhile_eq_self_iff.2 fun c hc => decide_eq_true (hzero c hc)
  simp only [parseShortFilename, hmain, hmainText, hend, hextText, htext, hbuffer, hlower, length_map, hlen]
  by_cases hlt : base.length + ext.length < 11
  · rw [if_neg fun h => h.1 hlt]
    exact ⟨fun _ => hlt, fun _ => rfl⟩
  · rw [if_pos ⟨hlt, fun h => hzero 0 h rfl⟩]
    exact ⟨nofun, fun h => absurd h hlt⟩

/-- The name `a.b` comes back. -/
theorem parse_createShortFilename_ab :
    parseShortFilename (createShortFilename (shortText [0x61] [0x62])) = .ok [0x61, 0x2E, 0x62] :=
  (parse_createShortFilename_iff [0x61] [0x62] (by decide) (by decide) (by decide +kernel)).2 (by decide)

/-- The name `abcdefgh.txt` has no room for its end. -/
theorem parseShortFilename_overruns : parseShortFilename (createShortFilename
    (shortText [0x61, 0x62, 0x63, 0x64, 0x65, 0x66, 0x67, 0x68] [0x74, 0x78, 0x74])) = .error .memory := by
  decide +kernel

end HeisenKernel
