import HeisenKernel.Bytes

/-!
# Routines of the C library of the kernel

`memmove` (`memory/memory.c`), `strcmp` and `strncpy` (`core/string.c`; `String::strncpy` has the same body).
-/

namespace HeisenKernel.Libc

open Function List

/-- The loop of `memmove` with a rising index `i`, over `n` bytes. -/
def copyUp (dst src : Nat) : (n i : Nat) → Buffer → Buffer
  | 0, _, mem => mem
  | n + 1, i, mem => copyUp dst src n (i + 1) (update mem (dst + i) (mem (src + i)))

/-- The loop of `memmove` with a falling index. -/
def copyDown (dst src : Nat) : (i : Nat) → Buffer → Buffer
  | 0, mem => mem
  | i + 1, mem => copyDown dst src i (update mem (dst + i) (mem (src + i)))

/-- `memmove` (`memory.c:75`) on the bytes of the memory by address. -/
def memmove (mem : Buffer) (dst src size : Nat) : Buffer :=
  if dst < src then copyUp dst src size 0 mem else copyDown dst src size mem

theorem copyUp_apply (h : dst < src) (n i : Nat) (mem : Buffer) (a : Nat) : copyUp dst src n i mem a =
    if dst + i ≤ a ∧ a < dst + i + n then mem (src + (a - dst)) else mem a := by
  induction n generalizing i mem with
  | zero => rw [copyUp, if_neg (by omega)]
  | succ n ih =>
    -- the byte that is overwritten lies in front of the source bytes that are still to come
    rw [copyUp, ih]
    rcases Nat.lt_trichotomy a (dst + i) with ha | rfl | ha
    · rw [if_neg (by omega), if_neg (by omega), update_of_ne (by omega)]
    · rw [if_neg (by omega), if_pos (by omega), update_self, Nat.add_sub_cancel_left]
    · rw [update_of_ne (by omega), update_of_ne (by omega)]
      exact if_congr (by omega) rfl rfl

theorem copyDown_apply (h : src ≤ dst) (n : Nat) (mem : Buffer) (a : Nat) : copyDown dst src n mem a =
    if dst ≤ a ∧ a < dst + n then mem (src + (a - dst)) else mem a := by
  induction n generalizing mem with
  | zero => rw [copyDown, if_neg (by omega)]
  | succ n ih =>
    rw [copyDown, ih]
    rcases Nat.lt_trichotomy a (dst + n) with ha | rfl | ha
    · rcases Nat.lt_or_ge a dst with hd | hd
      · rw [if_neg (by omega), if_neg (by omega), update_of_ne (by omega)]
      · rw [if_pos (by omega), if_pos (by omega), update_of_ne (by omega)]
    · rw [if_neg (by omega), if_pos (by omega), update_self, Nat.add_sub_cancel_left]
    · rw [if_neg (by omega), if_neg (by omega), update_of_ne (by omega)]

/-- However the two ranges lie, the bytes of the source are moved as they were, and no other byte changes. -/
theorem memmove_moves (mem : Buffer) (dst src size a : Nat) : memmove mem dst src size a =
    if dst ≤ a ∧ a < dst + size then mem (src + (a - dst)) else mem a := by
  rw [memmove]
  split
  · next h => exact copyUp_apply h size 0 mem a
  · next h => exact copyDown_apply (Nat.le_of_not_lt h) size mem a

/-- A string: the bytes in front of its terminating zero. -/
abbrev Text := { s : List UInt8 // (0 : UInt8) ∉ s }

/-- The loop of `strcmp` (`string.c:76`): the pointers are moved behind the `return` only, so never. -/
def strcmp : (fuel : Nat) → (strA strB : List UInt8) → Option Bool
  | 0, _, _ => none
  | fuel + 1, strA, strB =>
    if strA.headD 0 = strB.headD 0 then
      if strA.headD 0 = 0 then some true else strcmp fuel strA strB
    else some false

theorem strcmp_stuck (h : strA.headD 0 = strB.headD 0) (h0 : strA.headD 0 ≠ 0) (fuel : Nat) :
    strcmp fuel strA strB = none := by
  induction fuel with
  | zero => rfl
  | succ fuel ih => rw [strcmp, if_pos h, if_neg h0, ih]

theorem Text.eq_nil (s : Text) (h : s.1.headD 0 = 0) : s.1 = [] := by
  obtain ⟨_ | ⟨c, s⟩, hs⟩ := s
  · rfl
  · exact absurd (h ▸ mem_cons_self) hs

/-- The loop of `strncpy` over the bytes of `s2`, with `extern_iter` and the destination. -/
def copyChars (s2 : List UInt8) : (left iterator : Nat) → Buffer → Nat × Buffer
  | 0, _, s1 => (0, s1)
  | left + 1, i, s1 =>
    if s2.getD i 0 ≠ 0 then copyChars s2 left (i + 1) (update s1 i (s2.getD i 0))
    else (i + 1, update s1 i (s2.getD i 0))

/-- The loop of `strncpy` that fills the rest with zeros. -/
def fillZeros : (left externIter : Nat) → Buffer → Buffer
  | 0, _, s1 => s1
  | left + 1, i, s1 => fillZeros left (i + 1) (update s1 i 0)

/-- `strncpy` (`string.c:239`) into the bytes of `s1` by their index. -/
def strncpy (s1 : Buffer) (s2 : List UInt8) (n : Nat) : Buffer :=
  let r := copyChars s2 n 0 s1
  fillZeros (n - r.1) r.1 r.2

theorem fillZeros_apply (left i : Nat) (s1 : Buffer) (j : Nat) :
    fillZeros left i s1 j = if i ≤ j ∧ j < i + left then 0 else s1 j := by
  induction left generalizing i s1 with
  | zero => rw [fillZeros, if_neg (by omega)]
  | succ left ih =>
    rw [fillZeros, ih, update_apply]
    grind

theorem getD_eq_zero_iff (s2 : Text) (i : Nat) : s2.1.getD i 0 = 0 ↔ s2.1.length ≤ i := by
  rcases Nat.lt_or_ge i s2.1.length with h | h
  · rw [getD_eq_getElem?_getD, getElem?_eq_getElem h, Option.getD_some]
    refine iff_of_false (fun he => ?_) (Nat.not_le.2 h)
    have hmem := getElem_mem h
    rw [he] at hmem
    exact s2.2 hmem
  · rw [getD_eq_getElem?_getD, getElem?_eq_none h]
    exact iff_of_true rfl h

theorem copyChars_eq (s2 : Text) (hi : i ≤ s2.1.length) (s1 : Buffer) :
    copyChars s2.1 left i s1 = (if s2.1.length < i + left then s2.1.length + 1 else 0, fun j =>
      if i ≤ j ∧ j < i + left ∧ j ≤ s2.1.length then s2.1.getD j 0 else s1 j) := by
  induction left generalizing i s1 with
  | zero =>
    rw [copyChars, if_neg (by omega)]
    refine congrArg _ (funext fun j => (if_neg (by omega)).symm)
  | succ left ih =>
    rw [copyChars]
    split
    · next h =>
      have hlt := Nat.lt_of_not_le fun hle => h ((getD_eq_zero_iff s2 i).2 hle)
      rw [ih hlt]
      refine Prod.ext (if_congr (by omega) rfl rfl) (funext fun j => ?_)
      grind
    · next h =>
      have hend := Nat.le_antisymm hi ((getD_eq_zero_iff s2 i).1 (not_not.1 h))
      refine Prod.ext ?_ (funext fun j => ?_)
      · rw [if_pos (by omega), hend]
      · grind

/-- `strcmp` answers only where the first bytes differ or both strings are empty, and `strncpy` copies only
strings that end in front of `n`: it fills the copy of a longer one with zeros. -/
theorem strcmp_strncpy_iff (strA strB s2 : Text) (s1 : Buffer) (n : Nat) :
    ((∃ fuel r, strcmp fuel strA.1 strB.1 = some r ∧ (r = true ↔ strA = strB)) ↔
      strA.1 = [] ∧ strB.1 = [] ∨ strA.1.headD 0 ≠ strB.1.headD 0) ∧
    ((∀ j, strncpy s1 s2.1 n j = if j < n then s2.1.getD j 0 else s1 j) ↔ n = 0 ∨ s2.1.length < n) := by
  refine ⟨⟨?_, ?_⟩, ⟨fun h => ?_, fun h j => ?_⟩⟩
  · rintro ⟨fuel, r, hr, -⟩
    by_contra hne
    rw [not_or, not_not] at hne
    have h0 : strA.1.headD 0 ≠ 0 := fun h0 => hne.1 ⟨strA.eq_nil h0, strB.eq_nil (hne.2 ▸ h0)⟩
    rw [strcmp_stuck hne.2 h0] at hr
    cases hr
  · rintro (⟨hA, hB⟩ | h)
    · refine ⟨1, true, ?_, iff_of_true rfl (Subtype.ext (hA.trans hB.symm))⟩
      rw [hA, hB]
      rfl
    · exact ⟨1, false, if_neg h, iff_of_false Bool.false_ne_true fun he => h (he ▸ rfl)⟩
  · by_contra hne
    have h0 := h 0
    rw [strncpy, copyChars_eq s2 (Nat.zero_le _), if_neg (by omega)] at h0
    dsimp only at h0
    rw [fillZeros_apply, if_pos (by omega), if_pos (by omega)] at h0
    have := (getD_eq_zero_iff s2 0).1 h0.symm
    omega
  · rw [strncpy, copyChars_eq s2 (Nat.zero_le _)]
    dsimp only
    rw [fillZeros_apply]
    have hzero := getD_eq_zero_iff s2 j
    grind

/-- The strings `a` and `a` are compared forever, and of `a` one byte is copied as a zero. -/
theorem strcmp_strncpy_fails : (∀ fuel, strcmp fuel [97] [97] = none) ∧ strncpy (fun _ => 1) [97] 1 0 = 0 :=
  ⟨strcmp_stuck rfl (by decide), by decide⟩

end HeisenKernel.Libc
