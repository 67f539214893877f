import HeisenKernel.Base

/-!
# Strings of the kernel

A C string is the list of its bytes in front of the terminating zero (`common/string.cpp`).
-/

namespace HeisenKernel

open List

namespace CString

/-- The string that a buffer holds: the bytes up to the first zero. -/
def ofBuffer (buffer : List UInt8) : List UInt8 := buffer.takeWhile (· ≠ 0)

/-- `String::Uppercase(char)` (`string.cpp:118`). -/
def uppercase (c : UInt8) : UInt8 := if 97 ≤ c ∧ c ≤ 122 then c - 32 else c

/-- `String::Lowercase(char)` (`string.cpp:125`). -/
def lowercase (c : UInt8) : UInt8 := if 65 ≤ c ∧ c ≤ 90 then c + 32 else c

/-- The loop of `String::IndexOf`: `i` is the position of the first byte of the list and `hits` the
number of occurrences before it. -/
def indexOfFrom (c : UInt8) (skip : Nat) : List UInt8 → Nat → Nat → Option Nat
  | [], _, _ => none
  | x :: str, i, hits =>
    if x = c then
      if hits = skip then some i else indexOfFrom c skip str (i + 1) (hits + 1)
    else indexOfFrom c skip str (i + 1) hits

/-- `String::IndexOf` (`string.cpp:34`): the position of the occurrence of `c` behind `skip` others,
`none` for the `-1` of the source. -/
def indexOf (str : List UInt8) (c : UInt8) (skip : Nat) : Option Nat := indexOfFrom c skip str 0 0

/-- The loop of `String::Split`: `part` is what was read since the last delimiter, and `seen` tells
whether there was one (`pos > 0`). Empty parts are dropped. -/
def splitFrom (d : UInt8) : List UInt8 → List UInt8 → Bool → List (List UInt8)
  | [], part, seen => if seen ∧ part ≠ [] then [part] else []
  | x :: str, part, seen =>
    if x = d then
      if part ≠ [] then part :: splitFrom d str [] true else splitFrom d str [] true
    else splitFrom d str (part ++ [x]) seen

/-- `String::Split` (`string.cpp:59`). A string without the delimiter has no parts at all. -/
def split (str : List UInt8) (d : UInt8) : List (List UInt8) := splitFrom d str [] false

/-- The components of a path with the separator between them. -/
def joinPath (d : UInt8) : List (List UInt8) → List UInt8
  | [] => []
  | [part] => part
  | part :: parts => part ++ d :: joinPath d parts

variable {d : UInt8} {part str : List UInt8} {parts : List (List UInt8)}

theorem joinPath_cons (h : parts ≠ []) : joinPath d (part :: parts) = part ++ d :: joinPath d parts := by
  cases parts with
  | nil => exact absurd rfl h
  | cons => rfl

theorem joinPath_concat (h : parts ≠ []) : joinPath d (parts ++ [part]) = joinPath d parts ++ d :: part := by
  induction parts with
  | nil => exact absurd rfl h
  | cons p parts ih =>
    cases parts with
    | nil => rfl
    | cons q parts =>
      have hp : joinPath d (p :: q :: parts) = p ++ d :: joinPath d (q :: parts) := rfl
      rw [cons_append, joinPath_cons (by simp), ih (by simp), hp, append_assoc, cons_append]

/-- The parts of a path: not empty and without the separator. -/
def Components (d : UInt8) (parts : List (List UInt8)) : Prop :=
  ∀ part ∈ parts, part ≠ [] ∧ d ∉ part

theorem splitFrom_append (h : d ∉ part) (read : List UInt8) (seen : Bool) :
    splitFrom d (part ++ str) read seen = splitFrom d str (read ++ part) seen := by
  induction part generalizing read with
  | nil => rw [nil_append, append_nil]
  | cons c part ih =>
    rw [mem_cons, not_or] at h
    rw [cons_append, splitFrom, if_neg (Ne.symm h.1), ih h.2, append_assoc]
    rfl

theorem splitFrom_joinPath (hne : parts ≠ []) (h : Components d parts) :
    splitFrom d (joinPath d parts) [] true = parts := by
  induction parts with
  | nil => exact absurd rfl hne
  | cons part parts ih =>
    obtain ⟨hpart, hd⟩ := h part mem_cons_self
    by_cases hparts : parts = []
    · subst hparts
      have happ := @splitFrom_append d part [] hd [] true
      rw [append_nil, nil_append] at happ
      rw [joinPath, happ, splitFrom, if_pos ⟨rfl, hpart⟩]
    · rw [joinPath_cons hparts, splitFrom_append hd, nil_append, splitFrom, if_pos rfl,
        if_pos hpart, ih hparts (forall_mem_cons.1 h).2]

theorem split_joinPath (hne : parts ≠ []) (h : Components d (part :: parts)) :
    split (joinPath d (part :: parts)) d = part :: parts := by
  obtain ⟨hpart, hd⟩ := h part mem_cons_self
  rw [split, joinPath_cons hne, splitFrom_append hd, nil_append, splitFrom, if_pos rfl,
    if_pos hpart, splitFrom_joinPath hne (forall_mem_cons.1 h).2]

theorem split_single (hd : d ∉ part) : split part d = [] := by
  have happ := @splitFrom_append d part [] hd [] false
  rw [append_nil] at happ
  rw [split, happ, splitFrom, if_neg (by simp)]

/-- The parts are the longest pieces of the string without the delimiter, in order: delimiters stand between
two of them, and there may be some in front of the first and behind the last. -/
inductive Segments (d : UInt8) : List UInt8 → List (List UInt8) → Prop
  | gap (n : Nat) : Segments d (replicate n d) []
  | part {part rest : List UInt8} {parts : List (List UInt8)} (n : Nat) : part ≠ [] → d ∉ part →
      (∀ c ∈ rest.head?, c = d) → Segments d rest parts →
      Segments d (replicate n d ++ (part ++ rest)) (part :: parts)

theorem Segments.delimiter (h : Segments d str parts) : Segments d (d :: str) parts := by
  cases h with
  | gap n => exact .gap (n + 1)
  | part n hne hd hrest h => exact .part (n + 1) hne hd hrest h

theorem segments_splitFrom (hpart : d ∉ part) (h : seen = true ∨ d ∈ str) :
    Segments d (part ++ str) (splitFrom d str part seen) := by
  induction str generalizing part seen with
  | nil =>
    obtain rfl : seen = true := h.resolve_right not_mem_nil
    rw [splitFrom]
    by_cases hne : part = []
    · rw [hne]
      exact .gap 0
    · rw [if_pos ⟨rfl, hne⟩]
      exact .part 0 hne hpart (fun _ hc => nomatch hc) (.gap 0)
  | cons x str ih =>
    rw [splitFrom]
    split
    · next hx =>
      subst hx
      have hrest := (@ih [] true not_mem_nil (.inl rfl)).delimiter
      split
      · next hne => exact .part 0 hne hpart (by simp) hrest
      · next hne =>
        rw [not_not.1 hne]
        exact hrest
    · next hx =>
      have hd : d ∉ part ++ [x] := by simp [hpart, Ne.symm hx]
      have := @ih (part ++ [x]) seen hd (h.imp_right (mem_of_ne_of_mem (Ne.symm hx)))
      rwa [append_assoc] at this

theorem split_segments (str : List UInt8) (d : UInt8) :
    (d ∈ str → Segments d str (split str d)) ∧ (d ∉ str → split str d = []) ∧
      ∀ parts, 2 ≤ parts.length → Components d parts →
        joinPath d (split (joinPath d parts) d) = joinPath d parts := by
  refine ⟨fun h => segments_splitFrom not_mem_nil (.inr h), split_single, fun parts hlen hparts => ?_⟩
  match parts, hlen with
  | p :: q :: parts, _ => rw [split_joinPath (cons_ne_nil _ _) hparts]

theorem split_segments_path : joinPath 47 (split (joinPath 47 [[97], [98]]) 47) = [97, 47, 98] :=
  (split_segments [] 47).2.2 [[97], [98]] (by decide) (by unfold Components; decide)

theorem indexOfFrom_append (h : d ∉ part) (skip i hits : Nat) :
    indexOfFrom d skip (part ++ str) i hits = indexOfFrom d skip str (i + part.length) hits := by
  induction part generalizing i with
  | nil => rfl
  | cons c part ih =>
    rw [mem_cons, not_or] at h
    rw [cons_append, indexOfFrom, if_neg (Ne.symm h.1), ih h.2, length_cons]
    congr 1
    omega

theorem indexOfFrom_joinPath (h : Components d (part :: parts)) (i hits : Nat) :
    indexOfFrom d (hits + parts.length) (joinPath d (part :: parts) ++ d :: str) i hits =
      some (i + (joinPath d (part :: parts)).length) := by
  induction parts generalizing part i hits with
  | nil =>
    rw [joinPath, indexOfFrom_append (h part mem_cons_self).2, indexOfFrom, if_pos rfl,
      length_nil, if_pos (by omega)]
  | cons q parts ih =>
    have htail : Components d (q :: parts) := (forall_mem_cons.1 h).2
    rw [joinPath_cons (by simp), append_assoc, cons_append,
      indexOfFrom_append (h part mem_cons_self).2, indexOfFrom, if_pos rfl,
      length_cons, if_neg (by omega)]
    have := ih htail (i + part.length + 1) (hits + 1)
    rw [show hits + (parts.length + 1) = hits + 1 + parts.length by omega, this, length_append, length_cons]
    congr 1
    omega

theorem indexOf_joinPath (h : Components d (part :: parts)) :
    indexOf (joinPath d (part :: parts ++ [str])) d parts.length =
      some (joinPath d (part :: parts)).length := by
  have := @indexOfFrom_joinPath d part str parts h 0 0
  rw [zero_add, zero_add] at this
  rw [indexOf, joinPath_concat (by simp), this]

end CString

end HeisenKernel
