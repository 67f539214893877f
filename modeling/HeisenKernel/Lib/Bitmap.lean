import HeisenKernel.Lib.Loop
import Mathlib.Data.Nat.Count

/-!
# Bitmaps of words

A bitmap in words of 32 bits.
-/

namespace HeisenKernel.Lib.Bitmap

open Function

/-- The bit `b` of a bitmap. -/
def bit (w : Nat → BitVec 32) (b : Nat) : Bool := (w (b / 32)).getLsbD (b % 32)

/-- The bitmap with the bit `b` set. -/
def set (w : Nat → BitVec 32) (b : Nat) : Nat → BitVec 32 :=
  update w (b / 32) (w (b / 32) ||| 1#32 <<< (b % 32))

/-- The bitmap with the bit `b` cleared. -/
def unset (w : Nat → BitVec 32) (b : Nat) : Nat → BitVec 32 :=
  update w (b / 32) (w (b / 32) &&& ~~~(1#32 <<< (b % 32)))

/-- The first clear bit of the first `n` words that `accept` takes. A word with all bits set is
skipped. -/
def findClear (w : Nat → BitVec 32) (n : Nat) (accept : Nat → Bool) : Option Nat :=
  (List.range n).findSome? fun i =>
    if w i = 0xffffffff#32 then none
    else (List.range 32).findSome? fun j =>
      if w i &&& 1#32 <<< j = 0#32 then
        if accept (i * 32 + j) then some (i * 32 + j) else none
      else none

variable {w : Nat → BitVec 32} {n : Nat}

theorem and_shift_eq_zero (w : BitVec 32) (hj : j < 32) : w &&& 1#32 <<< j = 0#32 ↔ w.getLsbD j = false := by
  constructor
  · intro h
    have := congrArg (·.getLsbD j) h
    simpa [hj] using this
  · intro h
    ext k hk
    by_cases hkj : k = j
    · subst hkj
      simpa [BitVec.getLsbD_eq_getElem hk] using h
    · have : k < j ∨ 0 < k - j := by omega
      rcases this with hlt | hpos <;> simp <;> omega

@[simp] theorem bit_set (a b : Nat) : bit (set w a) b = (bit w b || decide (b = a)) := by
  simp only [bit, set, update_apply]
  split
  · next h =>
    have : b = a ↔ b % 32 = a % 32 := by omega
    rw [h]
    simp [this]
    grind
  · next h =>
    have : b ≠ a := fun e => h (by rw [e])
    simp [this]

@[simp] theorem bit_unset (a b : Nat) : bit (unset w a) b = (bit w b && !decide (b = a)) := by
  simp only [bit, unset, update_apply]
  split
  · next h =>
    have : b = a ↔ b % 32 = a % 32 := by omega
    rw [h]
    simp [this]
    grind
  · next h =>
    have : b ≠ a := fun e => h (by rw [e])
    simp [this]

theorem bit_mul_add (i : Nat) (hj : j < 32) : bit w (i * 32 + j) = (w i).getLsbD j := by
  rw [bit, show (i * 32 + j) / 32 = i by omega, show (i * 32 + j) % 32 = j by omega]

theorem findClear_eq (accept : Nat → Bool) : findClear w n accept =
    (List.range (n * 32)).find? fun b => !bit w b && accept b := by
  unfold findClear
  rw [List.find?_eq_findSome?_guard, ← findSome?_range_mul]
  congr 1
  funext i
  split
  · next hones =>
    -- in a word of ones every bit is set
    symm
    rw [List.findSome?_eq_none_iff]
    intro j hj
    have hj : j < 32 := List.mem_range.1 hj
    have : bit w (i * 32 + j) = true := by
      rw [bit_mul_add i hj, hones, show (0xffffffff#32) = BitVec.allOnes 32 from rfl, BitVec.getLsbD_allOnes]
      simpa using hj
    simp [this]
  · refine findSome?_congr fun j hj => ?_
    have hj : j < 32 := List.mem_range.1 hj
    simp only [and_shift_eq_zero _ hj, ← bit_mul_add i hj]
    cases htest : bit w (i * 32 + j) with
    | true => simp [Option.guard, htest]
    | false => simp [Option.guard, htest]

theorem findClear_eq_none_iff : findClear w n accept = none ↔
    ∀ b < n * 32, bit w b = false → accept b = false := by
  rw [findClear_eq, List.find?_eq_none]
  simp

theorem findClear_eq_some_iff : findClear w n accept = some b ↔
    b < n * 32 ∧ (bit w b = false ∧ accept b = true) ∧ ∀ a < b, bit w a = false → accept a = false := by
  rw [findClear_eq, List.find?_range_eq_some]
  simp only [Bool.and_eq_true, Bool.not_eq_true', List.mem_range, Bool.not_and, Bool.or_eq_true,
    Bool.not_not, Bool.not_eq_true']
  constructor
  · rintro ⟨hb, hlt, hbefore⟩
    exact ⟨hlt, hb, fun a ha hclear => (hbefore a ha).resolve_left (by rw [hclear]; exact Bool.false_ne_true)⟩
  · rintro ⟨hlt, hb, hbefore⟩
    refine ⟨hb, hlt, fun a ha => ?_⟩
    cases hset : bit w a with
    | true => exact .inl rfl
    | false => exact .inr (hbefore a ha hset)

theorem findClear_eq_none : findClear w n (fun _ => true) = none ↔ ∀ b < n * 32, bit w b = true := by
  rw [findClear_eq_none_iff]
  simp

theorem findClear_eq_some (h : findClear w n (fun _ => true) = some b) :
    b < n * 32 ∧ bit w b = false ∧ ∀ a < b, bit w a = true := by
  obtain ⟨hlt, hb, hbefore⟩ := findClear_eq_some_iff.1 h
  exact ⟨hlt, hb.1, fun a ha => by simpa using hbefore a ha⟩

theorem bit_foldl_set (l : List Nat) (b : Nat) : bit (l.foldl set w) b = (bit w b || decide (b ∈ l)) := by
  induction l generalizing w with
  | nil => simp
  | cons a l ih => simp [ih, Bool.or_assoc]

theorem bit_foldl_unset (l : List Nat) (b : Nat) :
    bit (l.foldl unset w) b = (bit w b && !decide (b ∈ l)) := by
  induction l generalizing w with
  | nil => simp
  | cons a l ih => simp [ih, Bool.and_assoc]

/-- The number of set bits among the first `n`. -/
def ones (w : Nat → BitVec 32) (n : Nat) : Nat := Nat.count (fun b => bit w b = true) n

theorem count_insert [DecidablePred p] [DecidablePred q] (hb : b < n)
    (hp : ¬p b) (hq : q b) (hsame : ∀ a ≠ b, q a ↔ p a) : Nat.count q n = Nat.count p n + 1 := by
  rw [Nat.count_eq_card_filter_range, Nat.count_eq_card_filter_range]
  have hinsert : (Finset.range n).filter q = insert b ((Finset.range n).filter p) := by
    ext k
    by_cases hk : k = b
    · simp [hk, hb, hq]
    · simp [hk, hsame k hk]
  rw [hinsert, Finset.card_insert_of_notMem (by simp [hp])]

theorem ones_le : ones w n ≤ n := Nat.count_le _

theorem ones_set (hb : b < n) (h : bit w b = false) : ones (set w b) n = ones w n + 1 := by
  refine count_insert hb (by simp [h]) (by simp) fun a ha => ?_
  simp [ha]

theorem ones_unset (hb : b < n) (h : bit w b = true) : ones (unset w b) n + 1 = ones w n := by
  refine (count_insert hb (by simp) h fun a ha => ?_).symm
  simp [ha]

theorem ones_add_count [DecidablePred p] (h : ∀ b < n, bit w b = false ↔ p b) :
    ones w n + Nat.count p n = n := by
  induction n with
  | zero => rfl
  | succ n ih =>
    have ih := ih fun b hb => h b (Nat.lt_succ_of_lt hb)
    have hn := h n (Nat.lt_succ_self n)
    rw [ones, Nat.count_succ, Nat.count_succ]
    rw [ones] at ih
    cases hbit : bit w n with
    | true =>
      have hnot : ¬p n := fun hp => by simp [hn.2 hp] at hbit
      rw [if_pos rfl, if_neg hnot]
      omega
    | false =>
      rw [if_neg Bool.false_ne_true, if_pos (hn.1 hbit)]
      omega

/-- The loop over the bits of a window, of which `left` are to come and `free` of the `count` before were
clear: whether the number of clear ones reaches `size`. It is not reset at a bit that is set. -/
def enough (clear : Nat → Bool) (size : Nat) : (left count free : Nat) → Bool
  | 0, _, _ => false
  | left + 1, count, free =>
    let free := if clear count then free + 1 else free
    if free = size then true else enough clear size left (count + 1) free

theorem enough_iff {size : Nat} (left count free : Nat) (hf : free < size) :
    enough clear size left count free = true ↔
      size ≤ free + Nat.count (fun k => clear (count + k) = true) left := by
  induction left generalizing count free with
  | zero =>
    rw [enough, Nat.count_zero]
    exact ⟨fun h => absurd h Bool.false_ne_true, fun h => absurd h (by omega)⟩
  | succ left ih =>
    have hshift : (fun k => clear (count + (k + 1)) = true) = fun k => clear (count + 1 + k) = true := by
      funext k
      rw [Nat.add_right_comm, add_assoc]
    simp only [Nat.count_succ', enough, hshift, add_zero]
    cases htest : clear count with
    | false =>
      simp only [Bool.false_eq_true, if_false, if_neg (ne_of_lt hf), ih _ _ hf, add_zero]
    | true =>
      simp only [if_true]
      split
      · next he =>
        refine ⟨fun _ => by omega, fun _ => rfl⟩
      · next hne =>
        rw [ih _ _ (by omega)]
        omega

end HeisenKernel.Lib.Bitmap
