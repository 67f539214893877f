import HeisenKernel.Base
import Mathlib.Data.Nat.Log

/-!
# Numbers as text (`libz/fudge/cstring.c`)

The text of a number has the digit of the place `j` at the position `j` from its end.
-/

namespace HeisenKernel.Cstring

open List hiding count

/-- The table of `writevalue`, for remainders from -35 to 35. -/
def digit (n : Int) : Char :=
  "zyxwvutsrqponmlkjihgfedcba9876543210123456789abcdefghijklmnopqrstuvwxyz".toList.getD (35 + n).toNat '0'

/-- The loop of `writevalue`, with the characters from `out` to `current`. -/
def writeDigits (count : Nat) (b : Int) (padding i : Nat) (num : Int) (out : List Char) : Nat × List Char :=
  if i < count then
    if num.tdiv b = 0 ∧ padding ≤ i then (i, out ++ [digit (num.tmod b)])
    else writeDigits count b padding (i + 1) (num.tdiv b) (out ++ [digit (num.tmod b)])
  else (i, out)
termination_by count - i

/-- `Array.reverse` exchanges the ends as the last loop does. -/
def writevalue (count : Nat) (value : Int) (base padding : Nat) : Nat × List Char :=
  let (i, out) := writeDigits count base padding 1 value []
  let (i, out) := if value < 0 then (i + 1, out ++ ['-']) else (i, out)
  (i, out.toArray.reverse.toList)

def cstringToint (c : Char) : Nat :=
  if 'a' ≤ c then c.toNat - 'a'.toNat + 10
  else if 'A' ≤ c then c.toNat - 'A'.toNat + 10
  else if '0' ≤ c then c.toNat - '0'.toNat
  else 0

def cstringReadValue (text : List Char) (base : Nat) : Nat :=
  text.foldl (fun value c => u32 (value * base + cstringToint c)) 0

def bufferWrite (out : Nat → Char) (ocount : Nat) (text : List Char) (icount offset : Nat) :
    Nat × (Nat → Char) :=
  if ocount ≤ offset then (0, out)
  else
    let icount := if icount > ocount - offset then ocount - offset else icount
    (icount, fun k => if offset ≤ k then (text.take icount).getD (k - offset) (out k) else out k)

def cstringWriteValue (out : Nat → Char) (count : Nat) (value : Int) (base padding offset : Nat) :
    Nat × (Nat → Char) :=
  let (n, num) := writevalue 64 value base padding
  bufferWrite out count num n offset

/-- The least number of places of `a`, and not less than `padding`. -/
def places (a base padding : Nat) : Nat := max padding (Nat.log base a + 1)

/-- The digits of the last `n` places of `a`. -/
def digits (a base n : Nat) : List Char :=
  (range n).reverse.map fun j => digit (a / base ^ j % base : Nat)

def valueText (value : Int) (base padding : Nat) : List Char :=
  (if value < 0 then ['-'] else []) ++ digits value.natAbs base (places value.natAbs base padding)

variable {base padding a : Nat}

theorem digit_eq {n : Int} (h : n.natAbs < 36) : digit n = digit n.natAbs := by
  have hall : ∀ d < 36, digit (-(d : Nat)) = digit (d : Nat) := by decide +kernel
  rcases n.natAbs_eq with hn | hn
  · rw [← hn]
  · rw [hn, hall _ h, Int.natAbs_neg, Int.natAbs_natCast]

theorem cstringToint_digit : ∀ d < 36, cstringToint (digit (d : Nat)) = d := by
  decide +kernel

/-- The number at place `i` has `m` places in front of it. -/
theorem writeDigits_eq (hb : 2 ≤ base ∧ base ≤ 36) (hn : places a base padding < count) (m : Nat)
    (hi : i + 1 + m = places a base padding) {num : Int} (hnum : num.natAbs = a / base ^ i) (out : List Char) :
    writeDigits count base padding (i + 1) num out =
      (i + 1 + m, out ++ (range' i (m + 1)).map fun j => digit (a / base ^ j % base : Nat)) := by
  have hdigit : digit (num.tmod base) = digit (a / base ^ i % base : Nat) := by
    have hmod : (num.tmod base).natAbs = a / base ^ i % base := by
      rw [Int.natAbs_tmod, hnum, Int.natAbs_natCast]
    have := Nat.mod_lt (a / base ^ i) (by omega : base > 0)
    rw [digit_eq (by omega), hmod]
  have hnext : (num.tdiv base).natAbs = a / base ^ (i + 1) := by
    rw [Int.natAbs_tdiv, hnum, Int.natAbs_natCast, pow_succ]
    exact Nat.div_div_eq_div_mul ..
  -- the loop ends in the place with nothing in front of it
  have hend : (num.tdiv base = 0 ∧ padding ≤ i + 1) ↔ m = 0 := by
    have hpos : 0 < base ^ (i + 1) := Nat.pow_pos (by omega)
    have hlog : Nat.log base a < i + 1 ↔ a < base ^ (i + 1) :=
      ⟨Nat.lt_pow_of_log_lt hb.1, Nat.log_lt_of_lt_pow' (Nat.succ_ne_zero i)⟩
    rw [← Int.natAbs_eq_zero, hnext, Nat.div_eq_zero_iff_lt hpos, ← hlog]
    unfold places at hi
    omega
  rw [writeDigits, if_pos (by omega), hdigit]
  cases m with
  | zero => rw [if_pos (hend.2 rfl)]; rfl
  | succ m =>
    rw [if_neg (mt hend.1 m.succ_ne_zero), writeDigits_eq hb hn m (by omega) hnext, append_assoc,
      show i + 1 + (m + 1) = i + 1 + 1 + m by omega]
    rfl

theorem foldl_digits (hb : 2 ≤ base ∧ base ≤ 36) (ha : a < 2 ^ 32) (n : Nat) : (digits a base n).foldl
    (fun value c => u32 (value * base + cstringToint c)) (a / base ^ n) = a := by
  induction n with
  | zero => simp [digits]
  | succ n ih =>
    have hdigit := cstringToint_digit _ ((Nat.mod_lt (a / base ^ n) (by omega)).trans_le hb.2)
    have hlt := (Nat.div_le_self a (base ^ n)).trans_lt ha
    rw [digits, range_succ, reverse_append, reverse_singleton, singleton_append, map_cons, foldl_cons, hdigit,
      pow_succ, ← Nat.div_div_eq_div_mul, Nat.div_add_mod', u32_eq hlt]
    exact ih

theorem cstringWriteValue_writes (value : Int) (hv : -2 ^ 31 ≤ value ∧ value < 2 ^ 31)
    (hb : 2 ≤ base ∧ base ≤ 36) (hp : padding ≤ 62) (htext : valueText value base padding = text)
    (out : Nat → Char) (count offset : Nat) (hroom : offset + text.length ≤ count) :
    cstringWriteValue out count value base padding offset =
        (text.length, fun k => if offset ≤ k then text.getD (k - offset) (out k) else out k) ∧
      cstringReadValue (digits value.natAbs base (places value.natAbs base padding)) base = value.natAbs := by
  have hlog : Nat.log base value.natAbs < 32 :=
    Nat.log_lt_of_lt_pow' (by decide) ((by omega : _ < 2 ^ 32).trans_le (Nat.pow_le_pow_left hb.1 32))
  obtain ⟨n, hn⟩ : ∃ n, places value.natAbs base padding = n + 1 :=
    Nat.exists_eq_succ_of_ne_zero (by unfold places; omega)
  have hle : n < 62 := by
    unfold places at hn
    omega
  have hwrite : writevalue 64 value base padding = (text.length, text) := by
    have hloop := @writeDigits_eq base padding value.natAbs 64 0 hb (by omega) n (by omega) value (by simp) []
    simp only [writevalue, hloop, ← htext, valueText, digits, hn]
    split <;> simp [range_eq_range', map_reverse] <;> omega
  constructor
  · have hpos : 0 < text.length := by
      simp only [← htext, valueText, digits, hn, length_append, length_map, length_reverse, length_range]
      omega
    simp only [cstringWriteValue, hwrite, bufferWrite]
    rw [if_neg (by omega), if_neg (by omega), take_length]
  · have hzero : value.natAbs / base ^ places value.natAbs base padding = 0 :=
      Nat.div_eq_of_lt (Nat.lt_pow_of_log_lt hb.1 (by unfold places; omega))
    have hread := foldl_digits hb (by omega : value.natAbs < 2 ^ 32) (places value.natAbs base padding)
    rwa [hzero] at hread

theorem cstringWriteValue_least : (cstringWriteValue (fun _ => ' ') 40 (-2 ^ 31) 2 0 0).1 = 33 ∧
    cstringReadValue (digits 2147483648 2 32) 2 = 2147483648 := by
  have h := @cstringWriteValue_writes 2 0 _ (-2 ^ 31) (by decide) (by decide) (by decide) rfl (fun _ => ' ')
    40 0 (by decide +kernel)
  exact ⟨by rw [h.1]; decide +kernel, h.2⟩

end HeisenKernel.Cstring
