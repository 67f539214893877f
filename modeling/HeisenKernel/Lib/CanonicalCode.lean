import Mathlib.Algebra.BigOperators.Group.List.Basic
import Mathlib.Data.Nat.Bitwise
import Mathlib.Tactic.Ring

/-!
# Canonical prefix codes

A list of lengths assigns a code word to every index with a nonzero length: the words of one length
are consecutive numbers in the order of the indices, and the first word of a length follows the last
one of the length before it (`firstCode`).
-/

namespace HeisenKernel.Lib

open List

/-- The low `n` bits of a number, the highest one first. -/
def bigEndian : Nat → Nat → List Bool
  | 0, _ => []
  | n + 1, c => c.testBit n :: bigEndian n c

@[simp] theorem length_bigEndian (n c : Nat) : (bigEndian n c).length = n := by
  induction n with
  | zero => rfl
  | succ n ih => rw [bigEndian, length_cons, ih]

theorem bigEndian_add (n k c : Nat) : bigEndian (n + k) c = bigEndian n (c >>> k) ++ bigEndian k c := by
  induction n with
  | zero => rw [zero_add, bigEndian, nil_append]
  | succ n ih =>
    rw [add_right_comm, bigEndian, bigEndian, ih, Nat.testBit_shiftRight, add_comm k n, cons_append]

theorem bigEndian_inj (hc : c < 2 ^ n) (hd : d < 2 ^ n) (h : bigEndian n c = bigEndian n d) : c = d := by
  have hbits : ∀ k < n, c.testBit k = d.testBit k := by
    clear hc hd
    induction n with
    | zero => exact fun k hk => absurd hk (Nat.not_lt_zero k)
    | succ n ih =>
      intro k hk
      rw [bigEndian, bigEndian, List.cons.injEq] at h
      rcases Nat.lt_succ_iff_lt_or_eq.1 hk with hlt | rfl
      · exact ih h.2 k hlt
      · exact h.1
  refine Nat.eq_of_testBit_eq fun k => ?_
  rcases lt_or_ge k n with hk | hk
  · exact hbits k hk
  · have hpow : 2 ^ n ≤ 2 ^ k := Nat.pow_le_pow_right (by decide) hk
    rw [Nat.testBit_lt_two_pow (hc.trans_le hpow), Nat.testBit_lt_two_pow (hd.trans_le hpow)]

theorem eq_shiftRight_of_isPrefix (hc : c < 2 ^ n) (hd : d < 2 ^ (n + k))
    (h : bigEndian n c <+: bigEndian (n + k) d) : c = d >>> k := by
  have hshift : d >>> k < 2 ^ n := by
    rw [Nat.shiftRight_eq_div_pow, Nat.div_lt_iff_lt_mul (Nat.two_pow_pos k), ← pow_add]
    exact hd
  refine bigEndian_inj hc hshift ?_
  have htake := prefix_iff_eq_take.1 h
  rw [bigEndian_add, length_bigEndian, take_left' (length_bigEndian ..)] at htake
  exact htake

namespace Canonical

variable (ls : List Nat)

/-- How many words of length `n` there are. -/
def used (n : Nat) : Nat := if n = 0 then 0 else ls.count n

/-- The first code of length `n`. -/
def firstCode : Nat → Nat
  | 0 => 0
  | n + 1 => 2 * (firstCode n + used ls n)

/-- The code of index `i`. -/
def code (i : Nat) : Nat := firstCode ls (ls.getD i 0) + (ls.take i).count (ls.getD i 0)

/-- The word of index `i`. -/
def codeword (i : Nat) : List Bool := bigEndian (ls.getD i 0) (code ls i)

/-- The lengths are at most `m`, and the inequality of Kraft holds. -/
structure Kraft (m : Nat) : Prop where
  bound : ∀ l ∈ ls, l ≤ m
  sum_le : (ls.map fun l => if l = 0 then 0 else 2 ^ (m - l)).sum ≤ 2 ^ m

@[simp] theorem length_codeword (i : Nat) : (codeword ls i).length = ls.getD i 0 :=
  length_bigEndian ..

variable {ls} {m : Nat}

/-- The part of the Kraft sum for lengths up to `n`. -/
def partialSum (ls : List Nat) (m n : Nat) : Nat :=
  (ls.map fun l => if l = 0 ∨ n < l then 0 else 2 ^ (m - l)).sum

theorem partialSum_cons (l n : Nat) : partialSum (l :: ls) m n =
    (if l = 0 ∨ n < l then 0 else 2 ^ (m - l)) + partialSum ls m n := by
  rw [partialSum, map_cons, sum_cons, partialSum]

theorem partialSum_zero : partialSum ls m 0 = 0 := by
  induction ls with
  | nil => rfl
  | cons l ls ih => rw [partialSum_cons, ih, if_pos (by omega)]

theorem partialSum_succ (n : Nat) :
    partialSum ls m (n + 1) = partialSum ls m n + ls.count (n + 1) * 2 ^ (m - (n + 1)) := by
  induction ls with
  | nil => simp [partialSum]
  | cons l ls ih =>
    rw [partialSum_cons, partialSum_cons, ih, count_cons]
    rcases eq_or_ne l (n + 1) with rfl | hl
    · simp
      ring
    · have hiff : (l = 0 ∨ n + 1 < l) ↔ (l = 0 ∨ n < l) := by omega
      simp only [hiff, beq_iff_eq, hl, if_false, add_zero]
      ring

theorem partialSum_le (n : Nat) :
    partialSum ls m n ≤ (ls.map fun l => if l = 0 then 0 else 2 ^ (m - l)).sum := by
  induction ls with
  | nil => exact le_refl _
  | cons l ls ih =>
    rw [partialSum_cons, map_cons, sum_cons]
    refine add_le_add ?_ ih
    split
    · exact Nat.zero_le _
    · next h => rw [if_neg (fun h0 => h (Or.inl h0))]

@[simp] theorem used_succ (n : Nat) : used ls (n + 1) = ls.count (n + 1) :=
  if_neg (Nat.succ_ne_zero n)

theorem firstCode_add_used (hn : n ≤ m) : (firstCode ls n + used ls n) * 2 ^ (m - n) = partialSum ls m n := by
  induction n with
  | zero => simp [firstCode, used, partialSum_zero]
  | succ n ih =>
    have hpow : 2 ^ (m - n) = 2 * 2 ^ (m - (n + 1)) := by
      rw [← Nat.pow_succ', Nat.succ_eq_add_one]
      congr 1
      omega
    rw [partialSum_succ, ← ih (Nat.le_of_succ_le hn), hpow, firstCode, used_succ]
    ring

theorem Kraft.firstCode_add_used_le (h : Kraft ls m) (hn : n ≤ m) :
    firstCode ls n + used ls n ≤ 2 ^ n := by
  have hsum := (partialSum_le n).trans h.sum_le
  rw [← firstCode_add_used hn, ← Nat.add_sub_of_le hn, pow_add, Nat.add_sub_of_le hn] at hsum
  exact le_of_mul_le_mul_right hsum (Nat.two_pow_pos _)

theorem lt_length_of_getD (h : ls.getD i 0 ≠ 0) : i < ls.length := by
  by_contra hi
  rw [getD_eq_default _ _ (not_lt.1 hi)] at h
  exact h rfl

theorem count_take_lt (ls : List Nat) (hij : i < j) (hi : i < ls.length) :
    (ls.take i).count (ls.getD i 0) < (ls.take j).count (ls.getD i 0) := by
  have hsplit : (ls.take (i + 1)).count (ls.getD i 0) = (ls.take i).count (ls.getD i 0) + 1 := by
    rw [take_add_one, count_append, getElem?_eq_getElem hi, getD_eq_getElem _ _ hi]
    simp
  have hle : (ls.take (i + 1)).count (ls.getD i 0) ≤ (ls.take j).count (ls.getD i 0) :=
    (take_sublist_take_left hij).count_le _
  omega

theorem code_lt (h : ls.getD i 0 ≠ 0) : code ls i < firstCode ls (ls.getD i 0) + used ls (ls.getD i 0) := by
  have hi := lt_length_of_getD h
  have hlt := count_take_lt ls hi hi
  rw [take_length] at hlt
  rw [code, used, if_neg h]
  omega

theorem Kraft.code_lt_two_pow (h : Kraft ls m) (hi : ls.getD i 0 ≠ 0) : code ls i < 2 ^ ls.getD i 0 := by
  have hmem : ls.getD i 0 ∈ ls := by
    rw [getD_eq_getElem _ _ (lt_length_of_getD hi)]
    exact getElem_mem _
  exact (code_lt hi).trans_le (h.firstCode_add_used_le (h.bound _ hmem))

theorem le_firstCode (ls : List Nat) (n k : Nat) :
    (firstCode ls n + used ls n) * 2 ^ (k + 1) ≤ firstCode ls (n + (k + 1)) := by
  induction k with
  | zero => rw [firstCode, zero_add, pow_one, mul_comm]
  | succ k ih =>
    rw [← add_assoc n, firstCode, pow_succ]
    calc (firstCode ls n + used ls n) * (2 ^ (k + 1) * 2)
        = 2 * ((firstCode ls n + used ls n) * 2 ^ (k + 1)) := by ring
      _ ≤ 2 * firstCode ls (n + (k + 1)) := Nat.mul_le_mul_left 2 ih
      _ ≤ 2 * (firstCode ls (n + (k + 1)) + used ls (n + (k + 1))) :=
        Nat.mul_le_mul_left 2 (Nat.le_add_right _ _)

theorem Kraft.not_isPrefix_codeword (h : Kraft ls m) (hi : ls.getD i 0 ≠ 0)
    (hj : ls.getD j 0 ≠ 0) (hij : i ≠ j) : ¬ codeword ls i <+: codeword ls j := by
  intro hpre
  have hle : ls.getD i 0 ≤ ls.getD j 0 := by
    simpa using hpre.length_le
  obtain ⟨k, hk⟩ := Nat.exists_eq_add_of_le hle
  rw [codeword, codeword, hk] at hpre
  have heq := eq_shiftRight_of_isPrefix (h.code_lt_two_pow hi) (hk ▸ h.code_lt_two_pow hj) hpre
  cases k with
  | zero =>
    -- words of one length: the codes differ by the words between them
    rw [Nat.shiftRight_zero, code, code, ← show ls.getD j 0 = ls.getD i 0 from hk] at heq
    rcases lt_or_gt_of_ne hij with hlt | hgt
    · have := count_take_lt ls hlt (lt_length_of_getD hi)
      rw [← show ls.getD j 0 = ls.getD i 0 from hk] at this
      omega
    · have := count_take_lt ls hgt (lt_length_of_getD hj)
      omega
  | succ k =>
    have hfirst := le_firstCode ls (ls.getD i 0) k
    have hcode : firstCode ls (ls.getD j 0) ≤ code ls j := Nat.le_add_right _ _
    rw [hk] at hcode
    have hlt := code_lt hi
    rw [heq, Nat.shiftRight_eq_div_pow, Nat.div_lt_iff_lt_mul (Nat.two_pow_pos _)] at hlt
    omega

end Canonical

end HeisenKernel.Lib
