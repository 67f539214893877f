import HeisenKernel.Base
import Mathlib.Tactic.Ring

/-!
# Division of 64-bit words

The kernel divides 64-bit words without the library of the compiler, by `divide64`: the divisor is doubled
until it is at least the dividend and then subtracted, halved again step by step. It is division
(`divide64_divides`).
-/

namespace HeisenKernel

open Nat

/-- Wrap-around of `uint64_t`. -/
def u64 (n : Nat) : Nat := n % 2 ^ 64

/-- The first loop of `divide64` (`types.h:33`): the divisor `b` and its weight `d` are doubled while `b`,
as a signed word, is positive and below the rest. -/
def scaleUp (rem b d : Nat) : Nat × Nat :=
  if 0 < b ∧ b < 2 ^ 63 ∧ b < rem then scaleUp rem (u64 (b + b)) (u64 (d + d)) else (b, d)
termination_by rem - b
decreasing_by
  unfold u64
  omega

/-- The second loop of `divide64` (`types.h:38`), with the quotient and the rest at its end. -/
def scaleDown (rem b res d : Nat) : Nat × Nat :=
  if d / 2 = 0 then
    if b ≤ rem then (u64 (res + d), rem - b) else (res, rem)
  else if b ≤ rem then scaleDown (rem - b) (b / 2) (u64 (res + d)) (d / 2)
  else scaleDown rem (b / 2) res (d / 2)
termination_by d
decreasing_by all_goals omega

/-- `divide64` (`types.h:18`), for a divisor that is not zero: the quotient, and the rest that is stored at
`r`. -/
def divide64 (n base : Nat) : Nat × Nat :=
  let high := u32 (n / 2 ^ 32)
  let q := if base ≤ high then high / base else 0
  let rem := n - u32 (q * base) * 2 ^ 32
  let scaled := scaleUp rem base 1
  scaleDown rem scaled.1 (q * 2 ^ 32) scaled.2

theorem scaleUp_spec (rem : Nat) (hb : 0 < b) (hb' : b < 2 ^ 64) (hd : d ≤ b) (hrem : rem < 2 ^ 64) :
    ∃ k, scaleUp rem b d = (b * 2 ^ k, d * 2 ^ k) ∧ rem < 2 * (b * 2 ^ k) ∧ d * 2 ^ k < 2 ^ 64 := by
  fun_induction scaleUp rem b d with
  | case1 b d hloop ih =>
    obtain ⟨-, hsmall, -⟩ := hloop
    have hbb : u64 (b + b) = b + b := mod_eq_of_lt (by omega)
    have hdd : u64 (d + d) = d + d := mod_eq_of_lt (by omega)
    rw [hbb, hdd] at ih
    obtain ⟨k, heq, hlt, hbound⟩ := ih (by omega) (by omega) (by omega)
    refine ⟨k + 1, ?_, ?_, ?_⟩
    · rw [hbb, hdd, heq, pow_succ]
      ring_nf
    · calc rem < 2 * ((b + b) * 2 ^ k) := hlt
        _ = 2 * (b * 2 ^ (k + 1)) := by ring
    · calc d * 2 ^ (k + 1) = (d + d) * 2 ^ k := by ring
        _ < 2 ^ 64 := hbound
  | case2 b d hloop =>
    refine ⟨0, by rw [pow_zero, mul_one, mul_one], ?_, by omega⟩
    rw [pow_zero, mul_one]
    omega

theorem scaleDown_spec (hbase : 0 < base) (k : Nat) : ∀ {rem res : Nat}, rem < 2 * (base * 2 ^ k) → res +
    rem / base < 2 ^ 64 → scaleDown rem (base * 2 ^ k) res (2 ^ k) = (res + rem / base, rem % base) := by
  induction k with
  | zero =>
    intro rem res hrem hres
    rw [pow_zero, mul_one] at *
    rw [scaleDown, if_pos (by decide)]
    split
    · next hle =>
      have hq : rem / base = 1 := Nat.div_eq_of_lt_le (by omega) (by omega)
      rw [hq] at hres ⊢
      rw [u64, mod_eq_of_lt hres, mod_eq_sub_mod hle, mod_eq_of_lt (by omega)]
    · next hlt =>
      rw [div_eq_of_lt (by omega), mod_eq_of_lt (by omega), add_zero]
  | succ k ih =>
    intro rem res hrem hres
    have hhalf : 2 ^ (k + 1) / 2 = 2 ^ k := by omega
    have hb : base * 2 ^ (k + 1) / 2 = base * 2 ^ k := by
      rw [pow_succ, ← mul_assoc, Nat.mul_div_cancel _ Nat.two_pos]
    have hdouble : base * 2 ^ (k + 1) = 2 * (base * 2 ^ k) := by ring
    have hpos := Nat.two_pow_pos k
    rw [scaleDown, if_neg (by omega), hhalf, hb]
    split
    · next hle =>
      have hq := sub_mul_div rem base (2 ^ (k + 1))
      have hle' : 2 ^ (k + 1) ≤ rem / base := by
        rw [le_div_iff_mul_le hbase, mul_comm]
        exact hle
      have hu : u64 (res + 2 ^ (k + 1)) = res + 2 ^ (k + 1) := mod_eq_of_lt (by omega)
      rw [hu, ih (by omega) (by omega), hq, sub_mul_mod hle]
      congr 1
      omega
    · exact ih (by omega) hres

theorem divide64_eq (hn : n < 2 ^ 64) (hbase : 0 < base) (hbase' : base < 2 ^ 32) :
    divide64 n base = (n / base, n % base) := by
  have hhigh : u32 (n / 2 ^ 32) = n / 2 ^ 32 := u32_eq (by omega)
  rw [divide64, hhigh]
  set q := if base ≤ n / 2 ^ 32 then n / 2 ^ 32 / base else 0 with hq
  -- what is taken off at first is a multiple of the divisor
  have hqb : q * base ≤ n / 2 ^ 32 := by
    rw [hq]
    split
    · exact div_mul_le_self _ _
    · omega
  have hu : u32 (q * base) = q * base := u32_eq (by omega)
  rw [hu]
  have hle : base * (q * 2 ^ 32) ≤ n := by
    calc base * (q * 2 ^ 32) = q * base * 2 ^ 32 := by ring
      _ ≤ n / 2 ^ 32 * 2 ^ 32 := mul_le_mul_right _ hqb
      _ ≤ n := div_mul_le_self _ _
  have hrem : n - q * base * 2 ^ 32 = n - base * (q * 2 ^ 32) := by
    congr 1
    ring
  have hdiv : (n - base * (q * 2 ^ 32)) / base = n / base - q * 2 ^ 32 := sub_mul_div n base _
  have hle' : q * 2 ^ 32 ≤ n / base := by
    rw [le_div_iff_mul_le hbase, mul_comm]
    exact hle
  have hsmall : n / base < 2 ^ 64 := lt_of_le_of_lt (div_le_self n base) hn
  rw [hrem]
  obtain ⟨k, hup, hlt, -⟩ := scaleUp_spec (n - base * (q * 2 ^ 32)) (d := 1) hbase (by omega) hbase (by omega)
  rw [hup, one_mul, scaleDown_spec hbase k hlt (by omega), hdiv, sub_mul_mod hle]
  congr 1
  omega

/-- Every word is divided, the largest ones included: no loop of `divide64` loses a bit of its result. -/
theorem divide64_divides (n : UInt64) (base : UInt32) (hbase : 1 ≤ base.toNat) :
    divide64 n.toNat base.toNat = (n.toNat / base.toNat, n.toNat % base.toNat) :=
  divide64_eq n.toNat_lt hbase base.toNat_lt

theorem divide64_divides_largest : divide64 18446744073709551615 3 = (6148914691236517205, 0) :=
  divide64_divides 18446744073709551615 3 (by decide)

end HeisenKernel
