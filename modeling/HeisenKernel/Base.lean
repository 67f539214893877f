import Mathlib.Algebra.Group.Int.Defs
import Mathlib.Algebra.Group.Nat.Defs
import Mathlib.Logic.Function.Basic

/-!
# Machine words and kernel faults

The kernel is compiled for a 32-bit machine: `uint32_t` and every pointer are words below `2 ^ 32`,
and arithmetic on them wraps.
-/

namespace HeisenKernel

/-- Wrap-around of `uint32_t` (`common/types.h`). -/
def u32 (n : Nat) : Nat := n % 2 ^ 32

/-- Wrapping subtraction of `uint32_t`. -/
def sub32 (a b : Nat) : Nat := (2 ^ 32 + a - b % 2 ^ 32) % 2 ^ 32

/-- Wrap-around of `int`. -/
def int32 (n : Int) : Int := (n + 2 ^ 31) % 2 ^ 32 - 2 ^ 31

/-- The ways in which an operation of the kernel does not return: `System::Panic`
(`system.cpp:207`), which halts the machine; a loop that never ends; an access outside the memory
of the object it is meant for, after which the code has no defined behaviour. -/
inductive Fault where
  | panic
  | loop
  | memory
deriving Repr, DecidableEq

/-- Result of an operation of the kernel that may not return. -/
abbrev Exec (α : Type) := Except Fault α

theorem u32_eq (h : n < 2 ^ 32) : u32 n = n := Nat.mod_eq_of_lt h

theorem u32_lt (n : Nat) : u32 n < 2 ^ 32 := Nat.mod_lt _ (by decide)

theorem mem_map_u32 (h : a + n ≤ 2 ^ 32) :
    b ∈ (List.range n).map (fun i => u32 (a + i)) ↔ a ≤ b ∧ b < a + n := by
  simp only [List.mem_map, List.mem_range]
  constructor
  · rintro ⟨i, hi, rfl⟩
    rw [u32_eq (by omega)]
    omega
  · rintro ⟨hle, hlt⟩
    exact ⟨b - a, by omega, by rw [u32_eq (by omega)]; omega⟩

theorem sub32_eq (ha : a < 2 ^ 32) (h : b ≤ a) : sub32 a b = a - b := by
  unfold sub32; omega

theorem sub32_lt (a b : Nat) : sub32 a b < 2 ^ 32 := Nat.mod_lt _ (by decide)

theorem int32_eq (h : -2 ^ 31 ≤ n) (h' : n < 2 ^ 31) : int32 n = n := by
  unfold int32
  omega

theorem bind_eq_ok {α β : Type} {x : Exec α} {f : α → Exec β} {b : β} :
    (x >>= f) = .ok b ↔ ∃ a, x = .ok a ∧ f a = .ok b := by
  rcases x with e | a
  · exact ⟨nofun, fun ⟨_, h, _⟩ => nomatch h⟩
  · exact ⟨fun h => ⟨a, rfl, h⟩, fun ⟨_, h, hf⟩ => by cases h; exact hf⟩

theorem bind_of_ok {α β : Type} {x : Exec α} {f : α → Exec β} {a : α} (h : x = .ok a) : (x >>= f) = f a := by
  rw [h]
  rfl

theorem map_eq_ok {α β : Type} {x : Exec α} {f : α → β} {b : β} (h : x.map f = .ok b) :
    ∃ a, x = .ok a ∧ f a = b := by
  cases x with
  | error e => cases h
  | ok a => exact ⟨a, rfl, Except.ok.inj h⟩

end HeisenKernel
