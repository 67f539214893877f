import Mathlib.Logic.Function.Basic

/-!
# Ring buffers

A queue of bounded length in an array: items are written at the head and read at the tail, and both move on
by one and from the end of the array to its start. `Holds` is the list of items that a ring buffer stands
for.
-/

namespace HeisenKernel.Lib

open Function

/-- A ring buffer with `capacity` slots. -/
structure RingBuffer (α : Type*) where
  slots : Nat → α
  head : Nat
  tail : Nat
  count : Nat
  capacity : Nat

namespace RingBuffer
variable {α : Type*}

/-- The slot behind a slot. -/
def next (r : RingBuffer α) (i : Nat) : Nat := if i + 1 = r.capacity then 0 else i + 1

/-- An item is written. -/
def push (r : RingBuffer α) (a : α) : RingBuffer α :=
  { r with
    slots := update r.slots r.head a
    head := r.next r.head
    count := r.count + 1 }

/-- The item that is read next. -/
def front (r : RingBuffer α) : α := r.slots r.tail

/-- An item is read. -/
def pop (r : RingBuffer α) : RingBuffer α :=
  { r with
    tail := r.next r.tail
    count := r.count - 1 }

/-- The slot of the item `i`, counted from the tail. -/
def index (r : RingBuffer α) (i : Nat) : Nat :=
  if r.tail + i < r.capacity then r.tail + i else r.tail + i - r.capacity

/-- The items of a ring buffer. -/
structure Holds (r : RingBuffer α) (q : List α) : Prop where
  count : r.count = q.length
  le : q.length ≤ r.capacity
  tail : r.tail < r.capacity ∨ r.capacity = 0
  head : 0 < r.capacity → r.head = r.index q.length
  items : ∀ i (h : i < q.length), r.slots (r.index i) = q.get ⟨i, h⟩

variable {r : RingBuffer α} {q : List α} {a : α}

theorem index_inj (hi : i < r.capacity) (hj : j < r.capacity) (h : r.index i = r.index j) : i = j := by
  unfold index at h
  split at h <;> split at h <;> omega

theorem Holds.push (h : r.Holds q) (hfree : q.length < r.capacity) (a : α) : (r.push a).Holds (q ++ [a]) := by
  have ht : r.tail < r.capacity := h.tail.resolve_right (by omega)
  have hhead := h.head (by omega)
  refine ⟨?_, ?_, .inl ht, fun _ => ?_, fun i hi => ?_⟩
  · rw [List.length_append, RingBuffer.push, h.count]
    rfl
  · rw [List.length_append]
    exact hfree
  · show r.next r.head = r.index (q ++ [a]).length
    rw [hhead, List.length_append, List.length_singleton]
    unfold next index
    split <;> split <;> split <;> omega
  · show update r.slots r.head a (r.index i) = _
    rw [List.length_append, List.length_singleton] at hi
    rw [hhead]
    by_cases hlast : i = q.length
    · subst hlast
      rw [update_self]
      simp
    · have hlt : i < q.length := by omega
      rw [update_of_ne fun heq => hlast (index_inj (by omega) hfree heq), h.items i hlt]
      simp [List.getElem_append_left hlt]

theorem Holds.pop (h : r.Holds (a :: q)) : r.front = a ∧ r.pop.Holds q := by
  have hlen : (a :: q).length = q.length + 1 := rfl
  have hle := h.le
  rw [hlen] at hle
  have ht : r.tail < r.capacity := h.tail.resolve_right (by omega)
  have hindex : ∀ i, i + 1 ≤ r.capacity → r.pop.index i = r.index (i + 1) := by
    intro i hi
    have htail : r.pop.tail = r.next r.tail := rfl
    have hcap : r.pop.capacity = r.capacity := rfl
    unfold index
    rw [htail, hcap]
    unfold next
    split <;> split <;> split <;> omega
  refine ⟨?_, ?_, ?_, ?_, fun _ => ?_, fun i hi => ?_⟩
  · have hfirst := h.items 0 (by rw [hlen]; omega)
    have hzero : r.index 0 = r.tail := if_pos ht
    rw [hzero] at hfirst
    exact hfirst
  · show r.count - 1 = q.length
    rw [h.count, hlen]
    rfl
  · show q.length ≤ r.capacity
    omega
  · left
    show r.next r.tail < r.capacity
    unfold next
    split <;> omega
  · show r.head = r.pop.index q.length
    rw [h.head (by omega), hindex q.length hle]
    rfl
  · show r.slots (r.pop.index i) = _
    rw [hindex i (by omega), h.items (i + 1) (by rw [hlen]; omega)]
    rfl

theorem Holds.inside (h : r.Holds q) (hpos : 0 < r.capacity) : r.head < r.capacity ∧ r.tail < r.capacity := by
  have hle := h.le
  have ht : r.tail < r.capacity := h.tail.resolve_right (by omega)
  refine ⟨?_, ht⟩
  rw [h.head hpos]
  unfold index
  split <;> omega

theorem Holds.count_eq_zero (h : r.Holds q) : r.count = 0 ↔ q = [] := by
  rw [h.count, List.length_eq_zero_iff]

theorem holds_nil (slots : Nat → α) (capacity : Nat) :
    (⟨slots, 0, 0, 0, capacity⟩ : RingBuffer α).Holds [] := by
  refine ⟨rfl, Nat.zero_le _, (Nat.eq_zero_or_pos capacity).symm, fun hpos => ?_,
    fun i hi => absurd hi (Nat.not_lt_zero i)⟩
  exact (if_pos hpos).symm

end RingBuffer

end HeisenKernel.Lib
