import HeisenKernel.Base
import HeisenKernel.Lib.Run
import HeisenKernel.Lib.Adjacent
import HeisenKernel.Lib.TailQueue
import Mathlib.Data.List.Pairwise
import Mathlib.Data.Finset.Card

/-!
# The memory ranges of kernelx

`kernelx/memory/physical-memory.c` keeps the free and the used ranges of memory in two tail queues.
-/

namespace HeisenKernel

open Lib TailQueue Function List

/-- `base_address` and `size` of `struct memory_range` (`physical-memory.c:10`). -/
structure MemoryRange where
  base : BitVec 32
  size : BitVec 32
deriving Repr, DecidableEq

namespace MemoryRange

/-- The range has the byte at an address. -/
def Has (r : MemoryRange) (x : BitVec 32) : Prop := x - r.base < r.size

/-- The ranges have no byte in common. -/
def Disjoint (r r' : MemoryRange) : Prop := ∀ x, r.Has x → ¬r'.Has x

theorem Disjoint.symm {r r' : MemoryRange} (h : r.Disjoint r') : r'.Disjoint r := fun x hx' hx => h x hx hx'

/-- What is left of a range when `size` bytes are cut from its top. -/
def rest (r : MemoryRange) (size : BitVec 32) : MemoryRange := ⟨r.base, r.size - size⟩

/-- The `size` bytes at the top of a range. -/
def top (r : MemoryRange) (size : BitVec 32) : MemoryRange := ⟨r.base + (r.size - size), size⟩

theorem has_iff {r : MemoryRange} {size : BitVec 32} (h : size ≤ r.size) (x : BitVec 32) :
    r.Has x ↔ (r.rest size).Has x ∨ (r.top size).Has x := by
  simp only [Has, rest, top]
  bv_omega

theorem rest_disjoint_top {r : MemoryRange} {size : BitVec 32} (h : size ≤ r.size) :
    (r.rest size).Disjoint (r.top size) := by
  intro x hrest htop
  simp only [Has, rest, top] at hrest htop
  bv_omega

end MemoryRange

/-- The two queues (`physical-memory.c:7`). -/
inductive RangeQueue where
  | free
  | used
deriving Repr, DecidableEq

/-- The queues, the descriptors by their addresses, and `heap`, behind which new descriptors are made. -/
structure RangeHeap where
  links : Links RangeQueue Nat
  ranges : Nat → MemoryRange
  heap : Nat

/-- `sizeof(struct memory_range)`. -/
def memoryRangeSize : Nat := 16

/-- `heap_alloc` (`physical-memory.c:112`). The loops end when they have not met more descriptors than there are
addresses below `heap`. -/
def heapAlloc (size : BitVec 32) (s : RangeHeap) : Exec (BitVec 32 × RangeHeap) :=
  if size = 0 ∨ s.links.first .free = none then .ok (0, s)
  else
    match s.links.find (fun a => (s.ranges a).size = size) s.heap (s.links.first .free) with
    | none => .error .loop
    | some (some a) =>
      .ok ((s.ranges a).base, { s with links := (s.links.remove .free a).insertTail .used a })
    | some none =>
      match s.links.find (fun a => size ≤ (s.ranges a).size) s.heap (s.links.first .free) with
      | none => .error .loop
      | some (some a) =>
        .ok (((s.ranges a).top size).base,
          { links := s.links.insertTail .used s.heap
            ranges := update (update s.ranges a ((s.ranges a).rest size)) s.heap ((s.ranges a).top size)
            heap := s.heap + memoryRangeSize })
      | some none => .ok (0, s)

/-- The loop of `heap_free` (`physical-memory.c:164`): it goes on behind a range that it has moved. -/
def freeLoop (address : BitVec 32) : Nat → Option Nat → RangeHeap → Exec RangeHeap
  | 0, p, s => if p = none then .ok s else .error .loop
  | fuel + 1, p, s =>
    match p with
    | none => .ok s
    | some a =>
      if (s.ranges a).base = address then
        let s := { s with links := (s.links.remove .used a).insertTail .free a }
        freeLoop address fuel (s.links.next a) s
      else freeLoop address fuel (s.links.next a) s

/-- `heap_free` (`physical-memory.c:157`). -/
def heapFree (address : BitVec 32) (s : RangeHeap) : Exec RangeHeap :=
  if address = 0 then .ok s else freeLoop address s.heap (s.links.first .used) s

namespace RangeHeap

/-- The queues have these descriptors, which lie below `heap`. -/
structure Queued (s : RangeHeap) (free used : List Nat) : Prop where
  freeQueue : s.links.Holds .free free
  usedQueue : s.links.Holds .used used
  apart : ∀ a ∈ free, a ∉ used
  below : ∀ a ∈ free ++ used, a < s.heap

section
variable {s s' : RangeHeap} {free used : List Nat} {size : BitVec 32}

theorem Queued.find_free (h : s.Queued free used) (accept : Nat → Bool) :
    s.links.find accept s.heap (s.links.first .free) = some (free.find? accept) :=
  h.freeQueue.find_eq accept
    (length_le_of_below h.freeQueue.nodup (forall_mem_append.1 h.below).1)

theorem Queued.take (h : s.Queued (l1 ++ a :: l2) used) :
    Queued { s with links := (s.links.remove .free a).insertTail .used a } (l1 ++ l2) (used ++ [a]) := by
  obtain ⟨hfree, hused⟩ := h.freeQueue.move h.usedQueue (by decide) h.apart
  have hnot : a ∉ l1 ++ l2 := (nodup_cons.1 (nodup_middle.1 h.freeQueue.nodup)).1
  refine ⟨hfree, hused, fun b hb hb' => ?_, fun b hb => h.below b ?_⟩
  · rcases mem_append.1 hb' with hb' | hb'
    · exact h.apart b (((List.Sublist.refl l1).append (sublist_cons_self a l2)).subset hb) hb'
    · exact hnot (mem_singleton.1 hb' ▸ hb)
  · simp only [mem_append, mem_cons, not_mem_nil, or_false] at hb ⊢
    tauto

theorem Queued.give (h : s.Queued free (l1 ++ a :: l2)) :
    Queued { s with links := (s.links.remove .used a).insertTail .free a } (free ++ [a]) (l1 ++ l2) := by
  have hapart : ∀ b ∈ l1 ++ a :: l2, b ∉ free := fun b hb hb' => h.apart b hb' hb
  obtain ⟨hused, hfree⟩ := h.usedQueue.move h.freeQueue (by decide) hapart
  have hnot : a ∉ l1 ++ l2 := (nodup_cons.1 (nodup_middle.1 h.usedQueue.nodup)).1
  refine ⟨hfree, hused, fun b hb hb' => ?_, fun b hb => h.below b ?_⟩
  · rcases mem_append.1 hb with hb | hb
    · exact h.apart b hb (((List.Sublist.refl l1).append (sublist_cons_self a l2)).subset hb')
    · exact hnot (mem_singleton.1 hb ▸ hb')
  · simp only [mem_append, mem_cons, not_mem_nil, or_false] at hb ⊢
    tauto

theorem Queued.make (h : s.Queued free used) (ranges : Nat → MemoryRange) :
    Queued { links := s.links.insertTail .used s.heap, ranges := ranges, heap := s.heap + memoryRangeSize }
      free (used ++ [s.heap]) := by
  have hnew : s.heap ∉ free ++ used := fun hmem => absurd (h.below _ hmem) (lt_irrefl _)
  obtain ⟨hfree, hused⟩ := not_or.1 fun hmem => hnew (mem_append.2 hmem)
  refine ⟨?_, h.usedQueue.insertTail hused, fun b hb hb' => ?_, ?_⟩
  · exact h.freeQueue.insertTail_of_ne h.usedQueue (by decide) hfree fun b hb hb' => h.apart b hb' hb
  · rcases mem_append.1 hb' with hb' | hb'
    · exact h.apart b hb hb'
    · exact hfree (mem_singleton.1 hb' ▸ hb)
  · rw [← append_assoc, forall_mem_append, forall_mem_singleton]
    exact ⟨fun b hb => Nat.lt_add_right _ (h.below b hb), Nat.lt_add_of_pos_right (by decide)⟩

theorem Queued.alloc_cases (h : s.Queued free used) (size : BitVec 32) :
    (heapAlloc size s = .ok (0, s)) ∨
    (∃ l1 a l2, free = l1 ++ a :: l2 ∧ (s.ranges a).size = size ∧ size ≠ 0 ∧
      heapAlloc size s = .ok ((s.ranges a).base,
        { s with links := (s.links.remove .free a).insertTail .used a })) ∨
    ∃ l1 a l2, free = l1 ++ a :: l2 ∧ size ≤ (s.ranges a).size ∧ size ≠ 0 ∧
      heapAlloc size s = .ok (((s.ranges a).top size).base,
        { links := s.links.insertTail .used s.heap
          ranges := update (update s.ranges a ((s.ranges a).rest size)) s.heap ((s.ranges a).top size)
          heap := s.heap + memoryRangeSize }) := by
  unfold heapAlloc
  split
  · exact .inl rfl
  · next hnot =>
    obtain ⟨hsize, -⟩ := not_or.1 hnot
    rw [h.find_free, h.find_free]
    cases hexact : free.find? fun a => (s.ranges a).size = size with
    | some a =>
      obtain ⟨haccept, l1, l2, rfl, -⟩ := find?_eq_some_iff_append.1 hexact
      exact .inr (.inl ⟨l1, a, l2, rfl, of_decide_eq_true haccept, hsize, rfl⟩)
    | none =>
      cases hfit : free.find? fun a => size ≤ (s.ranges a).size with
      | some a =>
        obtain ⟨haccept, l1, l2, rfl, -⟩ := find?_eq_some_iff_append.1 hfit
        exact .inr (.inr ⟨l1, a, l2, rfl, of_decide_eq_true haccept, hsize, rfl⟩)
      | none => exact .inl rfl

theorem Queued.freeLoop_cases (h : s.Queued free (l1 ++ l2)) (address : BitVec 32) (hfuel : l2.length ≤ fuel) :
    (freeLoop address fuel l2.head? s = .ok s ∧ ∀ a ∈ l2, (s.ranges a).base ≠ address) ∨
    ∃ l a l', l2 = l ++ a :: l' ∧ (∀ b ∈ l, (s.ranges b).base ≠ address) ∧ (s.ranges a).base = address ∧
      freeLoop address fuel l2.head? s =
        .ok { s with links := (s.links.remove .used a).insertTail .free a } := by
  induction l2 generalizing l1 fuel with
  | nil =>
    refine .inl ⟨?_, fun a ha => absurd ha not_mem_nil⟩
    cases fuel with
    | zero => exact if_pos rfl
    | succ fuel => rfl
  | cons b l2 ih =>
    obtain _ | fuel := fuel
    · exact absurd hfuel (Nat.not_succ_le_zero _)
    rw [head?_cons, freeLoop]
    dsimp only
    by_cases hbase : (s.ranges b).base = address
    · refine .inr ⟨[], b, l2, rfl, fun a ha => absurd ha not_mem_nil, hbase, ?_⟩
      have hnext := h.give.freeQueue.next
      rw [if_pos hbase, hnext]
      cases fuel with
      | zero => exact if_pos rfl
      | succ fuel => rfl
    · rw [if_neg hbase, h.usedQueue.next]
      rw [append_cons] at h
      rcases ih h (Nat.le_of_succ_le_succ hfuel) with ⟨hloop, hnone⟩ | ⟨l, a, l', rfl, hbefore, ha, hloop⟩
      · exact .inl ⟨hloop, forall_mem_cons.2 ⟨hbase, hnone⟩⟩
      · exact .inr ⟨b :: l, a, l', rfl, forall_mem_cons.2 ⟨hbase, hbefore⟩, ha, hloop⟩

theorem Queued.free_cases (h : s.Queued free used) (address : BitVec 32) :
    (heapFree address s = .ok s ∧ (address = 0 ∨ ∀ a ∈ used, (s.ranges a).base ≠ address)) ∨
    ∃ l a l', used = l ++ a :: l' ∧ (∀ b ∈ l, (s.ranges b).base ≠ address) ∧ (s.ranges a).base = address ∧
      heapFree address s = .ok { s with links := (s.links.remove .used a).insertTail .free a } := by
  rw [heapFree]
  split
  · next hzero => exact .inl ⟨rfl, .inl hzero⟩
  · have hlen : used.length ≤ s.heap :=
      length_le_of_below h.usedQueue.nodup (forall_mem_append.1 h.below).2
    rw [h.usedQueue.first]
    have h' : s.Queued free ([] ++ used) := h
    rcases h'.freeLoop_cases address hlen with ⟨hloop, hnone⟩ | hmoved
    · exact .inl ⟨hloop, .inr hnone⟩
    · exact .inr hmoved

/-- The ranges of the queues are disjoint and have together the bytes `bytes`. -/
structure Partition (s : RangeHeap) (free used : List Nat) (bytes : BitVec 32 → Prop) : Prop where
  queued : s.Queued free used
  disjoint : ((free ++ used).map s.ranges).Pairwise MemoryRange.Disjoint
  covers : ∀ x, (∃ r ∈ (free ++ used).map s.ranges, r.Has x) ↔ bytes x

variable {bytes : BitVec 32 → Prop}

theorem Partition.of_perm (h : s.Partition free used bytes) (hqueued : s'.Queued free' used')
    (hperm : ((free' ++ used').map s'.ranges).Perm ((free ++ used).map s.ranges)) : s'.Partition free' used'
    bytes := by
  refine ⟨hqueued, (hperm.pairwise_iff MemoryRange.Disjoint.symm).2 h.disjoint, fun x => ?_⟩
  rw [← h.covers x]
  exact exists_congr fun r => and_congr_left fun _ => hperm.mem_iff

theorem Partition.of_split (h : s.Partition free used bytes) {l : List MemoryRange} (hsize : size ≤ r.size)
    (hold : ((free ++ used).map s.ranges).Perm (r :: l)) (hqueued : s'.Queued free' used')
    (hnew : ((free' ++ used').map s'.ranges).Perm (r.rest size :: r.top size :: l)) : s'.Partition free'
    used' bytes := by
  have hdisjoint := pairwise_cons.1 ((hold.pairwise_iff MemoryRange.Disjoint.symm).1 h.disjoint)
  refine ⟨hqueued, (hnew.pairwise_iff MemoryRange.Disjoint.symm).2 ?_, fun x => ?_⟩
  · refine .cons (forall_mem_cons.2 ⟨MemoryRange.rest_disjoint_top hsize, fun r' hr' x hx => ?_⟩)
      (.cons (fun r' hr' x hx => ?_) hdisjoint.2)
    · exact hdisjoint.1 r' hr' x ((MemoryRange.has_iff hsize x).2 (.inl hx))
    · exact hdisjoint.1 r' hr' x ((MemoryRange.has_iff hsize x).2 (.inr hx))
  · rw [← h.covers x]
    have hleft : (∃ r ∈ (free' ++ used').map s'.ranges, r.Has x) ↔
        ∃ r' ∈ r.rest size :: r.top size :: l, r'.Has x :=
      exists_congr fun r => and_congr_left fun _ => hnew.mem_iff
    have hright : (∃ r ∈ (free ++ used).map s.ranges, r.Has x) ↔ ∃ r' ∈ r :: l, r'.Has x :=
      exists_congr fun r => and_congr_left fun _ => hold.mem_iff
    rw [hleft, hright]
    simp only [mem_cons, exists_eq_or_imp, MemoryRange.has_iff hsize x, or_assoc]

theorem Partition.take (h : s.Partition (l1 ++ a :: l2) used bytes) :
    Partition { s with links := (s.links.remove .free a).insertTail .used a } (l1 ++ l2) (used ++ [a])
      bytes := by
  refine h.of_perm h.queued.take (List.Perm.map _ ?_)
  calc (l1 ++ l2) ++ (used ++ [a]) = (l1 ++ l2 ++ used) ++ [a] := (append_assoc _ _ _).symm
    List.Perm _ (a :: (l1 ++ l2 ++ used)) := perm_append_singleton _ _
    List.Perm _ (l1 ++ a :: l2 ++ used) := by
      rw [append_assoc, append_assoc]
      exact perm_middle.symm

theorem Partition.give (h : s.Partition free (l1 ++ a :: l2) bytes) :
    Partition { s with links := (s.links.remove .used a).insertTail .free a } (free ++ [a]) (l1 ++ l2)
      bytes := by
  refine h.of_perm h.queued.give (List.Perm.map _ ?_)
  rw [append_assoc, singleton_append]
  exact List.Perm.append_left free perm_middle.symm

theorem Partition.cut (h : s.Partition (l1 ++ a :: l2) used bytes) (hsize : size ≤ (s.ranges a).size) :
    Partition
      { links := s.links.insertTail .used s.heap
        ranges := update (update s.ranges a ((s.ranges a).rest size)) s.heap ((s.ranges a).top size)
        heap := s.heap + memoryRangeSize } (l1 ++ a :: l2) (used ++ [s.heap]) bytes := by
  have hmiddle : ∀ l : List Nat, (l1 ++ a :: l2 ++ l).Perm (a :: (l1 ++ l2 ++ l)) := by
    intro l
    rw [append_assoc, append_assoc]
    exact perm_middle
  have hnodup := nodup_middle.1 h.queued.freeQueue.nodup
  have hne : ∀ b ∈ l1 ++ l2 ++ used, b ≠ a ∧ b ≠ s.heap := by
    intro b hb
    refine ⟨?_, ?_⟩
    · rintro rfl
      rcases mem_append.1 hb with hb | hb
      · exact (nodup_cons.1 hnodup).1 hb
      · exact h.queued.apart b (mem_append_right _ mem_cons_self) hb
    · exact ne_of_lt (h.queued.below b ((hmiddle used).mem_iff.2 (mem_cons_of_mem a hb)))
  have hold := (hmiddle used).map s.ranges
  refine h.of_split hsize hold (h.queued.make _) ?_
  have ha : a ≠ s.heap := ne_of_lt (h.queued.below a ((hmiddle used).mem_iff.2 mem_cons_self))
  have hothers : (l1 ++ l2 ++ used).map (update (update s.ranges a
      ((s.ranges a).rest size)) s.heap ((s.ranges a).top size)) = (l1 ++ l2 ++ used).map s.ranges := by
    refine map_congr_left fun b hb => ?_
    rw [update_of_ne (hne b hb).2, update_of_ne (hne b hb).1]
  have hperm : (l1 ++ a :: l2 ++ (used ++ [s.heap])).Perm (a :: s.heap :: (l1 ++ l2 ++ used)) := by
    refine (hmiddle _).trans (List.Perm.cons a ?_)
    rw [← append_assoc]
    exact perm_append_singleton _ _
  refine (hperm.map _).trans ?_
  rw [map_cons, map_cons, hothers]
  dsimp only
  rw [update_of_ne ha, update_self, update_self]

theorem Partition.base_inj (h : s.Partition free used bytes) (ha : a ∈ used) (hb : b ∈ used)
    (hsize : (s.ranges a).size ≠ 0) (hsize' : (s.ranges b).size ≠ 0)
    (hbase : (s.ranges a).base = (s.ranges b).base) : a = b := by
  have hhas : ∀ r : MemoryRange, r.size ≠ 0 → r.Has r.base := by
    intro r hr
    rw [MemoryRange.Has]
    bv_omega
  have hpairs := pairwise_map.1 h.disjoint
  have hsymm : Std.Symm fun a b => (s.ranges a).Disjoint (s.ranges b) :=
    ⟨fun _ _ h => MemoryRange.Disjoint.symm h⟩
  by_contra hne
  have hdisjoint := hpairs.forall (mem_append_right free ha) (mem_append_right free hb) hne
  exact hdisjoint _ (hhas _ hsize) (hbase ▸ hhas _ hsize')

end

/-- A call of the allocator. -/
inductive Call where
  | alloc (size : BitVec 32)
  | free (address : BitVec 32)
deriving Repr, DecidableEq

/-- The steps of the allocator. -/
def Step (s : RangeHeap) (call : Call) (s' : RangeHeap) : Prop :=
  match call with
  | .alloc size => ∃ r, heapAlloc size s = .ok (r, s')
  | .free address => heapFree address s = .ok s'

/-- What a call keeps: the ranges are divided among the queues, and no used range is empty. -/
def Kept (bytes : BitVec 32 → Prop) (s : RangeHeap) : Prop :=
  ∃ free used, s.Partition free used bytes ∧ ∀ a ∈ used, (s.ranges a).size ≠ 0

section
variable {s s' : RangeHeap} {bytes : BitVec 32 → Prop}

section
variable (h : s.Partition free used bytes) (hused : ∀ a ∈ used, (s.ranges a).size ≠ 0)
include h hused

theorem Partition.alloc
    (size : BitVec 32) : ∃ r s' free' used', heapAlloc size s = .ok (r, s') ∧ s'.Partition free' used' bytes ∧
      (∀ a ∈ used', (s'.ranges a).size ≠ 0) ∧ (r ≠ 0 → ∃ a ∈ used', s'.ranges a = ⟨r, size⟩) := by
  rcases h.queued.alloc_cases size with hcall | ⟨l1, a, l2, rfl, hsize, hne, hcall⟩ |
    ⟨l1, a, l2, rfl, hsize, hne, hcall⟩
  · exact ⟨0, s, free, used, hcall, h, hused, fun hr => absurd rfl hr⟩
  · refine ⟨_, _, _, _, hcall, h.take, ?_, fun _ => ⟨a, ?_, ?_⟩⟩
    · exact forall_mem_append.2 ⟨hused, forall_mem_singleton.2 (hsize ▸ hne)⟩
    · exact mem_append_right _ (mem_singleton_self a)
    · rw [← hsize]
  · have hbelow : ∀ b ∈ l1 ++ a :: l2 ++ used, b ≠ s.heap := fun b hb => ne_of_lt (h.queued.below b hb)
    have ha : a ∈ l1 ++ a :: l2 := mem_append_right _ mem_cons_self
    refine ⟨_, _, _, _, hcall, h.cut hsize, fun b hb => ?_, fun _ => ⟨s.heap, ?_, ?_⟩⟩
    · dsimp only
      rcases mem_append.1 hb with hb | hb
      · rw [update_of_ne (hbelow b (mem_append_right _ hb)), update_of_ne]
        · exact hused b hb
        · rintro rfl
          exact h.queued.apart b ha hb
      · rw [mem_singleton.1 hb, update_self]
        exact hne
    · exact mem_append_right _ (mem_singleton_self _)
    · exact update_self _ _ _

theorem Partition.release
    (address : BitVec 32) : ∃ s' free' used', heapFree address s = .ok s' ∧ s'.Partition free' used' bytes ∧
      ∀ a ∈ used', (s'.ranges a).size ≠ 0 := by
  rcases h.queued.free_cases address with ⟨hcall, -⟩ | ⟨l, a, l', rfl, -, -, hcall⟩
  · exact ⟨s, free, used, hcall, h, hused⟩
  · refine ⟨_, _, _, hcall, h.give, fun b hb => hused b ?_⟩
    exact ((List.Sublist.refl l).append (sublist_cons_self a l')).subset hb

theorem Partition.release_base
    (ha : a ∈ used) (hbase : (s.ranges a).base ≠ 0) :
    ∃ s', heapFree (s.ranges a).base s = .ok s' ∧ s'.ranges = s.ranges ∧
      s'.Queued (free ++ [a]) (used.erase a) := by
  rcases h.queued.free_cases (s.ranges a).base with ⟨-, hzero | hnone⟩ | ⟨l, b, l', rfl, hbefore, hb, hcall⟩
  · exact absurd hzero hbase
  · exact absurd rfl (hnone a ha)
  · have hmem : b ∈ l ++ b :: l' := mem_append_right _ mem_cons_self
    obtain rfl := h.base_inj hmem ha (hused b hmem) (hused a ha) hb
    refine ⟨_, hcall, rfl, ?_⟩
    have hnotMem : b ∉ l := fun hbl => hbefore b hbl hb
    rw [erase_append_right _ hnotMem, erase_cons_head]
    exact h.queued.give

end

theorem Kept.step {call : Call} (h : Kept bytes s) (hstep : Step s call s') : Kept bytes s' := by
  obtain ⟨free, used, hpartition, hused⟩ := h
  cases call with
  | alloc size =>
    obtain ⟨r, hcall⟩ := hstep
    obtain ⟨r', t, free', used', hcall', hpartition', hused', -⟩ := hpartition.alloc hused size
    rw [hcall] at hcall'
    cases hcall'
    exact ⟨free', used', hpartition', hused'⟩
  | free address =>
    obtain ⟨t, free', used', hcall', hpartition', hused'⟩ := hpartition.release hused address
    have hcall : heapFree address s = .ok s' := hstep
    rw [hcall] at hcall'
    cases hcall'
    exact ⟨free', used', hpartition', hused'⟩

end

/-- Starting from queues with disjoint ranges, of which no used one is empty, the ranges stay disjoint and have the
same bytes along every run. Every call returns, `heap_alloc` gives 0 or the address of a used range of the size, and
`heap_free` of the address of a used range moves exactly that one to the free ones. -/
theorem ranges_kept {s₀ s : RangeHeap} {free₀ used₀ : List Nat} {bytes : BitVec 32 → Prop}
    (h₀ : s₀.Partition free₀ used₀ bytes) (hused₀ : ∀ a ∈ used₀, (s₀.ranges a).size ≠ 0) {calls : List Call}
    (hrun : Run Step s₀ calls s) :
    ∃ free used, s.Partition free used bytes ∧
      (∀ size, ∃ r s' free' used', heapAlloc size s = .ok (r, s') ∧ s'.Queued free' used' ∧
        (r ≠ 0 → ∃ a ∈ used', s'.ranges a = ⟨r, size⟩)) ∧
      (∀ address, ∃ s', heapFree address s = .ok s') ∧
      ∀ a ∈ used, (s.ranges a).base ≠ 0 → ∃ s', heapFree (s.ranges a).base s = .ok s' ∧
        s'.ranges = s.ranges ∧ s'.Queued (free ++ [a]) (used.erase a) := by
  obtain ⟨free, used, hpartition, hused⟩ : Kept bytes s :=
    hrun.invariant ⟨free₀, used₀, h₀, hused₀⟩ fun s call s' hs hstep => hs.step hstep
  refine ⟨free, used, hpartition, fun size => ?_, fun address => ?_,
    fun a ha hbase => hpartition.release_base hused ha hbase⟩
  · obtain ⟨r, s', free', used', hcall, hpartition', -, hresult⟩ := hpartition.alloc hused size
    exact ⟨r, s', free', used', hcall, hpartition'.queued, hresult⟩
  · obtain ⟨s', -, -, hcall, -⟩ := hpartition.release hused address
    exact ⟨s', hcall⟩

/-- Empty queues. -/
def noLinks : Links RangeQueue Nat :=
  ((⟨fun _ => none, fun q => .head q, fun _ => none, fun _ => .head .free⟩ : Links RangeQueue Nat).init .free).init
    .used

/-- A heap with one free range, described at 0, and one used range, described at 16. -/
def twoRanges (free used : MemoryRange) : RangeHeap where
  links := (noLinks.insertTail .free 0).insertTail .used 16
  ranges := fun a => if a = 0 then free else used
  heap := 32

theorem queued_twoRanges (free used : MemoryRange) : (twoRanges free used).Queued [0] [16] := by
  have hfree : noLinks.Holds .free [] := ⟨trivial, rfl, rfl, nodup_nil⟩
  have hused : noLinks.Holds .used [] := ⟨trivial, rfl, rfl, nodup_nil⟩
  have hfree' := hfree.insertTail (e := 0) not_mem_nil
  have hused' := hused.insertTail_of_ne (e := 0) hfree (by decide) not_mem_nil nofun
  refine ⟨hfree'.insertTail_of_ne hused' (by decide) (by decide) nofun, hused'.insertTail not_mem_nil,
    by decide, fun a ha => ?_⟩
  show a < 32
  revert a
  decide

theorem partition_twoRanges (h : ∀ x, free.Has x → ¬used.Has x) :
    (twoRanges free used).Partition [0] [16] fun x =>
      ∃ r ∈ ([0] ++ [16]).map (twoRanges free used).ranges, r.Has x :=
  ⟨queued_twoRanges _ _, .cons (forall_mem_singleton.2 h) (.cons (fun _ h => nomatch h) .nil), fun _ => Iff.rfl⟩

/-- One free and one used range: what is taken of the free one is given back. -/
theorem ranges_kept_two : ∃ (s₀ : RangeHeap) (bytes : BitVec 32 → Prop),
    s₀.Partition [0] [16] bytes ∧ (∀ a ∈ [16], (s₀.ranges a).size ≠ 0) ∧
    ∀ calls s, Run Step s₀ calls s → ∃ free used, s.Partition free used bytes := by
  let s₀ := twoRanges ⟨0x1000, 0x1000⟩ ⟨0x4000, 0x100⟩
  have h₀ : s₀.Partition [0] [16] _ := partition_twoRanges fun x hfree hused => by
    have hfree : x - 0x1000 < 0x1000 := hfree
    have hused : x - 0x4000 < 0x100 := hused
    bv_omega
  have hused : ∀ a ∈ [16], (s₀.ranges a).size ≠ 0 := by decide
  refine ⟨s₀, _, h₀, hused, fun calls s hrun => ?_⟩
  obtain ⟨free, used, hpartition, -⟩ := ranges_kept h₀ hused hrun
  exact ⟨free, used, hpartition⟩

/-- A free range with 10 bytes at 100, and an empty used range at the same address: `heap_alloc` returns 100, and
`heap_free` of it moves the empty range, and not the one that was handed out. -/
theorem heapFree_moves_other : ∃ (s₀ s₁ s₂ : RangeHeap) (bytes : BitVec 32 → Prop),
    s₀.Partition [0] [16] bytes ∧ heapAlloc 10 s₀ = .ok (100, s₁) ∧ s₁.Queued [] [16, 0] ∧
    s₁.ranges 0 = ⟨100, 10⟩ ∧ heapFree 100 s₁ = .ok s₂ ∧ s₂.Queued [16] [0] := by
  let s₀ := twoRanges ⟨100, 10⟩ ⟨100, 0⟩
  have h₀ : s₀.Partition [0] [16] _ := partition_twoRanges fun x _ hused => by
    have hused : x - 100 < 0 := hused
    bv_omega
  have htaken : ([] ++ 0 :: [] : List Nat) = [0] := rfl
  have h₁ := (htaken ▸ h₀.queued : s₀.Queued ([] ++ 0 :: []) [16]).take
  have hboth : Queued _ [] ([] ++ 16 :: [0]) := h₁
  exact ⟨s₀, _, _, _, h₀, rfl, h₁, rfl, rfl, hboth.give⟩

end RangeHeap

end HeisenKernel
