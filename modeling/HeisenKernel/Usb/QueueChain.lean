import HeisenKernel.Base
import HeisenKernel.Lib.Linked
import HeisenKernel.Lib.Run
import Mathlib.Data.List.Nodup

/-!
# The chains of queue heads in the UHCI driver

A skeleton queue has its queue heads in a chain for the controller and in one for the driver. `RemoveQueue` of the
first queue head takes it out of the controller's chain only.
-/

namespace HeisenKernel.Usb

open Lib Function List

/-- `uhci_queue_head_t` (`uhci.h:47`). -/
structure UhciQueueHead where
  horzPtr : Nat
  vertPtr : Nat
  nextQueuePointer : Nat
  parentQueuePointer : Nat
deriving Repr, DecidableEq

/-- The queue heads, by their addresses. -/
abbrev UhciQueueHeads := Nat → UhciQueueHead

/-- Stores to members of a queue head. -/
def UhciQueueHeads.modify (heads : UhciQueueHeads) (x : Nat) (f : UhciQueueHead → UhciQueueHead) : UhciQueueHeads :=
  update heads x (f (heads x))

/-- The loop of `InsertQueue` that goes to the end of the chain (`uhci.cpp:32`). -/
def lastQueue (heads : UhciQueueHeads) : (fuel curQueue : Nat) → Exec Nat
  | 0, _ => .error .loop
  | fuel + 1, curQueue =>
    if (heads curQueue).nextQueuePointer ≠ 0 then lastQueue heads fuel (heads curQueue).nextQueuePointer
    else .ok curQueue

/-- `UHCIController::InsertQueue` (`uhci.cpp:19`) for the skeleton queue `skel`. -/
def insertQueue (skel fuel : Nat) (heads : UhciQueueHeads) (queue queuePhys : Nat) : Exec UhciQueueHeads :=
  if (heads skel).vertPtr % 2 = 1 then
    let heads := heads.modify skel fun q => { q with vertPtr := queuePhys ||| 2, nextQueuePointer := queue }
    .ok (heads.modify queue fun q => { q with horzPtr := 1, parentQueuePointer := skel })
  else do
    let curQueue ← lastQueue heads fuel skel
    let heads := heads.modify queue fun q => { q with horzPtr := (heads curQueue).horzPtr }
    let heads := heads.modify curQueue fun q => { q with horzPtr := queuePhys ||| 2 }
    let heads := heads.modify queue fun q => { q with nextQueuePointer := (heads curQueue).nextQueuePointer }
    let heads := heads.modify curQueue fun q => { q with nextQueuePointer := queue }
    return heads.modify queue fun q => { q with parentQueuePointer := curQueue }

/-- `UHCIController::RemoveQueue` (`uhci.cpp:45`). -/
def removeQueue (skel : Nat) (heads : UhciQueueHeads) (queue : Nat) : UhciQueueHeads :=
  let parent := (heads queue).parentQueuePointer
  let child := (heads queue).nextQueuePointer
  let heads := if parent = skel then heads.modify parent fun q => { q with vertPtr := (heads queue).horzPtr }
    else heads.modify parent fun q => { q with horzPtr := (heads queue).horzPtr, nextQueuePointer := child }
  if child ≠ 0 then heads.modify child fun q => { q with parentQueuePointer := parent } else heads

/-- The queue heads, and those that were inserted and not yet removed, in this order. -/
structure QueueChain where
  heads : UhciQueueHeads
  queued : List Nat

/-- A transfer inserts a new queue head, with its descriptors at `tdPhys`, or removes its queue head. -/
inductive QueueCall where
  | insert (queue tdPhys : Nat)
  | remove (queue : Nat)
deriving Repr, DecidableEq

section
variable (skel : Nat) (phys : Nat → Nat)

/-- The steps. A new queue head is cleared and ends its chain. -/
inductive QueueStep : QueueChain → QueueCall → QueueChain → Prop where
  | insert {s : QueueChain} {queue tdPhys fuel : Nat} {heads : UhciQueueHeads} (hnew : queue ∉ 0 :: skel :: s.queued)
    (h : insertQueue skel fuel (update s.heads queue ⟨1, tdPhys, 0, 0⟩) queue (phys queue) = .ok heads) :
    QueueStep s (.insert queue tdPhys) ⟨heads, s.queued ++ [queue]⟩
  | remove {s : QueueChain} {queue : Nat} (hqueued : queue ∈ s.queued) :
    QueueStep s (.remove queue) ⟨removeQueue skel s.heads queue, s.queued.erase queue⟩

/-- The link of the controller to the queue head at an address, or the end of the chain. -/
def queueLink (x : Nat) : Nat := if x = 0 then 1 else phys x ||| 2

/-- Both chains run through the queue heads that are queued, in their order. -/
structure QueueChain.Sound (s : QueueChain) : Prop where
  linked : Linked (fun x => (s.heads x).nextQueuePointer) (fun x => (s.heads x).parentQueuePointer)
    (s.heads skel).parentQueuePointer (skel :: s.queued) 0
  vert : (s.heads skel).vertPtr = queueLink phys (s.heads skel).nextQueuePointer
  horz : ∀ x ∈ s.queued, (s.heads x).horzPtr = queueLink phys (s.heads x).nextQueuePointer

/-- The chains are right, and the queue heads are different objects. -/
structure QueueChain.Inv (s : QueueChain) : Prop extends s.Sound skel phys where
  nodup : (0 :: skel :: s.queued).Nodup

/-- The queue head that is removed is not the first one. -/
def NotFirst (s : QueueChain) : QueueCall → Prop
  | .insert .. => True
  | .remove queue => s.queued.head? ≠ some queue

end

variable {skel : Nat} {phys : Nat → Nat} {s s' : QueueChain} {call : QueueCall} {heads : UhciQueueHeads}
  {x fuel : Nat}

theorem lastQueue_eq (hzero : 0 ∉ l)
    (h : Linked (fun x => (heads x).nextQueuePointer) (fun x => (heads x).parentQueuePointer) parent (x :: l) 0) :
    lastQueue heads fuel x = if l.length < fuel then .ok (l.getLastD x) else .error .loop := by
  induction l generalizing fuel x parent with
  | nil =>
    cases fuel with
    | zero => rfl
    | succ fuel =>
      have hnext : (heads x).nextQueuePointer = 0 := h.2.1
      simp [lastQueue, hnext]
  | cons y l ih =>
    cases fuel with
    | zero => rfl
    | succ fuel =>
      have hnext : (heads x).nextQueuePointer = y := h.2.1
      have hy : y ≠ 0 := fun e => hzero (by simp [e])
      rw [lastQueue, hnext, if_pos hy, ih (fun e => hzero (by simp [e])) h.2.2]
      simp only [length_cons, Nat.add_lt_add_iff_right, getLastD_cons]

theorem queueLink_odd (hphys : ∀ x, phys x % 16 = 0) : queueLink phys x % 2 = 1 ↔ x = 0 := by
  rw [queueLink]
  split
  · simpa
  · rename_i hx
    have heven : (phys x ||| 2) % 2 ^ 1 = 0 := by
      rw [Nat.or_mod_two_pow, show phys x % 2 ^ 1 = 0 by have := hphys x; omega]
      rfl
    omega

theorem QueueChain.Inv.insertQueue_ok (h : s.Inv skel phys) (hphys : ∀ x, phys x % 16 = 0) {queue tdPhys : Nat}
    (hnew : queue ∉ 0 :: skel :: s.queued) :
    insertQueue skel fuel (update s.heads queue ⟨1, tdPhys, 0, 0⟩) queue (phys queue) = .error .loop ∧
      fuel ≤ s.queued.length ∨
    ∃ heads, insertQueue skel fuel (update s.heads queue ⟨1, tdPhys, 0, 0⟩) queue (phys queue) = .ok heads ∧
      QueueChain.Inv skel phys ⟨heads, s.queued ++ [queue]⟩ := by
  obtain ⟨⟨hlinked, hvert, hhorz⟩, hnodup⟩ := h
  simp only [mem_cons, not_or] at hnew
  obtain ⟨hzero, hskel, hnew⟩ := hnew
  have hnodup' : (0 :: skel :: (s.queued ++ [queue])).Nodup :=
    List.Nodup.append hnodup (nodup_singleton queue) (by simp [hzero, hskel, hnew])
  obtain ⟨hmem, hnd⟩ := nodup_cons.1 hnodup
  have hne : ∀ y ∈ skel :: s.queued, y ≠ queue :=
    forall_mem_cons.2 ⟨Ne.symm hskel, fun y hy => ne_of_mem_of_not_mem hy hnew⟩
  obtain hq | ⟨l, x, hq⟩ := eq_nil_or_concat' s.queued
  · right
    have hnext : (s.heads skel).nextQueuePointer = 0 := by
      rw [hq] at hlinked
      exact hlinked.2.1
    rw [hnext] at hvert
    rw [insertQueue, if_pos (by rw [update_of_ne (Ne.symm hskel), hvert]; rfl), hq]
    refine ⟨_, rfl, ⟨⟨rfl, ?_, ?_, ?_, trivial⟩, ?_, ?_⟩, hq ▸ hnodup'⟩ <;>
      simp [UhciQueueHeads.modify, queueLink, hskel, Ne.symm hskel, hzero]
  · have hx : x ∈ s.queued := by simp [hq]
    have hxskel : x ≠ skel := fun e => (nodup_cons.1 hnd).1 (e ▸ hx)
    have hxne : x ≠ queue := hne x (by simp [hx])
    have hnext : (s.heads skel).nextQueuePointer ≠ 0 := by
      have hhead : (s.heads skel).nextQueuePointer = s.queued.headD 0 := hlinked.2.1
      obtain ⟨y, rest, hrest⟩ := exists_cons_of_ne_nil (ne_nil_of_mem hx)
      rw [hhead, hrest]
      exact fun e => hmem (by rw [hrest, show y = 0 from e]; simp)
    have hlinked0 : Linked (fun y => (update s.heads queue ⟨1, tdPhys, 0, 0⟩ y).nextQueuePointer)
        (fun y => (update s.heads queue ⟨1, tdPhys, 0, 0⟩ y).parentQueuePointer)
        (s.heads skel).parentQueuePointer (skel :: s.queued) 0 :=
      hlinked.congr fun y hy => by simp [update_of_ne (hne y hy)]
    have hxnext : (s.heads x).nextQueuePointer = 0 := by
      rw [hq, ← cons_append] at hlinked
      exact (linked_append.1 hlinked).2.2.1
    have hxhorz : (s.heads x).horzPtr = 1 := by
      rw [hhorz x hx, hxnext]
      rfl
    have hheads : insertQueue skel fuel (update s.heads queue ⟨1, tdPhys, 0, 0⟩) queue (phys queue) =
        if s.queued.length < fuel then .ok (update (update s.heads x
          { s.heads x with horzPtr := phys queue ||| 2, nextQueuePointer := queue }) queue ⟨1, tdPhys, 0, x⟩)
        else .error .loop := by
      rw [insertQueue, if_neg (by rw [update_of_ne (Ne.symm hskel), hvert, queueLink_odd hphys]; exact hnext),
        lastQueue_eq (fun e => hmem (by simp [e])) hlinked0, hq, getLastD_concat, ← hq]
      split
      · refine congrArg Except.ok (funext fun y => ?_)
        by_cases hy : y = queue
        · simp [UhciQueueHeads.modify, hy, hxne, Ne.symm hxne, hxhorz, hxnext]
        · by_cases hyx : y = x <;> simp [UhciQueueHeads.modify, hy, hyx, hxne, Ne.symm hxne]
      · rfl
    rw [hheads]
    split
    · refine .inr ⟨_, rfl, ⟨?_, ?_, fun y hy => ?_⟩, hnodup'⟩
      · rw [hq, append_assoc, singleton_append, ← cons_append]
        rw [hq, ← cons_append] at hlinked
        dsimp only
        rw [update_of_ne (Ne.symm hskel), update_of_ne (Ne.symm hxskel)]
        refine hlinked.insert ?_ (fun y hy => ?_) fun y hy => ?_
        · simpa [hq] using hnodup'.of_cons
        · by_cases hy : y = queue
          · simp [hy, Ne.symm hxne]
          · by_cases hyx : y = x <;> simp [hy, hyx, hxne]
        · by_cases hy : y = queue
          · simp [hy]
          · by_cases hyx : y = x <;> simp [hy, hyx, hxne]
      · simpa [Ne.symm hskel, Ne.symm hxskel] using hvert
      · rcases mem_append.1 hy with hy | hy
        · have hyne := hne y (by simp [hy])
          by_cases hyx : y = x
          · simp [hyx, hxne, queueLink, hzero]
          · simpa [hyne, hyx] using hhorz y hy
        · simp [mem_singleton.1 hy, queueLink]
    · exact .inl ⟨rfl, by omega⟩

theorem QueueChain.Inv.removeQueue (h : s.Inv skel phys) (hqueued : queue ∈ s.queued)
    (hfirst : s.queued.head? ≠ some queue) :
    QueueChain.Inv skel phys ⟨Usb.removeQueue skel s.heads queue, s.queued.erase queue⟩ := by
  obtain ⟨⟨hlinked, hvert, hhorz⟩, hnodup⟩ := h
  obtain ⟨front, r, hsplit⟩ := append_of_mem hqueued
  obtain rfl | ⟨l, x, rfl⟩ := eq_nil_or_concat' front
  · exact absurd (by rw [hsplit]; rfl) hfirst
  have herase : s.queued.erase queue = l ++ x :: r := by
    have hnd := hnodup.of_cons.of_cons
    rw [hsplit] at hnd ⊢
    rw [erase_append_right _ fun hmem => ?_, erase_cons_head, append_assoc, singleton_append]
    exact disjoint_of_nodup_append hnd hmem mem_cons_self
  rw [hsplit, append_assoc, singleton_append] at hlinked hhorz hnodup
  rw [herase]
  obtain ⟨hzero, hnd⟩ := nodup_cons.1 hnodup
  have hxskel : x ≠ skel := fun e => (nodup_cons.1 hnd).1 (by simp [← e])
  rw [← cons_append] at hlinked
  obtain ⟨-, -, -, hparent, hnext, -⟩ := linked_append.1 hlinked
  dsimp only at hparent hnext
  have hheads : Usb.removeQueue skel s.heads queue = fun y =>
      { s.heads y with
        horzPtr := if y = x then (s.heads queue).horzPtr else (s.heads y).horzPtr
        nextQueuePointer := if y = x then r.headD 0 else (s.heads y).nextQueuePointer
        parentQueuePointer := if r.head? = some y then x else (s.heads y).parentQueuePointer } := by
    funext y
    rw [Usb.removeQueue]
    rw [hparent, hnext, if_neg hxskel]
    cases r with
    | nil => by_cases hyx : y = x <;> simp [UhciQueueHeads.modify, hyx]
    | cons z r =>
      have hz : z ≠ 0 := fun e => hzero (by simp [e])
      rw [headD_cons, if_pos hz]
      simp only [UhciQueueHeads.modify, update_apply, head?_cons, Option.some_inj, eq_comm]
      split_ifs <;> simp_all
  rw [hheads]
  refine ⟨⟨?_, ?_, fun y hy => ?_⟩, ?_⟩
  · have hfirst : r.head? ≠ some skel := fun e =>
      (nodup_cons.1 hnd).1 (by simp [mem_of_mem_head? e])
    dsimp only
    rw [if_neg hfirst]
    exact hlinked.remove hnd (fun y _ => rfl) fun y _ => rfl
  · simpa [Ne.symm hxskel] using hvert
  · by_cases hyx : y = x
    · have hqueue := hhorz queue (by simp)
      rw [hnext] at hqueue
      simpa [hyx] using hqueue
    · have hmem : y ∈ l ++ x :: queue :: r := by
        rcases mem_append.1 hy with hy | hy
        · simp [hy]
        · simp [(mem_cons.1 hy).resolve_left hyx]
      simpa [hyx] using hhorz y hmem
  · exact hnodup.sublist (by simp)

end HeisenKernel.Usb
