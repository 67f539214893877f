import HeisenKernel.Base
import HeisenKernel.Lib.Linked
import HeisenKernel.Lib.Run
import Mathlib.Data.Nat.ModEq

/-!
# The list of queue heads in the EHCI driver

The controller goes round a ring of queue heads, sixteen of which are static. The link back from the first one is
wrong from the start, and `InsertIntoQueue` sets no link back to the new queue head (`asyncList_never_sound`).
-/

namespace HeisenKernel.Usb

open Lib Function List

/-- `sizeof(e_queueHead_t)` (`ehci.h:99`). -/
def sizeofQueueHead : Nat := 96

/-- `QH_HS_TYPE_QH` (`ehci.h:58`). -/
def queueHeadType : Nat := 2

/-- The links of `e_queueHead_t` (`ehci.h:99`). -/
structure QueueHead where
  horzPointer : Nat
  horzPointerVirt : Nat
  prevPointerPhys : Nat
  prevPointerVirt : Nat

/-- The queue heads, by their addresses. -/
abbrev QueueHeads := Nat → QueueHead

/-- Stores to the horizontal links of a queue head. -/
def QueueHeads.setHorz (heads : QueueHeads) (x horz virt : Nat) : QueueHeads :=
  update heads x { heads x with horzPointer := horz, horzPointerVirt := virt }

/-- Stores to the previous links of a queue head. -/
def QueueHeads.setPrev (heads : QueueHeads) (x phys virt : Nat) : QueueHeads :=
  update heads x { heads x with prevPointerPhys := phys, prevPointerVirt := virt }

section
variable (asyncList asyncListPhys : Nat)

/-- A static queue head as the loop of `InitializeAsyncList` makes it (`ehci.cpp:111`). -/
def initializeHead (heads : QueueHeads) (i : Nat) : QueueHeads :=
  let queueHeadPtr := u32 (asyncList + i * sizeofQueueHead)
  let queueHeadPhysPtr := u32 (asyncListPhys + i * sizeofQueueHead)
  update heads queueHeadPtr
    ⟨u32 (queueHeadPhysPtr + sizeofQueueHead) ||| queueHeadType, u32 (queueHeadPtr + sizeofQueueHead),
      sub32 queueHeadPhysPtr sizeofQueueHead, sub32 queueHeadPtr sizeofQueueHead⟩

/-- `EHCIController::InitializeAsyncList` (`ehci.cpp:106`). Behind the loop the pointer is set back and the physical
address is not. -/
def initializeAsyncList (heads : QueueHeads) : QueueHeads :=
  let queueHeadPtr := u32 (asyncList + 15 * sizeofQueueHead)
  let queueHeadPhysPtr := u32 (asyncListPhys + 16 * sizeofQueueHead)
  (((List.range 16).foldl (initializeHead asyncList asyncListPhys) heads).setHorz queueHeadPtr
    (asyncListPhys ||| queueHeadType) asyncList).setPrev asyncList
    (u32 (queueHeadPhysPtr + 15 * sizeofQueueHead)) (u32 (queueHeadPtr + 15 * sizeofQueueHead))

/-- `EHCIController::InsertIntoQueue` (`ehci.cpp:424`). -/
def insertIntoQueue (heads : QueueHeads) (item itemPhys : Nat) : QueueHeads :=
  let heads := heads.setHorz item (heads asyncList).horzPointer (heads asyncList).horzPointerVirt
  (heads.setHorz asyncList (itemPhys ||| queueHeadType) item).setPrev item asyncListPhys asyncList

/-- `EHCIController::RemoveFromQueue` (`ehci.cpp:438`), up to the doorbell. -/
def removeFromQueue (heads : QueueHeads) (item : Nat) : QueueHeads :=
  let prevQH := (heads item).prevPointerVirt
  let nextQH := (heads item).horzPointerVirt
  let heads := heads.setHorz prevQH (heads item).horzPointer nextQH
  heads.setPrev nextQH (heads item).prevPointerPhys (heads item).prevPointerVirt

/-- The static queue heads. -/
def IsStaticHead (x : Nat) : Prop := ∃ i < 16, x = u32 (asyncList + i * sizeofQueueHead)

/-- The queue heads, and those that were inserted and not yet removed. -/
structure AsyncList where
  heads : QueueHeads
  queued : List Nat

/-- A call for a queue head, at its address and with its physical address. -/
inductive AsyncCall where
  | insert (item itemPhys : Nat)
  | remove (item : Nat)
deriving Repr, DecidableEq

/-- A queue head that is inserted is none of the list, and one that is removed was inserted. -/
inductive AsyncStep : AsyncList → AsyncCall → AsyncList → Prop where
  | insert {s : AsyncList} {item itemPhys : Nat} (hstatic : ¬IsStaticHead asyncList item) (hnew : item ∉ s.queued) :
    AsyncStep s (.insert item itemPhys)
      ⟨insertIntoQueue asyncList asyncListPhys s.heads item itemPhys, item :: s.queued⟩
  | remove {s : AsyncList} {item : Nat} (hqueued : item ∈ s.queued) :
    AsyncStep s (.remove item) ⟨removeFromQueue s.heads item, s.queued.erase item⟩

/-- The queue heads form one ring, forwards and backwards, and the physical links say the same. -/
def AsyncList.Sound (s : AsyncList) (phys : Nat → Nat) : Prop :=
  ∃ ring : List Nat, ring.head? = some asyncList ∧ ring.Nodup ∧
    (∀ x, x ∈ ring ↔ IsStaticHead asyncList x ∨ x ∈ s.queued) ∧
    Linked (fun x => (s.heads x).horzPointerVirt) (fun x => (s.heads x).prevPointerVirt) (ring.getLastD 0) ring
      asyncList ∧
    ∀ x ∈ ring, (s.heads x).horzPointer = phys (s.heads x).horzPointerVirt ||| queueHeadType ∧
      (s.heads x).prevPointerPhys = phys (s.heads x).prevPointerVirt

/-- The wrong link back from the first queue head is never written again: no queue head that can be removed has a
link to it. -/
structure AsyncList.Astray (s : AsyncList) : Prop where
  prev : (s.heads asyncList).prevPointerVirt = u32 (asyncList + 30 * sizeofQueueHead)
  horz : (s.heads asyncList).horzPointerVirt ≠ asyncList
  queued : ∀ x ∈ s.queued, x ≠ asyncList ∧ (s.heads x).horzPointerVirt ≠ asyncList ∧
    (s.heads x).prevPointerVirt = asyncList

end

section
variable {asyncList asyncListPhys x : Nat} {heads : QueueHeads} {s s' : AsyncList} {call : AsyncCall}

attribute [local simp] QueueHeads.setHorz QueueHeads.setPrev

theorem staticHead_ne (hi : i < 16) (hj : j < 31) (hne : i ≠ j) :
    u32 (asyncList + i * sizeofQueueHead) ≠ u32 (asyncList + j * sizeofQueueHead) := by
  intro h
  have heq := (Nat.ModEq.add_left_cancel' asyncList h).eq_of_lt_of_lt (by unfold sizeofQueueHead; omega)
    (by unfold sizeofQueueHead; omega)
  exact hne (Nat.eq_of_mul_eq_mul_right (by decide) heq)

theorem AsyncList.Astray.not_sound (h : s.Astray asyncList) (phys : Nat → Nat) : ¬s.Sound asyncList phys := by
  rintro ⟨ring, hhead, -, hmem, hlinked, -⟩
  obtain ⟨rest, rfl⟩ := head?_eq_some_iff.1 hhead
  -- the last queue head of the ring is where the link back of the first one leads
  obtain ⟨front, last, hlast⟩ := (eq_nil_or_concat' (asyncList :: rest)).resolve_left (by simp)
  have hback : (s.heads asyncList).prevPointerVirt = _ := hlinked.1
  rw [hlast] at hmem hlinked hback
  rw [getLastD_concat] at hback
  rcases (hmem last).1 (by simp) with ⟨i, hi, heq⟩ | hqueued
  · rw [h.prev, heq] at hback
    exact staticHead_ne hi (by decide) (by omega) hback.symm
  · exact (h.queued last hqueued).2.1 (linked_append.1 hlinked).2.2.1

theorem AsyncList.Astray.step (hlt : asyncList < 2 ^ 32) (h : s.Astray asyncList)
    (hstep : AsyncStep asyncList asyncListPhys s call s') : s'.Astray asyncList := by
  obtain ⟨hprev, hhorz, hqueued⟩ := h
  cases hstep with
  | @insert item itemPhys hstatic hnew =>
    have hne : item ≠ asyncList := by
      rintro rfl
      exact hstatic ⟨0, by decide, (u32_eq (by omega)).symm⟩
    refine ⟨?_, ?_, fun x hx => ?_⟩
    · simpa [insertIntoQueue, hne.symm] using hprev
    · simpa [insertIntoQueue, hne.symm] using hne
    · rcases mem_cons.1 hx with rfl | hx
      · simpa [insertIntoQueue, hne] using hhorz
      · have hxitem : x ≠ item := ne_of_mem_of_not_mem hx hnew
        simpa [insertIntoQueue, hxitem, (hqueued x hx).1] using hqueued x hx
  | @remove item hitem =>
    obtain ⟨hne, hnext, hback⟩ := hqueued item hitem
    refine ⟨?_, ?_, fun x hx => ?_⟩
    · simpa [removeFromQueue, hback, hnext.symm] using hprev
    · simpa [removeFromQueue, hback, hnext.symm] using hnext
    · obtain ⟨hxne, hxnext, hxback⟩ := hqueued x (mem_of_mem_erase hx)
      refine ⟨hxne, ?_⟩
      by_cases hx' : x = (s.heads item).horzPointerVirt
      · simpa [removeFromQueue, hback, hx', hnext, hne] using hx' ▸ hxnext
      · simpa [removeFromQueue, hback, hx', hxne] using ⟨hxnext, hxback⟩

theorem initializeHead_horz (h : x = u32 (asyncList + i * sizeofQueueHead) ∨ (heads x).horzPointerVirt ≠ x)
    : (initializeHead asyncList asyncListPhys heads i x).horzPointerVirt ≠ x := by
  simp only [initializeHead, update_apply]
  split
  · rename_i hx
    have hne : u32 (u32 (asyncList + i * sizeofQueueHead) + sizeofQueueHead) ≠ u32 (asyncList + i * sizeofQueueHead) := by
      unfold u32 sizeofQueueHead
      omega
    exact hx ▸ hne
  · rename_i hx
    exact h.resolve_left hx

theorem foldl_initializeHead_horz (h : (heads x).horzPointerVirt ≠ x) (is : List Nat) :
    (is.foldl (initializeHead asyncList asyncListPhys) heads x).horzPointerVirt ≠ x := by
  induction is generalizing heads with
  | nil => exact h
  | cons i is ih => exact ih (initializeHead_horz (.inr h))

theorem AsyncList.Astray.start (hlt : asyncList < 2 ^ 32) :
    (AsyncList.mk (initializeAsyncList asyncList asyncListPhys heads) []).Astray asyncList := by
  have hzero : asyncList = u32 (asyncList + 0 * sizeofQueueHead) := by rw [zero_mul, add_zero, u32_eq hlt]
  have hhorz : ((range 16).foldl (initializeHead asyncList asyncListPhys) heads asyncList).horzPointerVirt ≠
      asyncList := by
    rw [show range 16 = 0 :: range' 1 15 from rfl, foldl_cons]
    exact foldl_initializeHead_horz (initializeHead_horz (.inl hzero)) _
  have hne : asyncList ≠ u32 (asyncList + 15 * sizeofQueueHead) := by
    nth_rewrite 1 [hzero]
    exact staticHead_ne (by decide) (by decide) (by decide)
  refine ⟨?_, ?_, fun x hx => by cases hx⟩
  · have hback : u32 (u32 (asyncList + 15 * sizeofQueueHead) + 15 * sizeofQueueHead) =
        u32 (asyncList + 30 * sizeofQueueHead) := by
      unfold u32 sizeofQueueHead
      omega
    simpa [initializeAsyncList] using hback
  · simpa [initializeAsyncList, hne] using hhorz

theorem asyncList_never_sound (hlt : asyncList < 2 ^ 32) {calls : List AsyncCall}
    (hrun : Run (AsyncStep asyncList asyncListPhys) ⟨initializeAsyncList asyncList asyncListPhys heads, []⟩ calls s)
    (phys : Nat → Nat) : ¬s.Sound asyncList phys :=
  (hrun.invariant (.start hlt) fun _ _ _ h hstep => AsyncList.Astray.step hlt h hstep).not_sound phys

theorem asyncList_never_sound_insert :
    ¬(⟨insertIntoQueue 4096 8192 (initializeAsyncList 4096 8192 fun _ => ⟨0, 0, 0, 0⟩) 16384 32768,
      [16384]⟩ : AsyncList).Sound 4096 id := by
  refine asyncList_never_sound (by decide) (Run.snoc .nil (.insert ?_ (by simp))) id
  rintro ⟨i, hi, heq⟩
  unfold u32 sizeofQueueHead at heq
  omega

theorem removeFromQueue_drops :
    let heads := insertIntoQueue 4096 8192 (initializeAsyncList 4096 8192 fun _ => ⟨0, 0, 0, 0⟩) 16384 32768
    let heads := removeFromQueue (insertIntoQueue 4096 8192 heads 20480 36864) 16384
    (fun x => (heads x).horzPointerVirt)^[16] 4096 = 4096 ∧
      ∀ k < 16, (fun x => (heads x).horzPointerVirt)^[k] 4096 ≠ 20480 := by
  decide +kernel

end

end HeisenKernel.Usb
