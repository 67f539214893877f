import HeisenKernel.Base
import HeisenKernel.Lib.TailQueue

/-!
# The threads of kernelx

`kernelx/threading` has all threads in `kernel_threads` and those that are ready in
`ready_threads_queue`.
-/

namespace HeisenKernel.Threading

open Lib TailQueue Function List

/-- `thread_state` (`thread.h:26`). -/
inductive ThreadState where
  | created | ready | running | blocked | zombie
deriving Repr, DecidableEq

/-- The two queues, and the word at address 0, which is written through the null `tqh_last` of a queue that is
not set up. -/
inductive ThreadQueue where
  | kernelThreads | readyThreadsQueue | null
deriving Repr, DecidableEq

/-- The links and states of the threads at their addresses, and `g_current_thread`. -/
structure Threads where
  links : Links ThreadQueue Nat
  state : Nat → ThreadState
  current : Nat

/-- `scheduler_setup` (`scheduler.c:8`). -/
def schedulerSetup (s : Threads) : Threads := { s with links := s.links.init .readyThreadsQueue }

/-- `add_in_ready_queue` (`scheduler.c:22`). -/
def addInReadyQueue (thr : Nat) (insertAtTail : Bool) (s : Threads) : Exec Threads :=
  if s.state thr = .created ∨ s.state thr = .running ∨ s.state thr = .blocked then
    .ok { s with
      state := update s.state thr .ready
      links := if insertAtTail then s.links.insertTail .readyThreadsQueue thr
        else s.links.insertHead .readyThreadsQueue thr }
  else .error .panic

/-- `scheduler_set_ready` (`scheduler.c:39`). -/
def schedulerSetReady (thr : Nat) (s : Threads) : Exec Threads :=
  if s.state thr = .ready then .ok s else addInReadyQueue thr true s

/-- `thread_set_current` (`thread.c:20`). -/
def threadSetCurrent (thr : Nat) (s : Threads) : Exec Threads :=
  if s.state thr = .ready then
    .ok { s with current := thr, state := update s.state thr .running }
  else .error .panic

/-- `thread_get_current` (`thread.c:28`). -/
def threadGetCurrent (s : Threads) : Exec Nat :=
  if s.state s.current = .running then .ok s.current else .error .panic

/-- `schedule` (`scheduler.c:51`), up to the context switch. -/
def schedule (s : Threads) : Exec Threads := do
  let current ← threadGetCurrent s
  let s ← if s.state current ≠ .blocked then addInReadyQueue current true s else .ok s
  match s.links.first .readyThreadsQueue with
  | none => .error .panic
  | some next => threadSetCurrent next { s with
      links := (s.links.remove .readyThreadsQueue next).insertTail .readyThreadsQueue next }

/-- `thread_create` (`thread.c:46`): `new` and `stack` are what the calls of `malloc` return. -/
def threadCreate (startFunc : Bool) (new stack : Nat) (s : Threads) : Exec (Nat × Threads) :=
  if startFunc = false ∨ new = 0 then .ok (0, s)
  else
    let s := { s with state := update s.state new .created }
    if stack = 0 then .ok (0, s)
    else (schedulerSetReady new { s with links := s.links.insertTail .kernelThreads new }).map (new, ·)

/-- `threading_setup` (`thread.c:34`). -/
def threadingSetup (new stack : Nat) (s : Threads) : Exec Threads := do
  let r ← threadCreate true new stack { s with links := s.links.init .kernelThreads }
  if r.1 = 0 then .error .panic
  else threadSetCurrent r.1 { r.2 with state := update r.2.state r.1 .ready }

/-- The calls, with what `malloc` returns in them. -/
inductive Call where
  | threadingSetup (new stack : Nat)
  | threadCreate (startFunc : Bool) (new stack : Nat)
  | schedulerSetReady (thr : Nat)
  | schedule

/-- The threads and those of them that `thread_create` has returned. -/
structure System where
  threads : Threads
  created : List Nat

/-- A call. -/
def System.step (x : System) : Call → Exec System
  | .threadingSetup new stack => (Threading.threadingSetup new stack x.threads).map (⟨·, new :: x.created⟩)
  | .threadCreate startFunc new stack => (Threading.threadCreate startFunc new stack x.threads).map fun r =>
      ⟨r.2, if r.1 = 0 then x.created else r.1 :: x.created⟩
  | .schedulerSetReady thr => (Threading.schedulerSetReady thr x.threads).map (⟨·, x.created⟩)
  | .schedule => (Threading.schedule x.threads).map (⟨·, x.created⟩)

/-- The ready queue has the created threads that are ready, so that the running one is not in it, and the queue
of all threads has those that are created; in both of them each thread is once. -/
structure System.Sound (x : System) : Prop where
  ready : ∃ l, x.threads.links.Holds .readyThreadsQueue l ∧
    ∀ t, t ∈ l ↔ t ∈ x.created ∧ x.threads.state t = .ready
  all : ∃ l, x.threads.links.Holds .kernelThreads l ∧ ∀ t, t ∈ l ↔ t ∈ x.created

theorem not_sound_of_last {x : System} (hlast : x.threads.links.last .readyThreadsQueue = .elem thr)
    (hcreated : thr ∈ x.created) : ¬x.Sound := by
  rintro ⟨⟨l, hready, -⟩, ⟨l', hall, hmem⟩⟩
  have hend := hready.last.symm.trans hlast
  rcases Links.endPlace_mem (Place.head ThreadQueue.readyThreadsQueue) l with heq | ⟨t, ht, heq⟩
  · rw [heq] at hend
    cases hend
  · obtain rfl : t = thr := Place.elem.inj (heq.symm.trans hend)
    exact hready.disjoint hall (by decide) ht ((hmem t).2 hcreated)

theorem threadCreate_eq (hnew : new ≠ 0) (hstack : stack ≠ 0) :
    ∃ s', threadCreate true new stack s = .ok (new, s') ∧ s'.links.last .readyThreadsQueue = .elem new := by
  have hcreated : update s.state new .created new = .created := update_self ..
  rw [threadCreate, if_neg (by simp [hnew])]
  simp only [if_neg hstack, schedulerSetReady, addInReadyQueue, hcreated, if_true, true_or, reduceCtorEq,
    if_false]
  exact ⟨_, rfl, (Links.last_insertTail _).trans (if_pos rfl)⟩

theorem threadCreate_failed (h : new = 0 ∨ stack = 0) :
    ∃ s', threadCreate true new stack s = .ok (0, s') := by
  by_cases hnew : new = 0
  · exact ⟨s, if_pos (.inr hnew)⟩
  · rw [threadCreate, if_neg (by simp [hnew])]
    exact ⟨_, if_pos (h.resolve_left hnew)⟩

/-- In no state does `threading_setup` return to sound queues, whether the ready queue is set up or not, and
neither does a `thread_create` that returns a thread. -/
theorem threads_never_sound (x : System) (new stack : Nat) :
    (x.step (.threadingSetup new stack) = .error .panic ∨
      ∃ x', x.step (.threadingSetup new stack) = .ok x' ∧ ¬x'.Sound) ∧
    (new ≠ 0 ∧ stack ≠ 0 → ∃ x', x.step (.threadCreate true new stack) = .ok x' ∧ ¬x'.Sound) := by
  refine ⟨?_, ?_⟩
  · by_cases h : new = 0 ∨ stack = 0
    · left
      obtain ⟨s', hcreate⟩ := threadCreate_failed h
      rw [System.step, threadingSetup, bind_of_ok hcreate]
      rfl
    · right
      rw [not_or] at h
      obtain ⟨s', hcreate, hlast⟩ := threadCreate_eq h.1 h.2
      rw [System.step, threadingSetup, bind_of_ok hcreate, if_neg h.1, threadSetCurrent,
        if_pos (update_self ..)]
      exact ⟨_, rfl, not_sound_of_last hlast mem_cons_self⟩
  · rintro ⟨hnew, hstack⟩
    obtain ⟨s', hcreate, hlast⟩ := threadCreate_eq hnew hstack
    rw [System.step, hcreate]
    refine ⟨_, rfl, not_sound_of_last hlast ?_⟩
    show new ∈ if new = 0 then x.created else new :: x.created
    rw [if_neg hnew]
    exact mem_cons_self

/-- The threads when the kernel starts, in zeroed memory. -/
def bootSystem : System where
  threads :=
    { links := ⟨fun _ => none, fun _ => .head .null, fun _ => none, fun _ => .head .null⟩
      state := fun _ => .created
      current := 0 }
  created := []

/-- The kernel calls `threading_setup`: the ready queue ends in the running thread. The `scheduler_setup` that it
calls then empties this queue, but the link back of the thread stays that of a queue that was not set up. -/
theorem threadingSetup_not_sound : ∃ x', bootSystem.step (.threadingSetup 0x1000 0x2000) = .ok x' ∧
    x'.threads.state 0x1000 = .running ∧ ¬x'.Sound ∧ ¬System.Sound ⟨schedulerSetup x'.threads, x'.created⟩ := by
  refine ⟨_, rfl, by decide, not_sound_of_last (show _ = Place.elem 0x1000 from rfl) mem_cons_self, ?_⟩
  rintro ⟨-, ⟨l, hall, -⟩⟩
  obtain ⟨l, rfl⟩ := head?_eq_some_iff.1 (hall.first.symm.trans (by decide : _ = some 0x1000))
  exact absurd hall.seg.2.1 (by decide)

end HeisenKernel.Threading
