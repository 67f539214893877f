import HeisenKernel.Tasking
import HeisenKernel.Lib.Loop

/-!
# What a switch does

A timer interrupt wakes sleeping threads, deletes stopped ones and starts the one it switches to,
and touches nothing else of the kernel: a thread that is blocked for another reason than sleep stays
as it is (`Switched`).
-/

namespace HeisenKernel

open Function List Option

theorem mem_removeElem_of_ne [DecidableEq α] (hne : a ≠ e) : ∀ {l : List α}, a ∈ l → a ∈ removeElem e l
  | b :: l, h => by
    unfold removeElem
    split
    · next hb =>
      have ha : a ∈ l := (mem_cons.1 h).resolve_left fun h => hne (h.trans hb)
      cases l with
      | nil => exact ha
      | cons c l =>
        exact mem_cons.2 ((mem_cons.1 ha).imp_right (mem_removeElem_of_ne hne))
    · exact mem_cons.2 ((mem_cons.1 h).imp_right (mem_removeElem_of_ne hne))

theorem getAt_eq_ok : getAt l i = .ok a ↔ l[i.toNat]? = some a := by
  unfold getAt
  cases l[i.toNat]? with
  | none => exact ⟨nofun, nofun⟩
  | some b => simp

namespace Kernel

variable {k k' : Kernel} {t : Nat} {th : Thread}

@[simp] theorem thread_eq_ok : k.thread t = .ok th ↔ k.threads t = some th := by
  unfold thread
  cases k.threads t with
  | none => exact ⟨nofun, nofun⟩
  | some b => simp

@[simp] theorem process_eq_ok : k.process p = .ok proc ↔ k.processes p = some proc := by
  unfold process
  cases k.processes p with
  | none => exact ⟨nofun, nofun⟩
  | some b => simp

@[simp] theorem setThread_threads (a : Nat) :
    (k.setThread t th).threads a = if a = t then some th else k.threads a := by
  simp [setThread, update_apply]

/-- What a switch leaves of the kernel: the processes, the blocked receivers and every thread that is
blocked for another reason than sleep. -/
structure Switched (k k' : Kernel) : Prop where
  processes : k'.processes = k.processes
  processList : k'.processList = k.processList
  receivers : k'.receivingBlockedList = k.receivingBlockedList
  kept : ∀ t th, k.threads t = some th → th.state = .blocked → th.blockedState ≠ .sleepMS →
    k'.threads t = some th
  gone : ∀ t, k.threads t = none → k'.threads t = none

theorem Switched.refl : Switched k k := ⟨rfl, rfl, rfl, fun _ _ h _ _ => h, fun _ h => h⟩

theorem Switched.trans (h1 : Switched k1 k2) (h2 : Switched k2 k3) : Switched k1 k3 :=
  ⟨h2.processes.trans h1.processes, h2.processList.trans h1.processList,
    h2.receivers.trans h1.receivers,
    fun t th h hb hs => h2.kept t th (h1.kept t th h hb hs) hb hs,
    fun t h => h2.gone t (h1.gone t h)⟩

theorem Switched.setThread (h : k.threads t = some th)
    (hst : th.state ≠ .blocked ∨ th.blockedState = .sleepMS) (th' : Thread) :
    Switched k (k.setThread t th') := by
  refine ⟨rfl, rfl, rfl, fun a b hb hblocked hsleep => ?_, fun a ha => ?_⟩
  · rw [setThread_threads, if_neg]
    · exact hb
    · rintro rfl
      rw [h, some.injEq] at hb
      subst hb
      exact hst.elim (fun h => h hblocked) hsleep
  · rw [setThread_threads, if_neg]
    · exact ha
    · rintro rfl
      rw [h] at ha
      cases ha

theorem Switched.deleteThread (h : k.threads t = some th) (hst : th.state = .stopped) :
    Switched k (k.deleteThread t) := by
  refine ⟨rfl, rfl, rfl, fun a b hb hblocked _ => ?_, fun a ha => ?_⟩
  · have hat : a ≠ t := by
      rintro rfl
      rw [h, some.injEq] at hb
      subst hb
      rw [hst] at hblocked
      cases hblocked
    simpa [Kernel.deleteThread, update_apply, hat] using hb
  · by_cases hat : a = t
    · simp [Kernel.deleteThread, hat]
    · simpa [Kernel.deleteThread, update_apply, hat] using ha

/-- The thread `t` is one of the scheduler's list and is not blocked. -/
def Runnable (k : Kernel) (t : Nat) : Prop :=
  t ∈ k.threadsList ∧ ∃ th, k.threads t = some th ∧ th.state ≠ .blocked

/-- The current thread is one of the scheduler's list and is not blocked. -/
def Running (k : Kernel) : Prop := k.Runnable k.currentThread

theorem nextReady_spec (h : k.nextReady fuel index = .ok t) : k.Runnable t := by
  induction fuel generalizing index with
  | zero => cases h
  | succ fuel ih =>
    simp only [nextReady, bind_eq_ok] at h
    obtain ⟨a, ha, th, hth, h⟩ := h
    split at h
    · exact ih h
    · next hb =>
      cases h
      exact ⟨mem_of_getElem? (getAt_eq_ok.1 ha), th, thread_eq_ok.1 hth, hb⟩

theorem dropStopped_spec {fuel next n : Nat} (hn : k.Runnable next)
    (h : k.dropStopped fuel next = .ok (n, k')) :
    Switched k k' ∧ k'.currentThread = k.currentThread ∧ n ∈ k'.threadsList ∧
      ∃ th, k'.threads n = some th ∧ th.state ≠ .blocked ∧ th.state ≠ .stopped := by
  induction fuel generalizing k next with
  | zero => cases h
  | succ fuel ih =>
    simp only [dropStopped, bind_eq_ok] at h
    obtain ⟨th, hth, h⟩ := h
    rw [thread_eq_ok] at hth
    split at h
    · next hst =>
      obtain ⟨n', hn', h⟩ := bind_eq_ok.1 h
      obtain ⟨hs, hc, hrest⟩ := ih (nextReady_spec hn') h
      exact ⟨(Switched.deleteThread hth hst).trans hs, hc, hrest⟩
    · next hst =>
      cases h
      obtain ⟨hmem, th', hth', hb⟩ := hn
      exact ⟨.refl, rfl, hmem, th', hth', hb, by rw [hth, some.injEq] at hth'; rwa [← hth']⟩

theorem switchTo_spec (hmem : t ∈ k.threadsList) (hth : k.threads t = some th)
    (hb : th.state ≠ .blocked) (h : k.switchTo t = .ok k') : Switched k k' ∧ k'.Running := by
  simp only [switchTo, bind_eq_ok, thread_eq_ok] at h
  obtain ⟨th', hth', isUser, -, h⟩ := h
  obtain rfl : th = th' := some.inj (hth.symm.trans hth')
  split at h
  · cases h
    have hs := Switched.setThread hth (.inl hb) { th with state := .ready, control := .user }
    exact ⟨⟨hs.1, hs.2, hs.3, hs.4, hs.5⟩, hmem, { th with state := .ready, control := .user },
      by simp [Kernel.setThread], by simp⟩
  · cases h
    exact ⟨⟨rfl, rfl, rfl, fun _ _ h _ _ => h, fun _ h => h⟩, hmem, th, hth, hb⟩

theorem taskSwitch_spec (h : k.taskSwitch = .ok k') : Switched k k' ∧ k'.Running := by
  simp only [taskSwitch, bind_eq_ok] at h
  obtain ⟨next, hnext, ⟨n, k1⟩, hdrop, k2, hcur, h⟩ := h
  obtain ⟨hs1, hc1, hmem1, th, hth, hb, hst⟩ := dropStopped_spec (nextReady_spec hnext) hdrop
  -- the current thread goes only if it is stopped, and `n` is not
  obtain ⟨hs2, hmem2, hth2⟩ : Switched k1 k2 ∧ n ∈ k2.threadsList ∧ k2.threads n = some th := by
    unfold dropCurrent at hcur
    split at hcur
    · obtain ⟨cur, hcurth, hcur⟩ := bind_eq_ok.1 hcur
      rw [thread_eq_ok] at hcurth
      split at hcur
      · next hstop =>
        cases hcur
        have hne : n ≠ k1.currentThread := by
          rintro rfl
          rw [hth, some.injEq] at hcurth
          exact hst (hcurth ▸ hstop)
        refine ⟨.deleteThread hcurth hstop, mem_removeElem_of_ne hne hmem1, ?_⟩
        simpa [deleteThread, update_apply, hne] using hth
      · cases hcur
        exact ⟨.refl, hmem1, hth⟩
    · cases hcur
      exact ⟨.refl, hmem1, hth⟩
  obtain ⟨hs3, hrun⟩ := switchTo_spec hmem2 hth2 hb h
  exact ⟨(hs1.trans hs2).trans hs3, hrun⟩

/-- What the passing of time leaves: all but the sleeping threads. -/
structure Woken (k k' : Kernel) : Prop extends Switched k k' where
  threadsList : k'.threadsList = k.threadsList
  currentThread : k'.currentThread = k.currentThread
  tickCount : k'.tickCount = k.tickCount
  enabled : k'.enabled = k.enabled
  awake : ∀ t th, k.threads t = some th → th.state ≠ .blocked → k'.threads t = some th

theorem Woken.refl : Woken k k := ⟨.refl, rfl, rfl, rfl, rfl, fun _ _ h _ => h⟩

theorem Woken.trans (h1 : Woken k1 k2) (h2 : Woken k2 k3) : Woken k1 k3 :=
  ⟨h1.toSwitched.trans h2.toSwitched, h2.threadsList.trans h1.threadsList,
    h2.currentThread.trans h1.currentThread, h2.tickCount.trans h1.tickCount,
    h2.enabled.trans h1.enabled, fun t th h hb => h2.awake t th (h1.awake t th h hb) hb⟩

theorem Woken.setThread (h : k.threads t = some th) (hb : th.state = .blocked)
    (hs : th.blockedState = .sleepMS) (th' : Thread) : Woken k (k.setThread t th') := by
  refine ⟨.setThread h (.inr hs) th', rfl, rfl, rfl, rfl, fun a b hab hawake => ?_⟩
  rw [setThread_threads, if_neg]
  · exact hab
  · rintro rfl
    rw [h, some.injEq] at hab
    exact hawake (hab ▸ hb)

theorem processSleepingThread_spec (h : k.processSleepingThread t = .ok k') : Woken k k' := by
  simp only [processSleepingThread, bind_eq_ok, thread_eq_ok] at h
  obtain ⟨th, hth, h⟩ := h
  split at h
  · next hsleep =>
    have hw := fun th' => Woken.setThread hth hsleep.1 hsleep.2.1 th'
    split at h
    · simp only [unblock, bind_eq_ok, thread_eq_ok, setThread_threads, if_true] at h
      obtain ⟨th1, hth1, h⟩ := h
      cases hth1
      cases h
      refine (hw _).trans (.setThread (by rw [setThread_threads, if_pos rfl]) ?_ ?_ _)
      · exact hsleep.1
      · exact hsleep.2.1
    · cases h
      exact hw _
  · cases h
    exact .refl

theorem processSleepingThreads_spec (h : k.processSleepingThreads = .ok k') : Woken k k' :=
  Lib.foldlM_rel (R := Woken) (fun _ => .refl) (fun h1 h2 => h1.trans h2)
    (fun _ _ _ _ h => processSleepingThread_spec h) h

theorem handleInterrupt_spec (h : k.handleInterrupt = .ok k') : Switched k k' ∧ (k.Running → k'.Running) := by
  simp only [handleInterrupt, bind_eq_ok] at h
  obtain ⟨k1, hk1, h⟩ := h
  obtain ⟨hs, hrun⟩ : Switched k k1 ∧ (k.Running → k1.Running) := by
    unfold passTime at hk1
    split at hk1
    · have hw := processSleepingThreads_spec hk1
      refine ⟨⟨hw.processes, hw.processList, hw.receivers, hw.kept, hw.gone⟩, ?_⟩
      rintro ⟨hmem, th, hth, hb⟩
      refine ⟨?_, th, ?_, hb⟩
      · rw [hw.threadsList, hw.currentThread]
        exact hmem
      · rw [hw.currentThread]
        exact hw.awake _ th hth hb
    · cases hk1
      exact ⟨⟨rfl, rfl, rfl, fun _ _ h _ _ => h, fun _ h => h⟩, id⟩
  split at h
  · split at h
    · obtain ⟨hs', hrun'⟩ := taskSwitch_spec h
      exact ⟨hs.trans ⟨hs'.1, hs'.2, hs'.3, hs'.4, hs'.5⟩, fun _ => hrun'⟩
    · cases h
      exact ⟨⟨hs.1, hs.2, hs.3, hs.4, hs.5⟩, hrun⟩
  · cases h
    exact ⟨hs, hrun⟩

theorem forceSwitch_spec (h : k.forceSwitch = .ok k') :
    Switched k k' ∧ (k.currentThread ∈ k.threadsList → k'.Running) := by
  have hs := (handleInterrupt_spec h).1
  refine ⟨⟨hs.1, hs.2, hs.3, hs.4, hs.5⟩, fun hmem => ?_⟩
  simp only [forceSwitch, handleInterrupt, bind_eq_ok, passTime, Bool.true_eq_false, if_false] at h
  obtain ⟨k1, hk1, h⟩ := h
  cases hk1
  rw [if_pos (show u32 (schedulerFrequency - 1 + 1) = schedulerFrequency by decide),
    if_pos ⟨length_pos_of_mem hmem, rfl⟩] at h
  exact (taskSwitch_spec h).2

end Kernel

end HeisenKernel
