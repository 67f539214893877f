import HeisenKernel.Tasking.Blocked
import HeisenKernel.Tasking.RoundRobin

/-!
# Sleeping threads

A timer interrupt that is not a forced switch lets time pass for every thread of the scheduler's
list at once: `processSleepingThreads_eq` says what the loop over the list leaves.
-/

namespace HeisenKernel

open Lib Function List Kernel Option

/-- What the passing of time does to a thread. -/
def Thread.pass (th : Thread) : Thread :=
  if th.state = .blocked ∧ th.blockedState = .sleepMS ∧ th.timeDelta > 0 then
    { th with
      timeDelta := th.timeDelta - 1
      state := if th.timeDelta - 1 ≤ 0 then .ready else .blocked }
  else th

namespace Kernel

/-- Every thread of the scheduler's list exists and is there once. -/
structure Listed (k : Kernel) : Prop where
  nodup : k.threadsList.Nodup
  live : ∀ t ∈ k.threadsList, ∃ th, k.threads t = some th

/-- The kernel between two steps: a thread that is not blocked runs, and no switch is pending. -/
structure Settled (k : Kernel) : Prop where
  running : k.Running
  listed : k.Listed
  unforced : k.switchForced = false

def IsBlocked (k : Kernel) (t : Nat) : Prop := ∃ th, k.threads t = some th ∧ th.state = .blocked

def IsReady (k : Kernel) (t : Nat) : Prop := ∃ th, k.threads t = some th ∧ th.state = .ready

variable {k k' : Kernel} {t : Nat} {th : Thread}

theorem Listed.setThread (hk : k.Listed) : (k.setThread t th).Listed := by
  refine ⟨hk.nodup, fun a ha => ?_⟩
  rw [setThread_threads]
  split
  · exact ⟨th, rfl⟩
  · exact hk.live a ha

theorem Listed.deleteThread (hk : k.Listed) : (k.deleteThread t).Listed := by
  have hlist : (k.deleteThread t).threadsList = k.threadsList.erase t := removeElem_eq_erase hk.nodup
  refine ⟨hlist ▸ hk.nodup.erase t, fun a ha => ?_⟩
  rw [hlist, hk.nodup.mem_erase_iff] at ha
  obtain ⟨th, hth⟩ := hk.live a ha.2
  exact ⟨th, by simpa [Kernel.deleteThread, update_apply, ha.1] using hth⟩

/-- What a task switch leaves: every thread that is blocked or ready. -/
structure Dispatched (k k' : Kernel) : Prop where
  listed : k.Listed → k'.Listed
  switchForced : k'.switchForced = k.switchForced
  kept : ∀ t th, k.threads t = some th → th.state = .blocked ∨ th.state = .ready →
    k'.threads t = some th ∧ (t ∈ k.threadsList → t ∈ k'.threadsList)

theorem Dispatched.refl : Dispatched k k := ⟨id, rfl, fun _ _ h _ => ⟨h, id⟩⟩

theorem Dispatched.trans (h1 : Dispatched k₁ k₂) (h2 : Dispatched k₂ k3) : Dispatched k₁ k3 := by
  refine ⟨h2.listed ∘ h1.listed, h2.switchForced.trans h1.switchForced, fun t th hth hst => ?_⟩
  obtain ⟨hth2, hmem2⟩ := h1.kept t th hth hst
  obtain ⟨hth3, hmem3⟩ := h2.kept t th hth2 hst
  exact ⟨hth3, hmem3 ∘ hmem2⟩

theorem ne_of_state (h : k.threads t = some th) (hst : ¬ (th.state = .blocked ∨ th.state = .ready))
    (ha : k.threads a = some b) (hb : b.state = .blocked ∨ b.state = .ready) : a ≠ t := by
  rintro rfl
  rw [h, some.injEq] at ha
  exact hst (ha ▸ hb)

theorem Dispatched.deleteThread (h : k.threads t = some th) (hst : th.state = .stopped) :
    Dispatched k (k.deleteThread t) := by
  refine ⟨Listed.deleteThread, rfl, fun a b ha hb => ?_⟩
  have hne : a ≠ t := ne_of_state h (by simp [hst]) ha hb
  exact ⟨by simpa [Kernel.deleteThread, update_apply, hne] using ha, mem_removeElem_of_ne hne⟩

theorem dropStopped_dispatched {fuel next n : Nat} (h : k.dropStopped fuel next = .ok (n, k')) :
    Dispatched k k' := by
  induction fuel generalizing k next with
  | zero => cases h
  | succ fuel ih =>
    simp only [dropStopped, bind_eq_ok, thread_eq_ok] at h
    obtain ⟨th, hth, h⟩ := h
    split at h
    · next hst =>
      obtain ⟨n', -, h⟩ := bind_eq_ok.1 h
      exact (Dispatched.deleteThread hth hst).trans (ih h)
    · cases h
      exact .refl

theorem dropCurrent_dispatched (h : k.dropCurrent = .ok k') : Dispatched k k' := by
  unfold dropCurrent at h
  split at h
  · simp only [bind_eq_ok, thread_eq_ok] at h
    obtain ⟨th, hth, h⟩ := h
    split at h
    · next hst =>
      cases h
      exact .deleteThread hth hst
    · cases h
      exact .refl
  · cases h
    exact .refl

theorem switchTo_dispatched (h : k.switchTo t = .ok k') : Dispatched k k' := by
  simp only [switchTo, bind_eq_ok, thread_eq_ok] at h
  obtain ⟨th, hth, isUser, -, h⟩ := h
  split at h
  · next hst =>
    cases h
    refine ⟨fun hk => ?_, rfl, fun a b ha hb => ?_⟩
    · have hs : (k.setThread t { th with state := .ready, control := .user }).Listed := hk.setThread
      exact ⟨hs.nodup, hs.live⟩
    · have hne : a ≠ t := ne_of_state hth (by simp [hst.1]) ha hb
      exact ⟨by simpa [setThread, update_apply, hne] using ha, id⟩
  · cases h
    exact ⟨fun hk => ⟨hk.nodup, hk.live⟩, rfl, fun _ _ h _ => ⟨h, id⟩⟩

theorem taskSwitch_dispatched (h : k.taskSwitch = .ok k') : Dispatched k k' := by
  simp only [taskSwitch, bind_eq_ok] at h
  obtain ⟨next, -, ⟨n, k₁⟩, hdrop, k₂, hcur, h⟩ := h
  exact ((dropStopped_dispatched hdrop).trans (dropCurrent_dispatched hcur)).trans (switchTo_dispatched h)

theorem forceSwitch_dispatched (h : k.forceSwitch = .ok k') :
    Dispatched { k with switchForced := false } k' := by
  simp only [forceSwitch, handleInterrupt, bind_eq_ok, passTime, Bool.true_eq_false, if_false] at h
  obtain ⟨k₁, hk1, h⟩ := h
  cases hk1
  have hd : ∀ {k'}, Dispatched { k with switchForced := false, enabled := true, tickCount := 0 } k' →
      Dispatched { k with switchForced := false } k' := fun hd =>
    ⟨fun hk => hd.listed ⟨hk.nodup, hk.live⟩, hd.switchForced, hd.kept⟩
  rw [if_pos (show u32 (schedulerFrequency - 1 + 1) = schedulerFrequency by decide)] at h
  split at h
  · exact hd (taskSwitch_dispatched h)
  · cases h
    exact hd .refl

theorem block_dispatched (h : k.block k.currentThread reason = .ok k')
    (hth : k.threads k.currentThread = some th) :
    Dispatched { k.setThread k.currentThread { th with blockedState := reason, state := .blocked } with
      switchForced := false } k' := by
  rw [block, bind_of_ok (thread_eq_ok.2 hth)] at h
  dsimp only at h
  split at h
  · exact forceSwitch_dispatched h
  · next hne => exact absurd rfl hne

/-- What a step other than a timer interrupt does to blocked threads: it leaves or unblocks them. -/
structure Moved (k k' : Kernel) : Prop where
  settled : k'.Settled
  blocked : ∀ t th, k.threads t = some th → th.state = .blocked → t ∈ k.threadsList →
    t ∈ k'.threadsList ∧ (k'.threads t = some th ∨ ¬ k'.IsBlocked t)

theorem Settled.moved (hk : k.Settled) : Moved k k := ⟨hk, fun _ _ h _ hmem => ⟨hmem, .inl h⟩⟩

theorem Moved.setThread (h : Moved k k₁) (hst : th.state ≠ .blocked) : Moved k (k₁.setThread t th) := by
  obtain ⟨⟨⟨hcur, cur, hth, hb⟩, hlisted, hunforced⟩, hblocked⟩ := h
  refine ⟨⟨?_, hlisted.setThread, hunforced⟩, fun a b ha hb hmem => ?_⟩
  · by_cases hct : k₁.currentThread = t
    · exact ⟨hcur, th, by simp [Kernel.setThread, hct], hst⟩
    · exact ⟨hcur, cur, by simpa [Kernel.setThread, hct] using hth, hb⟩
  · obtain ⟨hmem1, ha1⟩ := hblocked a b ha hb hmem
    refine ⟨hmem1, ?_⟩
    rw [IsBlocked, setThread_threads]
    split
    · refine .inr ?_
      rintro ⟨b, hb, hblocked⟩
      cases hb
      exact hst hblocked
    · exact ha1

theorem Settled.ne_current (hk : k.Settled) (hth : k.threads t = some th)
    (hb : th.state = .blocked) : t ≠ k.currentThread := by
  rintro rfl
  obtain ⟨-, cur, hcur, hst⟩ := hk.running
  rw [hth, some.injEq] at hcur
  exact hst (hcur ▸ hb)

/-- Of what the scheduler looks at, at most the current thread differs. -/
structure Prepared (k k₁ : Kernel) : Prop where
  others : ∀ a ≠ k.currentThread, k₁.threads a = k.threads a
  current : ∃ th, k₁.threads k.currentThread = some th
  threadsList : k₁.threadsList = k.threadsList
  currentThread : k₁.currentThread = k.currentThread

theorem prepared_setThread : Prepared k (k.setThread k.currentThread th) :=
  ⟨fun a ha => by rw [setThread_threads, if_neg ha], ⟨th, by rw [setThread_threads, if_pos rfl]⟩,
    rfl, rfl⟩

theorem prepared_addReceiver : Prepared k (k.addReceiver th proc recvFrom type) :=
  ⟨prepared_setThread.others, prepared_setThread.current, rfl, rfl⟩

theorem Prepared.setThread (hp : Prepared k k₁) : Prepared k (k₁.setThread k.currentThread th) := by
  refine ⟨fun a ha => ?_, ⟨th, by rw [setThread_threads, if_pos rfl]⟩, hp.threadsList, hp.currentThread⟩
  rw [setThread_threads, if_neg ha]
  exact hp.others a ha

theorem Prepared.listed (hp : Prepared k k₁) (hk : k.Listed) : k₁.Listed := by
  refine ⟨hp.threadsList ▸ hk.nodup, fun a ha => ?_⟩
  by_cases hac : a = k.currentThread
  · exact hac ▸ hp.current
  · rw [hp.others a hac]
    exact hk.live a (hp.threadsList ▸ ha)

theorem Settled.moved_forceSwitch (hk : k.Settled) (hp : Prepared k k₁)
    (h : k₁.forceSwitch = .ok k') : Moved k k' := by
  have hd := forceSwitch_dispatched h
  have hrun := (forceSwitch_spec h).2 (by
    rw [hp.threadsList, hp.currentThread]
    exact hk.running.1)
  have hl : k₁.Listed := hp.listed hk.listed
  refine ⟨⟨hrun, hd.listed ⟨hl.nodup, hl.live⟩, hd.switchForced⟩, fun a b ha hb hmem => ?_⟩
  have ha1 : k₁.threads a = some b := by
    rw [hp.others a (hk.ne_current ha hb)]
    exact ha
  obtain ⟨hkept, hmem'⟩ := hd.kept a b ha1 (.inl hb)
  exact ⟨hmem' (hp.threadsList ▸ hmem), .inl hkept⟩

theorem Settled.moved_block (hk : k.Settled)
    (hp : Prepared k k₁) (h : k₁.block k.currentThread reason = .ok k') : Moved k k' := by
  simp only [block, bind_eq_ok, thread_eq_ok] at h
  obtain ⟨th', -, h⟩ := h
  split at h
  · exact hk.moved_forceSwitch hp.setThread h
  · next hne => exact absurd hp.currentThread.symm hne

theorem Moved.congr (h : Moved k k₁) (ht : k'.threads = k₁.threads) (hl : k'.threadsList = k₁.threadsList)
    (hc : k'.currentThread = k₁.currentThread) (hf : k'.switchForced = k₁.switchForced) : Moved k k' := by
  obtain ⟨⟨hrun, hlisted, hunforced⟩, hblocked⟩ := h
  refine ⟨⟨?_, ⟨hl ▸ hlisted.nodup, ?_⟩, hf ▸ hunforced⟩, ?_⟩
  · rw [Running, Runnable, hc, hl, ht]
    exact hrun
  · rw [hl, ht]
    exact hlisted.live
  · simp only [IsBlocked, hl, ht]
    exact hblocked

theorem Moved.takeMessage
    (hk : Moved k k₁) (h : k₁.takeMessage proc recvFrom type = .ok (r, k')) : Moved k k' := by
  simp only [Kernel.takeMessage, bind_eq_ok] at h
  obtain ⟨p, -, m, -, i, -, h⟩ := h
  split at h
  · cases h
    exact hk
  · obtain ⟨q, -, h⟩ := bind_eq_ok.1 h
    cases h
    exact hk.congr rfl rfl rfl rfl

theorem Settled.moved_handleSend (hk : k.Settled)
    (h : k.handleSend proc msg = .ok (target, k')) : Moved k k' := by
  simp only [handleSend, bind_eq_ok, process_eq_ok] at h
  obtain ⟨p, -, h⟩ := h
  split at h
  · cases h
    exact hk.moved
  · obtain ⟨a, -, h⟩ := bind_eq_ok.1 h
    split at h
    · cases h
      exact hk.moved
    · obtain ⟨q, -, h⟩ := bind_eq_ok.1 h
      split at h
      · cases h
        exact hk.moved.congr rfl rfl rfl rfl
      · next i t hfind =>
        obtain ⟨ds, -, h⟩ := bind_eq_ok.1 h
        obtain ⟨k₁, hk1, h⟩ := bind_eq_ok.1 h
        cases h
        simp only [unblock, bind_eq_ok, thread_eq_ok] at hk1
        obtain ⟨th, -, hk1⟩ := hk1
        cases hk1
        have hm : Moved k (k.setThread t { th with state := .ready }) := hk.moved.setThread (by simp)
        exact hm.congr rfl rfl rfl rfl

theorem Moved.removeThreads {ts : List Nat} {k₁ : Kernel} (hm : Moved k k₁)
    (h : ts.foldlM removeThread k₁ = .ok k') : Moved k k' := by
  induction ts generalizing k₁ with
  | nil =>
    cases h
    exact hm
  | cons t ts ih =>
    rw [foldlM_cons, bind_eq_ok] at h
    obtain ⟨k₂, hk2, h⟩ := h
    simp only [removeThread, bind_eq_ok, thread_eq_ok] at hk2
    obtain ⟨th, -, hk2⟩ := hk2
    cases hk2
    exact ih (hm.setThread (by simp)) h

theorem Settled.moved_syscallExit {proc : Nat} (hk : k.Settled)
    (h : k.syscallExit proc = .ok k') : Moved k k' := by
  simp only [syscallExit, removeProcess, bind_eq_ok, process_eq_ok, thread_eq_ok] at h
  obtain ⟨k₁, ⟨p, -, k₂, hk2, hk1⟩, th, hth, h⟩ := h
  cases hk1
  cases h
  have hm0 : Moved k { k with processList := removeElem proc k.processList } := hk.moved.congr rfl rfl rfl rfl
  have hm : Moved k k₂ := hm0.removeThreads hk2
  obtain ⟨-, cur, hcur, hst⟩ := hm.settled.running
  obtain rfl : cur = th := some.inj (hcur.symm.trans hth)
  have hm' : Moved k (k₂.setThread k₂.currentThread { cur with control := .exiting }) := hm.setThread hst
  exact hm'.congr rfl rfl rfl rfl

theorem Settled.moved_step (hk : k.Settled) (ha : a ≠ .timer) (h : Step k a k') : Moved k k' := by
  obtain ⟨-, cur, hcur, hst⟩ := hk.running
  cases h with
  | send _ _ h => exact hk.moved_handleSend h
  | receive _ _ h =>
    simp only [handleReceive, bind_eq_ok] at h
    obtain ⟨p, -, h⟩ := h
    split at h
    · simp only [bind_eq_ok, thread_eq_ok] at h
      obtain ⟨th, hth, k₁, hk1, h⟩ := h
      cases h
      exact hk.moved_block prepared_addReceiver hk1
    · exact hk.moved.takeMessage h
  | received hth _ h =>
    rw [hcur, some.injEq] at hth
    subst hth
    refine (hk.moved.setThread ?_).takeMessage h
    exact hst
  | unblock _ h =>
    rcases syscallUnblock_cases h with ⟨-, rfl⟩ | ⟨t, th, -, -, rfl⟩
    · exact hk.moved
    · exact hk.moved.setThread (by simp)
  | sleep _ h =>
    simp only [syscallSleep, bind_eq_ok] at h
    obtain ⟨th, -, h⟩ := h
    exact hk.moved_block prepared_setThread h
  | yield _ h =>
    exact hk.moved_forceSwitch ⟨fun _ _ => rfl, ⟨cur, hcur⟩, rfl, rfl⟩ h
  | exit _ _ h => exact hk.moved_syscallExit h
  | exited _ _ h => exact hk.moved_forceSwitch prepared_setThread h
  | timer => exact absurd rfl ha

theorem processSleepingThread_eq (hth : k.threads t = some th) :
    k.processSleepingThread t = .ok (k.setThread t th.pass) := by
  have hself : k.setThread t th = k := by
    rw [setThread, ← hth, update_eq_self]
  rw [processSleepingThread, bind_of_ok (thread_eq_ok.2 hth), Thread.pass]
  split
  · next hsleep =>
    split
    · rw [unblock, bind_of_ok (thread_eq_ok.2 (by rw [setThread_threads, if_pos rfl]))]
      simp [setThread]
    · rw [hsleep.1]
  · rw [hself]

theorem passList_eq {l : List Nat} (hl : l.Nodup) (hlive : ∀ t ∈ l, ∃ th, k.threads t = some th) :
    l.foldlM processSleepingThread k = .ok { k with
      threads := fun t => if t ∈ l then (k.threads t).map Thread.pass else k.threads t } := by
  induction l generalizing k with
  | nil => simp [pure, Except.pure]
  | cons t l ih =>
    rw [nodup_cons] at hl
    obtain ⟨th, hth⟩ := hlive t mem_cons_self
    rw [foldlM_cons, bind_of_ok (processSleepingThread_eq hth), ih hl.2]
    · congr 2
      funext a
      by_cases hat : a = t
      · subst hat
        simp [hl.1, hth]
      · simp [hat]
    · intro a ha
      obtain ⟨b, hb⟩ := hlive a (mem_cons_of_mem t ha)
      rw [setThread_threads, if_neg (ne_of_mem_of_not_mem ha hl.1)]
      exact ⟨b, hb⟩

/-- The kernel after time has passed for its threads. -/
def passed (k : Kernel) : Kernel :=
  { k with threads := fun t => if t ∈ k.threadsList then (k.threads t).map Thread.pass else k.threads t }

theorem processSleepingThreads_eq (hk : k.Listed) : k.processSleepingThreads = .ok k.passed :=
  passList_eq hk.nodup hk.live

theorem Listed.passed (hk : k.Listed) : k.passed.Listed := by
  refine ⟨hk.nodup, fun t ht => ?_⟩
  obtain ⟨th, hth⟩ := hk.live t ht
  exact ⟨th.pass, by simp [Kernel.passed, show t ∈ k.threadsList from ht, hth]⟩

theorem handleInterrupt_dispatched (hk : k.Settled) (h : k.handleInterrupt = .ok k') :
    Dispatched k.passed k' := by
  have hpass : { k with tickCount := u32 (k.tickCount + 1) }.passTime =
      .ok { k.passed with tickCount := u32 (k.tickCount + 1) } := by
    rw [passTime, if_pos hk.unforced]
    exact processSleepingThreads_eq ⟨hk.listed.nodup, hk.listed.live⟩
  rw [handleInterrupt, bind_of_ok hpass] at h
  dsimp only at h
  split at h
  · split at h
    · have hd := taskSwitch_dispatched h
      exact ⟨fun hl => hd.listed ⟨hl.nodup, hl.live⟩, hd.switchForced, hd.kept⟩
    · cases h
      exact ⟨fun hl => ⟨hl.nodup, hl.live⟩, rfl, fun _ _ h _ => ⟨h, id⟩⟩
  · cases h
    exact ⟨fun hl => ⟨hl.nodup, hl.live⟩, rfl, fun _ _ h _ => ⟨h, id⟩⟩

theorem Settled.handleInterrupt (hk : k.Settled) (h : k.handleInterrupt = .ok k') : k'.Settled := by
  have hd := handleInterrupt_dispatched hk h
  exact ⟨(handleInterrupt_spec h).2 hk.running, hd.listed hk.listed.passed, hd.switchForced.trans hk.unforced⟩

theorem Settled.step {a : Action} (hk : k.Settled) (h : Step k a k') : k'.Settled := by
  by_cases ha : a = .timer
  · subst ha
    cases h with
    | timer h => exact hk.handleInterrupt h
  · exact (hk.moved_step ha h).settled

/-- The thread `t` sleeps and has `d` timer interrupts to go. -/
structure Asleep (k : Kernel) (t d : Nat) : Prop where
  settled : k.Settled
  mem : t ∈ k.threadsList
  thread : ∃ th, k.threads t = some th ∧ th.state = .blocked ∧ th.blockedState = .sleepMS ∧ th.timeDelta = d

theorem Asleep.isBlocked (h : k.Asleep t d) : k.IsBlocked t :=
  let ⟨th, hth, hst, _⟩ := h.thread
  ⟨th, hth, hst⟩

theorem Settled.syscallSleep (hk : k.Settled) (hn : n < 2 ^ 32)
    (h : k.syscallSleep n = .ok k') : k'.Asleep k.currentThread n := by
  have hstep : k'.Settled := by
    simp only [Kernel.syscallSleep, bind_eq_ok] at h
    obtain ⟨th, -, h⟩ := h
    exact (hk.moved_block prepared_setThread h).settled
  simp only [Kernel.syscallSleep, bind_eq_ok, thread_eq_ok] at h
  obtain ⟨th, -, h⟩ := h
  have hcur : (k.setThread k.currentThread { th with timeDelta := u32 n }).threads k.currentThread =
      some { th with timeDelta := u32 n } := by
    rw [setThread_threads, if_pos rfl]
  obtain ⟨hth', hmem⟩ := (block_dispatched h hcur).kept k.currentThread
    { th with timeDelta := u32 n, blockedState := .sleepMS, state := .blocked }
    (by simp [setThread]) (.inl rfl)
  exact ⟨hstep, hmem hk.running.1, _, hth', rfl, rfl, Nat.mod_eq_of_lt hn⟩

theorem Asleep.step {a : Action} {d : Nat} (hk : k.Asleep t d) (ha : a ≠ .timer)
    (h : Step k a k') (hb : k'.IsBlocked t) : k'.Asleep t d := by
  obtain ⟨th, hth, hst, hrest⟩ := hk.thread
  have hm := hk.settled.moved_step ha h
  obtain ⟨hmem, hth' | hnot⟩ := hm.blocked t th hth hst hk.mem
  · exact ⟨hm.settled, hmem, th, hth', hst, hrest⟩
  · exact absurd hb hnot

theorem Asleep.passed (hk : k.Asleep t d) :
    ∃ th, k.passed.threads t = some th ∧ th.blockedState = .sleepMS ∧ th.timeDelta = d - 1 ∧
      th.state = if d = 1 then .ready else .blocked := by
  obtain ⟨th, hth, hst, hsleep, hd⟩ := hk.thread
  refine ⟨th.pass, by simp [Kernel.passed, hk.mem, hth], ?_⟩
  unfold Thread.pass
  split
  · next hpos =>
    refine ⟨hsleep, by rw [hd], ?_⟩
    exact if_congr (by omega) rfl rfl
  · next h0 =>
    have : d = 0 := by
      rw [hst, hsleep, hd] at h0
      simpa using h0
    subst this
    exact ⟨hsleep, hd, hst⟩

theorem Asleep.timer (hk : k.Asleep t d) (hd : d ≠ 1) (h : k.handleInterrupt = .ok k') :
    k'.Asleep t (d - 1) := by
  obtain ⟨th, hth, hsleep, htime, hst⟩ := hk.passed
  rw [if_neg hd] at hst
  obtain ⟨hth', hmem⟩ := (handleInterrupt_dispatched hk.settled h).kept t th hth (.inl hst)
  exact ⟨hk.settled.handleInterrupt h, hmem hk.mem, th, hth', hst, hsleep, htime⟩

theorem Asleep.timer_ready (hk : k.Asleep t 1) (h : k.handleInterrupt = .ok k') : k'.IsReady t := by
  obtain ⟨th, hth, -, -, hst⟩ := hk.passed
  exact ⟨th, ((handleInterrupt_dispatched hk.settled h).kept t th hth (.inr hst)).1, hst⟩

/-- A step by which nothing but the passing of time unblocks the thread `t`. -/
def Undisturbed (t : Nat) (k : Kernel) (a : Action) (k' : Kernel) : Prop :=
  Step k a k' ∧ (a ≠ .timer → k.IsBlocked t → k'.IsBlocked t)

theorem Asleep.run (hk : k.Asleep t d) (h : Run (Undisturbed t) k as k') (hd : as.count .timer < d ∨ d = 0)
    : k'.Asleep t (d - as.count .timer) := by
  induction h with
  | nil => exact hk
  | @snoc as k₁ k₂ a _ ha ih =>
    rw [count_append, count_singleton] at hd ⊢
    by_cases hat : a = .timer
    · subst hat
      simp only [beq_self_eq_true, if_true] at hd ⊢
      obtain ⟨hstep, -⟩ := ha
      cases hstep with
      | timer h =>
        have := (ih (by omega)).timer (by omega) h
        rwa [Nat.sub_sub] at this
    · have hne : (a == Action.timer) = false := by simpa using hat
      simp only [hne, Bool.false_eq_true, if_false, add_zero] at hd ⊢
      have hk1 := ih hd
      exact hk1.step hat ha.1 (ha.2 hat hk1.isBlocked)

/-- In every run in which nothing else unblocks it, the thread `t` stays blocked for the first
`max 1 n - 1` timer interrupts and is made ready by the pass over the threads of the next one. No
thread that is blocked for another reason is changed by a timer interrupt. -/
def SleepsFor (t n : Nat) (k : Kernel) : Prop :=
  ∀ as k', Run (Undisturbed t) k as k' →
    (as.count .timer < max 1 n → k'.IsBlocked t) ∧
    (as.count .timer + 1 = max 1 n →
      (∃ k₁, k'.processSleepingThreads = .ok k₁ ∧ k₁.IsReady t) ∧
      ∀ k'', Step k' .timer k'' → k''.IsReady t) ∧
    ∀ k'', Step k' .timer k'' → ∀ a th, k'.threads a = some th → th.state = .blocked →
      th.blockedState ≠ .sleepMS → k''.threads a = some th

theorem Asleep.sleepsFor (hk : k.Asleep t n) (hn : n ≠ 0) : SleepsFor t n k := by
  intro as k' hrun
  have hmax : max 1 n = n := by omega
  rw [hmax]
  refine ⟨fun hlt => (hk.run hrun (.inl hlt)).isBlocked, fun heq => ?_, fun k'' h => ?_⟩
  · have hk' := hk.run hrun (.inl (by omega))
    rw [show n - as.count .timer = 1 by omega] at hk'
    obtain ⟨th, hth, -, -, hst⟩ := hk'.passed
    refine ⟨⟨_, processSleepingThreads_eq hk'.settled.listed, th, hth, hst⟩, fun k'' h => ?_⟩
    cases h with
    | timer h => exact hk'.timer_ready h
  · cases h with | timer h => exact (handleInterrupt_spec h).1.kept

theorem Asleep.not_sleepsFor_zero (hk : k.Asleep t 0) : ¬ SleepsFor t 0 k := by
  intro h
  obtain ⟨-, hready, -⟩ := h [] k .nil
  obtain ⟨⟨k₁, hk1, th, hth, hst⟩, -⟩ := hready rfl
  rw [processSleepingThreads_eq hk.settled.listed] at hk1
  cases hk1
  obtain ⟨th', hth', -, -, hst'⟩ := hk.passed
  rw [hth, some.injEq] at hth'
  subst hth'
  rw [hst] at hst'
  cases hst'

end Kernel

open Kernel

/-- A thread that makes the sleep call, in any state a run reaches, is woken by the timer interrupt
with the number that the call asks for if and only if it does not ask for 0. -/
theorem sleep_wakes_iff (k₀ k k₁ : Kernel) (as : List Action) (n : Nat) (hn : n < 2 ^ 32) (h₀ : k₀.Settled)
    (hrun : Run Step k₀ as k) (hsleep : Step k (.sleep n) k₁) : SleepsFor k.currentThread n k₁ ↔ n ≠ 0 := by
  have hk : k.Settled := hrun.invariant h₀ fun _ _ _ hk h => hk.step h
  have hasleep : k₁.Asleep k.currentThread n := by
    cases hsleep with
    | sleep _ h => exact hk.syscallSleep hn h
  constructor
  · rintro h rfl
    exact hasleep.not_sleepsFor_zero h
  · exact hasleep.sleepsFor

theorem settled_twoProcesses : twoProcesses.Settled := by
  refine ⟨running_twoProcesses, ⟨by decide, fun t ht => ?_⟩, rfl⟩
  have ht : t = 10 ∨ t = 20 := by simpa [twoProcesses] using ht
  rcases ht with rfl | rfl
  · exact ⟨_, rfl⟩
  · exact ⟨_, rfl⟩

/-- The thread of process 1 sleeps for 2 milliseconds. -/
theorem sleep_wakes_twoProcesses : ∃ k₁, Step twoProcesses (.sleep 2) k₁ ∧ SleepsFor 10 2 k₁ :=
  have hstep : Step twoProcesses (.sleep 2) _ := .sleep ⟨_, rfl, rfl⟩ rfl
  ⟨_, hstep, (sleep_wakes_iff _ _ _ [] 2 (by decide) settled_twoProcesses .nil hstep).2 (by decide)⟩

/-- The thread of process 1 sleeps for 0 milliseconds and is still blocked behind a timer
interrupt. -/
theorem sleep_zero_not_woken : ∃ k₁ k₂, Step twoProcesses (.sleep 0) k₁ ∧ Step k₁ .timer k₂ ∧
    k₂.IsBlocked 10 ∧ ¬ SleepsFor 10 0 k₁ := by
  have hstep : Step twoProcesses (.sleep 0) _ := .sleep ⟨_, rfl, rfl⟩ rfl
  refine ⟨_, _, hstep, .timer rfl, ⟨_, rfl, rfl⟩, ?_⟩
  exact (settled_twoProcesses.syscallSleep (n := 0) (by decide) rfl).not_sleepsFor_zero

end HeisenKernel
