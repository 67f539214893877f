import HeisenKernel.Tasking.Scheduler
import HeisenKernel.Lib.Run
import Mathlib.Data.List.Nodup

/-!
# The list of blocked receivers

`receivingBlockedList` should name the threads that are blocked in a receive, once each. Two system
calls change threads behind its back: `SYSCALL_UNBLOCK` starts any thread, and `SYSCALL_EXIT` stops
the threads of a process.
-/

namespace HeisenKernel

open Lib List Function Option

namespace Kernel

/-- The thread of the descriptor exists and is blocked in the receive that the descriptor is of. -/
def BlockedIn (k : Kernel) (d : IPCReceiveDescriptor) : Prop :=
  ∃ th, k.threads d.receivingThread = some th ∧ th.state = .blocked ∧ th.blockedState = .receiveIPC
    ∧ th.control = .receiving d.receivingProcess d.receiveFromPID d.receiveType

/-- Every descriptor names a thread that exists and is blocked in a receive, and no thread is named
twice. -/
structure ReceiversOk (k : Kernel) : Prop where
  blocked : ∀ d ∈ k.receivingBlockedList, ∃ th, k.threads d.receivingThread = some th ∧
    th.state = .blocked ∧ th.blockedState = .receiveIPC
  nodup : (k.receivingBlockedList.map (·.receivingThread)).Nodup

/-- A send changes no thread, or one that is blocked in a receive of the target which asks for the
message. -/
def SendOk (k : Kernel) (msg : IPCMessage) (target : Nat) (k' : Kernel) : Prop :=
  k'.threads = k.threads ∨ ∃ t th recvFrom type, k.threads t = some th ∧ th.state = .blocked ∧ th.blockedState
    = .receiveIPC ∧ th.control = .receiving target recvFrom type ∧ (recvFrom = -1 ∨ recvFrom = msg.source) ∧
    (type = -1 ∨ type = msg.type) ∧ ∀ a ≠ t, k'.threads a = k.threads a

/-- The condition on a step: an unblock call does not name a thread with a descriptor, and a process
that exits has no thread with one. -/
def Safe (k : Kernel) : Action → Prop
  | .unblock pid index => ∀ t, k.unblockTarget pid index = .ok (some t) →
      ∀ d ∈ k.receivingBlockedList, d.receivingThread ≠ t
  | .exit => ∀ proc p, k.currentProcess = .ok proc → k.processes proc = some p →
      ∀ d ∈ k.receivingBlockedList, d.receivingThread ∉ p.threads
  | _ => True

/-- The invariant: a thread that is not blocked runs, and every descriptor is of a blocked receive,
one for each thread. -/
structure ReceiversInv (k : Kernel) : Prop where
  running : k.Running
  null : k.threads 0 = none
  blocked : ∀ d ∈ k.receivingBlockedList, k.BlockedIn d
  nodup : (k.receivingBlockedList.map (·.receivingThread)).Nodup

variable {k k' : Kernel} {d : IPCReceiveDescriptor}

theorem ReceiversInv.ok (hi : k.ReceiversInv) : k.ReceiversOk :=
  ⟨fun d hd => let ⟨th, h, hs, hb, _⟩ := hi.blocked d hd; ⟨th, h, hs, hb⟩, hi.nodup⟩

theorem ReceiversInv.ne_current (hi : k.ReceiversInv) (hd : d ∈ k.receivingBlockedList) :
    d.receivingThread ≠ k.currentThread := by
  intro he
  obtain ⟨th, hth, hs, -⟩ := hi.blocked d hd
  obtain ⟨-, th', hth', hs'⟩ := hi.running
  rw [← he, hth, some.injEq] at hth'
  exact hs' (hth' ▸ hs)

theorem ReceiversInv.ne_zero (hi : k.ReceiversInv) (hd : d ∈ k.receivingBlockedList) :
    d.receivingThread ≠ 0 := by
  intro he
  obtain ⟨th, hth, -⟩ := hi.blocked d hd
  rw [he, hi.null] at hth
  cases hth

theorem Switched.blockedIn (hs : Switched k k') (h : k.BlockedIn d) : k'.BlockedIn d := by
  obtain ⟨th, hth, hst, hb, hc⟩ := h
  exact ⟨th, hs.kept _ th hth hst (by rw [hb]; decide), hst, hb, hc⟩

theorem BlockedIn.setThread (h : k.BlockedIn d)
    (hne : d.receivingThread ≠ t) : (k.setThread t th).BlockedIn d := by
  obtain ⟨th', hth', hrest⟩ := h
  exact ⟨th', by rw [setThread_threads, if_neg hne]; exact hth', hrest⟩

theorem ReceiversInv.switched (hi : k.ReceiversInv) (hs : Switched k k') (hrun : k'.Running) :
    k'.ReceiversInv :=
  ⟨hrun, hs.gone 0 hi.null, fun d hd => hs.blockedIn (hi.blocked d (hs.receivers ▸ hd)),
    hs.receivers ▸ hi.nodup⟩

theorem ReceiversInv.setThread (hi : k.ReceiversInv)
    (hth : k.threads t = some th) (hne : ∀ d ∈ k.receivingBlockedList, d.receivingThread ≠ t)
    (hst : th'.state = .blocked → t ≠ k.currentThread) : (k.setThread t th').ReceiversInv := by
  refine ⟨?_, ?_, fun d hd => (hi.blocked d hd).setThread (hne d hd), hi.nodup⟩
  · obtain ⟨hmem, cur, hcur, hb⟩ := hi.running
    by_cases htc : k.currentThread = t
    · exact ⟨hmem, th', by simp [Kernel.setThread, htc], fun h => hst h htc.symm⟩
    · exact ⟨hmem, cur, by simpa [Kernel.setThread, htc] using hcur, hb⟩
  · rw [setThread_threads, if_neg]
    · exact hi.null
    · rintro rfl
      rw [hi.null] at hth
      cases hth

theorem ReceiversInv.setCurrent (hi : k.ReceiversInv) (hcur : k.threads k.currentThread = some cur)
    (hst : th.state = cur.state) : (k.setThread k.currentThread th).ReceiversInv := by
  refine hi.setThread hcur (fun d hd => hi.ne_current hd) fun hblocked => ?_
  obtain ⟨-, cur', hcur', hb⟩ := hi.running
  rw [hcur, some.injEq] at hcur'
  exact absurd (hst.symm.trans hblocked) (hcur' ▸ hb)

theorem block_spec (h : k.block t reason = .ok k') (ht : k.currentThread = t)
    (hcur : k.threads t = some cur) (hmem : t ∈ k.threadsList) : Switched
    (k.setThread t { cur with blockedState := reason, state := .blocked }) k' ∧ k'.Running := by
  simp only [block, bind_eq_ok, thread_eq_ok] at h
  obtain ⟨th, hth, h⟩ := h
  obtain rfl : cur = th := some.inj (hcur.symm.trans hth)
  subst ht
  split at h
  · obtain ⟨hs, hrun⟩ := forceSwitch_spec h
    exact ⟨hs, hrun hmem⟩
  · next hne => exact absurd rfl hne

theorem ReceiversInv.block (hi : k.ReceiversInv)
    (h : k.block k.currentThread reason = .ok k') : k'.ReceiversInv := by
  obtain ⟨hmem, cur, hcur, -⟩ := hi.running
  obtain ⟨hs, hrun⟩ := block_spec h rfl hcur hmem
  refine ⟨hrun, hs.gone 0 ?_, fun d hd => ?_, hs.receivers ▸ hi.nodup⟩
  · rw [setThread_threads, if_neg]
    · exact hi.null
    · intro h0
      rw [← h0, hi.null] at hcur
      cases hcur
  · rw [hs.receivers] at hd
    exact hs.blockedIn ((hi.blocked d hd).setThread (hi.ne_current hd))

theorem ReceiversInv.addReceiver (hi : k.ReceiversInv) (hcur : k.threads k.currentThread = some cur)
    (h : (k.addReceiver cur proc recvFrom type).block k.currentThread .receiveIPC = .ok k') :
    k'.ReceiversInv := by
  have hcur' : (k.addReceiver cur proc recvFrom type).threads k.currentThread =
      some { cur with control := .receiving proc recvFrom type } := by
    simp [Kernel.addReceiver, Kernel.setThread]
  obtain ⟨hs, hrun⟩ := block_spec h rfl hcur' hi.running.1
  have hlist : k'.receivingBlockedList = k.receivingBlockedList ++
      [⟨proc, k.currentThread, recvFrom, type⟩] := hs.receivers
  refine ⟨hrun, hs.gone 0 ?_, fun d hd => hs.blockedIn ?_, ?_⟩
  · have h0 : (0 : Nat) ≠ k.currentThread := fun h0 => by
      rw [← h0, hi.null] at hcur
      cases hcur
    simpa [Kernel.addReceiver, Kernel.setThread, h0] using hi.null
  · rw [hlist, mem_append, mem_singleton] at hd
    rcases hd with hd | rfl
    · have hold : (k.addReceiver cur proc recvFrom type).BlockedIn d :=
        (hi.blocked d hd).setThread (hi.ne_current hd)
      exact hold.setThread (hi.ne_current hd)
    · exact ⟨_, by rw [setThread_threads, if_pos rfl], rfl, rfl, rfl⟩
  · rw [hlist, map_append, map_singleton, nodup_append]
    refine ⟨hi.nodup, nodup_singleton _, (forall_mem_map.2 fun d hd b hb => ?_)⟩
    rw [mem_singleton] at hb
    exact hb ▸ hi.ne_current hd

theorem ReceiversInv.takeMessage (hi : k.ReceiversInv)
    (h : k.takeMessage proc recvFrom type = .ok (r, k')) : k'.ReceiversInv := by
  simp only [Kernel.takeMessage, bind_eq_ok] at h
  obtain ⟨p, -, m, -, i, -, h⟩ := h
  split at h
  · cases h
    exact hi
  · obtain ⟨q, -, h⟩ := bind_eq_ok.1 h
    cases h
    exact ⟨hi.running, hi.null, hi.blocked, hi.nodup⟩

theorem findReceiver_spec
    (hne : ∀ d ∈ ds, d.receivingThread ≠ 0)
    (h : findReceiver target source type i ds = some (j, t)) :
    ∃ l1 d l2, ds = l1 ++ d :: l2 ∧ j = i + l1.length ∧ d.receivingThread = t ∧
      d.takes target source type = true := by
  induction ds generalizing i with
  | nil => cases h
  | cons d ds ih =>
    unfold findReceiver at h
    split at h
    · next htakes =>
      rw [if_neg (hne d mem_cons_self)] at h
      cases h
      exact ⟨[], d, ds, rfl, rfl, rfl, htakes⟩
    · obtain ⟨l1, d', l2, rfl, rfl, ht, htakes⟩ := ih (forall_mem_cons.1 hne).2 h
      exact ⟨d :: l1, d', l2, rfl, by simp; omega, ht, htakes⟩

theorem ReceiversInv.handleSend_cases (hi : k.ReceiversInv)
    (h : k.handleSend proc msg = .ok (target, k')) :
    k'.currentThread = k.currentThread ∧ k'.threadsList = k.threadsList ∧
    (k'.threads = k.threads ∧ k'.receivingBlockedList = k.receivingBlockedList ∨
    ∃ l1 d l2 th, k.receivingBlockedList = l1 ++ d :: l2 ∧ k'.receivingBlockedList = l1 ++ l2 ∧
      d.takes target msg.source msg.type = true ∧ k.threads d.receivingThread = some th ∧
      k'.threads = update k.threads d.receivingThread (some { th with state := .ready })) := by
  simp only [handleSend, bind_eq_ok, process_eq_ok] at h
  obtain ⟨p, -, h⟩ := h
  split at h
  · cases h
    exact ⟨rfl, rfl, .inl ⟨rfl, rfl⟩⟩
  · next hsrc =>
    obtain ⟨a, -, h⟩ := bind_eq_ok.1 h
    split at h
    · cases h
      exact ⟨rfl, rfl, .inl ⟨rfl, rfl⟩⟩
    · obtain ⟨q, -, h⟩ := bind_eq_ok.1 h
      split at h
      · cases h
        exact ⟨rfl, rfl, .inl ⟨rfl, rfl⟩⟩
      · next i t hfind =>
        obtain ⟨l1, d, l2, hl, hj, rfl, htakes⟩ := findReceiver_spec (fun d hd => hi.ne_zero hd) hfind
        obtain ⟨ds, hds, h⟩ := bind_eq_ok.1 h
        obtain ⟨k1, hk1, h⟩ := bind_eq_ok.1 h
        cases h
        simp only [unblock, bind_eq_ok, thread_eq_ok] at hk1
        obtain ⟨th, hth, hk1⟩ := hk1
        cases hk1
        have hds' : ds = l1 ++ l2 := by
          have hl' : (k.setProcess target { q with ipcMessages := q.ipcMessages ++ [msg] }
            ).receivingBlockedList = l1 ++ d :: l2 := hl
          rw [hl', hj, removeIndex, if_pos (by simp), zero_add, Int.toNat_natCast,
            eraseIdx_append_of_length_le (Nat.le_refl _), Nat.sub_self] at hds
          exact (Except.ok.inj hds).symm
        refine ⟨rfl, rfl, .inr ⟨l1, d, l2, th, hl, hds', ?_, hth, rfl⟩⟩
        rwa [not_not.1 hsrc]

theorem takes_iff : d.takes target source type = true ↔
    d.receivingProcess = target ∧ (d.receiveFromPID = -1 ∨ d.receiveFromPID = source) ∧
      (d.receiveType = -1 ∨ d.receiveType = type) := by
  simp [IPCReceiveDescriptor.takes, and_assoc]

theorem ReceiversInv.sendOk (hi : k.ReceiversInv)
    (h : k.handleSend proc msg = .ok (target, k')) : k.SendOk msg target k' := by
  obtain ⟨-, -, ⟨ht, -⟩ | ⟨l1, d, l2, th, hl, -, htakes, -, ht⟩⟩ := hi.handleSend_cases h
  · exact .inl ht
  · obtain ⟨hp, hsource, htype⟩ := takes_iff.1 htakes
    obtain ⟨th', hth', hs, hb, hc⟩ := hi.blocked d (by simp [hl])
    refine .inr ⟨d.receivingThread, th', _, _, hth', hs, hb, hp ▸ hc, hsource, htype, fun a ha => ?_⟩
    rw [ht, update_of_ne ha]

theorem ReceiversInv.send {proc target : Nat} {msg : IPCMessage} (hi : k.ReceiversInv)
    (h : k.handleSend proc msg = .ok (target, k')) : k'.ReceiversInv := by
  obtain ⟨hcur, hlist, ⟨ht, hr⟩ | ⟨l1, d, l2, th, hl, hr, -, hth, ht⟩⟩ := hi.handleSend_cases h
  · refine ⟨?_, ht ▸ hi.null, fun d hd => ?_, hr ▸ hi.nodup⟩
    · rw [Running, Runnable, hcur, hlist, ht]
      exact hi.running
    · rw [BlockedIn, ht]
      exact hi.blocked d (hr ▸ hd)
  · have hd : d ∈ k.receivingBlockedList := by simp [hl]
    have hnodup := hi.nodup
    rw [hl, map_append, map_cons, nodup_middle, nodup_cons] at hnodup
    refine ⟨?_, ?_, fun d' hd' => ?_, ?_⟩
    · obtain ⟨hmem, cur, hcur', hb⟩ := hi.running
      refine ⟨by rwa [hlist, hcur], cur, ?_, hb⟩
      rw [ht, hcur, update_of_ne (hi.ne_current hd).symm]
      exact hcur'
    · rw [ht, update_of_ne (hi.ne_zero hd).symm]
      exact hi.null
    · rw [hr] at hd'
      have hne : d'.receivingThread ≠ d.receivingThread := fun he =>
        hnodup.1 (he ▸ by rw [← map_append]; exact mem_map_of_mem hd')
      obtain ⟨th', hth', hrest⟩ := hi.blocked d' (by rw [hl]; simp at hd' ⊢; tauto)
      exact ⟨th', by rw [ht, update_of_ne hne]; exact hth', hrest⟩
    · rw [hr, map_append]
      exact hnodup.2

theorem syscallUnblock_cases (h : k.syscallUnblock pid index = .ok k') :
    k.unblockTarget pid index = .ok none ∧ k' = k ∨
      ∃ t th, k.unblockTarget pid index = .ok (some t) ∧ k.threads t = some th ∧
        k' = k.setThread t { th with state := .started } := by
  simp only [syscallUnblock, bind_eq_ok] at h
  obtain ⟨o, ho, h⟩ := h
  cases o with
  | none =>
    cases h
    exact .inl ⟨ho, rfl⟩
  | some t =>
    simp only [bind_eq_ok, thread_eq_ok] at h
    obtain ⟨th, hth, h⟩ := h
    cases h
    exact .inr ⟨t, th, ho, hth, rfl⟩

/-- What stopping a list of threads does. -/
structure Removed (ts : List Nat) (k k' : Kernel) : Prop where
  receivers : k'.receivingBlockedList = k.receivingBlockedList
  threadsList : k'.threadsList = k.threadsList
  currentThread : k'.currentThread = k.currentThread
  others : ∀ t ∉ ts, k'.threads t = k.threads t
  none : ∀ t, k.threads t = none → k'.threads t = none
  stopped : ∀ t ∈ ts, ∃ th, k'.threads t = some th ∧ th.state = .stopped

theorem removed_of_foldlM (h : ts.foldlM removeThread k = .ok k') : Removed ts k k' := by
  induction ts generalizing k with
  | nil =>
    cases h
    exact ⟨rfl, rfl, rfl, fun _ _ => rfl, fun _ h => h, nofun⟩
  | cons t ts ih =>
    rw [foldlM_cons, bind_eq_ok] at h
    obtain ⟨k1, hk1, h⟩ := h
    simp only [removeThread, bind_eq_ok, thread_eq_ok] at hk1
    obtain ⟨th, hth, hk1⟩ := hk1
    cases hk1
    have hr := ih h
    refine ⟨hr.receivers, hr.threadsList, hr.currentThread, fun a ha => ?_, fun a ha => ?_, fun a ha => ?_⟩
    · rw [hr.others a fun h => ha (mem_cons_of_mem t h), setThread_threads, if_neg]
      rintro rfl
      exact ha mem_cons_self
    · refine hr.none a ?_
      rw [setThread_threads, if_neg]
      · exact ha
      · rintro rfl
        rw [hth] at ha
        cases ha
    · by_cases hmem : a ∈ ts
      · exact hr.stopped a hmem
      · obtain rfl : a = t := (mem_cons.1 ha).resolve_right hmem
        exact ⟨_, by rw [hr.others a hmem, setThread_threads, if_pos rfl], rfl⟩

theorem syscallExit_spec (h : k.syscallExit proc = .ok k') :
    ∃ p k1 th, k.processes proc = some p ∧ Removed p.threads k k1 ∧ k1.threads k1.currentThread =
      some th ∧ k' = k1.setThread k1.currentThread { th with control := .exiting } := by
  simp only [syscallExit, removeProcess, bind_eq_ok, process_eq_ok, thread_eq_ok] at h
  obtain ⟨k1, ⟨p, hp, k2, hk2, hk1⟩, th, hth, h⟩ := h
  cases hk1
  cases h
  have hr := removed_of_foldlM hk2
  refine ⟨p, { k2 with processes := update k2.processes proc none }, th, hp, ?_, hth, rfl⟩
  exact ⟨hr.1, hr.2, hr.3, hr.4, hr.5, hr.6⟩

theorem ReceiversInv.exit {proc : Nat} (hi : k.ReceiversInv) (hp : k.currentProcess = .ok proc)
    (hsafe : k.Safe .exit) (h : k.syscallExit proc = .ok k') : k'.ReceiversInv := by
  obtain ⟨p, k1, th, hpp, hr, hth, rfl⟩ := syscallExit_spec h
  have hnot := hsafe proc p hp hpp
  obtain ⟨hmem, cur, hcur, hb⟩ := hi.running
  have hrun1 : k1.Running := by
    refine ⟨by rwa [hr.threadsList, hr.currentThread], th, hth, ?_⟩
    by_cases hct : k.currentThread ∈ p.threads
    · obtain ⟨th', hth', hst⟩ := hr.stopped _ hct
      rw [← hr.currentThread, hth, some.injEq] at hth'
      rw [hth', hst]
      decide
    · rw [hr.currentThread, hr.others _ hct, hcur, some.injEq] at hth
      exact hth ▸ hb
  have hi1 : k1.ReceiversInv := by
    refine ⟨hrun1, hr.none 0 hi.null, fun d hd => ?_, hr.receivers ▸ hi.nodup⟩
    rw [hr.receivers] at hd
    rw [BlockedIn, hr.others _ (hnot d hd)]
    exact hi.blocked d hd
  exact hi1.setCurrent hth rfl

theorem ReceiversInv.step {a : Action} (hi : k.ReceiversInv) (hs : guarded Safe Step k a k') :
    k'.ReceiversInv := by
  obtain ⟨hsafe, hstep⟩ := hs
  cases hstep with
  | send _ _ h => exact hi.send h
  | receive _ _ h =>
    simp only [handleReceive, bind_eq_ok] at h
    obtain ⟨p, -, h⟩ := h
    split at h
    · simp only [bind_eq_ok, thread_eq_ok] at h
      obtain ⟨cur, hcur, k1, hk1, h⟩ := h
      cases h
      exact hi.addReceiver hcur hk1
    · exact hi.takeMessage h
  | received hth _ h =>
    refine ReceiversInv.takeMessage (hi.setCurrent hth ?_) h
    rfl
  | unblock _ h =>
    rcases syscallUnblock_cases h with ⟨-, rfl⟩ | ⟨t, th, ht, hth, rfl⟩
    · exact hi
    · exact hi.setThread hth (hsafe t ht) (by intro h; cases h)
  | sleep _ h =>
    simp only [syscallSleep, bind_eq_ok, thread_eq_ok] at h
    obtain ⟨cur, hcur, h⟩ := h
    refine ReceiversInv.block (hi.setCurrent hcur ?_) h
    rfl
  | yield _ h =>
    obtain ⟨hs, hrun⟩ := forceSwitch_spec h
    exact hi.switched hs (hrun hi.running.1)
  | exit _ hp h => exact hi.exit hp hsafe h
  | exited hth _ h =>
    obtain ⟨hs, hrun⟩ := forceSwitch_spec h
    refine ReceiversInv.switched (hi.setCurrent hth ?_) hs (hrun hi.running.1)
    rfl
  | timer h =>
    obtain ⟨hs, hrun⟩ := handleInterrupt_spec h
    exact hi.switched hs (hrun hi.running)

theorem ReceiversOk.safe (hstep : Step k a k') (hok : k'.ReceiversOk) : k.Safe a := by
  cases hstep with
  | unblock _ h =>
    rcases syscallUnblock_cases h with ⟨hnone, rfl⟩ | ⟨t, th, ht, hth, rfl⟩
    · intro t ht
      rw [hnone] at ht
      cases ht
    · intro t' ht' d hd he
      obtain rfl : t = t' := by
        rw [ht] at ht'
        cases ht'
        rfl
      obtain ⟨th', hth', hst, -⟩ := hok.blocked d hd
      rw [he, setThread_threads, if_pos rfl, some.injEq] at hth'
      rw [← hth'] at hst
      cases hst
  | @exit _ proc _ hp h =>
    obtain ⟨p, k1, th, hpp, hr, hth, rfl⟩ := syscallExit_spec h
    intro proc' p' hproc' hp' d hd hmem
    obtain rfl : proc = proc' := by
      rw [hp] at hproc'
      cases hproc'
      rfl
    obtain rfl : p = p' := some.inj (hpp.symm.trans hp')
    obtain ⟨th', hth', hst, -⟩ := hok.blocked d (by
      change d ∈ k1.receivingBlockedList
      rwa [hr.receivers])
    obtain ⟨th'', hth'', hstop⟩ := hr.stopped _ hmem
    rw [setThread_threads] at hth'
    split at hth'
    · next he =>
      rw [he, hth, some.injEq] at hth''
      rw [some.injEq] at hth'
      rw [← hth'] at hst
      rw [← hth'', hst] at hstop
      cases hstop
    · rw [hth'', some.injEq] at hth'
      rw [← hth', hstop] at hst
      cases hst
  | _ => trivial

end Kernel

open Kernel

/-- In every run from a kernel without blocked receivers whose unblock and exit calls stay away from
blocked receivers, every descriptor names a thread that exists and is blocked in a receive, no thread
has two, and a send changes no other thread than one that is blocked in a receive which asks for the
message. The first step that does not meet the condition loses this. -/
theorem receivers_ok_iff_safe (k₀ : Kernel) (hrun : k₀.Running) (hnull : k₀.threads 0 = none)
    (hempty : k₀.receivingBlockedList = []) :
    ∀ as k, Run (guarded Safe Step) k₀ as k → k.ReceiversOk ∧
      (∀ proc msg target k', k.handleSend proc msg = .ok (target, k') → k.SendOk msg target k') ∧
      ∀ a k', Step k a k' → (k'.ReceiversOk ↔ k.Safe a) := by
  intro as k h
  have hi : k.ReceiversInv := h.invariant
    ⟨hrun, hnull, by rw [hempty]; exact nofun, by rw [hempty]; exact .nil⟩ fun _ _ _ hi hs => hi.step hs
  refine ⟨hi.ok, fun proc msg target k' => hi.sendOk, fun a k' hstep => ⟨fun hok => hok.safe hstep, ?_⟩⟩
  exact fun hsafe => (hi.step ⟨hsafe, hstep⟩).ok

/-- Two user processes with a thread each; the thread of process 1 runs. -/
def twoProcesses : Kernel where
  threads := fun t =>
    if t = 10 then some ⟨100, .ready, .unkown, 0, .user⟩
    else if t = 20 then some ⟨200, .ready, .unkown, 0, .user⟩ else none
  processes := fun p =>
    if p = 100 then some ⟨1, true, [10], []⟩
    else if p = 200 then some ⟨2, true, [20], []⟩ else none
  processList := [100, 200]
  threadsList := [10, 20]
  currentThread := 10
  tickCount := 0
  switchForced := false
  enabled := true
  receivingBlockedList := []

theorem running_twoProcesses : twoProcesses.Running := ⟨by decide, _, rfl, by decide⟩

theorem exists_receive_twoProcesses : ∃ k, Step twoProcesses (.receive (-1) (-1) .blocked) k ∧
    k.receivingBlockedList = [⟨100, 10, -1, -1⟩] ∧ k.currentThread = 20 ∧
    (∃ th, k.threads 20 = some th ∧ th.control = .user) ∧
    k.unblockTarget 1 0 = .ok (some 10) ∧ k.syscallUnblock 1 0 =
      .ok (k.setThread 10 ⟨100, .started, .receiveIPC, 0, .receiving 100 (-1) (-1)⟩) :=
  ⟨_, .receive ⟨_, rfl, rfl⟩ rfl rfl, rfl, rfl, ⟨_, rfl, rfl⟩, rfl, rfl⟩

/-- A receive meets the condition, and the list is right behind it. -/
theorem receivers_ok_iff_safe_twoProcesses :
    ∃ k, Run (guarded Safe Step) twoProcesses [.receive (-1) (-1) .blocked] k ∧
      k.receivingBlockedList = [⟨100, 10, -1, -1⟩] ∧ k.ReceiversOk := by
  obtain ⟨k, hstep, hlist, -⟩ := exists_receive_twoProcesses
  have hsafe : twoProcesses.Safe (.receive (-1) (-1) .blocked) := trivial
  have hrun := Run.nil.snoc (show guarded Safe Step _ _ _ from ⟨hsafe, hstep⟩)
  exact ⟨k, hrun, hlist, (receivers_ok_iff_safe twoProcesses running_twoProcesses rfl rfl _ k hrun).1⟩

/-- When process 2 unblocks the thread of process 1 that waits for a message, its descriptor stays in
the list. -/
theorem unblock_leaves_descriptor : ∃ k,
    Run Step twoProcesses [.receive (-1) (-1) .blocked, .unblock 1 0] k ∧ k.receivingBlockedList =
      [⟨100, 10, -1, -1⟩] ∧ (∃ th, k.threads 10 = some th ∧ th.state = .started) ∧ ¬ k.ReceiversOk := by
  obtain ⟨k, hstep, hlist, hcur, ⟨th, hth, hc⟩, -, hunblock⟩ := exists_receive_twoProcesses
  have hthread : (k.setThread 10 ⟨100, .started, .receiveIPC, 0, .receiving 100 (-1) (-1)⟩).threads
      10 = some ⟨100, .started, .receiveIPC, 0, .receiving 100 (-1) (-1)⟩ := by
    rw [setThread_threads, if_pos rfl]
  refine ⟨_, (Run.nil.snoc hstep).snoc (.unblock ⟨th, hcur ▸ hth, hc⟩ hunblock), hlist,
    ⟨_, hthread, rfl⟩, fun hok => ?_⟩
  obtain ⟨th', hth', hst, -⟩ := hok.blocked ⟨100, 10, -1, -1⟩ (by
    change _ ∈ k.receivingBlockedList
    simp [hlist])
  rw [hthread, some.injEq] at hth'
  rw [← hth'] at hst
  cases hst

end HeisenKernel
