import HeisenKernel.Tasking.Scheduler
import HeisenKernel.Lib.Run

/-!
# Messages are received in the order in which they were sent

The loop of `HandleReceive` reads the messages behind the first one and drops them, so that a
receive is right only if the first message is one it may take: otherwise it runs off the end of the
queue (`receiveOk_iff`).
-/

namespace HeisenKernel

open Lib Function List Option

/-- A message that a receive asks for: from the process `recvFrom`, or any for -1, and of the type
`type`, or any for -1. -/
def IPCMessage.Matches (recvFrom type : Int) (m : IPCMessage) : Prop :=
  (recvFrom = -1 ∨ recvFrom = m.source) ∧ (type = -1 ∨ type = m.type)

instance (recvFrom type : Int) : DecidablePred (IPCMessage.Matches recvFrom type) :=
  fun _ => inferInstanceAs (Decidable (_ ∧ _))

namespace Kernel

/-- What a receive on a queue with messages has to do: it copies out the first message that it asks
for and removes it, or it reports an error and leaves the queue alone. -/
def ReceiveOk (k : Kernel) (proc : Nat) (p : Process) (recvFrom type : Int) : Prop :=
  match p.ipcMessages.findIdx? (fun m => m.Matches recvFrom type) with
  | some i => ∃ m, p.ipcMessages[i]? = some m ∧ k.handleReceive proc recvFrom type =
      .ok (.message m, k.setProcess proc { p with ipcMessages := p.ipcMessages.eraseIdx i })
  | none => k.handleReceive proc recvFrom type = .ok (.error, k)

variable {k : Kernel} {p : Process}

theorem searchMessage_true (fuel index : Nat) (hi : index < queue.length)
    (hf : queue.length - index ≤ fuel) : searchMessage queue true fuel index = .error .memory := by
  induction fuel generalizing index with
  | zero => omega
  | succ fuel ih =>
    unfold searchMessage
    rw [if_pos ⟨rfl, hi⟩]
    by_cases hlast : index + 1 < queue.length
    · have hget : getAt queue ((index + 1 : Nat) : Int) = .ok queue[index + 1] :=
        getAt_eq_ok.2 (getElem?_eq_getElem hlast)
      rw [hget]
      exact ih (index + 1) hlast (by omega)
    · have hget : getAt queue ((index + 1 : Nat) : Int) = .error .memory := by
        rw [getAt, Int.toNat_natCast, getElem?_eq_none (by omega)]
      rw [hget]
      rfl

theorem passesOver_eq_false {id : Int} :
    passesOver id recvFrom type m = false ↔ m.dest = id ∧ m.Matches recvFrom type := by
  unfold passesOver IPCMessage.Matches
  by_cases hr : recvFrom = -1 <;> by_cases ht : type = -1 <;> simp [hr, ht, and_assoc]

theorem takeMessage_eq (recvFrom type : Int)
    (hp : k.processes proc = some p) (hq : p.ipcMessages = m :: rest) : k.takeMessage proc recvFrom type =
      if m.dest = p.id ∧ m.Matches recvFrom type then
        .ok (.message m, k.setProcess proc { p with ipcMessages := rest })
      else .error .memory := by
  have hproc : k.process proc = .ok p := process_eq_ok.2 hp
  have hget : getAt p.ipcMessages 0 = .ok m := getAt_eq_ok.2 (by rw [hq]; rfl)
  simp only [takeMessage, hproc, hget, bind, Except.bind]
  by_cases hm : m.dest = p.id ∧ m.Matches recvFrom type
  · rw [passesOver_eq_false.2 hm, if_pos hm]
    simp [searchMessage, hq, removeIndex]
  · have hpass : passesOver p.id recvFrom type m = true := by
      rw [← Bool.not_eq_false]
      exact fun h => hm (passesOver_eq_false.1 h)
    rw [hpass, searchMessage_true _ _ (by simp [hq]) (by omega), if_neg hm]

theorem handleReceive_eq (hp : k.processes proc = some p) (hq : p.ipcMessages ≠ []) :
    k.handleReceive proc recvFrom type = k.takeMessage proc recvFrom type := by
  have hproc : k.process proc = .ok p := process_eq_ok.2 hp
  have hlen : ¬ p.ipcMessages.length ≤ 0 := by simpa using hq
  simp only [handleReceive, hproc, bind, Except.bind, if_neg hlen]

theorem receiveOk_iff (hp : k.processes proc = some p) (hq : p.ipcMessages ≠ []) :
    k.ReceiveOk proc p recvFrom type ↔
      ∃ m, p.ipcMessages.head? = some m ∧ m.dest = p.id ∧ m.Matches recvFrom type := by
  obtain ⟨m, rest, hmr⟩ := exists_cons_of_ne_nil hq
  unfold ReceiveOk
  rw [handleReceive_eq hp hq, takeMessage_eq recvFrom type hp hmr]
  by_cases hm : m.dest = p.id ∧ m.Matches recvFrom type
  · have hfirst : p.ipcMessages.findIdx? (fun m => m.Matches recvFrom type) = some 0 := by
      rw [hmr, findIdx?_cons, if_pos (by simpa using hm.2)]
    simp only [hfirst]
    simp [hmr, hm]
  · have hright : ¬ ∃ m, p.ipcMessages.head? = some m ∧ m.dest = p.id ∧ m.Matches recvFrom type := by
      rintro ⟨a, ha, hid⟩
      rw [hmr, head?_cons, some.injEq] at ha
      exact hm (ha ▸ hid)
    rw [if_neg hm]
    refine iff_of_false ?_ hright
    split
    · rintro ⟨_, _, h⟩
      cases h
    · exact nofun

theorem handleSend_processes
    (h : k.handleSend proc msg = .ok (target, k')) : target = 0 ∧ k' = k ∨
      target ≠ 0 ∧ ∃ p, k.processes target = some p ∧ k'.processes =
        update k.processes target (some { p with ipcMessages := p.ipcMessages ++ [msg] }) := by
  simp only [handleSend, bind_eq_ok] at h
  obtain ⟨p, -, h⟩ := h
  split at h
  · cases h
    exact .inl ⟨rfl, rfl⟩
  · obtain ⟨a, -, h⟩ := bind_eq_ok.1 h
    split at h
    · cases h
      exact .inl ⟨rfl, rfl⟩
    · next hne =>
      obtain ⟨q, hq, h⟩ := bind_eq_ok.1 h
      rw [process_eq_ok] at hq
      split at h
      · cases h
        exact .inr ⟨hne, q, hq, rfl⟩
      · obtain ⟨ds, -, h⟩ := bind_eq_ok.1 h
        obtain ⟨k1, hk1, h⟩ := bind_eq_ok.1 h
        cases h
        obtain ⟨th, -, hk1⟩ := bind_eq_ok.1 hk1
        cases hk1
        exact .inr ⟨hne, q, hq, rfl⟩

theorem takeMessage_processes (h : k.takeMessage proc recvFrom type = .ok (r, k')) :
    r = .error ∧ k' = k ∨ ∃ p m rest, r = .message m ∧ k.processes proc = some p ∧
      p.ipcMessages = m :: rest ∧ k' = k.setProcess proc { p with ipcMessages := rest } := by
  have hk := h
  simp only [takeMessage, bind_eq_ok, process_eq_ok, getAt_eq_ok] at h
  obtain ⟨p, hp, m, hm, -⟩ := h
  obtain ⟨rest, hrest⟩ : ∃ rest, p.ipcMessages = m :: rest := by
    cases hq : p.ipcMessages with
    | nil => simp [hq] at hm
    | cons a l =>
      rw [hq] at hm
      exact ⟨l, by rw [some.inj hm]⟩
  rw [takeMessage_eq recvFrom type hp hrest] at hk
  split at hk
  · cases hk
    exact .inr ⟨p, m, rest, rfl, hp, hrest, rfl⟩
  · cases hk

theorem block_processes (h : k.block t reason = .ok k') : k'.processes = k.processes := by
  simp only [block, bind_eq_ok] at h
  obtain ⟨th, -, h⟩ := h
  split at h
  · exact (forceSwitch_spec h).1.processes
  · cases h
    rfl

theorem handleReceive_processes
    (h : k.handleReceive proc recvFrom type = .ok (r, k')) :
    (∀ m, r ≠ .message m) ∧ k'.processes = k.processes ∨
      ∃ p m rest, r = .message m ∧ k.processes proc = some p ∧ p.ipcMessages = m :: rest ∧
        k'.processes = update k.processes proc (some { p with ipcMessages := rest }) := by
  simp only [handleReceive, bind_eq_ok] at h
  obtain ⟨p, hp, h⟩ := h
  split at h
  · obtain ⟨th, -, h⟩ := bind_eq_ok.1 h
    obtain ⟨k1, hk1, h⟩ := bind_eq_ok.1 h
    cases h
    have hsame := block_processes hk1
    exact .inl ⟨nofun, hsame⟩
  · rcases takeMessage_processes h with ⟨rfl, rfl⟩ | ⟨p, m, rest, rfl, hp, hq, rfl⟩
    · exact .inl ⟨nofun, rfl⟩
    · exact .inr ⟨p, m, rest, rfl, hp, hq, rfl⟩

theorem removeProcess_processes (h : k.removeProcess proc = .ok k') :
    k'.processes = update k.processes proc none := by
  simp only [removeProcess, bind_eq_ok] at h
  obtain ⟨p, -, k1, hk1, h⟩ := h
  have hsame := foldlM_rel (R := fun k k' : Kernel => k'.processes = k.processes) (fun _ => rfl)
    (fun h1 h2 => h2.trans h1) (fun t _ k k' h => by
      obtain ⟨th, -, h⟩ := bind_eq_ok.1 h
      cases h
      rfl) hk1
  cases h
  rw [← hsame]

/-- The process whose queue the current thread reads. -/
def receiver (k : Kernel) : Nat :=
  match k.threads k.currentThread with
  | some ⟨_, _, _, _, .receiving p _ _⟩ => p
  | _ =>
    match k.currentProcess with
    | .ok p => p
    | .error _ => 0

/-- The message that a step sends, with the process it goes to. -/
def Action.sends : Action → Option (Nat × IPCMessage)
  | .send msg target => if target = 0 then none else some (target, msg)
  | _ => none

/-- The message that a step receives. -/
def Action.receives : Action → Option IPCMessage
  | .receive _ _ (.message m) => some m
  | .received (.message m) => some m
  | _ => none

theorem step_processes (h : Step k a k') :
    (∃ target msg p, a.sends = some (target, msg) ∧ a.receives = none ∧
      k.processes target = some p ∧ k'.processes = update k.processes target
        (some { p with ipcMessages := p.ipcMessages ++ [msg] })) ∨
    (∃ m p rest, a.sends = none ∧ a.receives = some m ∧ k.processes k.receiver = some p ∧
      p.ipcMessages = m :: rest ∧ k'.processes =
        update k.processes k.receiver (some { p with ipcMessages := rest })) ∨
    a.sends = none ∧ a.receives = none ∧
      (k'.processes = k.processes ∨ ∃ p, k'.processes = update k.processes p none) := by
  have huser : ∀ {proc : Nat}, k.InUser → k.currentProcess = .ok proc → k.receiver = proc := by
    rintro proc ⟨⟨_, _, _, _, c⟩, hth, hc⟩ hproc
    obtain rfl : c = .user := hc
    simp only [receiver, hth, hproc]
  cases h with
  | @send _ proc target msg hu hp hsend =>
    rcases handleSend_processes hsend with ⟨rfl, rfl⟩ | ⟨hne, p, hp, hk⟩
    · exact .inr (.inr ⟨rfl, rfl, .inl rfl⟩)
    · exact .inl ⟨target, msg, p, if_neg hne, rfl, hp, hk⟩
  | @receive _ proc recvFrom type r hu hp hrec =>
    rcases handleReceive_processes hrec with ⟨hr, hk⟩ | ⟨p, m, rest, rfl, hpp, hq, hk⟩
    · refine .inr (.inr ⟨rfl, ?_, .inl hk⟩)
      cases r with
      | message m => exact absurd rfl (hr m)
      | _ => rfl
    · rw [← huser hu hp] at hpp hk
      exact .inr (.inl ⟨m, p, rest, rfl, rfl, hpp, hq, hk⟩)
  | @received _ th proc recvFrom type r hth hc htake =>
    have hrec : k.receiver = proc := by
      obtain ⟨_, _, _, _, c⟩ := th
      obtain rfl : c = .receiving proc recvFrom type := hc
      simp only [receiver, hth]
    rcases takeMessage_processes htake with ⟨rfl, rfl⟩ | ⟨p, m, rest, rfl, hpp, hq, rfl⟩
    · exact .inr (.inr ⟨rfl, rfl, .inl rfl⟩)
    · exact .inr (.inl ⟨m, p, rest, rfl, rfl, hrec ▸ hpp, hq, hrec ▸ rfl⟩)
  | unblock _ h =>
    refine .inr (.inr ⟨rfl, rfl, .inl ?_⟩)
    simp only [syscallUnblock, bind_eq_ok] at h
    obtain ⟨t, -, h⟩ := h
    cases t with
    | none =>
      cases h
      rfl
    | some t =>
      obtain ⟨th, -, h⟩ := bind_eq_ok.1 h
      cases h
      rfl
  | sleep _ h =>
    simp only [syscallSleep, bind_eq_ok] at h
    obtain ⟨th, -, h⟩ := h
    have hsame := block_processes h
    exact .inr (.inr ⟨rfl, rfl, .inl hsame⟩)
  | yield _ h => exact .inr (.inr ⟨rfl, rfl, .inl (forceSwitch_spec h).1.processes⟩)
  | @exit _ proc _ _ h =>
    simp only [syscallExit, bind_eq_ok] at h
    obtain ⟨k1, hk1, th, -, h⟩ := h
    cases h
    have hgone := removeProcess_processes hk1
    exact .inr (.inr ⟨rfl, rfl, .inr ⟨proc, hgone⟩⟩)
  | exited _ _ h =>
    have hsame := (forceSwitch_spec h).1.processes
    exact .inr (.inr ⟨rfl, rfl, .inl hsame⟩)
  | timer h => exact .inr (.inr ⟨rfl, rfl, .inl (handleInterrupt_spec h).1.processes⟩)

end Kernel

open Kernel

/-- The kernel with the messages that were sent to each process and those that it received. -/
structure Traced where
  kernel : Kernel
  sent : Nat → List IPCMessage
  received : Nat → List IPCMessage

namespace Traced

/-- A step of the kernel, noted down. -/
def Step (s : Traced) (a : Action) (s' : Traced) : Prop :=
  Kernel.Step s.kernel a s'.kernel ∧
    s'.sent = (match a.sends with
      | some (target, msg) => update s.sent target (s.sent target ++ [msg])
      | none => s.sent) ∧
    s'.received = (match a.receives with
      | some m => update s.received s.kernel.receiver (s.received s.kernel.receiver ++ [m])
      | none => s.received)

/-- What is still queued for the process `p`. -/
def queued (k : Kernel) (p : Nat) : List IPCMessage :=
  match k.processes p with
  | some proc => proc.ipcMessages
  | none => []

/-- What was queued for `p` at the start or sent to it since is what it received, followed by what is
queued now; of a process that is gone nothing is queued any more. -/
def Conserved (k₀ : Kernel) (s : Traced) : Prop :=
  ∀ p, ∃ rest, queued k₀ p ++ s.sent p = s.received p ++ rest ∧
    ∀ proc, s.kernel.processes p = some proc → proc.ipcMessages = rest

theorem Conserved.step {k₀ : Kernel} {s s' : Traced} {a : Action} (hc : Conserved k₀ s)
    (h : Step s a s') : Conserved k₀ s' := by
  obtain ⟨hstep, hsent, hreceived⟩ := h
  intro p
  obtain ⟨rest, heq, hq⟩ := hc p
  rcases step_processes hstep with ⟨target, msg, q, hs, hr, hq', hk⟩ |
    ⟨m, q, rest', hs, hr, hq', hrest, hk⟩ | ⟨hs, hr, hk⟩
  all_goals
    rw [hs] at hsent
    rw [hr] at hreceived
  · rw [hsent, hreceived, hk]
    by_cases hp : p = target
    · subst hp
      refine ⟨rest ++ [msg], by simp [← append_assoc, heq], fun proc hproc => ?_⟩
      simp only [update_self, some.injEq] at hproc
      rw [← hproc, hq q hq']
    · exact ⟨rest, by simpa [hp] using heq, fun proc hproc => hq proc (by simpa [hp] using hproc)⟩
  · simp only at hsent hreceived
    rw [hsent, hreceived, hk]
    by_cases hp : p = s.kernel.receiver
    · subst hp
      have hm : rest = m :: rest' := (hq q hq').symm.trans hrest
      refine ⟨rest', by simp [heq, hm], fun proc hproc => ?_⟩
      simp only [update_self, some.injEq] at hproc
      rw [← hproc]
    · exact ⟨rest, by simpa [hp] using heq, fun proc hproc => hq proc (by simpa [hp] using hproc)⟩
  · simp only at hsent hreceived
    rw [hsent, hreceived]
    refine ⟨rest, heq, fun proc hproc => ?_⟩
    rcases hk with hk | ⟨d, hk⟩
    · exact hq proc (hk ▸ hproc)
    · rw [hk, update_apply] at hproc
      split at hproc
      · cases hproc
      · exact hq proc hproc

theorem Conserved.run (h : Run Step ⟨k₀, fun _ => [], fun _ => []⟩ as s) : Conserved k₀ s := by
  refine h.invariant (fun p => ⟨queued k₀ p, by simp, fun proc hproc => ?_⟩) fun _ _ _ hc hs => hc.step hs
  have hproc : k₀.processes p = some proc := hproc
  simp [queued, hproc]

end Traced

/-- A receive on a queue with messages takes the first message it asks for, or reports an error and
changes nothing, exactly when the first message of the queue is for the process and is one it asks
for; otherwise it reads behind the end of the queue. In every run of the kernel what a process has
received is a beginning of what was queued for it at the start and sent to it since, and the rest is
what is queued for it: no message is received twice or replaced by another. -/
theorem receive_iff_first_matches (k : Kernel) :
    (∀ proc p recvFrom type, k.processes proc = some p → p.ipcMessages ≠ [] →
      (k.ReceiveOk proc p recvFrom type ↔
        ∃ m, p.ipcMessages.head? = some m ∧ m.dest = p.id ∧ m.Matches recvFrom type)) ∧
      ∀ as s, Run Traced.Step ⟨k, fun _ => [], fun _ => []⟩ as s → ∀ p,
        s.received p <+: Traced.queued k p ++ s.sent p ∧
          ∀ proc, s.kernel.processes p = some proc →
            Traced.queued k p ++ s.sent p = s.received p ++ proc.ipcMessages := by
  refine ⟨fun proc p recvFrom type hp hq => receiveOk_iff hp hq, fun as s hrun p => ?_⟩
  obtain ⟨rest, heq, hrest⟩ := Traced.Conserved.run hrun p
  refine ⟨⟨rest, heq.symm⟩, fun proc hproc => ?_⟩
  rw [hrest proc hproc, heq]

/-- A process with the id 3 at address 100 with two messages, from the processes 5 and 7. -/
def twoMessages : Kernel where
  threads := fun _ => none
  processes := fun p => if p = 100 then
    some ⟨3, true, [], [⟨5, 3, 0, 0, 0, 0, 0, 0, 0⟩, ⟨7, 3, 0, 0, 0, 0, 0, 0, 0⟩]⟩ else none
  processList := [100]
  threadsList := []
  currentThread := 0
  tickCount := 0
  switchForced := false
  enabled := true
  receivingBlockedList := []

/-- A receive from the process 5 takes the first of the two messages. -/
theorem receive_iff_first_matches_twoMessages : twoMessages.ReceiveOk 100
    ⟨3, true, [], [⟨5, 3, 0, 0, 0, 0, 0, 0, 0⟩, ⟨7, 3, 0, 0, 0, 0, 0, 0, 0⟩]⟩ 5 (-1) :=
  ((receive_iff_first_matches twoMessages).1 100 _ 5 (-1) rfl (by decide)).2 ⟨_, rfl, rfl, by decide⟩

/-- A receive from the process 7 reads behind the end of the queue that holds a message of 7. -/
theorem receive_misses_second : twoMessages.handleReceive 100 7 (-1) = .error .memory ∧
    ¬ twoMessages.ReceiveOk 100
      ⟨3, true, [], [⟨5, 3, 0, 0, 0, 0, 0, 0, 0⟩, ⟨7, 3, 0, 0, 0, 0, 0, 0, 0⟩]⟩ 7 (-1) := by
  refine ⟨rfl, fun hok => ?_⟩
  obtain ⟨m, hm, -, hmatch⟩ := (receiveOk_iff rfl (by decide)).1 hok
  cases hm
  revert hmatch
  decide

end HeisenKernel
