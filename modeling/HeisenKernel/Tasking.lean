import HeisenKernel.Base

/-!
# Threads, the scheduler and inter-process communication

Translation of `common/list.h`, `tasking/scheduler.cpp`, `tasking/process.cpp` (removal),
`tasking/thread.cpp` (removal), `tasking/ipcmanager.cpp` and of the system calls of
`syscalls/implementations/cactusos.cpp` that go with them.
-/

namespace HeisenKernel

open Function

variable {α : Type}

/-- `List::GetAt` (`list.h:181`). A negative index gives the head; behind the end the null node is
read. -/
def getAt (l : List α) (index : Int) : Exec α :=
  match l[index.toNat]? with
  | some a => .ok a
  | none => .error .memory

/-- `List::Remove(int)` (`list.h:143`). At the end nothing is removed; behind it the null node is
followed. -/
def removeIndex (l : List α) (index : Int) : Exec (List α) :=
  if index.toNat ≤ l.length then .ok (l.eraseIdx index.toNat) else .error .memory

/-- `List::Remove(const T &)` (`list.h:152`). The element behind a removed one moves to its index and
is not looked at. -/
def removeElem [DecidableEq α] (e : α) : List α → List α
  | [] => []
  | a :: l =>
    if a = e then
      match l with
      | [] => []
      | b :: l => b :: removeElem e l
    else a :: removeElem e l

/-- `List::IndexOf` (`list.h:201`). -/
def indexOf [DecidableEq α] (l : List α) (e : α) : Int :=
  match l.findIdx? (· = e) with
  | some i => i
  | none => -1

/-- `ThreadState` (`thread.h:21`). -/
inductive ThreadState where
  | blocked
  | ready
  | stopped
  | started
deriving DecidableEq, Repr

/-- `BlockedState` (`thread.h:29`). -/
inductive BlockedState where
  | unkown
  | sleepMS
  | receiveIPC
deriving DecidableEq, Repr

/-- Where a thread goes on when it runs: in its program; in `HandleReceive` for the process `proc`
behind `Block` (`ipcmanager.cpp:84`); at the switch that ends `RemoveProcess` (`process.cpp:248`). -/
inductive Control where
  | user
  | receiving (proc : Nat) (recvFrom type : Int)
  | exiting
deriving DecidableEq, Repr

/-- `Thread` (`thread.h:38`): what the scheduler and the system calls use of it. -/
structure Thread where
  parent : Nat
  state : ThreadState
  blockedState : BlockedState
  timeDelta : Nat
  control : Control
deriving DecidableEq, Repr

/-- `IPCMessage` (`lib/include/ipc.h:13`). -/
structure IPCMessage where
  source : Int
  dest : Int
  type : Int
  arg1 : Nat
  arg2 : Nat
  arg3 : Nat
  arg4 : Nat
  arg5 : Nat
  arg6 : Nat
deriving DecidableEq, Repr

/-- `Process` (`process.h:25`): what the scheduler and the system calls use of it. -/
structure Process where
  id : Int
  isUserspace : Bool
  threads : List Nat
  ipcMessages : List IPCMessage
deriving DecidableEq, Repr

/-- `IPCReceiveDescriptor` (`ipcmanager.h:11`). -/
structure IPCReceiveDescriptor where
  receivingProcess : Nat
  receivingThread : Nat
  receiveFromPID : Int
  receiveType : Int
deriving DecidableEq, Repr

/-- The condition on a descriptor in `HandleSend` (`ipcmanager.cpp:40`). -/
def IPCReceiveDescriptor.takes (d : IPCReceiveDescriptor) (target : Nat) (source type : Int) : Bool :=
  d.receivingProcess = target && (d.receiveFromPID = -1 || d.receiveFromPID = source) &&
    (d.receiveType = -1 || d.receiveType = type)

/-- `SCHEDULER_FREQUENCY` (`scheduler.h:12`). -/
def schedulerFrequency : Nat := 30

/-- The objects that exist, the list of processes, the scheduler and the list of blocked receivers. -/
structure Kernel where
  threads : Nat → Option Thread
  processes : Nat → Option Process
  processList : List Nat
  threadsList : List Nat
  currentThread : Nat
  tickCount : Nat
  switchForced : Bool
  enabled : Bool
  receivingBlockedList : List IPCReceiveDescriptor

namespace Kernel

section
variable (k : Kernel)

/-- The thread a pointer points to. -/
def thread (t : Nat) : Exec Thread :=
  match k.threads t with
  | some th => .ok th
  | none => .error .memory

/-- The process a pointer points to. -/
def process (p : Nat) : Exec Process :=
  match k.processes p with
  | some proc => .ok proc
  | none => .error .memory

def setThread (t : Nat) (th : Thread) : Kernel :=
  { k with threads := update k.threads t (some th) }

def setProcess (p : Nat) (proc : Process) : Kernel :=
  { k with processes := update k.processes p (some proc) }

/-- `threadsList.Remove(thread); delete thread;` (`scheduler.cpp:44`, `55`). -/
def deleteThread (t : Nat) : Kernel :=
  { k with
    threadsList := removeElem t k.threadsList
    threads := update k.threads t none }

/-- The loop of `GetNextReadyThread` (`scheduler.cpp:109`). When all threads are blocked it has no
end. -/
def nextReady : (fuel index : Nat) → Exec Nat
  | 0, _ => .error .loop
  | fuel + 1, index => do
    let t ← getAt k.threadsList index
    let th ← k.thread t
    if th.state = .blocked then
      nextReady fuel (if index + 1 ≥ k.threadsList.length then 0 else index + 1)
    else .ok t

/-- `GetNextReadyThread` (`scheduler.cpp:101`). -/
def getNextReadyThread : Exec Nat :=
  let index := (if k.currentThread ≠ 0 then indexOf k.threadsList k.currentThread else 0) + 1
  let index := if index ≥ k.threadsList.length then 0 else index
  k.nextReady (k.threadsList.length + 1) index.toNat

/-- The loop that removes stopped threads (`scheduler.cpp:41`); each pass shortens the list. -/
def dropStopped (k : Kernel) : (fuel next : Nat) → Exec (Nat × Kernel)
  | 0, _ => .error .loop
  | fuel + 1, next => do
    let th ← k.thread next
    if th.state = .stopped then
      let k := k.deleteThread next
      let next ← k.getNextReadyThread
      dropStopped k fuel next
    else .ok (next, k)

/-- The removal of a current thread that is stopped (`scheduler.cpp:52`). -/
def dropCurrent : Exec Kernel :=
  if k.currentThread ≠ 0 then do
    let th ← k.thread k.currentThread
    if th.state = .stopped then .ok (k.deleteThread k.currentThread) else .ok k
  else .ok k

/-- Whether the thread has a parent that is a user process. -/
def parentIsUserspace (th : Thread) : Exec Bool :=
  if th.parent ≠ 0 then do
    let p ← k.process th.parent
    .ok p.isUserspace
  else .ok false

/-- The switch to `next` (`scheduler.cpp:75`): a thread of a user process that is `Started` jumps into
its program (`InitialThreadUserJump`), every other one goes on where it was. -/
def switchTo (next : Nat) : Exec Kernel := do
  let k := { k with currentThread := next }
  let th ← k.thread next
  let isUserspace ← k.parentIsUserspace th
  if th.state = .started ∧ isUserspace = true then
    .ok { k.setThread next { th with state := .ready, control := .user } with enabled := true }
  else .ok k

/-- The task switch of `HandleInterrupt` (`scheduler.cpp:36`). -/
def taskSwitch : Exec Kernel := do
  let next ← k.getNextReadyThread
  let (next, k) ← k.dropStopped (k.threadsList.length + 1) next
  let k ← k.dropCurrent
  k.switchTo next

/-- `Unblock` (`scheduler.cpp:186`), without a forced switch. -/
def unblock (t : Nat) : Exec Kernel := do
  let th ← k.thread t
  .ok (k.setThread t { th with state := .ready })

/-- One pass of `ProcessSleepingThreads` (`scheduler.cpp:198`). -/
def processSleepingThread (t : Nat) : Exec Kernel := do
  let th ← k.thread t
  if th.state = .blocked ∧ th.blockedState = .sleepMS ∧ th.timeDelta > 0 then
    let k := k.setThread t { th with timeDelta := th.timeDelta - 1 }
    if th.timeDelta - 1 ≤ 0 then k.unblock t else .ok k
  else .ok k

/-- `ProcessSleepingThreads` (`scheduler.cpp:194`). -/
def processSleepingThreads : Exec Kernel :=
  k.threadsList.foldlM processSleepingThread k

/-- Time passes for the sleeping threads, but not at a forced switch (`scheduler.cpp:26`). -/
def passTime : Exec Kernel :=
  if k.switchForced = false then k.processSleepingThreads
  else .ok { k with switchForced := false }

/-- `HandleInterrupt` (`scheduler.cpp:23`). -/
def handleInterrupt : Exec Kernel := do
  let k ← { k with tickCount := u32 (k.tickCount + 1) }.passTime
  if k.tickCount = schedulerFrequency then
    let k := { k with tickCount := 0 }
    if k.threadsList.length > 0 ∧ k.enabled = true then k.taskSwitch else .ok k
  else .ok k

/-- `ForceSwitch` (`scheduler.cpp:153`). -/
def forceSwitch : Exec Kernel :=
  handleInterrupt { k with switchForced := true, enabled := true, tickCount := schedulerFrequency - 1 }

/-- `Block` (`scheduler.cpp:175`). -/
def block (t : Nat) (reason : BlockedState) : Exec Kernel := do
  let th ← k.thread t
  let k := k.setThread t { th with blockedState := reason, state := .blocked }
  if t = k.currentThread then k.forceSwitch else .ok k

/-- `CurrentProcess` (`scheduler.cpp:166`). -/
def currentProcess : Exec Nat :=
  if k.currentThread ≠ 0 then do
    let th ← k.thread k.currentThread
    .ok th.parent
  else .ok 0

/-- The loop of `ProcessById`. -/
def findProcess (id : Int) : List Nat → Exec Nat
  | [] => .ok 0
  | p :: ps => do
    let proc ← k.process p
    if proc.id = id then .ok p else findProcess id ps

/-- `ProcessById` (`process.cpp:273`), 0 for none. -/
def processById (id : Int) : Exec Nat := k.findProcess id k.processList

/-- `RemoveThread` (`thread.cpp:62`): the thread is stopped, and deleted when it is switched from or
to. -/
def removeThread (t : Nat) : Exec Kernel := do
  let th ← k.thread t
  .ok (k.setThread t { th with state := .stopped })

/-- `RemoveProcess` (`process.cpp:215`) up to the forced switch at its end. -/
def removeProcess (proc : Nat) : Exec Kernel := do
  let p ← k.process proc
  let k := { k with processList := removeElem proc k.processList }
  let k ← p.threads.foldlM removeThread k
  .ok { k with processes := update k.processes proc none }

/-- The loop of `HandleSend` over the descriptors (`ipcmanager.cpp:39`): the index and the thread of
the first one that takes the message. The index stands still at a null thread. -/
def findReceiver (target : Nat) (source type : Int) (i : Nat) : List IPCReceiveDescriptor → Option (Nat × Nat)
  | [] => none
  | d :: ds =>
    if d.takes target source type then
      if d.receivingThread = 0 then findReceiver target source type i ds
      else some (i, d.receivingThread)
    else findReceiver target source type (i + 1) ds

/-- `HandleSend` (`ipcmanager.cpp:17`) for the process `proc`: the process that got the message, 0
for `SYSCALL_RET_ERROR`. -/
def handleSend (proc : Nat) (msg : IPCMessage) : Exec (Nat × Kernel) := do
  let p ← k.process proc
  if msg.source ≠ p.id then .ok (0, k)
  else
    let target ← k.processById msg.dest
    if target = 0 then .ok (0, k)
    else
      let t ← k.process target
      let k := k.setProcess target { t with ipcMessages := t.ipcMessages ++ [msg] }
      match findReceiver target p.id msg.type 0 k.receivingBlockedList with
      | none => .ok (target, k)
      | some (i, receivingThread) =>
        let ds ← removeIndex k.receivingBlockedList i
        let k ← { k with receivingBlockedList := ds }.unblock receivingThread
        .ok (target, k)

/-- What a receive gives: the thread is blocked, the call fails, or a message is copied out. -/
inductive Received where
  | blocked
  | error
  | message (m : IPCMessage)
deriving DecidableEq, Repr

/-- The condition under which `HandleReceive` passes over a message (`ipcmanager.cpp:89`). -/
def passesOver (id recvFrom type : Int) (m : IPCMessage) : Bool :=
  m.dest ≠ id || (if recvFrom = -1 then false else recvFrom ≠ m.source) ||
    (if type = -1 then false else type ≠ m.type)

/-- The loop of `HandleReceive` (`ipcmanager.cpp:89`). Its body reads the next message and drops it:
`message`, which the condition looks at, stays the first one. -/
def searchMessage (queue : List IPCMessage) (passes : Bool) : (fuel index : Nat) → Exec Nat
  | 0, _ => .error .loop
  | fuel + 1, index =>
    if passes = true ∧ index < queue.length then do
      let _ ← getAt queue ((index + 1 : Nat) : Int)
      searchMessage queue passes fuel (index + 1)
    else .ok index

/-- `HandleReceive` behind the wait for a message (`ipcmanager.cpp:84`). -/
def takeMessage (proc : Nat) (recvFrom type : Int) : Exec (Received × Kernel) := do
  let p ← k.process proc
  let message ← getAt p.ipcMessages 0
  let messageIndex ← searchMessage p.ipcMessages (passesOver p.id recvFrom type message)
    (p.ipcMessages.length + 1) 0
  if messageIndex = p.ipcMessages.length then .ok (.error, k)
  else
    let queue ← removeIndex p.ipcMessages messageIndex
    .ok (.message message, k.setProcess proc { p with ipcMessages := queue })

/-- The descriptor of the current thread `th` is added to the list (`ipcmanager.cpp:68`). -/
def addReceiver (th : Thread) (proc : Nat) (recvFrom type : Int) : Kernel :=
  { k.setThread k.currentThread { th with control := .receiving proc recvFrom type } with
    receivingBlockedList := k.receivingBlockedList ++ [⟨proc, k.currentThread, recvFrom, type⟩] }

/-- `HandleReceive` (`ipcmanager.cpp:59`) for the process `proc`, up to the switch to another thread
when there is no message. -/
def handleReceive (proc : Nat) (recvFrom type : Int) : Exec (Received × Kernel) := do
  let p ← k.process proc
  if p.ipcMessages.length ≤ 0 then
    let th ← k.thread k.currentThread
    let k ← (k.addReceiver th proc recvFrom type).block k.currentThread .receiveIPC
    .ok (.blocked, k)
  else k.takeMessage proc recvFrom type

/-- The thread that `SYSCALL_UNBLOCK` starts (`cactusos.cpp:219`), if the call finds one. -/
def unblockTarget (pid index : Int) : Exec (Option Nat) := do
  let proc ← k.processById pid
  if proc = 0 then .ok none
  else
    let p ← k.process proc
    if index < p.threads.length then do
      let t ← getAt p.threads index
      .ok (some t)
    else .ok none

/-- `SYSCALL_UNBLOCK` (`cactusos.cpp:217`). -/
def syscallUnblock (pid index : Int) : Exec Kernel := do
  match ← k.unblockTarget pid index with
  | none => .ok k
  | some t =>
    let th ← k.thread t
    .ok (k.setThread t { th with state := .started })

/-- `SYSCALL_SLEEP_MS` (`cactusos.cpp:175`). -/
def syscallSleep (ms : Nat) : Exec Kernel := do
  let th ← k.thread k.currentThread
  let k := k.setThread k.currentThread { th with timeDelta := u32 ms }
  k.block k.currentThread .sleepMS

/-- `SYSCALL_EXIT` (`cactusos.cpp:28`), up to the switch that `RemoveProcess` ends with. -/
def syscallExit (proc : Nat) : Exec Kernel := do
  let k ← k.removeProcess proc
  let th ← k.thread k.currentThread
  .ok (k.setThread k.currentThread { th with control := .exiting })

end

/-- What can happen next: a system call of the current thread, the rest of one behind a switch, and
a timer interrupt. A send and a receive say how they ended. -/
inductive Action where
  | send (msg : IPCMessage) (target : Nat)
  | receive (recvFrom type : Int) (result : Received)
  | received (result : Received)
  | unblock (pid index : Int)
  | sleep (ms : Nat)
  | yield
  | exit
  | exited
  | timer
deriving DecidableEq, Repr

/-- The current thread is in its program. -/
def InUser (k : Kernel) : Prop :=
  ∃ th, k.threads k.currentThread = some th ∧ th.control = .user

/-- One step of the kernel. A step that faults ends the run. -/
inductive Step : Kernel → Action → Kernel → Prop
  | send {k k' : Kernel} {proc target : Nat} {msg : IPCMessage} : k.InUser → k.currentProcess = .ok
      proc → k.handleSend proc msg = .ok (target, k') → Step k (.send msg target) k'
  | receive {k k' : Kernel} {proc : Nat} {recvFrom type : Int} {r : Received} : k.InUser → k.currentProcess
      = .ok proc → k.handleReceive proc recvFrom type = .ok (r, k') → Step k (.receive recvFrom type r) k'
  | received {k k' : Kernel} {th : Thread} {proc : Nat} {recvFrom type : Int} {r : Received} :
      k.threads k.currentThread = some th → th.control = .receiving proc recvFrom type →
      (k.setThread k.currentThread { th with control := .user }).takeMessage proc recvFrom type =
        .ok (r, k') → Step k (.received r) k'
  | unblock {k k' : Kernel} {pid index : Int} :
      k.InUser → k.syscallUnblock pid index = .ok k' → Step k (.unblock pid index) k'
  | sleep {k k' : Kernel} {ms : Nat} : k.InUser → k.syscallSleep ms = .ok k' → Step k (.sleep ms) k'
  | yield {k k' : Kernel} : k.InUser → k.forceSwitch = .ok k' → Step k .yield k'
  | exit {k k' : Kernel} {proc : Nat} :
      k.InUser → k.currentProcess = .ok proc → k.syscallExit proc = .ok k' → Step k .exit k'
  | exited {k k' : Kernel} {th : Thread} : k.threads k.currentThread = some th → th.control = .exiting →
      (k.setThread k.currentThread { th with control := .user }).forceSwitch = .ok k' → Step k .exited k'
  | timer {k k' : Kernel} : k.handleInterrupt = .ok k' → Step k .timer k'

end Kernel

end HeisenKernel
