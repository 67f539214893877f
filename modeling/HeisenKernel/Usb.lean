import HeisenKernel.Base

/-!
# Waiting for USB transfers

How the drivers of the three host controllers decide that a transfer has succeeded
(`drivers/usb/controllers`).
-/

namespace HeisenKernel.Usb

open List

/-- The word of each descriptor, poll by poll. -/
abbrev Statuses := Nat → Nat → BitVec 32

/-- `status` of `CheckTransferDone` (`uhci.cpp:323`), a byte. -/
def uhciStatus (reply : BitVec 32) : BitVec 8 := (reply &&& 0xFF0000#32).setWidth 8

/-- `UHCIController::CheckTransferDone` (`uhci.cpp:317`). -/
def checkTransferDone (reply : Nat → BitVec 32) (numTDs : Nat) : Nat :=
  match (List.range numTDs).find? fun i => uhciStatus (reply i) ≠ 0 with
  | none => 0
  | some i =>
    if uhciStatus (reply i) &&& 0x08 = 0x08 then 2 else if uhciStatus (reply i) &&& 0x80 = 0x80 then 3 else 1

/-- The loop that waits for a transfer (`uhci.cpp:396`): the status, how many of the hundred polls are left, and
the time. -/
def uhciWait (reply : Statuses) (numTDs : Nat) : (left status time : Nat) → Nat × Nat × Nat
  | 0, status, time => (status, 0, time)
  | left + 1, status, time =>
    if status = 3 then uhciWait reply numTDs left (checkTransferDone (reply time) numTDs) (time + 1)
    else (status, left + 1, time)

/-- What `UHCIController::ControlIn` returns (`uhci.cpp:405`). -/
def uhciControlIn (reply : Statuses) (numTDs : Nat) : Bool :=
  if (uhciWait reply numTDs 100 3 0).2.1 = 0 then false else (uhciWait reply numTDs 100 3 0).1 = 0

/-- What `UHCIController::BulkIn` and `BulkOut` return (`uhci.cpp:597`, `uhci.cpp:537`). -/
def uhciBulk (reply : Statuses) (numTDs : Nat) : Bool := (uhciWait reply numTDs 100 3 0).1 = 0

/-- The word of a descriptor that is neither active nor has an error. -/
def UhciDone (reply : BitVec 32) : Prop := reply &&& 0xFF0000#32 = 0

/-- Success means that the descriptors were done at the last poll. -/
def UhciRight (reply : Statuses) (numTDs : Nat) (success : Bool) : Prop :=
  success = true → ∀ i < numTDs, UhciDone (reply ((uhciWait reply numTDs 100 3 0).2.2 - 1) i)

/-- The condition code of a descriptor (`ohci.cpp:386`): 14 until the controller has been there. -/
def conditionCode (flags : BitVec 32) : BitVec 32 := (flags &&& 0xF0000000#32) >>> 28

/-- The wait for one descriptor (`ohci.cpp:386`) from a time on: the polls that are left and the time behind it. -/
def ohciWaitTd (flags : Statuses) (c : Nat) : (timeOut time : Nat) → Nat × Nat
  | 0, time => (0, time)
  | timeOut + 1, time =>
    if conditionCode (flags time c) = 14 then ohciWaitTd flags c timeOut (time + 1) else (timeOut + 1, time)

/-- The time of the check, behind the waits for the descriptors. `BulkOut` gives up at the first timeout
(`ohci.cpp:468`). -/
def ohciWait (flags : Statuses) (breaks : Bool) : (tds : List Nat) → (time : Nat) → Nat
  | [], time => time
  | c :: tds, time =>
    if breaks = true ∧ (ohciWaitTd flags c 1000 time).1 = 0 then (ohciWaitTd flags c 1000 time).2
    else ohciWait flags breaks tds (ohciWaitTd flags c 1000 time).2

/-- The check of the first `count` of `numTDs` descriptors (`ohci.cpp:406`), in a cleared array of ten. -/
def ohciCheck (flags : Nat → BitVec 32) (numTDs count : Nat) : Exec Bool :=
  if 10 < numTDs then .error .memory
  else if (List.range (min count 10)).any fun c => c < numTDs ∧ flags c &&& 0xF0000000#32 ≠ 0 then .ok false
  else if 10 < count then .error .memory
  else .ok true

/-- The data descriptors of a transfer. -/
def dataTDs (len packetSize : Nat) : Nat := (len + (packetSize - 1)) / packetSize

/-- The words that `OHCIController::ControlIn` checks, and what it returns (`ohci.cpp:327`). -/
def ohciControlIn (flags : Statuses) (len packetSize : Nat) : (Nat → BitVec 32) × Exec Bool :=
  let final := flags (ohciWait flags false (List.range (dataTDs len packetSize + 2)) 0)
  (final, ohciCheck final (dataTDs len packetSize + 2) (len / 8 + 2))

/-- The same for `OHCIController::BulkIn` (`ohci.cpp:491`) and `BulkOut` (`ohci.cpp:429`), which `breaks`. -/
def ohciBulk (flags : Statuses) (breaks : Bool) (len packetSize : Nat) : (Nat → BitVec 32) × Exec Bool :=
  let final := flags (ohciWait flags breaks (List.range (dataTDs len packetSize)) 0)
  (final, ohciCheck final (dataTDs len packetSize) (dataTDs len packetSize))

/-- Success means that the descriptors ended without an error. -/
def OhciRight (numTDs : Nat) (r : (Nat → BitVec 32) × Exec Bool) : Prop :=
  r.2 = .ok true → ∀ c < numTDs, r.1 c &&& 0xF0000000#32 = 0

/-- `status` of `WaitForTransferComplete` (`ehci.cpp:469`). -/
def ehciStatus (flags : BitVec 32) : BitVec 32 := flags &&& ~~~1#32

def active (flags : BitVec 32) : Bool := ehciStatus flags &&& 0x80#32 ≠ 0

def hasError (flags : BitVec 32) : Bool := ehciStatus flags &&& 0x7F#32 ≠ 0

/-- A packet was shorter than it could be (`ehci.cpp:505`). -/
def isShort (flags : BitVec 32) : Bool :=
  (ehciStatus flags &&& 0x7FFF0000#32) >>> 16 > 0 ∧ (ehciStatus flags &&& 0x300#32) >>> 8 = 1

/-- The links `nextQTD` and `altNextQTD` of the descriptors, as far as they are valid. -/
structure Links where
  next : Nat → Option Nat
  alt : Nat → Option Nat

/-- The descriptor behind one that is done, without those that a short packet skips. -/
def Links.behind (links : Links) (flags : BitVec 32) (td : Nat) : Option Nat :=
  if isShort flags then links.alt td else links.next td

/-- `EHCIController::WaitForTransferComplete` (`ehci.cpp:462`) from a poll on. -/
def waitForTransferComplete (flags : Statuses) (links : Links) (timeout : Nat) :
    (fuel time td timer : Nat) → (ret : Int) → Exec Int
  | 0, _, _, _, _ => .error .loop
  | fuel + 1, time, td, timer, ret =>
    if timer = 0 then .ok (if ret = -1 then 0 else ret)
    else if active (flags time td) then
      waitForTransferComplete flags links timeout fuel (time + 1) td (timer - 1) ret
    else if hasError (flags time td) then .ok 0
    else
      match links.behind (flags time td) td with
      | some td => waitForTransferComplete flags links timeout fuel (time + 1) td (timeout - 1) 1
      | none => .ok 1

/-- What becomes of a transfer: each descriptor that is not skipped becomes inactive without an error, one of them
has an error, or one of them, perhaps the `first`, stays active until its time is over. -/
inductive Fate where
  | done
  | failed
  | stalled (first : Bool)

/-- The fate of a transfer from a poll on. -/
def fate (flags : Statuses) (links : Links) (timeout : Nat) :
    (fuel time td timer : Nat) → (first : Bool) → Exec Fate
  | 0, _, _, _, _ => .error .loop
  | fuel + 1, time, td, timer, first =>
    if timer = 0 then .ok (.stalled first)
    else if active (flags time td) then fate flags links timeout fuel (time + 1) td (timer - 1) first
    else if hasError (flags time td) then .ok .failed
    else
      match links.behind (flags time td) td with
      | some td => fate flags links timeout fuel (time + 1) td (timeout - 1) false
      | none => .ok .done

/-- What the wait returns for a fate. -/
def Fate.ret : Fate → Int
  | done | stalled false => 1
  | failed | stalled true => 0

/-- `ControlIn`, `BulkIn` and `BulkOut` of EHCI succeed when the wait returns 1 (`ehci.cpp:612`). -/
def EhciRight (flags : Statuses) (links : Links) : Prop :=
  ∀ fuel, waitForTransferComplete flags links 2000 fuel 0 0 2000 (-1) = .ok 1 →
    fate flags links 2000 fuel 0 0 2000 true = .ok .done

variable {flags : Statuses} {links : Links} {timeout time td timer fuel : Nat}

theorem uhciStatus_eq (reply : BitVec 32) : uhciStatus reply = 0 := by
  refine BitVec.eq_of_getLsbD_eq fun i hi => ?_
  simp [uhciStatus]

theorem uhciWait_eq (reply : Statuses) (numTDs : Nat) : uhciWait reply numTDs 100 3 0 = (0, 99, 1) := by
  have hcheck : checkTransferDone (reply 0) numTDs = 0 := by
    have hnone : ((range numTDs).find? fun i => uhciStatus (reply 0 i) ≠ 0) = none := by
      simp [uhciStatus_eq]
    rw [checkTransferDone, hnone]
  rw [uhciWait, if_pos rfl, hcheck]
  rfl

theorem ohciCheck_eq_true {numTDs count : Nat} :
    ohciCheck final numTDs count = .ok true ↔
      numTDs ≤ 10 ∧ count ≤ 10 ∧ ∀ c < count, c < numTDs → final c &&& 0xF0000000#32 = 0 := by
  unfold ohciCheck
  split
  · next hn => exact ⟨nofun, fun h => absurd h.1 (Nat.not_le.2 hn)⟩
  · next hn =>
    split
    · next hany =>
      refine ⟨nofun, fun h => ?_⟩
      simp only [any_eq_true, mem_range, decide_eq_true_eq] at hany
      obtain ⟨c, hc, hlt, hne⟩ := hany
      exact absurd (h.2.2 c (Nat.lt_of_lt_of_le hc (Nat.min_le_left ..)) hlt) hne
    · next hall =>
      split
      · next hcount => exact ⟨nofun, fun h => absurd h.2.1 (Nat.not_le.2 hcount)⟩
      · next hcount =>
        refine ⟨fun _ => ⟨by omega, by omega, fun c hc hlt => ?_⟩, fun _ => rfl⟩
        by_contra hne
        refine hall (any_eq_true.2 ⟨c, mem_range.2 (by omega), decide_eq_true ⟨hlt, hne⟩⟩)

theorem waitForTransferComplete_eq {first : Bool} : waitForTransferComplete flags links timeout fuel time td timer
    (if first then -1 else 1) = (fate flags links timeout fuel time td timer first).map Fate.ret := by
  induction fuel generalizing time td timer first with
  | zero => rfl
  | succ fuel ih =>
    rw [waitForTransferComplete, fate]
    split
    · cases first <;> rfl
    split
    · exact ih
    split
    · rfl
    split
    · next td' _ => exact @ih (time + 1) td' (timeout - 1) false
    · rfl

/-- When the success of a transfer means that its descriptors are done. -/
theorem transfers_right_iff (reply flags qtds : Statuses) (links : Links) (numTDs len packetSize : Nat) :
    (UhciRight reply numTDs (uhciControlIn reply numTDs) ↔ ∀ i < numTDs, UhciDone (reply 0 i)) ∧
    (UhciRight reply numTDs (uhciBulk reply numTDs) ↔ ∀ i < numTDs, UhciDone (reply 0 i)) ∧
    (EhciRight qtds links ↔ ∀ fuel, fate qtds links 2000 fuel 0 0 2000 true ≠ .ok (.stalled false)) ∧
    (OhciRight (dataTDs len packetSize + 2) (ohciControlIn flags len packetSize) ↔
      (dataTDs len packetSize + 2 ≤ 10 → len / 8 + 2 ≤ 10 →
        (∀ c < len / 8 + 2, c < dataTDs len packetSize + 2 →
          (ohciControlIn flags len packetSize).1 c &&& 0xF0000000#32 = 0) →
        ∀ c < dataTDs len packetSize + 2, (ohciControlIn flags len packetSize).1 c &&& 0xF0000000#32 = 0)) ∧
    ∀ breaks, OhciRight (dataTDs len packetSize) (ohciBulk flags breaks len packetSize) := by
  have huhci : ∀ success, success = true →
      (UhciRight reply numTDs success ↔ ∀ i < numTDs, UhciDone (reply 0 i)) := by
    intro success hsuccess
    rw [UhciRight, uhciWait_eq]
    exact ⟨fun h => h hsuccess, fun h _ => h⟩
  have hehci : ∀ fuel, waitForTransferComplete qtds links 2000 fuel 0 0 2000 (-1) =
      (fate qtds links 2000 fuel 0 0 2000 true).map Fate.ret :=
    fun fuel => @waitForTransferComplete_eq qtds links 2000 0 0 2000 fuel true
  refine ⟨huhci _ ?_, huhci _ ?_, forall_congr' fun fuel => ?_, ⟨fun h hn hcount hok => ?_, fun h hok => ?_⟩,
    fun breaks hok => ?_⟩
  · rw [uhciControlIn, uhciWait_eq]
    rfl
  · rw [uhciBulk, uhciWait_eq]
    rfl
  · rw [hehci]
    rcases fate qtds links 2000 fuel 0 0 2000 true with e | (_ | _ | _ | _) <;> simp [Except.map, Fate.ret]
  · exact h (ohciCheck_eq_true.2 ⟨hn, hcount, hok⟩)
  · obtain ⟨hn, hcount, hchecked⟩ := ohciCheck_eq_true.1 hok
    exact h hn hcount hchecked
  · obtain ⟨-, -, hchecked⟩ := ohciCheck_eq_true.1 hok
    exact fun c hc => hchecked c hc hc

/-- An UHCI transfer of one descriptor that the controller never touches succeeds. -/
theorem uhci_timeout_succeeds : uhciBulk (fun _ _ => 0x800000#32) 1 = true ∧
    ¬UhciRight (fun _ _ => 0x800000#32) 1 (uhciBulk (fun _ _ => 0x800000#32) 1) :=
  ⟨by decide, fun h => absurd (h (by decide) 0 (by decide)) (by unfold UhciDone; decide)⟩

end HeisenKernel.Usb
