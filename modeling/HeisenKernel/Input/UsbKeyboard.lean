import HeisenKernel.Input.Keyboard
import Mathlib.Data.List.Count

/-!
# Reports of a USB keyboard

A USB keyboard sends its modifier keys and the codes of up to six keys that are down, in any order. The
driver (`usbkeyboard.cpp`) compares a report with the one before it to find the keys that have changed.
-/

namespace HeisenKernel

open List

/-- A boot report: modifier keys, a reserved byte, and six key codes, zero where there is no key. -/
abbrev Report := Fin 8 → UInt8

/-- A call of `KeyboardManager::HandleKeyChange`: the key code, and whether the key is pressed. -/
abbrev KeyChange := UInt8 × Bool

/-- `USBKeyboard` (`usbkeyboard.h:15`). -/
structure USBKeyboard where
  keyboard : Keyboard
  prevPacket : Report

namespace USBKeyboard

/-- The positions of the key codes in a report. -/
def keySlots : List (Fin 8) := [2, 3, 4, 5, 6, 7]

/-- The key codes of a report. -/
def keys (packet : Report) : List UInt8 := keySlots.map packet

/-- `USBKeyboard::USBKeyboard` (`usbkeyboard.cpp:13`). -/
def new : USBKeyboard := ⟨⟨.usb, false, false, false, false, false, false⟩, fun _ => 0⟩

/-- `Keyboard::ContainsKey` (`keyboard.cpp:19`): the position of the key. -/
def containsKey (key : UInt8) (packet : Report) : Option (Fin 8) := keySlots.find? (packet · = key)

/-- The body of the loop of `HandleInterruptPacket`, for the key code at the position `i`. -/
def keyChanges (prevPacket packet : Report) (i : Fin 8) : List KeyChange :=
  match containsKey (packet i) packet, containsKey (packet i) prevPacket with
  | some _, some _ => []
  | some pos, none => [(packet pos, true)]
  | none, some pos => [(prevPacket pos, false)]
  | none, none => []

/-- `USBKeyboard::HandleInterruptPacket` (`usbkeyboard.cpp:61`), with the key changes that it reports. -/
def handleInterruptPacket (k : USBKeyboard) (packet : Report) : List KeyChange × USBKeyboard :=
  let modifier := (packet 0).toNat
  (keySlots.flatMap (keyChanges k.prevPacket packet),
    { keyboard := { k.keyboard with
        leftControl := modifier.testBit 0
        leftShift := modifier.testBit 1
        alt := modifier.testBit 2
        rightControl := modifier.testBit 4
        rightShift := modifier.testBit 5
        altGr := modifier.testBit 6 }
      prevPacket := packet })

/-- For each of the reports the one before it, the report, and the key changes that it gives. -/
def history (k : USBKeyboard) : List Report → List (Report × Report × List KeyChange)
  | [] => []
  | packet :: packets => (k.prevPacket, packet, (k.handleInterruptPacket packet).1) ::
      history (k.handleInterruptPacket packet).2 packets

/-- Each key that has come is pressed once, each key that has gone is released once, and nothing else
happens. -/
def Tracks (prev packet : Report) (changes : List KeyChange) : Prop :=
  ∀ code, changes.count (code, true) = (if code ≠ 0 ∧ code ∈ keys packet ∧ code ∉ keys prev then 1 else 0) ∧
    changes.count (code, false) = (if code ≠ 0 ∧ code ∈ keys prev ∧ code ∉ keys packet then 1 else 0)

/-- No key is released, a new key stands in one place, and a free place is none that has become free. -/
structure Grows (prev packet : Report) : Prop where
  kept : ∀ code ∈ keys prev, code ≠ 0 → code ∈ keys packet
  new : ∀ code ∈ keys packet, code ∉ keys prev → code ≠ 0 ∧ (keys packet).count code = 1

variable {prev : Report}

theorem containsKey_eq_none : containsKey key packet = none ↔ key ∉ keys packet := by
  simp [containsKey, keys]

/-- A code of the report is in the report, so the branch for a released key is never taken. -/
theorem keyChanges_eq (hi : i ∈ keySlots) : keyChanges prev packet i =
    if packet i ∈ keys prev then [] else [(packet i, true)] := by
  unfold keyChanges
  split
  · next hq =>
    rw [if_pos (by_contra fun h => by rw [containsKey_eq_none.2 h] at hq; cases hq)]
  · next pos hp hq =>
    have hpos : packet pos = packet i := by simpa using find?_some hp
    rw [if_neg (containsKey_eq_none.1 hq), hpos]
  all_goals
    next hp _ => exact absurd (mem_map_of_mem hi) (containsKey_eq_none.1 hp)

theorem flatMap_keyChanges : ∀ {slots : List (Fin 8)}, slots ⊆ keySlots →
    slots.flatMap (keyChanges prev packet) = ((slots.map packet).filter (· ∉ keys prev)).map (·, true)
  | [], _ => rfl
  | i :: slots, h => by
    rw [flatMap_cons, keyChanges_eq (h mem_cons_self), map_cons, filter_cons,
      flatMap_keyChanges fun j hj => h (mem_cons_of_mem i hj)]
    by_cases hi : packet i ∈ keys prev <;> simp [hi]

theorem count_keyChanges (code : UInt8) :
    (keySlots.flatMap (keyChanges prev packet)).count (code, true) =
        (if code ∈ keys prev then 0 else (keys packet).count code) ∧
      (keySlots.flatMap (keyChanges prev packet)).count (code, false) = 0 := by
  rw [flatMap_keyChanges (Subset.refl _)]
  refine ⟨?_, count_eq_zero.2 (by simp)⟩
  rw [count_map_of_injective _ _ fun a b h => (Prod.mk.inj h).1]
  split
  · next h => exact count_eq_zero.2 (by simp [h])
  · next h => exact count_filter (by simpa using h)

theorem tracks_iff : Tracks prev packet (keySlots.flatMap (keyChanges prev packet)) ↔ Grows prev packet := by
  constructor
  · intro h
    refine ⟨fun code hold hne => ?_, fun code hin hnew => ?_⟩
    · by_contra hgone
      have := (h code).2
      rw [(count_keyChanges code).2, if_pos ⟨hne, hold, hgone⟩] at this
      cases this
    · have hcount := (h code).1
      rw [(count_keyChanges code).1, if_neg hnew] at hcount
      have hpos := count_pos_iff.2 hin
      split at hcount
      · next hc => exact ⟨hc.1, hcount⟩
      · omega
  · intro h code
    rw [(count_keyChanges code).1, (count_keyChanges code).2]
    constructor
    · by_cases hold : code ∈ keys prev
      · rw [if_pos hold, if_neg fun hc => hc.2.2 hold]
      · rw [if_neg hold]
        by_cases hin : code ∈ keys packet
        · rw [if_pos ⟨(h.new code hin hold).1, hin, hold⟩, (h.new code hin hold).2]
        · rw [if_neg fun hc => hin hc.2.1, count_eq_zero.2 hin]
    · rw [if_neg fun hc => hc.2.2 (h.kept code hc.2.1 hc.1)]

theorem history_tracks_iff (k : USBKeyboard) (packets : List Report) :
    (∀ x ∈ k.history packets, Tracks x.1 x.2.1 x.2.2) ↔ (k.prevPacket :: packets).IsChain Grows := by
  induction packets generalizing k with
  | nil => simp [history]
  | cons packet packets ih =>
    rw [history, forall_mem_cons, ih, isChain_cons_cons]
    exact and_congr_left fun _ => tracks_iff

/-- The driver follows the keys as long as none is released. -/
theorem handleInterruptPacket_tracks_iff (packets : List Report) :
    (∀ x ∈ new.history packets, Tracks x.1 x.2.1 x.2.2) ↔ ((fun _ => 0) :: packets).IsChain Grows :=
  history_tracks_iff new packets

/-- The key with the code 4 goes down and up again, and the second report gives no key change. -/
theorem handleInterruptPacket_misses_release : ¬∀ x ∈
    new.history [fun i => if i = 2 then 4 else 0, fun _ => 0], Tracks x.1 x.2.1 x.2.2 := by
  intro h
  have hsecond := h _ (mem_cons_of_mem _ mem_cons_self)
  exact absurd (hsecond 4).2 (by decide)

end USBKeyboard

end HeisenKernel
