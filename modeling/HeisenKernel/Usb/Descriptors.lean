import HeisenKernel.Usb
import Mathlib.Tactic.IntervalCases

/-!
# The data descriptors of USB transfers

How the drivers cut a buffer into packets, with the data toggle that goes with them.
-/

namespace HeisenKernel.Usb

open Function List Nat Bool

/-- What a data descriptor says: its place in the array, where its bytes are, how many, and the data toggle. -/
structure DataTD where
  index : Nat
  pointer : Nat
  bytes : Nat
  toggle : Bool
deriving Repr, DecidableEq

/-- The descriptors cover `len` bytes at `buffer`, in order and in packets, with toggles that alternate from `t`. -/
def Covers (packetSize : Nat) : List DataTD → (buffer len : Nat) → (t : Bool) → Prop
  | [], _, len, _ => len = 0
  | d :: rest, buffer, len, t => d.pointer = u32 buffer ∧ 0 < d.bytes ∧ d.bytes ≤ packetSize ∧ d.bytes ≤ len ∧
    d.toggle = t ∧ Covers packetSize rest (buffer + d.bytes) (len - d.bytes) (!t)

/-- The loops that fill the descriptors from the one with index `i`, of which there are at most `left`: the bytes
lie `step` behind those of the descriptor before. The `t` of OHCI changes as `i` does. -/
def dataDescriptors (packetSize step first flip buffer : Nat) : (left i sz : Nat) → List DataTD
  | 0, _, _ => []
  | left + 1, i, sz =>
    if sz > 0 then
      let t := if sz ≤ packetSize then sz else packetSize
      ⟨i, u32 (buffer + step * (i - first)), t, (i + flip) % 2 = 1⟩ ::
        dataDescriptors packetSize step first flip buffer left (i + 1) (sz - t)
    else []

/-- `UHCIController::ControlIn` (`uhci.cpp:376`), which takes the bytes of a packet for eight. -/
def uhciControlInData (packetSize buffer len : Nat) : List DataTD := dataDescriptors packetSize 8 1 0 buffer 8 1 len

/-- `UHCIController::BulkIn` (`uhci.cpp:561`). -/
def uhciBulkInData (packetSize buffer len : Nat) : List DataTD :=
  dataDescriptors packetSize packetSize 0 0 buffer 9 0 len

/-- `OHCIController::ControlIn` (`ohci.cpp:359`), without a bound on the descriptors. -/
def ohciControlInData (packetSize buffer len : Nat) : List DataTD :=
  dataDescriptors packetSize packetSize 1 0 buffer len 1 len

/-- `OHCIController::BulkIn` (`ohci.cpp:505`). -/
def ohciBulkInData (packetSize buffer len : Nat) : List DataTD :=
  dataDescriptors packetSize packetSize 0 1 buffer len 0 len

/-- The descriptors lie in the array of ten and cover the buffer. -/
def DataRight (packetSize buffer len : Nat) (l : List DataTD) : Prop :=
  (∀ d ∈ l, d.index < 10) ∧ ∃ t, Covers packetSize l buffer len t

variable {packetSize first flip buffer left i sz len : Nat} {t : Bool}

theorem dataDescriptors_index (n : Nat) :
    (∀ d ∈ dataDescriptors packetSize step first flip buffer left i sz, d.index < n) ↔
      left ≤ n - i ∨ sz ≤ (n - i) * packetSize := by
  induction left generalizing i sz with
  | zero => simp [dataDescriptors]
  | succ left ih =>
    rw [dataDescriptors]
    split
    · rename_i hpos
      rw [forall_mem_cons, ih]
      dsimp only
      rcases lt_or_ge i n with hi | hi
      · obtain ⟨k, hk⟩ : ∃ k, n - i = k + 1 := ⟨n - i - 1, by omega⟩
        rw [hk, show n - (i + 1) = k by omega, add_mul]
        split <;> omega
      · rw [Nat.sub_eq_zero_of_le hi]
        omega
    · simp only [not_mem_nil, false_implies, implies_true, true_iff]
      omega

theorem toggle_succ (n : Nat) : decide ((n + 1) % 2 = 1) = !decide (n % 2 = 1) := by
  rcases mod_two_eq_zero_or_one n with h | h <;> simp [add_mod, h]

theorem dataDescriptors_covers (hps : 0 < packetSize) (hi : first ≤ i) :
    Covers packetSize (dataDescriptors packetSize packetSize first flip buffer left i sz)
      (buffer + packetSize * (i - first)) sz t ↔ sz ≤ left * packetSize ∧ (0 < sz → decide ((i + flip) % 2 = 1) = t) := by
  induction left generalizing i sz t with
  | zero =>
    rw [dataDescriptors, Covers]
    omega
  | succ left ih =>
    rw [dataDescriptors, succ_mul]
    split
    · rename_i hpos
      rw [Covers]
      dsimp only
      split
      · -- the last packet
        rename_i hle
        have hnil : dataDescriptors packetSize packetSize first flip buffer left (i + 1) (sz - sz) = [] := by
          cases left <;> simp [dataDescriptors]
        rw [hnil, Covers]
        exact ⟨fun h => ⟨by omega, fun _ => h.2.2.2.2.1⟩,
          fun h => ⟨rfl, hpos, hle, le_refl _, h.2 hpos, Nat.sub_self _⟩⟩
      · rename_i hle
        have hnext : buffer + packetSize * (i - first) + packetSize = buffer + packetSize * (i + 1 - first) := by
          rw [Nat.sub_add_comm hi, Nat.mul_succ, add_assoc]
        rw [hnext, ih (by omega), add_right_comm i 1 flip, toggle_succ, not_inj_iff]
        exact ⟨fun h => ⟨by omega, fun _ => h.2.2.2.2.1⟩,
          fun h => ⟨rfl, hps, le_refl _, by omega, h.2 hpos, by omega, fun _ => h.2 hpos⟩⟩
    · rename_i hpos
      rw [Covers]
      omega

theorem dataDescriptors_right (hps : 0 < packetSize) :
    DataRight packetSize buffer len (dataDescriptors packetSize packetSize first flip buffer left first len) ↔
      (left ≤ 10 - first ∨ len ≤ (10 - first) * packetSize) ∧ len ≤ left * packetSize := by
  have hcovers := @dataDescriptors_covers packetSize first flip buffer left first len
  rw [Nat.sub_self, mul_zero, add_zero] at hcovers
  rw [DataRight, dataDescriptors_index]
  refine and_congr_right fun _ => ⟨fun ⟨t, h⟩ => ((hcovers hps (le_refl _)).1 h).1, fun h => ?_⟩
  exact ⟨decide ((first + flip) % 2 = 1), (hcovers hps (le_refl _)).2 ⟨h, fun _ => rfl⟩⟩

theorem uhciControlInData_right (hps : 8 ≤ packetSize ∧ packetSize ≤ 64) (hlen : 0 < len) :
    DataRight packetSize buffer len (uhciControlInData packetSize buffer len) ↔
      len ≤ 8 * packetSize ∧ (packetSize = 8 ∨ len ≤ packetSize) := by
  obtain rfl | hne := eq_or_ne packetSize 8
  · rw [uhciControlInData, dataDescriptors_right (by decide)]
    omega
  rw [uhciControlInData, dataDescriptors, if_pos hlen]
  dsimp only
  rcases lt_or_ge packetSize len with hlt | hle
  · -- the second packet is put eight bytes behind the first one
    rw [if_neg (by omega), dataDescriptors, if_pos (by omega)]
    refine ⟨fun ⟨_, t, h⟩ => ?_, fun h => by omega⟩
    have hsecond := h.2.2.2.2.2.1
    simp only [u32] at hsecond
    omega
  · rw [if_pos hle, Nat.sub_self]
    exact ⟨fun _ => by omega, fun _ => ⟨by simp [dataDescriptors],
      ⟨_, rfl, hlen, hle, le_refl _, rfl, by simp [dataDescriptors, Covers]⟩⟩⟩

theorem dataRight_iff (hps : 8 ≤ packetSize ∧ packetSize ≤ 64) (hlen : 1 ≤ len) (buffer : Nat) :
    (DataRight packetSize buffer len (uhciControlInData packetSize buffer len) ↔
      len ≤ 8 * packetSize ∧ (packetSize = 8 ∨ len ≤ packetSize)) ∧
    (DataRight packetSize buffer len (uhciBulkInData packetSize buffer len) ↔ len ≤ 9 * packetSize) ∧
    (DataRight packetSize buffer len (ohciControlInData packetSize buffer len) ↔ len ≤ 9 * packetSize) ∧
    (DataRight packetSize buffer len (ohciBulkInData packetSize buffer len) ↔ len ≤ 10 * packetSize) := by
  have hps' : 0 < packetSize := by omega
  have hmul : len ≤ len * packetSize := Nat.le_mul_of_pos_right _ hps'
  refine ⟨uhciControlInData_right hps hlen, ?_, ?_, ?_⟩
  · rw [uhciBulkInData, dataDescriptors_right hps']
    omega
  · rw [ohciControlInData, dataDescriptors_right hps']
    omega
  · rw [ohciBulkInData, dataDescriptors_right hps']
    omega

theorem dataRight_iff_packet : DataRight 64 4096 64 (uhciControlInData 64 4096 64) :=
  (dataRight_iff (by decide) (by decide) 4096).1.2 (by decide)

theorem uhciControlInData_overlaps : uhciControlInData 16 4096 18 = [⟨1, 4096, 16, true⟩, ⟨2, 4104, 2, false⟩] := by
  decide

/-- `e_transferDescriptor_t` (`ehci.h:84`). -/
structure TransferDesc where
  nextQTD : Nat
  nextQTDVirt : Nat
  altNextQTD : Nat
  altNextQTDVirt : Nat
  flags : Nat
  bufPtr : List Nat
deriving Repr, DecidableEq

/-- The other pages of a descriptor's buffer, as `MakeTransferDesc` sets them (`ehci.cpp:407`) in cleared memory. -/
def bufPages (bufferPhys : Nat) : List Nat :=
  if bufferPhys ≠ 0 then
    let buff := u32 (bufferPhys + 0x1000) / 0x1000 * 0x1000
    [buff, u32 (buff + 0x1000), u32 (buff + 0x2000), u32 (buff + 0x3000)]
  else [0, 0, 0, 0]

section
variable (statusQtd statusQtdPhys : Nat) (last : Bool) (dir mps : Nat)

/-- `EHCIController::MakeTransferDesc` (`ehci.cpp:397`), for at most `left` descriptors. -/
def makeTransferDesc : (left currentTD physAddr bufferPhys size data0 : Nat) → List TransferDesc
  | 0, _, _, _, _, _ => []
  | left + 1, currentTD, physAddr, bufferPhys, size, data0 =>
    { nextQTD := if last && size ≤ mps then 1 else u32 (physAddr + 64)
      nextQTDVirt := if last && size ≤ mps then 0 else u32 (currentTD + 64)
      altNextQTD := if statusQtdPhys = 0 then 1 else statusQtdPhys
      altNextQTDVirt := statusQtd
      flags := data0 <<< 31 ||| ((if size < mps then size else mps) <<< 16 ||| (3 <<< 10 ||| (dir <<< 8 ||| 0x80)))
      bufPtr := bufferPhys :: bufPages bufferPhys } ::
    if size > mps then
      makeTransferDesc left (u32 (currentTD + 64)) (u32 (physAddr + 64)) (u32 (bufferPhys + mps)) (size - mps)
        (data0 ^^^ 1)
    else []

end

/-- `USBEndpoint::Toggle` (`usbendpoint.cpp:16`): what it returns, and the state behind it. -/
def toggle (toggleState : Bool) : Bool × Bool := (!!toggleState, !toggleState)

/-- The buffers of a bulk transfer and its direction, `EHCI_TD_PID_IN` or `EHCI_TD_PID_OUT`. -/
structure BulkTransfer where
  isIn : Bool
  td0 : Nat
  td0Phys : Nat
  bufPhys : Nat
  len : Nat
  aligned : td0Phys % 64 = 0
  bufPhys_lt : bufPhys < 2 ^ 32

/-- The descriptors and the endpoint's toggle state of `EHCIController::BulkOut` and `BulkIn` (`ehci.cpp:627`,
`ehci.cpp:663`). -/
def bulk (packetSize : Nat) (toggleState : Bool) (x : BulkTransfer) : List TransferDesc × Bool :=
  let r := toggle toggleState
  (makeTransferDesc 0 0 true x.isIn.toNat packetSize x.len x.td0 x.td0Phys x.bufPhys x.len r.1.toNat,
    (fun state => (toggle state).2)^[1 + (x.len + (packetSize - 1)) / packetSize] r.2)

/-- Transfers on one endpoint, one after the other. -/
def bulkTransfers (packetSize : Nat) : (toggleState : Bool) → List BulkTransfer → List (List TransferDesc)
  | _, [] => []
  | toggleState, x :: xs =>
    (bulk packetSize toggleState x).1 :: bulkTransfers packetSize (bulk packetSize toggleState x).2 xs

/-- What the controller reads from a descriptor. -/
def TransferDesc.data (d : TransferDesc) : DataTD :=
  ⟨0, d.bufPtr.headD 0, d.flags / 2 ^ 16 % 2 ^ 15, d.flags / 2 ^ 31 % 2 = 1⟩

/-- The last descriptor, and no other, ends the chain. -/
def EndsChain : List TransferDesc → Prop
  | [] => False
  | [d] => d.nextQTD % 2 = 1
  | d :: rest => d.nextQTD % 2 = 0 ∧ EndsChain rest

def alternate : Bool → Nat → List Bool
  | _, 0 => []
  | t, n + 1 => t :: alternate (!t) n

theorem alternate_add (t : Bool) (m n : Nat) :
    alternate t (m + n) = alternate t m ++ alternate (not^[m] t) n := by
  induction m generalizing t with
  | zero => simp [alternate]
  | succ m ih =>
    rw [succ_add, alternate, ih]
    rfl

theorem Covers.toggles (h : Covers packetSize l buffer len t) :
    l.map DataTD.toggle = alternate t l.length := by
  induction l generalizing buffer len t with
  | nil => rfl
  | cons d l ih =>
    obtain ⟨-, -, -, -, htoggle, hrest⟩ := h
    rw [map_cons, htoggle, ih hrest]
    rfl

theorem flags_read (hdata : data0 < 2) (hn : n < 2 ^ 15) (hdir : dir < 4) :
    let flags := data0 <<< 31 ||| (n <<< 16 ||| (3 <<< 10 ||| (dir <<< 8 ||| 0x80)))
    flags / 2 ^ 16 % 2 ^ 15 = n ∧ flags / 2 ^ 31 % 2 = data0 := by
  have hlow : 3 <<< 10 ||| (dir <<< 8 ||| 0x80) < 2 ^ 16 := by
    interval_cases dir <;> decide
  have hmid : n <<< 16 ||| (3 <<< 10 ||| (dir <<< 8 ||| 0x80)) = 2 ^ 16 * n + (3 <<< 10 ||| (dir <<< 8 ||| 0x80)) := by
    rw [shiftLeft_eq, mul_comm, two_pow_add_eq_or_of_lt hlow]
  rw [hmid, shiftLeft_eq, mul_comm, ← two_pow_add_eq_or_of_lt (by omega)]
  omega

variable {dir mps size td physAddr data0 b : Nat}

theorem makeTransferDesc_right (hmps : 0 < mps ∧ mps ≤ 1024) (hdir : dir < 4) (hsize : 0 < size)
    (hleft : size ≤ left * mps) (hphys : physAddr % 64 = 0) (hdata : data0 < 2) :
    let descs := makeTransferDesc 0 0 true dir mps left td physAddr (u32 b) size data0
    Covers mps (descs.map TransferDesc.data) b size (data0 = 1) ∧ EndsChain descs ∧
      descs.length = dataTDs size mps := by
  induction left generalizing td physAddr b size data0 with
  | zero => omega
  | succ left ih =>
    rw [succ_mul] at hleft
    rw [makeTransferDesc]
    rcases lt_or_ge mps size with hlt | hle
    · have hnext : u32 (u32 b + mps) = u32 (b + mps) := by
        unfold u32
        omega
      have hflip : data0 ^^^ 1 < 2 ∧ decide (data0 ^^^ 1 = 1) = !decide (data0 = 1) := by
        interval_cases data0 <;> decide
      obtain ⟨hbytes, htoggle⟩ := flags_read hdata (show mps < 2 ^ 15 by omega) hdir
      obtain ⟨hcovers, hends, hlength⟩ := @ih (size - mps) (u32 (td + 64)) (u32 (physAddr + 64)) (data0 ^^^ 1) (b + mps)
        (by omega) (by omega) (by unfold u32; omega) hflip.1
      rw [hflip.2] at hcovers
      rw [if_pos hlt, hnext, if_neg (lt_asymm hlt)]
      generalize makeTransferDesc 0 0 true dir mps left _ _ _ _ _ = rest at hcovers hends hlength ⊢
      refine ⟨⟨rfl, ?_⟩, ?_, ?_⟩
      · simp only [TransferDesc.data, hbytes, htoggle]
        exact ⟨hmps.1, le_refl _, le_of_lt hlt, trivial, hcovers⟩
      · cases rest with
        | nil => exact hends.elim
        | cons d rest =>
          refine ⟨?_, hends⟩
          rw [if_neg (by simp; omega)]
          dsimp only [u32]
          omega
      · rw [length_cons, hlength, dataTDs, dataTDs, ← add_div_right _ hmps.1]
        congr 1
        omega
    · rw [if_neg (not_lt.2 hle)]
      have hmin : (if size < mps then size else mps) = size := by
        split <;> omega
      obtain ⟨hbytes, htoggle⟩ := flags_read hdata (show size < 2 ^ 15 by omega) hdir
      rw [hmin]
      refine ⟨⟨rfl, ?_⟩, ?_, ?_⟩
      · simp only [TransferDesc.data, hbytes, htoggle]
        exact ⟨hsize, hle, le_refl _, trivial, Nat.sub_self _⟩
      · rw [EndsChain, if_pos (by simpa using hle)]
        rfl
      · have hone : dataTDs size mps = 1 := Nat.div_eq_of_lt_le (by omega) (by omega)
        rw [hone]
        rfl

theorem bulk_toggleState (packetSize : Nat) (toggleState : Bool) (x : BulkTransfer) :
    (bulk packetSize toggleState x).2 = not^[dataTDs x.len packetSize] toggleState := by
  change not^[1 + dataTDs x.len packetSize] (!toggleState) = _
  rw [← iterate_succ_apply, show (1 + dataTDs x.len packetSize).succ = dataTDs x.len packetSize + 2 by omega,
    iterate_add_apply]
  simp

end HeisenKernel.Usb
