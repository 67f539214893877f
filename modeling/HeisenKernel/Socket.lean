import HeisenKernel.Base
import Mathlib.Data.List.Range

/-!
# Arriving TCP segments (`libz/socket/socket.c`)

The bytes of the peer's stream are named by their position in it: byte `k` is the number `k`, which
the code does not look at. Nothing compares a sequence number with the one that is expected.
-/

namespace HeisenKernel.Socket

open List

inductive TcpState where
  | listen | synsent | synreceived | established | finwait1 | finwait2 | closewait | closing | lastack
  | timewait | closed
deriving DecidableEq

/-- The fields of the remote socket of the connection. -/
structure Remote where
  resolved : Bool
  state : TcpState
  seq : Nat
  ack : Nat
deriving DecidableEq

/-- A packet: the fields of its headers that are looked at, and the bytes behind them. -/
structure Packet (α : Type) where
  type : Nat
  protocol : Nat
  tp : Nat
  seq : Nat
  ack : Nat
  flags : Nat
  payload : List α

/-- The socket after the `switch` of `handletcp`, which returns `psize` in every case. -/
def handletcp (remote : Remote) (p : Packet α) : Remote :=
  match remote.state with
  | .listen =>
    if p.flags = 0x02 then { remote with state := .synreceived, ack := u32 (p.seq + 1) } else remote
  | .synsent =>
    if p.flags = 0x12 then { remote with state := .established, seq := p.ack, ack := u32 (p.seq + 1) }
    else if p.flags = 0x02 then { remote with state := .synreceived, ack := u32 (p.seq + 1) }
    else remote
  | .synreceived =>
    if p.flags = 0x10 then { remote with state := .established, seq := p.ack } else remote
  | .established =>
    if p.flags = 0x10 ∨ p.flags = 0x18 then
      { remote with seq := p.ack, ack := u32 (p.seq + p.payload.length) }
    else if p.flags = 0x11 ∨ p.flags = 0x19 then
      { remote with state := .closed, seq := p.ack, ack := u32 (p.seq + p.payload.length + 1) }
    else remote
  | .finwait1 =>
    if p.flags = 0x10 then { remote with state := .finwait2, seq := p.ack }
    else if p.flags = 0x01 then { remote with state := .closing, ack := u32 (p.seq + 1) }
    else remote
  | .finwait2 => if p.flags = 0x01 then { remote with state := .closed } else remote
  | .closing | .lastack =>
    if p.flags = 0x10 then { remote with state := .closed, seq := p.ack } else remote
  | .closewait | .timewait | .closed => remote

/-- Also returns the bytes that are written to `output`. -/
def socketHandleTcp (port outputcount : Nat) (remote : Remote) (p : Packet α) : Remote × List α :=
  if p.type = 0x0800 ∧ p.protocol = 6 ∧ p.tp = port then
    (handletcp remote p, p.payload.take outputcount)
  else (remote, [])

/-- The peer is the one to which the socket is bound, or the socket is not bound yet. -/
def socketAcceptTcp (remote : Remote) (p : Packet α) : Remote :=
  if remote.resolved then remote else { remote with ack := p.seq, resolved := true }

def receive (port outputcount : Nat) (remote : Remote) (p : Packet α) : Remote × List α :=
  socketHandleTcp port outputcount (socketAcceptTcp remote p) p

/-- A segment of the peer: `count` bytes of its stream from `offset` on. -/
structure Segment where
  offset : Nat
  count : Nat
  flags : Nat
  ack : Nat

variable (isn port outputcount : Nat)

/-- The sequence number: `SYN` takes the initial one. -/
def Segment.seq (g : Segment) : Nat :=
  u32 (isn + if g.flags.testBit 1 then 0 else 1 + g.offset)

def Segment.packet (g : Segment) : Packet Nat :=
  ⟨0x0800, 6, port, g.seq isn, g.ack, g.flags, range' g.offset g.count⟩

/-- All bytes that are passed on, and whether no acknowledgement number of the connection is behind
the one before it, as sequence numbers are compared. -/
def arrivals (remote : Remote) : List Segment → List Nat × Bool
  | [] => ([], true)
  | g :: gs =>
    let (remote', bytes) := receive port outputcount remote (g.packet isn port)
    let (rest, kept) := arrivals remote' gs
    (bytes ++ rest, (!remote.resolved || sub32 remote'.ack remote.ack < 2 ^ 31) && kept)

/-- The bytes passed on are those from `k` on, each once and in order. -/
def Delivers (remote : Remote) (k : Nat) (gs : List Segment) : Prop :=
  let (bytes, kept) := arrivals isn port outputcount remote gs
  bytes = range' k bytes.length ∧ kept
deriving Decidable

/-- Where the segment is acknowledged, its end is not behind what has been acknowledged. -/
def Ahead (remote : Remote) (g : Segment) : Prop :=
  (g.flags = 0x02 ∧ (remote.state = .listen ∨ remote.state = .synsent) ∨
      g.flags = 0x12 ∧ remote.state = .synsent ∨ g.flags = 0x01 ∧ remote.state = .finwait1 →
    sub32 (u32 (g.seq isn + 1)) remote.ack < 2 ^ 31) ∧
  (remote.state = .established → (g.flags = 0x10 ∨ g.flags = 0x18 →
      sub32 (u32 (g.seq isn + g.count)) remote.ack < 2 ^ 31) ∧
    (g.flags = 0x11 ∨ g.flags = 0x19 →
      sub32 (u32 (g.seq isn + g.count + 1)) remote.ack < 2 ^ 31))

/-- Every segment that brings bytes brings the next ones after the `k` that have been passed on. -/
def InOrder (remote : Remote) (k : Nat) : List Segment → Prop
  | [] => True
  | g :: gs =>
    (min outputcount g.count = 0 ∨ g.offset = k) ∧ (remote.resolved → Ahead isn remote g) ∧
      InOrder (receive port outputcount remote (g.packet isn port)).1 (k + min outputcount g.count) gs

theorem receive_packet (remote : Remote) (g : Segment) :
    receive port outputcount remote (g.packet isn port) =
      (handletcp (socketAcceptTcp remote (g.packet isn port)) (g.packet isn port),
        range' g.offset (min outputcount g.count)) := by
  simp [receive, socketHandleTcp, Segment.packet, range'_eq_map_range, ← map_take, take_range]

theorem sub32_handletcp_lt_iff (remote : Remote) (g : Segment) :
    sub32 (handletcp remote (g.packet isn port)).ack remote.ack < 2 ^ 31 ↔ Ahead isn remote g := by
  have hself : sub32 remote.ack remote.ack < 2 ^ 31 := by
    unfold sub32
    omega
  obtain ⟨resolved, state, seq, ack⟩ := remote
  cases state <;> simp only [handletcp, Segment.packet, Ahead, length_range'] <;> grind

theorem range'_append_eq_iff : range' a d ++ l = range' k (range' a d ++ l).length ↔
    (d = 0 ∨ a = k) ∧ l = range' (k + d) l.length := by
  rw [length_append, length_range', ← range'_append_1]
  constructor
  · intro h
    obtain ⟨h, hl⟩ := append_inj h (by simp)
    refine ⟨?_, hl⟩
    cases d with
    | zero => exact .inl rfl
    | succ d => exact .inr (cons.inj h).1
  · rintro ⟨rfl | rfl, hl⟩ <;> rw [← hl]
    rfl

theorem delivers_iff (remote : Remote) (k : Nat) (gs : List Segment) :
    Delivers isn port outputcount remote k gs ↔ InOrder isn port outputcount remote k gs := by
  induction gs generalizing remote k with
  | nil => simp [Delivers, arrivals, InOrder]
  | cons g gs ih =>
    simp only [InOrder, ← ih, Delivers, arrivals, receive_packet, range'_append_eq_iff]
    cases hres : remote.resolved
    · simp [and_assoc]
    · rw [show socketAcceptTcp remote (g.packet isn port) = remote from if_pos hres, Bool.and_eq_true,
        Bool.not_true, Bool.false_or, decide_eq_true_eq, sub32_handletcp_lt_iff]
      tauto

/-- A byte that arrives twice is passed on twice. -/
theorem delivers_duplicate_fails : ¬Delivers 7 80 1500 ⟨false, .listen, 0, 0⟩ 0
    [⟨0, 0, 0x02, 0⟩, ⟨0, 0, 0x10, 0⟩, ⟨0, 1, 0x18, 0⟩, ⟨0, 1, 0x18, 0⟩] := by
  decide

end HeisenKernel.Socket
