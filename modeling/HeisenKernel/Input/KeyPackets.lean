import HeisenKernel.Input.Keyboard
import HeisenKernel.Lib.Run

/-!
# Packets behind the stream

As long as at every key event the stream is full or has room for a whole packet, its bytes are those
of whole packets, from the place on where the reader is (`Framed`): the packets decoded are the
first ones of those that were taken in.
-/

namespace HeisenKernel

open Lib List KeyboardManager KeypressPacket Nat FifoStream KeySystem UInt8 Run

namespace KeypressPacket

theorem bytes_length (p : KeypressPacket) : p.bytes.length = 6 := rfl

theorem ofBody_body (p : KeypressPacket) : ofBody p.body = p := by
  have hlt := p.flags.toNat_lt
  have hflags : UInt32.ofNat ((ofNat p.flags.toNat).toNat +
      256 * (ofNat (p.flags.toNat / 256)).toNat +
      65536 * (ofNat (p.flags.toNat / 65536)).toNat +
      16777216 * (ofNat (p.flags.toNat / 16777216)).toNat) = p.flags := by
    rw [← UInt32.toNat_inj, UInt32.toNat_ofNat', toNat_ofNat', toNat_ofNat', toNat_ofNat', toNat_ofNat']
    omega
  exact congrArg (mk p.keyCode) hflags

theorem bytes_inj {p q : KeypressPacket} (h : p.bytes = q.bytes) : p = q := by
  rw [← ofBody_body p, ← ofBody_body q, cons.inj h |>.2]

theorem body_ofBody (h : l.length = 5) : (ofBody l).body = l := by
  obtain ⟨a, b, c, d, e, rfl⟩ : ∃ a b c d e, l = [a, b, c, d, e] := by
    match l, h with
    | [a, b, c, d, e], _ => exact ⟨a, b, c, d, e, rfl⟩
  have hb := b.toNat_lt
  have hc := c.toNat_lt
  have hd := d.toNat_lt
  have he := e.toNat_lt
  have hflags : (ofBody [a, b, c, d, e]).flags.toNat =
      b.toNat + 256 * c.toNat + 65536 * d.toNat + 16777216 * e.toNat := by
    show (UInt32.ofNat (b.toNat + 256 * c.toNat + 65536 * d.toNat + 16777216 * e.toNat)).toNat = _
    exact mod_eq_of_lt (by omega)
  have hbyte : ∀ (n : Nat) (x : UInt8), n % 256 = x.toNat → ofNat n = x := by
    intro n x h
    rw [← UInt8.toNat_inj, UInt8.toNat_ofNat']
    exact h
  rw [body, hflags, hbyte _ b (by omega), hbyte _ c (by omega), hbyte _ d (by omega), hbyte _ e (by omega)]
  rfl

theorem flatMap_bytes_append {l m : List KeypressPacket} {rest : List UInt8}
    (h : m.flatMap bytes = l.flatMap bytes ++ rest) : ∃ more, m = l ++ more ∧ rest = more.flatMap bytes := by
  induction l generalizing m with
  | nil => exact ⟨m, rfl, h.symm⟩
  | cons p l ih =>
    cases m with
    | nil =>
      have := congrArg length h
      rw [flatMap_cons, length_append, length_append, bytes_length] at this
      rw [flatMap_nil, length_nil] at this
      omega
    | cons q m =>
      rw [flatMap_cons, flatMap_cons, append_assoc] at h
      obtain ⟨hpq, hrest⟩ := append_inj h rfl
      obtain ⟨more, rfl, hmore⟩ := ih hrest
      exact ⟨more, by rw [bytes_inj hpq, cons_append], hmore⟩

end KeypressPacket

namespace FifoStream

variable {f : FifoStream} {q : List UInt8}

theorem write_holds (h : f.Holds q) (b : UInt8) :
    (f.write b).Holds (q ++ [b].take (f.capacity - q.length)) ∧ (f.write b).capacity = f.capacity := by
  unfold write
  have hle := h.le
  have hcount := h.count
  split
  · next hfull =>
    have hroom : f.capacity - q.length = 0 := by omega
    rw [hroom, take_zero, append_nil]
    exact ⟨h, rfl⟩
  · next hfree =>
    have hroom : [b].take (f.capacity - q.length) = [b] := take_of_length_le (by rw [length_singleton]; omega)
    rw [hroom]
    exact ⟨h.push (by omega) b, rfl⟩

theorem writeAll_holds (l : List UInt8) : ∀ {f : FifoStream} {q : List UInt8}, f.Holds q →
    (l.foldl (fun f b => f.write b) f).Holds (q ++ l.take (f.capacity - q.length)) ∧
      (l.foldl (fun f b => f.write b) f).capacity = f.capacity := by
  induction l with
  | nil =>
    intro f q h
    rw [take_nil, append_nil]
    exact ⟨h, rfl⟩
  | cons b l ih =>
    intro f q h
    obtain ⟨hb, hcap⟩ := write_holds h b
    obtain ⟨hl, hcap'⟩ := ih hb
    have hle := h.le
    refine ⟨?_, hcap'.trans hcap⟩
    rcases Nat.eq_or_lt_of_le hle with hfull | hfree
    · have hroom : f.capacity - q.length = 0 := by omega
      rw [hroom, take_zero, append_nil, hcap, hroom, take_zero, append_nil] at hl
      rw [hroom, take_zero, append_nil]
      exact hl
    · obtain ⟨r, hr⟩ : ∃ r, f.capacity - q.length = r + 1 := ⟨f.capacity - q.length - 1, by omega⟩
      have htake : [b].take (r + 1) = [b] := take_of_length_le (by simp)
      have hrest : f.capacity - (q ++ [b]).length = r := by
        rw [length_append, length_singleton]
        omega
      rw [hr, htake, hcap, hrest, append_assoc, singleton_append] at hl
      rw [hr, take_succ_cons]
      exact hl

theorem read_nil (h : f.Holds []) : f.read = (0, f) := if_pos h.count

theorem read_cons (h : f.Holds (b :: q)) : f.read.1 = b ∧ f.read.2.Holds q ∧
    f.read.2.capacity = f.capacity := by
  have hne : f.count ≠ 0 := by
    rw [h.count]
    exact succ_ne_zero _
  obtain ⟨hfront, hpop⟩ := h.pop
  rw [read, if_neg hne]
  exact ⟨hfront, hpop, rfl⟩

theorem read_holds (h : f.Holds q) : f.read.1 = q.headD 0 ∧ f.read.2.Holds q.tail ∧
    f.read.2.capacity = f.capacity := by
  cases q with
  | nil =>
    rw [read_nil h]
    exact ⟨rfl, h, rfl⟩
  | cons b q => exact read_cons h

/-- The calls that change a stream. -/
inductive Call where
  | write (item : UInt8)
  | read

/-- A call and what it returns, zero for `Write`. -/
def call (f : FifoStream) : Call → UInt8 × FifoStream
  | .write item => (0, f.write item)
  | .read => f.read

/-- The call on a queue of at most `capacity` bytes. -/
def Call.onQueue (capacity : Nat) (q : List UInt8) : Call → UInt8 × List UInt8
  | .write item => (0, if q.length = capacity then q else q ++ [item])
  | .read => (q.headD 0, q.tail)

/-- What the calls return one after the other, and the state behind them. -/
def results {σ : Type} (step : σ → Call → UInt8 × σ) (s : σ) : List Call → List UInt8 × σ
  | [] => ([], s)
  | c :: l => ((step s c).1 :: (results step (step s c).2 l).1, (results step (step s c).2 l).2)

theorem call_holds (h : f.Holds q) (c : Call) : (f.call c).1 = (c.onQueue f.capacity q).1 ∧
    (f.call c).2.Holds (c.onQueue f.capacity q).2 ∧ (f.call c).2.capacity = f.capacity := by
  cases c with
  | write item =>
    have hle := h.le
    rw [call, Call.onQueue, write, h.count]
    split
    · exact ⟨rfl, h, rfl⟩
    · exact ⟨rfl, h.push (by omega) item, rfl⟩
  | read => exact read_holds h

theorem results_holds (h : f.Holds q) (l : List Call) :
    (results call f l).1 = (results (Call.onQueue f.capacity) q l).1 ∧ (results call f l).2.Holds
      (results (Call.onQueue f.capacity) q l).2 ∧ (results call f l).2.capacity = f.capacity := by
  induction l generalizing f q with
  | nil => exact ⟨rfl, h, rfl⟩
  | cons c l ih =>
    obtain ⟨hresult, hnext, hcap⟩ := call_holds h c
    obtain ⟨hrest, hlast, hcap'⟩ := ih hnext
    rw [hcap] at hrest hlast hcap'
    exact ⟨congrArg₂ cons hresult hrest, hlast, hcap'⟩

theorem stream_is_queue (capacity : Nat) (hcap : 1 ≤ capacity) (l : List Call) :
    (results call (new capacity) l).1 = (results (Call.onQueue capacity) [] l).1 ∧
      (results call (new capacity) l).2.Holds (results (Call.onQueue capacity) [] l).2 ∧
      available (results call (new capacity) l).2 = (results (Call.onQueue capacity) [] l).2.length ∧
      (results call (new capacity) l).2.head < capacity ∧
      (results call (new capacity) l).2.tail < capacity := by
  obtain ⟨hresult, hholds, hsame⟩ := results_holds (RingBuffer.holds_nil (fun _ => 0) capacity) l
  have hin := hholds.inside (by rw [hsame]; exact hcap)
  rw [hsame] at hin
  exact ⟨hresult, hholds, hholds.count, hin⟩

theorem stream_is_queue_one : (results call (new 1) [.write 7, .write 8, .read, .read]).1 = [0, 0, 7, 0] :=
  (stream_is_queue 1 (by decide) _).1

end FifoStream

namespace KeySystem

/-- The bytes of a packet that the reader has read of it. -/
def consumed : Reader → List UInt8
  | .available | .start => []
  | .body l => keypacketStart :: l

/-- A key event with room for a whole packet, or none at all. -/
def Fits (s : KeySystem) : KeyEvent → Prop
  | .key _ _ _ => s.manager.stream.count = s.manager.stream.capacity ∨
      s.manager.stream.count + 6 ≤ s.manager.stream.capacity
  | .read => True

/-- What was decoded, what was read of the next packet, and what is in the stream are together the packets
`accepted`, which are some of those written; and the reader is where it thinks it is. -/
structure Framed (s : KeySystem) (q : List UInt8) (accepted : List KeypressPacket) : Prop where
  holds : s.manager.stream.Holds q
  accepted_sublist : accepted.Sublist s.written
  bytes : accepted.flatMap KeypressPacket.bytes =
    s.decoded.flatMap KeypressPacket.bytes ++ (consumed s.reader ++ q)
  start : s.reader = .start → q ≠ []
  body : ∀ l, s.reader = .body l → l.length < 5
  noise : s.noise = 0

variable {s : KeySystem} {q : List UInt8} {accepted : List KeypressPacket}

theorem Framed.rest (h : Framed s q accepted) : ∃ more, accepted = s.decoded ++ more ∧
    consumed s.reader ++ q = more.flatMap KeypressPacket.bytes :=
  flatMap_bytes_append h.bytes

theorem toggle_stream (key : Nat) (pressed : Bool) (m : KeyboardManager) :
    (m.toggle key pressed).stream = m.stream := by
  unfold toggle
  split
  · rfl
  · split <;> rfl

theorem exec_key (h : s.manager.stream.Holds q) (src : Keyboard) (key : Nat) (pressed : Bool) :
    ∃ m : KeyboardManager, s.exec (.key src key pressed) =
      { s with manager := m, written := s.written ++ [s.manager.packet src key pressed] } ∧
    m.stream.Holds
      (q ++ (s.manager.packet src key pressed).bytes.take (s.manager.stream.capacity - q.length)) ∧
    m.stream.capacity = s.manager.stream.capacity := by
  refine ⟨(s.manager.toggle (keyOf src key) pressed).writeAll
    (s.manager.packet src key pressed).bytes, ?_, ?_⟩
  · rw [exec, handleKeyChange]
  · rw [KeyboardManager.writeAll, toggle_stream]
    exact writeAll_holds _ h

theorem Framed.key (h : Framed s q accepted) {key : Nat} (hfits : s.Fits (.key src key pressed)) : ∃ q'
    accepted', Framed (s.exec (.key src key pressed)) q' accepted' := by
  obtain ⟨m, hexec, hholds, -⟩ := exec_key h.holds src key pressed
  have hcount := h.holds.count
  rw [hexec]
  rcases hfits with hfull | hroom
  · -- the whole packet is ignored
    rw [show s.manager.stream.capacity - q.length = 0 by omega, take_zero, append_nil] at hholds
    exact ⟨q, accepted, hholds, h.accepted_sublist.trans (sublist_append_left _ _), h.bytes,
      h.start, h.body, h.noise⟩
  · rw [take_of_length_le (by rw [bytes_length]; omega)] at hholds
    refine ⟨_, accepted ++ [s.manager.packet src key pressed], hholds,
      h.accepted_sublist.append (List.Sublist.refl _), ?_, fun hr hq => ?_, h.body, h.noise⟩
    · rw [flatMap_append, h.bytes, flatMap_singleton, append_assoc, append_assoc]
    · exact h.start hr (append_eq_nil_iff.1 hq).1

theorem flatMap_bytes_eq_cons (h : b :: q = more.flatMap bytes) : b = keypacketStart ∧ ∃ p
    more', more = p :: more' ∧ q = p.body ++ more'.flatMap bytes := by
  cases more with
  | nil => cases h
  | cons p more =>
    obtain ⟨hb, hq⟩ := cons.inj h
    exact ⟨hb, p, more, rfl, hq⟩

theorem Framed.step (h : Framed s q accepted) : ∃ q', Framed s.step q' accepted := by
  obtain ⟨more, hmore, hbytes⟩ := h.rest
  cases hreader : s.reader with
  | available =>
    rw [KeySystem.step, hreader]
    dsimp only
    split
    · next hpos =>
      refine ⟨q, h.holds, h.accepted_sublist, ?_, fun _ hq => ?_, nofun, h.noise⟩
      · have := h.bytes
        rw [hreader] at this
        exact this
      · rw [available, h.holds.count_eq_zero.2 hq] at hpos
        exact Nat.lt_irrefl 0 hpos
    · exact ⟨q, h⟩
  | start =>
    obtain _ | ⟨b, q⟩ := q
    · exact absurd rfl (h.start hreader)
    obtain ⟨hb, hpop, -⟩ := read_cons h.holds
    rw [hreader] at hbytes
    obtain ⟨hstart, p, more', rfl, hq⟩ := flatMap_bytes_eq_cons hbytes
    rw [step, hreader]
    rw [if_neg (not_not.2 (hb.trans hstart))]
    refine ⟨q, hpop, h.accepted_sublist, ?_, nofun, fun l hl => ?_, h.noise⟩
    · have hall := h.bytes
      rw [hreader, hstart] at hall
      exact hall
    · cases hl
      decide
  | body l =>
    have hlen := h.body l hreader
    cases q with
    | nil =>
      -- a packet that has begun is in the stream as a whole
      rw [hreader, append_nil] at hbytes
      obtain ⟨-, p, more', rfl, hq⟩ := flatMap_bytes_eq_cons hbytes
      rw [hq, length_append] at hlen
      exact absurd hlen (Nat.not_lt.2 (le_add_right 5 _))
    | cons b q =>
      obtain ⟨hb, hpop, -⟩ := read_cons h.holds
      have hall := h.bytes
      rw [hreader] at hall
      have hsplit : consumed (.body l) ++ b :: q = consumed (.body (l ++ [b])) ++ q := by
        simp [consumed]
      rw [step, hreader]
      dsimp only
      rw [hb]
      split
      · next hlt =>
        refine ⟨q, hpop, h.accepted_sublist, ?_, nofun, fun l' hl' => ?_, h.noise⟩
        · rw [hsplit] at hall
          exact hall
        · cases hl'
          exact hlt
      · next hge =>
        have hfive : (l ++ [b]).length = 5 := by
          rw [length_append, length_singleton] at hge ⊢
          omega
        refine ⟨q, hpop, h.accepted_sublist, ?_, nofun, nofun, h.noise⟩
        rw [hall, hsplit, flatMap_append, flatMap_singleton, KeypressPacket.bytes,
          KeypressPacket.body_ofBody hfive, append_assoc]
        rfl

theorem Framed.sublist (h : Framed s q accepted) : s.decoded.Sublist s.written := by
  obtain ⟨more, rfl, -⟩ := h.rest
  exact (sublist_append_left _ _).trans h.accepted_sublist

theorem framed_new (capacity : Nat) (capsLock numLock : Bool) :
    Framed (new capacity capsLock numLock) [] [] :=
  ⟨RingBuffer.holds_nil _ _, List.Sublist.refl _, rfl, nofun, nofun, rfl⟩

theorem framed_of_run {capsLock numLock : Bool}
    (hrun : Run (guarded Fits Step) (new capacity capsLock numLock) events s) :
    ∃ q accepted, Framed s q accepted := by
  refine hrun.invariant (I := fun s => ∃ q accepted, Framed s q accepted)
    ⟨[], [], framed_new capacity capsLock numLock⟩ ?_
  rintro s e t ⟨q, accepted, h⟩ ⟨hfits, rfl⟩
  cases e with
  | key src key pressed => exact h.key hfits
  | read =>
    obtain ⟨q', h'⟩ := h.step
    exact ⟨q', accepted, h'⟩

/-! ## Packets that are cut

From here on any steps may follow. The reader comes to the part of a packet at the end of the stream, and when
it has read that the stream is empty. A key event now puts a start byte where the rest of the packet should
be. -/

/-- The reader gets from `s` to `t`, where the stream holds `q`, and decodes the packets `more`. -/
structure Reads (s t : KeySystem) (q : List UInt8) (reader : Reader) (more : List KeypressPacket) :
    Prop where
  run : ∃ events, Run Step s events t
  reader_eq : t.reader = reader
  holds : t.manager.stream.Holds q
  capacity : t.manager.stream.capacity = s.manager.stream.capacity
  decoded : t.decoded = s.decoded ++ more

variable {t : KeySystem}

theorem Reads.trans
    (h : Reads s t q r more) (h' : Reads t u q' r' more') : Reads s u q' r' (more ++ more') := by
  obtain ⟨events, hrun⟩ := h.run
  obtain ⟨events', hrun'⟩ := h'.run
  exact ⟨⟨_, hrun.append hrun'⟩, h'.reader_eq, h'.holds, h'.capacity.trans h.capacity,
    by rw [h'.decoded, h.decoded, append_assoc]⟩

theorem run_step (s : KeySystem) : ∃ events, Run Step s events s.step :=
  ⟨_, nil.snoc (show Step s .read s.step from rfl)⟩

theorem reads_available (h : s.manager.stream.Holds q) (hr : s.reader = .available) (hq : q ≠ []) :
    Reads s s.step q .start [] := by
  have hpos : 0 < s.manager.stream.available := Nat.pos_of_ne_zero fun h0 => hq (h.count_eq_zero.1 h0)
  have hstep : s.step = { s with reader := .start } := by
    rw [step, hr]
    exact if_pos hpos
  exact ⟨run_step s, by rw [hstep], by rw [hstep]; exact h, by rw [hstep], by rw [hstep, append_nil]⟩

theorem reads_start (h : s.manager.stream.Holds (keypacketStart :: q)) (hr : s.reader = .start) :
    Reads s s.step q (.body []) [] := by
  obtain ⟨hb, hpop, hcap⟩ := read_holds h
  have hstep : s.step = { s.popByte with reader := .body [] } := by
    rw [step, hr]
    exact if_neg (not_not.2 hb)
  exact ⟨run_step s, by rw [hstep], by rw [hstep]; exact hpop, by rw [hstep]; exact hcap,
    by rw [hstep, append_nil]; rfl⟩

theorem reads_byte (h : s.manager.stream.Holds q) (hr : s.reader = .body l) (hl : l.length + 1 < 5) :
    Reads s s.step q.tail (.body (l ++ [q.headD 0])) [] := by
  obtain ⟨hb, hpop, hcap⟩ := read_holds h
  have hstep : s.step = { s.popByte with reader := .body (l ++ [q.headD 0]) } := by
    rw [step, hr]
    rw [hb]
    exact if_pos (by rw [length_append, length_singleton]; exact hl)
  exact ⟨run_step s, by rw [hstep], by rw [hstep]; exact hpop, by rw [hstep]; exact hcap,
    by rw [hstep, append_nil]; rfl⟩

theorem reads_lastByte (h : s.manager.stream.Holds q) (hr : s.reader = .body l) (hl : l.length + 1 = 5) :
    Reads s s.step q.tail .available [ofBody (l ++ [q.headD 0])] := by
  obtain ⟨hb, hpop, hcap⟩ := read_holds h
  have hstep : s.step = { s.popByte with
      reader := .available
      decoded := s.decoded ++ [ofBody (l ++ [q.headD 0])] } := by
    rw [step, hr]
    rw [hb]
    exact if_neg (by rw [length_append, length_singleton]; omega)
  exact ⟨run_step s, by rw [hstep], by rw [hstep]; exact hpop, by rw [hstep]; exact hcap, by rw [hstep]⟩

theorem reads_bytes (xs : List UInt8) : ∀ {s : KeySystem} {l : List UInt8}, s.manager.stream.Holds (xs ++ q)
    → s.reader = .body l → l.length + xs.length < 5 → ∃ t, Reads s t q (.body (l ++ xs)) [] := by
  induction xs with
  | nil =>
    intro s l h hr _
    rw [append_nil]
    exact ⟨s, ⟨[], .nil⟩, hr, h, rfl, (append_nil _).symm⟩
  | cons b xs ih =>
    intro s l h hr hl
    rw [length_cons] at hl
    have hfirst : Reads s s.step (xs ++ q) (.body (l ++ [b])) [] := reads_byte h hr (by omega)
    obtain ⟨t, ht⟩ := ih hfirst.holds hfirst.reader_eq (by rw [length_append, length_singleton]; omega)
    rw [append_assoc] at ht
    exact ⟨t, hfirst.trans ht⟩

theorem reads_rest (h : s.manager.stream.Holds (xs ++ q)) (hr : s.reader = .body l) (hl : l.length < 5)
    (hlen : l.length + xs.length = 5) : ∃ t, Reads s t q .available [ofBody (l ++ xs)] := by
  obtain ⟨ys, b, rfl⟩ : ∃ ys b, xs = ys ++ [b] := by
    rcases eq_nil_or_concat xs with rfl | ⟨ys, b, rfl⟩
    · rw [length_nil] at hlen
      omega
    · exact ⟨ys, b, concat_eq_append⟩
  rw [length_append, length_singleton] at hlen
  rw [append_assoc, singleton_append] at h
  obtain ⟨t, ht⟩ := reads_bytes ys h hr (by omega)
  have hlast := reads_lastByte ht.holds ht.reader_eq (by rw [length_append]; omega)
  rw [append_assoc] at hlast
  exact ⟨_, ht.trans hlast⟩

theorem reads_packets (more : List KeypressPacket) : ∀ {s : KeySystem}, s.manager.stream.Holds
    (more.flatMap bytes ++ q) → s.reader = .available → ∃ t, Reads s t q .available more := by
  induction more with
  | nil =>
    intro s h hr
    exact ⟨s, ⟨[], .nil⟩, hr, h, rfl, (append_nil _).symm⟩
  | cons p more ih =>
    intro s h hr
    rw [flatMap_cons, bytes, append_assoc, cons_append] at h
    have havail := reads_available h hr (cons_ne_nil _ _)
    have hstart := havail.trans (reads_start havail.holds havail.reader_eq)
    obtain ⟨t, ht⟩ := reads_rest hstart.holds hstart.reader_eq (by decide) rfl
    obtain ⟨u, hu⟩ := ih ht.holds ht.reader_eq
    rw [nil_append, ofBody_body] at ht
    exact ⟨u, hstart.trans (ht.trans hu)⟩

theorem reads_drain {tail : List UInt8} (h : s.manager.stream.Holds (q ++ tail))
    (hbytes : consumed s.reader ++ q = more.flatMap bytes) (hstart : s.reader = .start → q ≠ [])
    (hbody : ∀ l, s.reader = .body l → l.length < 5) : ∃ t, Reads s t tail .available more := by
  cases hr : s.reader with
  | available =>
    rw [hr] at hbytes
    rw [show q = more.flatMap bytes from hbytes] at h
    exact reads_packets more h hr
  | start =>
    rw [hr] at hbytes
    obtain _ | ⟨b, q⟩ := q
    · exact absurd rfl (hstart hr)
    obtain ⟨rfl, p, more', rfl, rfl⟩ := flatMap_bytes_eq_cons hbytes
    rw [cons_append, append_assoc] at h
    have hfirst := reads_start h hr
    obtain ⟨t, ht⟩ := reads_rest hfirst.holds hfirst.reader_eq (by decide) rfl
    obtain ⟨u, hu⟩ := reads_packets more' ht.holds ht.reader_eq
    rw [nil_append, ofBody_body] at ht
    exact ⟨u, hfirst.trans (ht.trans hu)⟩
  | body l =>
    have hl := hbody l hr
    rw [hr] at hbytes
    obtain ⟨-, p, more', rfl, hq⟩ := flatMap_bytes_eq_cons hbytes
    -- what was read is the beginning of the packet
    obtain ⟨xs, hxs⟩ : ∃ xs, p.body = l ++ xs := by
      have hle : l.length ≤ p.body.length := Nat.le_of_lt hl
      exact (prefix_of_prefix_length_le ⟨q, hq⟩ ⟨_, rfl⟩ hle).imp fun _ => Eq.symm
    rw [hxs, append_assoc] at hq
    obtain rfl := append_cancel_left hq
    rw [append_assoc] at h
    have hlen : l.length + xs.length = 5 := by
      rw [← length_append, ← hxs]
      rfl
    obtain ⟨t, ht⟩ := reads_rest h hr hl hlen
    obtain ⟨u, hu⟩ := reads_packets more' ht.holds ht.reader_eq
    rw [← hxs, ofBody_body] at ht
    exact ⟨u, ht.trans hu⟩

/-- Steps lead to a state in which a packet was decoded with flags that no event has. -/
def Spoils (s : KeySystem) : Prop :=
  ∃ events t p, Run Step s events t ∧ p ∈ t.decoded ∧ 256 ≤ p.flags.toNat

theorem Reads.spoils (h : Reads s t q r more) (ht : t.Spoils) : s.Spoils := by
  obtain ⟨events, hrun⟩ := h.run
  obtain ⟨events', u, p, hrun', hp⟩ := ht
  exact ⟨_, u, p, hrun.append hrun', hp⟩

theorem le_flags_ofBody (hi : 2 ≤ i) (hi' : i < 5) (h : l.getD i 0 ≠ 0) : 256 ≤ (ofBody l).flags.toNat := by
  have hpos : 0 < (l.getD i 0).toNat := by
    refine Nat.pos_of_ne_zero fun h0 => h ?_
    rw [← UInt8.toNat_inj]
    exact h0
  have h1 := (l.getD 1 0).toNat_lt
  have h2 := (l.getD 2 0).toNat_lt
  have h3 := (l.getD 3 0).toNat_lt
  have h4 := (l.getD 4 0).toNat_lt
  show 256 ≤ (UInt32.ofNat _).toNat
  rw [UInt32.toNat_ofNat', mod_eq_of_lt (by omega)]
  obtain rfl | rfl | rfl : i = 2 ∨ i = 3 ∨ i = 4 := by omega
  · omega
  · omega
  · omega

theorem reads_any (n : Nat) : ∀ {s : KeySystem} {q l : List UInt8}, s.manager.stream.Holds q → s.reader =
    .body l → l.length + (n + 1) = 5 → ∃ t q' xs, Reads s t q' .available [ofBody (l ++ xs)] := by
  induction n with
  | zero =>
    intro s q l h hr hl
    exact ⟨_, _, _, reads_lastByte h hr hl⟩
  | succ n ih =>
    intro s q l h hr hl
    have hfirst := reads_byte h hr (by omega)
    obtain ⟨t, q', xs, ht⟩ := ih hfirst.holds hfirst.reader_eq
      (by rw [length_append, length_singleton]; omega)
    rw [append_assoc] at ht
    exact ⟨t, q', _, hfirst.trans ht⟩

theorem spoils_of_head (h : s.manager.stream.Holds (b :: q)) (hr : s.reader = .body l)
    (hl : 2 ≤ l.length) (hl' : l.length < 5) (hb : b ≠ 0) : s.Spoils := by
  have hflags : ∀ xs, 256 ≤ (ofBody (l ++ b :: xs)).flags.toNat := by
    intro xs
    refine le_flags_ofBody hl hl' ?_
    simpa using hb
  rcases Nat.lt_or_ge (l.length + 1) 5 with hmore | hlast
  · have hfirst := reads_byte h hr hmore
    obtain ⟨t, q', xs, ht⟩ := reads_any (3 - l.length) hfirst.holds hfirst.reader_eq
      (by rw [length_append, length_singleton]; omega)
    rw [append_assoc] at ht
    obtain ⟨events, hrun⟩ := (hfirst.trans ht).run
    refine ⟨events, t, _, hrun, ?_, hflags xs⟩
    rw [(hfirst.trans ht).decoded]
    exact mem_append_right _ (mem_singleton.2 rfl)
  · have ht := reads_lastByte h hr (by omega)
    obtain ⟨events, hrun⟩ := ht.run
    refine ⟨events, _, _, hrun, ?_, hflags []⟩
    rw [ht.decoded]
    exact mem_append_right _ (mem_singleton.2 rfl)

theorem packetFlags_lt (m : KeyboardManager) (src : Keyboard) (pressed : Bool) :
    packetFlags m src pressed < 2 ^ 8 := by
  have hbit : ∀ (b : Bool), ∀ i < 8, flagBit b i < 2 ^ 8 := by decide
  exact or_lt_two_pow (or_lt_two_pow (or_lt_two_pow (or_lt_two_pow
    (or_lt_two_pow (or_lt_two_pow (or_lt_two_pow (hbit _ 0 (by decide))
      (hbit _ 1 (by decide))) (hbit _ 2 (by decide))) (hbit _ 3 (by decide))) (hbit _ 4 (by decide)))
      (hbit _ 5 (by decide))) (hbit _ 6 (by decide))) (hbit _ 7 (by decide))

theorem toNat_flags_packet (m : KeyboardManager) (src : Keyboard) (key : Nat) (pressed : Bool) :
    (m.packet src key pressed).flags.toNat < 256 := by
  have hlt := packetFlags_lt (m.toggle (keyOf src key) pressed) src pressed
  rw [packet]
  rw [UInt32.toNat_ofNat', mod_eq_of_lt (by omega)]
  exact hlt

/-- A keyboard without modifier keys. -/
def plainKeyboard : Keyboard := ⟨.ps2, false, false, false, false, false, false⟩

theorem bytes_packet_start (m : KeyboardManager) : ∃ b ≠ 0,
    (m.packet plainKeyboard 0xFF true).bytes = [keypacketStart, 0xFF, b, 0, 0, 0] := by
  have hflags : ∀ caps num : Bool, ofNat (UInt32.ofNat (1 ||| flagBit caps 1 ||| flagBit num 2)).toNat
      ≠ 0 ∧ (UInt32.ofNat (1 ||| flagBit caps 1 ||| flagBit num 2)).toNat < 256 := by decide
  have hpacket : m.packet plainKeyboard 0xFF true =
      ⟨0xFF, UInt32.ofNat (1 ||| flagBit m.capsLock 1 ||| flagBit m.numLock 2)⟩ := by
    have htoggle : m.toggle (keyOf plainKeyboard 0xFF) true = m := rfl
    have hoff : ∀ i, flagBit false i = 0 := fun _ => rfl
    have hon : flagBit true 0 = 1 := rfl
    rw [packet, htoggle]
    simp only [packetFlags, plainKeyboard, hoff, hon, or_zero]
    rfl
  obtain ⟨hne, hlt⟩ := hflags m.capsLock m.numLock
  refine ⟨_, hne, ?_⟩
  rw [hpacket, bytes, body]
  rw [div_eq_of_lt hlt, div_eq_of_lt (Nat.lt_trans hlt (by decide)),
    div_eq_of_lt (Nat.lt_trans hlt (by decide))]
  rfl

section
variable (h : s.manager.stream.Holds []) (hcap : 0 < s.manager.stream.capacity)
include h hcap

theorem reads_key
    (hr : s.reader = r) : ∃ t b c, b ≠ 0 ∧ s.manager.stream.capacity = c + 1 ∧
      Reads s t (keypacketStart :: [0xFF, b, 0, 0, 0].take c) r [] := by
  obtain ⟨b, hb, hbytes⟩ := bytes_packet_start s.manager
  obtain ⟨m, hexec, hholds, hcap'⟩ := exec_key h plainKeyboard 0xFF true
  obtain ⟨c, hc⟩ := exists_eq_succ_of_ne_zero (Nat.ne_of_gt hcap)
  rw [hbytes, hc] at hholds
  have hstep : Step s (.key plainKeyboard 0xFF true) (s.exec (.key plainKeyboard 0xFF true)) := rfl
  refine ⟨_, b, c, hb, hc, ⟨_, nil.snoc hstep⟩, ?_, ?_, ?_, ?_⟩
  · rw [hexec]
    exact hr
  · rw [hexec]
    exact hholds
  · rw [hexec]
    exact hcap'
  · rw [hexec, append_nil]

theorem spoils_of_two (hr : s.reader = .body l) (hl : 2 ≤ l.length) (hl' : l.length < 5) : s.Spoils := by
  obtain ⟨t, b, c, -, hc, ht⟩ := reads_key h hcap hr
  exact ht.spoils (spoils_of_head ht.holds ht.reader_eq hl hl' (by decide))

theorem spoils_of_one (hr : s.reader = .body l) (hl : l.length = 1) : s.Spoils := by
  obtain ⟨t, b, c, -, hc, ht⟩ := reads_key h hcap hr
  have hu : Reads t t.step (take c [0xFF, b, 0, 0, 0]) (.body (l ++ [keypacketStart])) [] :=
    reads_byte ht.holds ht.reader_eq (by omega)
  have hcapu := hu.capacity.trans ht.capacity
  have hlen : (l ++ [keypacketStart]).length = 2 := by
    rw [length_append, hl]
    rfl
  refine ht.spoils (hu.spoils ?_)
  cases c with
  | zero => exact spoils_of_two hu.holds (by omega) hu.reader_eq (by omega) (by omega)
  | succ c => exact spoils_of_head hu.holds hu.reader_eq (by omega) (by omega) (by decide)

theorem spoils_of_zero (hr : s.reader = .body []) : s.Spoils := by
  obtain ⟨t, b, c, hb, hc, ht⟩ := reads_key h hcap hr
  have hu : Reads t t.step (take c [0xFF, b, 0, 0, 0]) (.body [keypacketStart]) [] :=
    reads_byte ht.holds ht.reader_eq (by decide)
  have hcapu := hu.capacity.trans ht.capacity
  refine ht.spoils (hu.spoils ?_)
  cases c with
  | zero => exact spoils_of_one hu.holds (by omega) hu.reader_eq rfl
  | succ c =>
    have hv : Reads t.step t.step.step (take c [b, 0, 0, 0]) (.body [keypacketStart, 0xFF]) [] :=
      reads_byte hu.holds hu.reader_eq (by decide)
    refine hv.spoils ?_
    cases c with
    | zero =>
      refine spoils_of_two hv.holds ?_ hv.reader_eq (by decide) (by decide)
      rw [hv.capacity, hcapu]
      exact hcap
    | succ c => exact spoils_of_head hv.holds hv.reader_eq (by decide) (by decide) hb

theorem spoils_of_empty (hr : s.reader = .body l) (hl : l.length < 5) : s.Spoils := by
  rcases Nat.lt_or_ge l.length 2 with hlt | hge
  · rcases Nat.eq_zero_or_pos l.length with h0 | h1
    · rw [length_eq_zero_iff.1 h0] at hr
      exact spoils_of_zero h hcap hr
    · exact spoils_of_one h hcap hr (by omega)
  · exact spoils_of_two h hcap hr hge hl

end

theorem Framed.spoils (h : Framed s q accepted) {key : Nat} (hcut : ¬s.Fits (.key src key pressed)) :
    (s.exec (.key src key pressed)).Spoils := by
  obtain ⟨m, hexec, hholds, hcap⟩ := exec_key h.holds src key pressed
  obtain ⟨more, -, hbytes⟩ := h.rest
  have hcount := h.holds.count
  obtain ⟨hnotFull, hnoRoom⟩ := not_or.1 hcut
  have hle := h.holds.le
  obtain ⟨k, hk⟩ : ∃ k, s.manager.stream.capacity - q.length = k + 1 :=
    ⟨s.manager.stream.capacity - q.length - 1, by omega⟩
  rw [hk, KeypressPacket.bytes, take_succ_cons] at hholds
  rw [hexec]
  obtain ⟨t, ht⟩ := reads_drain (s := { s with
    manager := m, written := s.written ++ [s.manager.packet src key pressed] }) hholds hbytes h.start
    h.body
  have hstart := ht.trans (reads_available ht.holds ht.reader_eq (cons_ne_nil _ _))
  have hfirst := hstart.trans (reads_start hstart.holds hstart.reader_eq)
  have hlen : ((s.manager.packet src key pressed).body.take k).length < 5 :=
    Nat.lt_of_le_of_lt (length_take_le _ _) (by omega)
  have hrest := hfirst.holds
  rw [← append_nil (take k _)] at hrest
  obtain ⟨u, hu⟩ := reads_bytes _ hrest hfirst.reader_eq (by rw [length_nil, zero_add]; exact hlen)
  have hall := hfirst.trans hu
  refine hall.spoils (spoils_of_empty hall.holds ?_ hall.reader_eq hlen)
  have hcapacity := hall.capacity
  dsimp only at hcapacity
  omega

theorem flags_written (hrun : Run Step s events t)
    (hs : ∀ p ∈ s.written, p.flags.toNat < 256) : ∀ p ∈ t.written, p.flags.toNat < 256 := by
  refine hrun.invariant (I := fun s => ∀ p ∈ s.written, p.flags.toNat < 256) hs ?_
  rintro s e _ hs rfl
  cases e with
  | key src key pressed =>
    exact forall_mem_append.2 ⟨hs, forall_mem_singleton.2 (toNat_flags_packet _ _ _ _)⟩
  | read =>
    have hwritten : s.step.written = s.written := by
      unfold step
      split
      · split <;> rfl
      · split <;> rfl
      · dsimp only
        split <;> rfl
    intro p hp
    rw [exec, hwritten] at hp
    exact hs p hp

theorem run_exec (s : KeySystem) (events : List KeyEvent) : Run Step s events (events.foldl exec s) := by
  induction events generalizing s with
  | nil => exact nil
  | cons e events ih =>
    have hfirst : Run Step s [e] (s.exec e) := nil.snoc rfl
    exact hfirst.append (ih _)

end KeySystem

end HeisenKernel
