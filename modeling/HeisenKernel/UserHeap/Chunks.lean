import HeisenKernel.UserHeap
import HeisenKernel.Lib.Adjacent
import HeisenKernel.Lib.Linked
import HeisenKernel.VirtualMemory.Pages

/-!
# The chunks of the user heap

What the heap is for is said by a list of `Chunk`s that follow each other without overlap between
the start and the end of the heap (`Placed`). A chunk can be split, take in its successor, and grow
at the end of the list.
-/

namespace HeisenKernel

open Lib List HeaderField

/-- A chunk of the user heap: the address of its header, its payload size and whether it is in use. -/
structure Chunk where
  addr : Nat
  size : Nat
  allocated : Bool
deriving Repr, DecidableEq

namespace Chunk

/-- First address behind the chunk. -/
def stop (c : Chunk) : Nat := c.addr + sizeofUserHeader + c.size

/-- First address of the payload. -/
def ptr (c : Chunk) : Nat := c.addr + sizeofUserHeader

/-- The chunk takes in the one behind it. -/
def absorb (a b : Chunk) : Chunk := { a with size := a.size + (b.size + sizeofUserHeader) }

@[simp] theorem absorb_addr (a b : Chunk) : (a.absorb b).addr = a.addr := rfl
/-- The chunk satisfies a request of `size` bytes. -/
def Fits (size : Nat) (c : Chunk) : Bool := !c.allocated && decide (size < c.size)

theorem fits_iff {size : Nat} : Fits size c = true ↔ c.allocated = false ∧ size < c.size := by
  simp [Fits]

/-- The chunk with `size` of its bytes handed out. A rest that can hold a header becomes a chunk, and
belongs to the chunk handed out otherwise. -/
def carve (c : Chunk) (size : Nat) : List Chunk :=
  if size + sizeofUserHeader ≤ c.size then
    [⟨c.addr, size, true⟩, ⟨c.addr + sizeofUserHeader + size, c.size - size - sizeofUserHeader, false⟩]
  else [⟨c.addr, c.size, true⟩]

end Chunk

namespace UserHeap

/-- The chunks `l` lie in `[start, stop)`, in increasing order and without overlap, none of them at
address 0. -/
structure Placed (start stop : Nat) (l : List Chunk) : Prop where
  ordered : l.Pairwise fun a b => a.stop ≤ b.addr
  bounds : ∀ c ∈ l, start ≤ c.addr ∧ c.stop ≤ stop
  pos : ∀ c ∈ l, 0 < c.addr

variable {start stop stop' size : Nat} {l : List Chunk} {b c : Chunk}

theorem Placed.split (h : Placed start stop (l1 ++ b :: l2)) :
    (∀ c ∈ l1, c.stop ≤ b.addr) ∧ ∀ c ∈ l2, b.stop ≤ c.addr := by
  obtain ⟨-, h2, h1⟩ := pairwise_append.1 h.ordered
  exact ⟨fun c hc => h1 c hc b (by simp), (pairwise_cons.1 h2).1⟩

theorem Placed.outside (h : Placed start stop (l1 ++ b :: l2)) (hc : c ∈ l1 ++ l2) :
    c.stop ≤ b.addr ∨ b.stop ≤ c.addr := by
  rcases mem_append.1 hc with hc | hc
  · exact .inl (h.split.1 c hc)
  · exact .inr (h.split.2 c hc)

theorem placed_iff : Placed start stop l ↔ Spans Chunk.addr Chunk.stop (fun c => 0 < c.addr) start stop l :=
  ⟨fun h => ⟨h.1, h.2, h.3⟩, fun h => ⟨h.1, h.2, h.3⟩⟩

theorem Placed.splice (h : Placed start stop (l1 ++ (m ++ l2))) (ha : a ∈ m) (hb : b ∈ m)
    (hnew : Placed a.addr b.stop new) : Placed start stop (l1 ++ (new ++ l2)) :=
  placed_iff.2 ((placed_iff.1 h).replace ha hb (placed_iff.1 hnew))

theorem Placed.replace (h : Placed start stop (l1 ++ b :: l2))
    (h0 : Placed b.addr b.stop l0) : Placed start stop (l1 ++ l0 ++ l2) := by
  rw [append_assoc]
  exact h.splice (m := [b]) mem_cons_self mem_cons_self h0

theorem Placed.singleton (h : start ≤ c.addr ∧ c.stop ≤ stop) (hpos : 0 < c.addr) : Placed start stop [c] :=
  ⟨pairwise_singleton _ _, by simpa using h, by simpa using hpos⟩

theorem Placed.parts (hpos : 0 < c.addr) (hfit : size + sizeofUserHeader ≤ c.size) (u v : Bool) :
    Placed c.addr c.stop [⟨c.addr, size, u⟩,
      ⟨c.addr + sizeofUserHeader + size, c.size - size - sizeofUserHeader, v⟩] := by
  refine ⟨?_, ?_, ?_⟩
  · simp [Chunk.stop]
  · simp only [mem_cons, not_mem_nil, or_false, forall_eq_or_imp, forall_eq, Chunk.stop]
    omega
  · simp only [mem_cons, not_mem_nil, or_false, forall_eq_or_imp, forall_eq]
    omega

theorem Placed.carve (hpos : 0 < c.addr) (size : Nat) : Placed c.addr c.stop (c.carve size) := by
  unfold Chunk.carve
  split
  · next hfit => exact .parts hpos hfit true false
  · exact .singleton ⟨le_rfl, le_rfl⟩ hpos

theorem Placed.absorb (h : Placed start stop (l1 ++ a :: b :: l2)) :
    Placed start stop (l1 ++ a.absorb b :: l2) := by
  have hab : a.stop ≤ b.addr := h.split.2 b (by simp)
  refine h.splice (m := [a, b]) mem_cons_self (mem_cons_of_mem _ mem_cons_self)
    (.singleton (c := a.absorb b) ⟨le_rfl, ?_⟩ (h.pos a (by simp)))
  simp only [Chunk.absorb, Chunk.stop] at hab ⊢
  omega

theorem Placed.grow (h : Placed start stop (l ++ [b])) (hle : stop ≤ stop')
    (hc : c.addr = b.addr) (hstop : c.stop ≤ stop') : Placed start stop' (l ++ [c]) := by
  obtain ⟨ho1, -, ho12⟩ := pairwise_append.1 h.ordered
  refine ⟨?_, ?_, ?_⟩
  · refine pairwise_append.2 ⟨ho1, pairwise_singleton _ _, fun x hx y hy => ?_⟩
    rw [mem_singleton.1 hy, hc]
    exact ho12 x hx b (by simp)
  · obtain ⟨hl, hb⟩ := forall_mem_append.1 h.bounds
    refine forall_mem_append.2 ⟨fun x hx => ⟨(hl x hx).1, (hl x hx).2.trans hle⟩, ?_⟩
    exact forall_mem_singleton.2 ⟨hc ▸ (forall_mem_singleton.1 hb).1, hstop⟩
  · obtain ⟨hl, hb⟩ := forall_mem_append.1 h.pos
    exact forall_mem_append.2 ⟨hl, forall_mem_singleton.2 (by rw [hc]; exact hb b mem_cons_self)⟩

theorem Placed.disjoint (h : Placed start stop l) (ha : a ∈ l) (hb : b ∈ l) (hne : a ≠ b) :
    a.stop ≤ b.addr ∨ b.stop ≤ a.addr :=
  (placed_iff.1 h).disjoint ha hb hne

theorem Placed.nodup (h : Placed start stop l) : (l.map Chunk.addr).Nodup := by
  rw [List.Nodup, pairwise_map]
  refine h.ordered.imp fun {a b} hab => ?_
  simp only [Chunk.stop, sizeofUserHeader] at hab
  omega

variable {h : UserHeap} {x y v : Nat} {f g : HeaderField}

/-- The 13 bytes of two headers do not overlap, unless the headers are the same. -/
def Apart (x y : Nat) : Prop := x = y ∨ x + sizeofUserHeader ≤ y ∨ y + sizeofUserHeader ≤ x

theorem field_lt (h : UserHeap) (x : Nat) (f : HeaderField) : h.field x f < f.bound := by
  cases f with
  | allocated => exact (h.mem _).toNat_lt
  | next => exact word32_lt _ _
  | prev => exact word32_lt _ _
  | size => exact word32_lt _ _

theorem field_set (hs : Apart x y) :
    (h.set y g v).field x f = if x = y ∧ f = g then v % g.bound else h.field x f := by
  by_cases he : x = y ∧ f = g
  · rw [if_pos he, he.1, he.2]
    cases g with
    | allocated =>
      simp only [field, set, putByte_self, UInt8.toNat_ofNat']
      rfl
    | next => simp only [field, set, word32_putWord32, bound]
    | prev => simp only [field, set, word32_putWord32, bound]
    | size => simp only [field, set, word32_putWord32, bound]
  · rw [if_neg he]
    simp only [Apart, sizeofUserHeader] at hs
    -- the bytes of two different fields do not meet
    cases f <;> cases g <;> simp only [reduceCtorEq, and_false, and_true] at he <;>
      simp only [field, set, offset]
    all_goals first
      | exact word32_putWord32_ne (by omega)
      | exact word32_putByte_ne (by omega)
      | rw [putWord32_ne (by omega)]
      | rw [putByte_ne (by omega)]

@[simp] theorem set_startAddress : (h.set y g v).startAddress = h.startAddress := rfl
@[simp] theorem set_endAddress : (h.set y g v).endAddress = h.endAddress := rfl
@[simp] theorem set_firstHeader : (h.set y g v).firstHeader = h.firstHeader := rfl

theorem Apart.refl (x : Nat) : Apart x x := .inl rfl

/-- The header of `c` is in memory, apart from its links. -/
def HasHeader (h : UserHeap) (c : Chunk) : Prop :=
  (h.field c.addr .allocated = 0 ↔ c.allocated = false) ∧ h.field c.addr .size = c.size

/-- The memory of `h` holds the headers of the chunks `l`, linked in this order. -/
structure Rep (h : UserHeap) (l : List Chunk) : Prop where
  linked : Linked (h.field · .next) (h.field · .prev) 0 (l.map Chunk.addr) 0
  headers : ∀ c ∈ l, h.HasHeader c

variable {l1 l2 : List Chunk}

theorem Placed.apart (hl : Placed start stop l) (ha : a ∈ l) (hb : b ∈ l) : Apart a.addr b.addr := by
  by_cases hne : a = b
  · exact .inl (by rw [hne])
  · have := hl.disjoint ha hb hne
    simp only [Chunk.stop] at this
    exact .inr (by omega)

theorem Rep.next_eq (hr : Rep h (l1 ++ b :: l2)) : h.field b.addr .next = (l2.map Chunk.addr).headD 0 :=
  hr.linked.at_map.1

theorem Rep.prev_eq (hr : Rep h (l1 ++ b :: l2)) : h.field b.addr .prev = (l1.map Chunk.addr).getLastD 0 :=
  hr.linked.at_map.2

theorem Rep.next_mem (hr : Rep h (l1 ++ b :: l2)) (hne : h.field b.addr .next ≠ 0) :
    ∃ c ∈ l2, c.addr = h.field b.addr .next := by
  rw [hr.next_eq] at hne ⊢
  cases l2 with
  | nil => exact absurd rfl hne
  | cons c l2 => exact ⟨c, by simp, rfl⟩

theorem head?_eq_some_iff (hpos : ∀ c ∈ l, 0 < c.addr) :
    (l.map Chunk.addr).head? = some y ↔ (l.map Chunk.addr).headD 0 ≠ 0 ∧ y = (l.map Chunk.addr).headD 0 := by
  cases l with
  | nil => simp
  | cons c l =>
    have hne : c.addr ≠ 0 := (hpos c (by simp)).ne'
    simp [hne, eq_comm]

theorem Rep.setData (hr : Rep h (l1 ++ b :: l2)) (hl : Placed start stop (l1 ++ b :: l2))
    (hf : f ≠ .next ∧ f ≠ .prev) (haddr : c.addr = b.addr)
    (hc : (h.set b.addr f v).HasHeader c) : Rep (h.set b.addr f v) (l1 ++ c :: l2) := by
  have hmap : (l1 ++ c :: l2).map Chunk.addr = (l1 ++ b :: l2).map Chunk.addr := by simp [haddr]
  have hother : ∀ d ∈ l1 ++ l2, (h.set b.addr f v).HasHeader d := by
    intro d hd
    have hmem : d ∈ l1 ++ b :: l2 := by
      simp only [mem_append, mem_cons] at hd ⊢
      tauto
    have hne : d.addr ≠ b.addr := by
      have := hl.outside hd
      simp only [Chunk.stop, sizeofUserHeader] at this
      omega
    have := hr.headers d hmem
    simpa only [HasHeader, field_set (hl.apart hmem (b := b) (by simp)), hne, false_and, if_false] using this
  constructor
  · rw [hmap]
    refine hr.linked.congr (forall_mem_map.2 fun d hd => ?_)
    have hap := hl.apart hd (b := b) (by simp)
    simp only [field_set hap, hf.1.symm, hf.2.symm, and_false, if_false, and_self]
  · intro d hd
    simp only [mem_append, mem_cons] at hd
    rcases hd with hd | rfl | hd
    · exact hother d (by simp [hd])
    · exact hc
    · exact hother d (by simp [hd])

/-- `if(n != 0) n->prev = p`. -/
def setPrev (h : UserHeap) (n p : Nat) : UserHeap := if n ≠ 0 then h.set n .prev p else h

theorem field_setPrev (hap : n ≠ 0 → Apart y n) (hp : p < 2 ^ 32) :
    (h.setPrev n p).field y f = if (n ≠ 0 ∧ y = n) ∧ f = .prev then p else h.field y f := by
  unfold setPrev
  by_cases hn : n = 0
  · simp only [hn, ne_eq, not_true_eq_false, false_and, if_false]
  · simp only [ne_eq, hn, not_false_eq_true, if_true, true_and]
    rw [field_set (hap hn)]
    split
    · exact Nat.mod_eq_of_lt hp
    · rfl

theorem split_eq {x t size : Nat} (ht : u32 (x + sizeofUserHeader + size) = t)
    (hap : Apart x t) (hne : x ≠ t) :
    h.split x size = (((((((h.set t .allocated 0).set t .size
      (sub32 (sub32 (h.field x .size) size) sizeofUserHeader)).set t .prev x).set t .next
      (h.field x .next)).setPrev (h.field x .next) t).set x .size size).set x .next t) := by
  have hmod : h.field x .next % next.bound = h.field x .next := Nat.mod_eq_of_lt (field_lt h x .next)
  simp only [split, ht, setPrev, field_set hap, field_set (Apart.refl t), hne, false_and, if_false,
    and_self, if_true, hmod]

/-- The header at `y` after the one at `x` was split, with the new header at `t`. -/
def splitField (h : UserHeap) (x t size y : Nat) : HeaderField → Nat
  | .next => if y = x then t else if y = t then h.field x .next else h.field y .next
  | .prev =>
    if h.field x .next ≠ 0 ∧ y = h.field x .next then t
    else if y = t then x else h.field y .prev
  | .allocated => if y = t then 0 else h.field y .allocated
  | .size =>
    if y = x then size
    else if y = t then h.field x .size - size - sizeofUserHeader else h.field y .size

theorem field_split {x t size y : Nat} (hx : x < 2 ^ 32) (ht : x + sizeofUserHeader + size = t)
    (htop : t < 2 ^ 32) (hsize : size + sizeofUserHeader ≤ h.field x .size) (hyx : Apart y x)
    (hyt : Apart y t) (hyn : h.field x .next ≠ 0 → Apart y (h.field x .next)) : (h.split x size).field y f =
    h.splitField x t size y f := by
  have hne : x ≠ t := by
    simp only [sizeofUserHeader] at ht
    omega
  have hap : Apart x t := .inr (.inl (by omega))
  have hsz := field_lt h x .size
  have hnext : h.field x .next < 2 ^ 32 := field_lt h x .next
  simp only [bound] at hsz
  have hrest : sub32 (sub32 (h.field x .size) size) sizeofUserHeader
      = h.field x .size - size - sizeofUserHeader := by
    simp only [sub32, sizeofUserHeader] at hsize ⊢
    omega
  have hrest' : h.field x .size - size - sizeofUserHeader < 2 ^ 32 := by omega
  have hsize' : size < 2 ^ 32 := by omega
  have htu : u32 (x + sizeofUserHeader + size) = t := by rw [ht, u32_eq htop]
  rw [split_eq htu hap hne, hrest]
  cases f <;>
    simp only [splitField, field_set hyx, field_set hyt, field_setPrev hyn htop, bound,
      reduceCtorEq, and_true, and_false, if_false, Nat.mod_eq_of_lt, htop, hx, hnext, hrest',
      hsize', Nat.zero_mod]

theorem Rep.split {size : Nat} (hr : Rep h (l1 ++ b :: l2)) (hstop : stop < 2 ^ 32)
    (hl : Placed start stop (l1 ++ b :: l2)) (hsize : size + sizeofUserHeader ≤ b.size) :
    Rep (h.split b.addr size) (l1 ++ ⟨b.addr, size, b.allocated⟩ ::
      ⟨b.addr + sizeofUserHeader + size, b.size - size - sizeofUserHeader, false⟩ :: l2) := by
  have hb := hl.bounds b (by simp)
  have hpos : 0 < b.addr := hl.pos b (by simp)
  have hbstop : b.stop < 2 ^ 32 := hb.2.trans_lt hstop
  have hrep := (hr.headers b (by simp)).2
  have hnew := hl.replace (Placed.parts hpos hsize b.allocated false)
  rw [append_assoc, cons_append, cons_append, nil_append] at hnew
  generalize ht : b.addr + sizeofUserHeader + size = t at hnew ⊢
  have htop : t < 2 ^ 32 := by
    simp only [Chunk.stop] at hbstop
    omega
  have hnd := hnew.nodup
  rw [map_append, map_cons, map_cons] at hnd
  -- the headers that the split reads and writes are headers of the new list
  have hfield : ∀ d ∈ l1 ++ ⟨b.addr, size, b.allocated⟩ ::
      ⟨t, b.size - size - sizeofUserHeader, false⟩ :: l2, ∀ f, (h.split b.addr size).field d.addr f
        = h.splitField b.addr t size d.addr f := by
    intro d hd f
    have hdb : Apart d.addr b.addr := hnew.apart hd (b := ⟨b.addr, size, b.allocated⟩) (by simp)
    have hdt : Apart d.addr t := hnew.apart hd (b := ⟨t, b.size - size - sizeofUserHeader, false⟩) (by simp)
    refine field_split (by simp only [Chunk.stop] at hbstop; omega) ht htop (by omega) hdb hdt ?_
    intro hn
    obtain ⟨e, he, heq⟩ := hr.next_mem hn
    rw [← heq]
    exact hnew.apart hd (by simp [he])
  have hheadt : ∀ y, (l2.map Chunk.addr).head? = some y → y ≠ t := by
    rintro y hy rfl
    have := (nodup_cons.1 (nodup_cons.1 (nodup_append.1 hnd).2.1).2).1
    exact this (mem_of_mem_head? hy)
  have hpos2 : ∀ c ∈ l2, 0 < c.addr := fun c hc => hl.pos c (by simp [hc])
  constructor
  · have hmem : ∀ y ∈ l1.map Chunk.addr ++ b.addr :: t :: l2.map Chunk.addr,
        ∃ d ∈ l1 ++ ⟨b.addr, size, b.allocated⟩ ::
          ⟨t, b.size - size - sizeofUserHeader, false⟩ :: l2, d.addr = y := by
      intro y hy
      exact mem_map.1 (by simpa using hy)
    have hlinked := hr.linked
    rw [map_append, map_cons] at hlinked
    rw [map_append, map_cons, map_cons]
    refine hlinked.insert hnd (fun y hy => ?_) fun y hy => ?_
    · obtain ⟨d, hd, rfl⟩ := hmem y hy
      rw [hfield d hd, splitField, hr.next_eq]
    · obtain ⟨d, hd, rfl⟩ := hmem y hy
      rw [hfield d hd, splitField, hr.next_eq]
      simp only [← head?_eq_some_iff hpos2]
      by_cases hdt : d.addr = t
      · rw [if_neg fun e => hheadt _ e hdt, if_pos hdt, if_pos hdt]
      · rw [if_neg hdt, if_neg hdt]
  · intro d hd
    rw [HasHeader, hfield d hd, hfield d hd]
    simp only [splitField]
    have hother : d ∈ l1 ++ l2 → d.addr ≠ b.addr ∧ d.addr ≠ t := by
      intro hd
      have := hl.outside hd
      simp only [Chunk.stop, sizeofUserHeader] at this ht hsize
      omega
    have hbt : b.addr ≠ t := by
      simp only [sizeofUserHeader] at ht
      omega
    simp only [mem_append, mem_cons] at hd
    rcases hd with hd | rfl | rfl | hd
    · rw [if_neg (hother (by simp [hd])).2, if_neg (hother (by simp [hd])).1,
        if_neg (hother (by simp [hd])).2]
      exact hr.headers d (by simp [hd])
    · rw [if_neg hbt, if_pos rfl]
      exact ⟨(hr.headers b (by simp)).1, rfl⟩
    · rw [if_pos rfl, if_neg hbt.symm, if_pos rfl, hrep]
      exact ⟨by simp, rfl⟩
    · rw [if_neg (hother (by simp [hd])).2, if_neg (hother (by simp [hd])).1,
        if_neg (hother (by simp [hd])).2]
      exact hr.headers d (by simp [hd])

end UserHeap

end HeisenKernel
