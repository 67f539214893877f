import HeisenKernel.KernelHeap
import HeisenKernel.Lib.Adjacent

/-!
# The list of blocks behind the kernel heap

What the heap is for is said by a list of `Block`s.
-/

namespace HeisenKernel

open Lib List Option

/-- A block of the heap: the address of its header, its payload size and whether it is in use. -/
structure Block where
  addr : Nat
  size : Nat
  allocated : Bool
deriving Repr, DecidableEq

namespace Block

/-- First address behind the block. -/
def stop (b : Block) : Nat := b.addr + sizeofMemoryHeader + b.size

/-- First address of the payload, the pointer a client holds. -/
def ptr (b : Block) : Nat := b.addr + sizeofMemoryHeader

end Block

/-- The blocks `l` lie in `[start, stop)`, in increasing order and without overlap, at word
addresses that are not null. -/
structure Placed (start stop : Nat) (l : List Block) : Prop where
  ordered : l.Pairwise fun a b => a.stop ≤ b.addr
  bounds : ∀ b ∈ l, start ≤ b.addr ∧ b.stop ≤ stop
  aligned : ∀ b ∈ l, 0 < b.addr ∧ b.addr % 4 = 0 ∧ b.size % 4 = 0

/-- The blocks `l` are placed in `[start, stop)`, and no two neighbours are both free. -/
structure Layout (start stop : Nat) (l : List Block) : Prop extends Placed start stop l where
  coalesced : l.IsChain fun a b => a.allocated = true ∨ b.allocated = true

/-- The headers of `l` follow each other in memory without overlap, none of them at address 0. -/
def Spaced (l : List Block) : Prop :=
  l.Pairwise (fun a b => a.addr + sizeofMemoryHeader ≤ b.addr) ∧ ∀ b ∈ l, 0 < b.addr

/-- The free block `b` with `size` of its bytes handed out: what is left becomes a free block of
its own when it can hold a header and `minimalSplitSize` bytes, and is lost otherwise. -/
def Block.carve (b : Block) (size : Nat) : List Block :=
  if size + sizeofMemoryHeader + minimalSplitSize ≤ b.size then
    [⟨b.addr, size, true⟩, ⟨b.addr + size + sizeofMemoryHeader, b.size - size - sizeofMemoryHeader, false⟩]
  else [⟨b.addr, size, true⟩]

/-- `a` takes in the block `b` behind it. -/
def Block.absorb (a b : Block) : Block := { a with size := a.size + (b.size + sizeofMemoryHeader) }

/-- A free block at the end of `l₁` takes in the free block `b`. -/
def mergeBack (l₁ : List Block) (b : Block) : List Block × Block :=
  match l₁.getLast? with
  | some p => if p.allocated then (l₁, b) else (l₁.dropLast, p.absorb b)
  | none => (l₁, b)

/-- The free block `b` takes in a free block at the front of `l₂`. -/
def mergeFront (b : Block) : List Block → List Block
  | [] => [b]
  | n :: l₂ => if n.allocated then b :: n :: l₂ else b.absorb n :: l₂

/-- The blocks `l₁ ++ b :: l₂` with `b` released and merged with its free neighbours. -/
def release (l₁ : List Block) (b : Block) (l₂ : List Block) : List Block :=
  let (l₁', b') := mergeBack l₁ { b with allocated := false }
  l₁' ++ mergeFront b' l₂

variable {l₁ l₂ : List Block}

theorem Placed.spaced (hl : Placed start stop l) : Spaced l :=
  ⟨hl.ordered.imp fun h => by simp only [Block.stop] at h; omega, fun b hb => (hl.aligned b hb).1⟩

theorem Spaced.split (hs : Spaced (l₁ ++ b :: l₂)) :
    (∀ x ∈ l₁, x.addr + sizeofMemoryHeader ≤ b.addr) ∧ ∀ x ∈ l₂, b.addr + sizeofMemoryHeader ≤ x.addr := by
  have hp := pairwise_append.1 hs.1
  exact ⟨fun x hx => hp.2.2 x hx b (by simp), (pairwise_cons.1 hp.2.1).1⟩

/-- The neighbours of a place in the list are in use. -/
def Enclosed (l₁ l₂ : List Block) : Prop :=
  (∀ x ∈ l₁.getLast?, x.allocated = true) ∧ ∀ x ∈ l₂.head?, x.allocated = true

theorem placed_iff : Placed start stop l ↔
    Spans Block.addr Block.stop (fun b => 0 < b.addr ∧ b.addr % 4 = 0 ∧ b.size % 4 = 0) start stop l :=
  ⟨fun h => ⟨h.1, h.2, h.3⟩, fun h => ⟨h.1, h.2, h.3⟩⟩

theorem Placed.splice (h : Placed start stop (l₁ ++ (m ++ l₂))) (ha : a ∈ m) (hb : b ∈ m)
    (hnew : Placed a.addr b.stop new) : Placed start stop (l₁ ++ (new ++ l₂)) :=
  placed_iff.2 ((placed_iff.1 h).replace ha hb (placed_iff.1 hnew))

theorem Placed.singleton (h : start ≤ b.addr ∧ b.stop ≤ stop)
    (ha : 0 < b.addr ∧ b.addr % 4 = 0 ∧ b.size % 4 = 0) : Placed start stop [b] :=
  ⟨pairwise_singleton _ _, forall_mem_singleton.2 h, forall_mem_singleton.2 ha⟩

theorem Placed.replace (h : Placed start stop (l₁ ++ b :: l₂)) (haddr : c.addr = b.addr)
    (hstop : c.stop ≤ b.stop) (hsize : c.size % 4 = 0) : Placed start stop (l₁ ++ c :: l₂) := by
  have ha := h.aligned b (by simp)
  exact h.splice (m := [b]) mem_cons_self mem_cons_self (.singleton ⟨haddr.ge, hstop⟩ (by omega))

theorem Placed.absorb (h : Placed start stop (l₁ ++ a :: b :: l₂)) :
    Placed start stop (l₁ ++ a.absorb b :: l₂) := by
  have hab : a.stop ≤ b.addr := (pairwise_cons.1 (pairwise_append.1 h.ordered).2.1).1 b mem_cons_self
  have hA := h.aligned a (by simp)
  have hB := h.aligned b (by simp)
  refine h.splice (m := [a, b]) mem_cons_self (mem_cons_of_mem _ mem_cons_self)
    (.singleton (b := a.absorb b) ⟨le_rfl, ?_⟩ ?_)
  · simp only [Block.absorb, Block.stop] at hab ⊢
    omega
  · simp only [Block.absorb, sizeofMemoryHeader]
    omega

theorem Placed.mergeBack (h : Placed start stop (l₁ ++ b :: l₂)) :
    Placed start stop ((mergeBack l₁ b).1 ++ (mergeBack l₁ b).2 :: l₂) := by
  unfold HeisenKernel.mergeBack
  rcases eq_nil_or_concat l₁ with rfl | ⟨l0, p, rfl⟩
  · exact h
  · rw [concat_eq_append] at h ⊢
    simp only [getLast?_append, getLast?_singleton, some_or, dropLast_concat]
    split
    · exact h
    · exact Placed.absorb (by simpa using h)

theorem coalesced_replace (h1 : l₁.IsChain fun a b => a.allocated = true ∨ b.allocated = true)
    (h2 : l₂.IsChain fun a b => a.allocated = true ∨ b.allocated = true)
    (hc : c.allocated = true ∨ Enclosed l₁ l₂) : (l₁ ++ c :: l₂).IsChain fun a b => a.allocated =
    true ∨ b.allocated = true := by
  rw [isChain_append]
  refine ⟨h1, ?_, fun x hx y hy => ?_⟩
  · rw [isChain_cons]
    exact ⟨fun y hy => hc.imp_right fun he => he.2 y hy, h2⟩
  · simp only [head?_cons, mem_some_iff] at hy
    subst hy
    exact hc.symm.imp_left fun he => he.1 x hx

theorem Layout.replace (h : Layout start stop (l₁ ++ b :: l₂)) (haddr : c.addr = b.addr)
    (hstop : c.stop ≤ b.stop) (hsize : c.size % 4 = 0)
    (hc : c.allocated = true ∨ Enclosed l₁ l₂) : Layout start stop (l₁ ++ c :: l₂) := by
  have hf := isChain_append.1 h.coalesced
  exact ⟨h.toPlaced.replace haddr hstop hsize, coalesced_replace hf.1 (isChain_cons.1 hf.2.1).2 hc⟩

theorem Layout.absorb (h : Layout start stop (l₁ ++ a :: b :: l₂))
    (hc : a.allocated = true ∨ Enclosed l₁ l₂) : Layout start stop (l₁ ++ a.absorb b :: l₂) := by
  have hf := isChain_append.1 h.coalesced
  have hf2 := (isChain_cons.1 (isChain_cons.1 hf.2.1).2).2
  exact ⟨h.toPlaced.absorb, coalesced_replace hf.1 hf2 hc⟩

section
variable (h : Layout start stop (l₁ ++ b :: l₂))
include h

theorem Layout.carve (hb : b.allocated = false) {size : Nat} (hsize : size % 4 = 0)
    (hle : size ≤ b.size) : Layout start stop (l₁ ++ b.carve size ++ l₂) := by
  have hused : Layout start stop (l₁ ++ ⟨b.addr, size, true⟩ :: l₂) :=
    h.replace rfl (by simp only [Block.stop]; omega) hsize (.inl rfl)
  unfold Block.carve
  split
  · next hfit =>
    rw [append_assoc]
    have ha := h.aligned b (by simp)
    have hf := h.coalesced
    refine ⟨h.toPlaced.splice (m := [b]) mem_cons_self mem_cons_self ⟨?_, ?_, ?_⟩, ?_⟩
    · simp [Block.stop, Nat.add_right_comm]
    · simp only [sizeofMemoryHeader, minimalSplitSize, forall_mem_cons, Block.stop] at hfit ⊢
      refine ⟨by omega, by omega, forall_mem_nil _⟩
    · simp only [sizeofMemoryHeader, minimalSplitSize, forall_mem_cons] at hfit ⊢
      refine ⟨by omega, by omega, forall_mem_nil _⟩
    · rw [isChain_append] at hf ⊢
      refine ⟨hf.1, ?_, fun x _ y hy => .inr ?_⟩
      · simp only [cons_append, nil_append, isChain_cons]
        have hf2 := isChain_cons.1 hf.2.1
        refine ⟨fun y _ => .inl trivial, fun y hy => .inr ?_, hf2.2⟩
        exact (hf2.1 y hy).resolve_left (by simp [hb])
      · simp only [cons_append, head?_cons, mem_some_iff] at hy
        subst hy; rfl
  · rw [append_assoc]
    exact hused

theorem Layout.enclosed (hb : b.allocated = false) : Enclosed l₁ l₂ := by
  have hf := isChain_append.1 h.coalesced
  have hf2 := isChain_cons.1 hf.2.1
  exact ⟨fun x hx => (hf.2.2 x hx b (by simp)).resolve_right (by simp [hb]),
    fun y hy => (hf2.1 y hy).resolve_left (by simp [hb])⟩

theorem Layout.mergeFront (hb : b.allocated = true) (hl : ∀ x ∈ l₁.getLast?, x.allocated = true) :
    Layout start stop (l₁ ++ mergeFront { b with allocated := false } l₂) := by
  have hsz := fun c (hc : c ∈ l₁ ++ b :: l₂) => (h.aligned c hc).2.2
  cases l₂ with
  | nil => exact h.replace rfl (le_refl _) (hsz b (by simp)) (.inr ⟨hl, by simp⟩)
  | cons n l₂ =>
    simp only [HeisenKernel.mergeFront]
    split
    · next hn => exact h.replace rfl (le_refl _) (hsz b (by simp)) (.inr ⟨hl, by simpa using hn⟩)
    · next hn =>
      have hn' : n.allocated = false := by simpa using hn
      have hnx := (Layout.enclosed (l₁.append_cons b _ ▸ h) hn').2
      have hm := h.absorb (.inl hb)
      exact hm.replace rfl (le_refl _) (hm.aligned (b.absorb n) (by simp)).2.2 (.inr ⟨hl, hnx⟩)

theorem Layout.release (hb : b.allocated = true) : Layout start stop (release l₁ b l₂) := by
  unfold HeisenKernel.release mergeBack
  rcases eq_nil_or_concat l₁ with rfl | ⟨l0, p, rfl⟩
  · simpa using h.mergeFront hb (by simp)
  · rw [concat_eq_append] at h ⊢
    simp only [getLast?_append, getLast?_singleton, some_or, dropLast_concat]
    split
    · next hp => exact h.mergeFront hb (by simpa using hp)
    · next hp =>
      have hp' : p.allocated = false := by simpa using hp
      have h' : Layout start stop (l0 ++ p :: b :: l₂) := by simpa using h
      have hl := (h'.enclosed hp').1
      cases l₂ with
      | nil => exact h'.absorb (.inr ⟨hl, by simp⟩)
      | cons n l₂ =>
        simp only [HeisenKernel.mergeFront]
        split
        · next hn => exact h'.absorb (.inr ⟨hl, by simpa using hn⟩)
        · next hn =>
          -- the block takes in its successor while it still counts as used, then `p` takes in both
          have hn' : n.allocated = false := by simpa using hn
          have hpb : Layout start stop ((l0 ++ [p, b]) ++ n :: l₂) := by simpa using h'
          have hnx := (hpb.enclosed hn').2
          have hbn : Layout start stop (l0 ++ p :: b.absorb n :: l₂) := by
            simpa using h.absorb (.inl hb)
          have hall := hbn.absorb (.inr ⟨hl, hnx⟩)
          have he : p.absorb (b.absorb n) = (p.absorb { b with allocated := false }).absorb n := by
            simp only [Block.absorb, Block.mk.injEq, and_true, true_and]; omega
          rwa [he] at hall

end

theorem head_release :
    ((release l₁ b l₂).map Block.addr).headD 0 = ((l₁ ++ b :: l₂).map Block.addr).headD 0 := by
  have hfront : ∀ (c : Block) (l : List Block), ∃ d l', mergeFront c l = d :: l' ∧ d.addr = c.addr := by
    intro c l
    cases l with
    | nil => exact ⟨c, [], rfl, rfl⟩
    | cons n l =>
      simp only [HeisenKernel.mergeFront]
      split
      · exact ⟨_, _, rfl, rfl⟩
      · exact ⟨_, _, rfl, rfl⟩
  unfold HeisenKernel.release HeisenKernel.mergeBack
  rcases eq_nil_or_concat l₁ with rfl | ⟨l0, p, rfl⟩
  · obtain ⟨d, l', he, hd⟩ := hfront { b with allocated := false } l₂
    simp [he, hd]
  · rw [concat_eq_append]
    simp only [getLast?_append, getLast?_singleton, some_or, dropLast_concat]
    split
    · cases l0 <;> rfl
    · obtain ⟨d, l', he, hd⟩ := hfront (p.absorb { b with allocated := false }) l₂
      cases l0 with
      | nil =>
        rw [nil_append, he]
        exact hd
      | cons a l0 => rfl

theorem mem_release (hc : c.allocated = true) : c ∈ release l₁ b l₂ ↔ c ∈ l₁ ++ l₂ := by
  have hfront : ∀ (d : Block) (l : List Block), d.allocated = false → (c ∈ mergeFront d l ↔ c ∈ l) := by
    intro d l hd
    have hne : c ≠ d := fun e => by rw [e, hd] at hc; cases hc
    cases l with
    | nil => simp [HeisenKernel.mergeFront, hne]
    | cons n l =>
      simp only [HeisenKernel.mergeFront]
      split
      · simp [hne]
      · next hn =>
        have hcn : c ≠ n := fun e => by rw [e] at hc; exact hn hc
        have hcd : c ≠ d.absorb n := fun e => by
          rw [e, Block.absorb, hd] at hc; cases hc
        simp [hcn, hcd]
  unfold HeisenKernel.release HeisenKernel.mergeBack
  rcases eq_nil_or_concat l₁ with rfl | ⟨l0, p, rfl⟩
  · simp [hfront]
  · rw [concat_eq_append]
    simp only [getLast?_append, getLast?_singleton, some_or, dropLast_concat]
    split
    · simp [hfront]
    · next hp =>
      have hcp : c ≠ p := fun e => by rw [e] at hc; exact hp hc
      have hpf : (p.absorb { b with allocated := false }).allocated = false := by
        simpa [Block.absorb] using hp
      simp [hfront _ _ hpf, hcp]

end HeisenKernel
