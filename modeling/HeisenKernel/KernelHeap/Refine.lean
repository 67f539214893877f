import HeisenKernel.KernelHeap.Rep
import Mathlib.Data.Nat.Bitwise

/-!
# The kernel heap refines the list of blocks

`malloc` and `free` on raw memory do to the represented list of blocks what `Block.carve` and
`release` say (`Inv.malloc`, `Inv.free`): the stores of the code, in its order, are stores of data
and links of the list, and no 32-bit sum in them wraps.
-/

namespace HeisenKernel

open Lib Function List KernelHeap

namespace KernelHeap

variable {h : KernelHeap} {size : Nat} {l l1 l2 : List Block} {b : Block}

theorem alignUp_four (n : Nat) : alignUp n 4 % 4 = 0 := by
  have h := Nat.and_mod_two_pow (a := u32 (n + (4 - 1))) (b := 2 ^ 32 - 1 - (4 - 1)) (n := 2)
  simpa [alignUp] using h

/-- The blocks that satisfy a request of `size` bytes. -/
def Fits (size : Nat) (b : Block) : Bool := !b.allocated && decide (size ≤ b.size)

theorem fits_iff : Fits size b = true ↔ b.allocated = false ∧ size ≤ b.size := by
  simp [Fits]

theorem firstFree_eq (hp : ∀ b ∈ l, 0 < b.addr) (hh : ∀ b ∈ l, h.HasHeader b)
    (hl : Linked (h.field · .next) (h.field · .prev) p (l.map Block.addr) 0)
    (hf : l.length < f) :
    h.firstFree size f ((l.map Block.addr).headD 0) =
      .ok (((l.find? (Fits size)).map Block.addr).getD 0) := by
  induction l generalizing p f with
  | nil =>
    cases f with
    | zero => simp at hf
    | succ fuel => simp [firstFree]
  | cons b l ih =>
    obtain _ | fuel := f
    · simp at hf
    obtain ⟨hm, ha, hs⟩ := hh b (by simp)
    have hb : b.addr ≠ 0 := Nat.pos_iff_ne_zero.1 (hp b (by simp))
    have hnext : h.field b.addr .next = (l.map Block.addr).headD 0 := hl.2.1
    have htail := ih (fun c hc => hp c (by simp [hc])) (fun c hc => hh c (by simp [hc])) hl.2.2
      (by simp at hf; omega)
    rw [← hnext] at htail
    simp only [firstFree, map_cons, headD_cons, ne_eq, hb, not_false_eq_true, hm,
      and_self, if_true, ha, hs, find?_cons, Fits]
    cases hba : b.allocated with
    | true => simpa using htail
    | false =>
      by_cases hsz : size ≤ b.size
      · simp [hsz]
      · simpa [hsz, Nat.lt_of_not_le hsz] using htail

theorem length_lt_of_placed (hl : Placed start stop l) (hstop : stop < 2 ^ 32) : l.length < 2 ^ 32 :=
  ((placed_iff.1 hl).length_le fun b => by simp only [Block.stop, sizeofMemoryHeader]; omega).trans_lt hstop

theorem split_eq {addr next : Nat} (hn : addr + size + 40 < 2 ^ 32)
    (hnext : h.field addr .next = next)
    (hlt : next = 0 ∨ addr + size + 40 ≤ next) :
    h.split addr size =
      ((((h.set (addr + size + 20) .allocated 0).set (addr + size + 20) .size
        (sub32 (sub32 (h.field addr .size) size) 20)).set (addr + size + 20) .magic
          memoryHeaderMagic).link (addr + size + 20) next).link addr (addr + size + 20) := by
  have hu : u32 (addr + size + 20) = addr + size + 20 := u32_eq (by omega)
  have hfar : ∀ (h : KernelHeap) g v f, (h.set (addr + size + 20) g v).field addr f =
      h.field addr f := fun h g v f =>
    (field_set_of_lt (by simp only [sizeofMemoryHeader]; omega)).1
  have hN : addr + size + 20 ≠ 0 := by omega
  simp only [split, hu, hfar, hnext, link, hN, ne_eq, not_false_eq_true, if_true, sizeofMemoryHeader]
  -- the two orders differ by stores to different words
  split
  · simp only [set, store, Field.offset, mk.injEq, and_true]
    funext x
    grind
  · simp only [set, store, Field.offset, mk.injEq, and_true]
    funext x
    simp only [update_apply]
    grind

/-- The invariant of the heap: its memory represents the blocks `l`, and these are laid out in its
address range. -/
structure Inv (h : KernelHeap) (l : List Block) : Prop where
  rep : Rep h l
  layout : Layout h.startAddress h.endAddress l
  below : h.endAddress < 2 ^ 32
  first : h.firstHeader = (l.map Block.addr).headD 0

theorem spaced_rest (hl : Placed start stop (l1 ++ b :: l2)) (rest : Nat)
    (hfit : size + 24 ≤ b.size) : Spaced (l1 ++ b :: ⟨b.addr + size + 20, rest, false⟩ :: l2) := by
  have hpos := (hl.aligned b (by simp)).1
  -- the header of the rest lies in the payload of `b`
  have hparts : Spans Block.addr Block.stop (fun b => 0 < b.addr) b.addr b.stop
      [⟨b.addr, size, true⟩, ⟨b.addr + size + 20, 0, false⟩] := by
    refine ⟨?_, ?_, ?_⟩
    · simp [Block.stop, sizeofMemoryHeader, Nat.add_right_comm]
    · simp only [forall_mem_cons, Block.stop, sizeofMemoryHeader]
      exact ⟨by omega, by omega, forall_mem_nil _⟩
    · simp only [forall_mem_cons]
      exact ⟨hpos, by omega, forall_mem_nil _⟩
  have hall : Spans Block.addr Block.stop (fun b => 0 < b.addr) start stop (l1 ++ ([b] ++ l2)) :=
    ⟨hl.ordered, hl.bounds, fun c hc => (hl.aligned c hc).1⟩
  have hnew := hall.replace mem_cons_self mem_cons_self hparts
  have hspaced : Spaced (l1 ++ ⟨b.addr, size, true⟩ :: ⟨b.addr + size + 20, 0, false⟩ :: l2) :=
    ⟨hnew.ordered.imp fun h => by simp only [Block.stop] at h; omega, hnew.each⟩
  simpa [Spaced, pairwise_append, or_imp, forall_and] using hspaced

theorem Rep.split (hr : Rep h (l1 ++ b :: l2)) (hl : Placed start stop (l1 ++ b :: l2))
    (hstop : stop < 2 ^ 32) (hfit : size + 24 ≤ b.size) :
    Rep (h.split b.addr size) (l1 ++ b :: ⟨b.addr + size + 20, b.size - size - 20, false⟩ :: l2) := by
  have hsp := spaced_rest hl (b.size - size - 20) hfit
  have hbb := (hl.bounds b (by simp)).2
  have hord := pairwise_append.1 hl.ordered
  have hob := pairwise_cons.1 hord.2.1
  simp only [Block.stop, sizeofMemoryHeader] at hbb
  have hsize := (hr.headers b (by simp)).2.2
  have hnext : h.field b.addr .next = 0 ∨ b.addr + size + 40 ≤ h.field b.addr .next := by
    rw [hr.next_eq]
    cases l2 with
    | nil => exact .inl rfl
    | cons y l2 =>
      have := hob.1 y (by simp)
      simp only [Block.stop, sizeofMemoryHeader] at this
      exact .inr (by simp only [map_cons, headD_cons]; omega)
  have hsub : sub32 (sub32 b.size size) 20 = b.size - size - 20 := by
    rw [sub32_eq (a := b.size) (by omega) (by omega), sub32_eq (by omega) (by omega)]
  rw [split_eq (by omega) rfl hnext, hsize, hsub]
  -- the new header lies in the payload of `b`, where the list has none
  have hfar : ∀ (h : KernelHeap) g v, ∀ d ∈ l1 ++ b :: l2, ∀ f,
      (h.set (b.addr + size + 20) g v).field d.addr f = h.field d.addr f := by
    intro h g v d hd f
    obtain ⟨hlo, hhi⟩ := Spaced.split (l1.append_cons b _ ▸ hsp)
    simp only [mem_append, mem_cons] at hd
    rcases hd with hd | rfl | hd
    · exact (field_set_of_lt (hlo d (by simp [hd]))).1
    · exact (field_set_of_lt (hlo d (by simp))).1
    · exact (field_set_of_lt (hhi d hd)).2
  have hdata : Rep (((h.set (b.addr + size + 20) .allocated 0).set (b.addr + size + 20) .size
      (b.size - size - 20)).set (b.addr + size + 20) .magic memoryHeaderMagic) (l1 ++ b :: l2) :=
    hr.congr fun d hd f => by rw [hfar _ _ _ d hd, hfar _ _ _ d hd, hfar _ _ _ d hd]
  have := hdata.insert hsp (by simp [HasHeader, field_set (.inl rfl)])
  rwa [hfar _ _ _ b (by simp), hfar _ _ _ b (by simp), hfar _ _ _ b (by simp)] at this

theorem spaced_setAllocated (hsp : Spaced (l1 ++ b :: l2)) (v : Bool) :
    Spaced (l1 ++ { b with allocated := v } :: l2) := by
  simpa [Spaced, pairwise_append, or_imp, forall_and] using hsp

theorem Rep.carve (hr : Rep h (l1 ++ b :: l2)) (hl : Placed start stop (l1 ++ b :: l2))
    (hstop : stop < 2 ^ 32) (hle : size ≤ b.size) :
    Rep ((((if h.field b.addr .size ≥ u32 (size + sizeofMemoryHeader + minimalSplitSize)
      then h.split b.addr size else h).set b.addr .allocated 1)).set b.addr .size size)
      (l1 ++ b.carve size ++ l2) := by
  have hbb := (hl.bounds b (by simp)).2
  have hba := hl.aligned b (by simp)
  have hu : u32 (size + sizeofMemoryHeader + minimalSplitSize) = size + 24 := u32_eq (by
    simp only [Block.stop, sizeofMemoryHeader, minimalSplitSize] at hbb ⊢; omega)
  rw [(hr.headers b (by simp)).2.2, hu]
  unfold Block.carve
  by_cases hfit : size + 24 ≤ b.size
  · have hsp := spaced_rest hl (b.size - size - 20) hfit
    have h1 := (hr.split hl hstop hfit).setAllocated hsp (v := 1)
    simpa [hfit, sizeofMemoryHeader, minimalSplitSize] using h1.setSize (spaced_setAllocated hsp _)
  · have hsp := hl.spaced
    have h1 := hr.setAllocated hsp (v := 1)
    simpa [hfit, sizeofMemoryHeader, minimalSplitSize] using h1.setSize (spaced_setAllocated hsp _)

@[simp] theorem split_startAddress : (h.split addr size).startAddress = h.startAddress := by
  simp only [split]; split <;> rfl

@[simp] theorem split_endAddress : (h.split addr size).endAddress = h.endAddress := by
  simp only [split]; split <;> rfl

@[simp] theorem split_firstHeader : (h.split addr size).firstHeader = h.firstHeader := by
  simp only [split]; split <;> rfl

theorem Inv.malloc (hi : Inv h l) (request : Nat) :
    h.malloc request = .error .panic ∨ ∃ l1 b l2 h', l = l1 ++ b :: l2 ∧ l.find? (Fits (alignUp request 4))
      = some b ∧ h.malloc request = .ok (b.ptr, h') ∧ Inv h' (l1 ++ b.carve (alignUp request 4) ++ l2) ∧
      h'.startAddress = h.startAddress ∧ h'.endAddress = h.endAddress := by
  have hff : h.firstFree (alignUp request 4) (2 ^ 32) h.firstHeader =
      .ok (((l.find? (Fits (alignUp request 4))).map Block.addr).getD 0) := by
    rw [hi.first]
    exact firstFree_eq hi.layout.spaced.2 hi.rep.headers hi.rep.linked
      (length_lt_of_placed hi.layout.toPlaced hi.below)
  unfold KernelHeap.malloc internalAllocate
  simp only [hff, bind, Except.bind]
  cases hfind : l.find? (Fits (alignUp request 4)) with
  | none => exact .inl (by simp)
  | some b =>
    obtain ⟨hfit, l1, l2, rfl, -⟩ := find?_eq_some_iff_append.1 hfind
    rw [fits_iff] at hfit
    have hpos := (hi.layout.aligned b (by simp)).1
    have hbb := (hi.layout.bounds b (by simp)).2
    have hlt := hi.below
    have hptr : u32 (b.addr + sizeofMemoryHeader) = b.ptr := u32_eq (by
      simp only [Block.stop] at hbb; omega)
    have hhead : ((l1 ++ b.carve (alignUp request 4) ++ l2).map Block.addr).headD 0 =
        ((l1 ++ b :: l2).map Block.addr).headD 0 := by
      cases l1 with
      | nil => unfold Block.carve; split <;> rfl
      | cons a l1 => rfl
    simp only [Option.map_some, Option.getD_some, Nat.pos_iff_ne_zero.1 hpos, if_false, hptr]
    refine .inr ⟨l1, b, l2, _, rfl, rfl, rfl,
      ⟨hi.rep.carve hi.layout.toPlaced hi.below hfit.2, ?_, ?_, ?_⟩, ?_, ?_⟩
    · have := hi.layout.carve hfit.1 (alignUp_four request) hfit.2
      split <;> simpa using this
    · split <;> simpa using hi.below
    · rw [hhead]
      split <;> simpa using hi.first
    · split <;> simp
    · split <;> simp

@[simp] theorem link_startAddress : (h.link x y).startAddress = h.startAddress := by
  simp only [link]; split <;> rfl

@[simp] theorem link_endAddress : (h.link x y).endAddress = h.endAddress := by
  simp only [link]; split <;> rfl

@[simp] theorem link_firstHeader : (h.link x y).firstHeader = h.firstHeader := by
  simp only [link]; split <;> rfl

theorem Rep.absorb (hr : Rep h (l1 ++ a :: b :: l2)) (hl : Placed start stop (l1 ++ a :: b :: l2))
    (hstop : stop < 2 ^ 32) :
    Rep ((h.set a.addr .size (u32 (a.size + (b.size + sizeofMemoryHeader)))).link a.addr
      (h.field b.addr .next)) (l1 ++ a.absorb b :: l2) := by
  have hs := hl.spaced
  have hab : a.stop ≤ b.addr := (pairwise_cons.1 (pairwise_append.1 hl.ordered).2.1).1 b (by simp)
  have hbb := (hl.bounds b (by simp)).2
  have hu : u32 (a.size + (b.size + sizeofMemoryHeader)) =
      a.size + (b.size + sizeofMemoryHeader) := u32_eq (by
    simp only [Block.stop, sizeofMemoryHeader] at hab hbb ⊢; omega)
  have h1 := hr.setSize hs (v := a.size + (b.size + sizeofMemoryHeader))
  have hs1 : Spaced (l1 ++ { a with size := a.size + (b.size + sizeofMemoryHeader) } :: b :: l2) := by
    simpa [Spaced, pairwise_append, or_imp, forall_and] using hs
  have hnext : (h.set a.addr .size (a.size + (b.size + sizeofMemoryHeader))).field b.addr .next =
      h.field b.addr .next := (field_set_of_lt (by simp only [Block.stop] at hab; omega)).2
  have h2 := h1.unlink hs1
  rw [hnext] at h2
  rw [hu]
  exact h2

theorem Rep.mergePrev (hr : Rep h (l1 ++ b :: l2)) (hl : Placed start stop (l1 ++ b :: l2))
    (hstop : stop < 2 ^ 32) :
    ∃ h', h.mergePrev b.addr = ((mergeBack l1 b).2.addr, h') ∧ Rep h'
      ((mergeBack l1 b).1 ++ (mergeBack l1 b).2 :: l2) ∧ h'.startAddress = h.startAddress ∧
      h'.endAddress = h.endAddress ∧ h'.firstHeader = h.firstHeader := by
  have hprev := hr.prev_eq
  have hnext := hr.next_eq
  rcases eq_nil_or_concat l1 with rfl | ⟨l0, p, rfl⟩
  · refine ⟨h, ?_, hr, rfl, rfl, rfl⟩
    simp [mergePrev, hprev, mergeBack]
  · rw [concat_eq_append] at hr hl hprev ⊢
    have hp0 : p.addr ≠ 0 := Nat.pos_iff_ne_zero.1 ((hl.spaced).2 p (by simp))
    have hpa := (hr.headers p (by simp)).2
    simp only [map_append, map_cons, map_nil, getLastD_concat] at hprev
    cases hall : p.allocated with
    | true =>
      have hne : h.field p.addr .allocated ≠ 0 := fun e => by simp [hpa.1.1 e] at hall
      refine ⟨h, ?_, ?_, rfl, rfl, rfl⟩
      · simp [mergePrev, hprev, hne, mergeBack, hall]
      · simpa [mergeBack, hall] using hr
    | false =>
      have hr' : Rep h (l0 ++ p :: b :: l2) := by simpa using hr
      have hl' : Placed start stop (l0 ++ p :: b :: l2) := by simpa using hl
      have hs := hl'.spaced
      have hpb : p.addr + sizeofMemoryHeader ≤ b.addr := hs.split.2 b (by simp)
      have hb := (hr.headers b (by simp)).2.2
      have habs := hr'.absorb hl' hstop
      have hmb : mergeBack (l0 ++ [p]) b = (l0, p.absorb b) := by simp [mergeBack, hall]
      rw [hmb]
      refine ⟨_, ?_, habs, by simp, by simp, by simp⟩
      -- the store of the size stands between the two link stores in the code
      have hcomm : (h.set p.addr .next (h.field b.addr .next)).set p.addr .size
          (u32 (p.size + (b.size + sizeofMemoryHeader))) =
          (h.set p.addr .size (u32 (p.size + (b.size + sizeofMemoryHeader)))).set p.addr .next
            (h.field b.addr .next) := set_comm (by simp [Field.offset])
      have hfb : ∀ (h : KernelHeap) g v f, (h.set p.addr g v).field b.addr f =
          h.field b.addr f := fun h g v f => (field_set_of_lt hpb).2
      have hfp : ∀ (h : KernelHeap) v, (h.set p.addr .next v).field p.addr .size =
          h.field p.addr .size := fun h v => by simp [field_set (.inl rfl)]
      have hba : ∀ (h' : KernelHeap), (if ¬ h.field b.addr .next = 0 then
          h'.set (h.field b.addr .next) .prev p.addr else h').field b.addr .prev =
          h'.field b.addr .prev := by
        intro h'
        split
        · next hne =>
          rw [hnext] at hne ⊢
          obtain _ | ⟨y, l2⟩ := l2
          · simp at hne
          have hby := Spaced.split (l0.append_cons p _ ▸ hs)
          exact (field_set_of_lt (hby.2 y (by simp))).1
        · rfl
      simp only [mergePrev, hprev, ne_eq, hp0, not_false_eq_true, hpa.1.2 hall,
        and_self, if_true, hfb, hfp, hpa.2, hb, hcomm]
      simp only [link, Block.absorb, Prod.mk.injEq]
      exact ⟨by rw [hba, hfb, hfb, hprev], trivial⟩

theorem Rep.mergeNext (hr : Rep h (l1 ++ b :: l2)) (hl : Placed start stop (l1 ++ b :: l2))
    (hstop : stop < 2 ^ 32) : Rep (h.mergeNext b.addr) (l1 ++ mergeFront b l2) ∧
      (h.mergeNext b.addr).startAddress = h.startAddress ∧ (h.mergeNext b.addr).endAddress =
      h.endAddress ∧ (h.mergeNext b.addr).firstHeader = h.firstHeader := by
  have hnext := hr.next_eq
  cases l2 with
  | nil =>
    have hm : h.mergeNext b.addr = h := by
      simp [mergeNext, hnext]
    rw [hm]
    exact ⟨hr, rfl, rfl, rfl⟩
  | cons n l2 =>
    have hs := hl.spaced
    have hn0 : n.addr ≠ 0 := Nat.pos_iff_ne_zero.1 (hs.2 n (by simp))
    have hna := (hr.headers n (by simp)).2
    have hbs := (hr.headers b (by simp)).2.2
    simp only [map_cons, headD_cons] at hnext
    cases hall : n.allocated with
    | true =>
      have hne : h.field n.addr .allocated ≠ 0 := fun e => by simp [hna.1.1 e] at hall
      have hm : h.mergeNext b.addr = h := by simp [mergeNext, hnext, hne]
      rw [hm]
      exact ⟨by simpa [mergeFront, hall] using hr, rfl, rfl, rfl⟩
    | false =>
      have hbn : b.addr + sizeofMemoryHeader ≤ n.addr := hs.split.2 n (by simp)
      have hm : h.mergeNext b.addr = (h.set b.addr .size (u32 (b.size + (n.size +
          sizeofMemoryHeader)))).link b.addr (h.field n.addr .next) := by
        simp [mergeNext, hnext, hn0, hna.1.2 hall, hbs, hna.2, link,
          field_set (.inl rfl), (field_set_of_lt hbn).2]
      rw [hm]
      refine ⟨?_, by simp, by simp, by simp⟩
      simpa [mergeFront, hall] using hr.absorb hl hstop

theorem Inv.free (hi : Inv h (l1 ++ b :: l2)) (hb : b.allocated = true) :
    ∃ h', h.free b.ptr = .ok h' ∧ Inv h' (release l1 b l2) ∧
      h'.startAddress = h.startAddress ∧ h'.endAddress = h.endAddress := by
  have hbb := (hi.layout.bounds b (by simp)).2
  have hbelow := hi.below
  obtain ⟨hm, ha, -⟩ := hi.rep.headers b (by simp)
  have haddr : sub32 b.ptr sizeofMemoryHeader = b.addr := by
    simp only [Block.stop, Block.ptr, sizeofMemoryHeader] at hbb ⊢
    rw [sub32_eq (by omega) (by omega)]; omega
  have hna : h.field b.addr .allocated ≠ 0 := fun e => by simp [ha.1 e] at hb
  have hr1 : Rep (h.set b.addr .allocated 0) (l1 ++ { b with allocated := false } :: l2) := by
    simpa using hi.rep.setAllocated hi.layout.spaced (v := 0)
  have hp1 : Placed h.startAddress h.endAddress (l1 ++ { b with allocated := false } :: l2) :=
    hi.layout.toPlaced.replace rfl (le_refl _) (hi.layout.aligned b (by simp)).2.2
  obtain ⟨h2, hm2, hr2, hs2, he2, hf2⟩ := hr1.mergePrev hp1 hbelow
  obtain ⟨hr3, hs3, he3, hf3⟩ := hr2.mergeNext hp1.mergeBack hbelow
  refine ⟨_, ?_, ⟨hr3, ?_, ?_, ?_⟩, ?_, ?_⟩
  · unfold KernelHeap.free
    rw [haddr, if_neg (by rintro (e | e); exacts [e hm, hna e])]
    simp only [hm2]
  · rw [hs3, he3, hs2, he2, set_startAddress, set_endAddress]; exact hi.layout.release hb
  · rw [he3, he2, set_endAddress]; exact hbelow
  · rw [hf3, hf2, set_firstHeader, hi.first]; exact head_release.symm
  · rw [hs3, hs2, set_startAddress]
  · rw [he3, he2, set_endAddress]

end KernelHeap

end HeisenKernel
