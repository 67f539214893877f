import HeisenKernel.KernelHeap.Blocks
import HeisenKernel.Lib.Linked

/-!
# Headers in raw memory

`Rep h l` relates the memory of a `KernelHeap` to a list of blocks: the header of every block is in
memory with its magic number, and the headers are linked both ways in the order of the list.
-/

namespace HeisenKernel

open Lib Function List Block KernelHeap

namespace KernelHeap

variable {h : KernelHeap} {x y v : Nat} {f g : Field}

/-- The 20 bytes of two headers do not overlap, unless the headers are the same. -/
def Apart (x y : Nat) : Prop :=
  x = y ∨ x + sizeofMemoryHeader ≤ y ∨ y + sizeofMemoryHeader ≤ x

theorem field_set (hs : Apart x y) : (h.set y g v).field x f = if x = y ∧ f = g then v else h.field x f := by
  have haddr : x + f.offset = y + g.offset ↔ x = y ∧ f = g := by
    cases f <;> cases g <;> simp only [Field.offset, Apart, sizeofMemoryHeader] at hs ⊢ <;>
      (constructor <;> simp) <;> omega
  simp only [set, store, field, update_apply, haddr]

@[simp] theorem set_startAddress : (h.set y g v).startAddress = h.startAddress := rfl
@[simp] theorem set_endAddress : (h.set y g v).endAddress = h.endAddress := rfl
@[simp] theorem set_firstHeader : (h.set y g v).firstHeader = h.firstHeader := rfl

/-- The header of `b` is in memory, apart from its links. -/
def HasHeader (h : KernelHeap) (b : Block) : Prop :=
  h.field b.addr .magic = memoryHeaderMagic ∧
    (h.field b.addr .allocated = 0 ↔ b.allocated = false) ∧ h.field b.addr .size = b.size

/-- The memory of `h` holds the headers of the blocks `l`, linked in this order. -/
structure Rep (h : KernelHeap) (l : List Block) : Prop where
  linked : Linked (h.field · .next) (h.field · .prev) 0 (l.map addr) 0
  headers : ∀ b ∈ l, h.HasHeader b

variable {l1 l2 : List Block} {a b c n : Block}

theorem Apart.symm (h : Apart x y) : Apart y x := by
  rcases h with h | h | h
  · exact .inl h.symm
  · exact .inr (.inr h)
  · exact .inr (.inl h)

theorem apart_of_spaced (hs : Spaced l) (ha : a ∈ l) (hb : b ∈ l) : Apart a.addr b.addr := by
  have hsymm : Std.Symm fun a b : Block => Apart a.addr b.addr := ⟨fun _ _ h => h.symm⟩
  have hp : l.Pairwise fun a b => Apart a.addr b.addr := hs.1.imp fun h => .inr (.inl h)
  exact hp.forall_of_forall (fun _ _ => .inl rfl) ha hb

theorem field_set_of_lt (hxy : x + sizeofMemoryHeader ≤ y) :
    (h.set y g v).field x f = h.field x f ∧ (h.set x g v).field y f = h.field y f := by
  have hne : x ≠ y := by simp only [sizeofMemoryHeader] at hxy; omega
  rw [field_set (.inr (.inl hxy)), field_set (.inr (.inr hxy))]
  simp [hne, hne.symm]

section
variable (hr : Rep h (l1 ++ b :: l2))
include hr

theorem Rep.setData (hs : Spaced (l1 ++ b :: l2)) (hf : f ≠ .next ∧ f ≠ .prev) (haddr : c.addr = b.addr)
    (hc : (h.set b.addr f v).HasHeader c) : Rep (h.set b.addr f v) (l1 ++ c :: l2) := by
  obtain ⟨hlt, hgt⟩ := hs.split
  have hmap : (l1 ++ c :: l2).map addr = (l1 ++ b :: l2).map addr := by simp [haddr]
  constructor
  · rw [hmap]
    refine hr.linked.congr (forall_mem_map.2 fun d hd => ?_)
    have hap := apart_of_spaced hs hd (b := b) (by simp)
    rw [field_set hap, field_set hap]
    simp [hf.1.symm, hf.2.symm]
  · intro d hd
    rcases mem_append.1 hd with hd | hd
    · have := hr.headers d (by simp [hd])
      simpa only [HasHeader, (field_set_of_lt (hlt d hd)).1] using this
    · rcases mem_cons.1 hd with rfl | hd
      · exact hc
      · have := hr.headers d (by simp [hd])
        simpa only [HasHeader, (field_set_of_lt (hgt d hd)).2] using this

theorem Rep.setSize (hs : Spaced (l1 ++ b :: l2)) :
    Rep (h.set b.addr .size v) (l1 ++ { b with size := v } :: l2) := by
  refine hr.setData hs (by decide) rfl ?_
  have hb := hr.headers b (by simp)
  simpa [HasHeader, field_set (.inl rfl)] using ⟨hb.1, hb.2.1⟩

theorem Rep.setAllocated (hs : Spaced (l1 ++ b :: l2)) :
    Rep (h.set b.addr .allocated v) (l1 ++ { b with allocated := v ≠ 0 } :: l2) := by
  refine hr.setData hs (by decide) rfl ?_
  have hb := hr.headers b (by simp)
  simpa [HasHeader, field_set (.inl rfl)] using ⟨hb.1, hb.2.2⟩

theorem Rep.next_eq : h.field b.addr .next = (l2.map addr).headD 0 :=
  hr.linked.at_map.1

theorem Rep.prev_eq : h.field b.addr .prev = (l1.map addr).getLastD 0 :=
  hr.linked.at_map.2

end

/-- `block->next` is set to `next`, and the link back from there to `block`. -/
def link (h : KernelHeap) (block next : Nat) : KernelHeap :=
  let h := h.set block .next next
  if next ≠ 0 then h.set next .prev block else h

theorem field_link (hs : Spaced (a :: l2)) (hxa : Apart x a.addr)
    (hxl : ∀ y ∈ l2.head?, Apart x y.addr) :
    (h.link a.addr ((l2.map addr).headD 0)).field x f =
      if f = .next ∧ x = a.addr then (l2.map addr).headD 0
      else if f = .prev ∧ (l2.map addr).head? = some x then a.addr else h.field x f := by
  cases l2 with
  | nil => simp [link, field_set hxa, and_comm]
  | cons y l2 =>
    have hy : y.addr ≠ 0 := Nat.pos_iff_ne_zero.1 (hs.2 y (by simp))
    have hxy := hxl y (by simp)
    simp only [link, map_cons, headD_cons, ne_eq, hy, not_false_eq_true, if_true,
      field_set hxy, field_set hxa, head?_cons, Option.some_inj]
    cases f <;> simp [eq_comm]

theorem Linked.link {p p' : Nat} (hs : Spaced (l1 ++ a :: l2))
    (h₁ : Linked (h.field · .next) (h.field · .prev) p (l1.map addr) a.addr)
    (ha : h.field a.addr .prev = (l1.map addr).getLastD p)
    (h₂ : Linked (h.field · .next) (h.field · .prev) p' (l2.map addr) 0) :
    Linked ((h.link a.addr ((l2.map addr).headD 0)).field · .next)
      ((h.link a.addr ((l2.map addr).headD 0)).field · .prev) p ((l1 ++ a :: l2).map addr) 0 := by
  have hsa : Spaced (a :: l2) := ⟨(pairwise_append.1 hs.1).2.1, (forall_mem_append.1 hs.2).2⟩
  have hfield : ∀ d ∈ l1 ++ a :: l2, ∀ f,
      (h.link a.addr ((l2.map addr).headD 0)).field d.addr f = _ := fun d hd f =>
    field_link hsa (apart_of_spaced hs hd (by simp)) fun y hy =>
      apart_of_spaced hs hd (mem_append_right _ (mem_cons_of_mem _ (mem_of_mem_head? hy)))
  have hnd : (l1.map addr ++ a.addr :: l2.map addr).Nodup := by
    have := hs.1.imp (S := fun a b => a.addr ≠ b.addr) fun h => by
      simp only [sizeofMemoryHeader] at h; omega
    rwa [← pairwise_map, map_append, map_cons] at this
  rw [map_append, map_cons]
  refine Linked.join hnd h₁ ha h₂ (fun y hy => ?_) fun y hy => ?_
  all_goals
    rw [← map_cons, ← map_append] at hy
    obtain ⟨d, hd, rfl⟩ := mem_map.1 hy
    simp only [hfield d hd, reduceCtorEq, true_and, false_and, if_false]

theorem HasHeader.link (hs : Spaced (a :: l2)) (hca : Apart c.addr a.addr)
    (hcl : ∀ y ∈ l2.head?, Apart c.addr y.addr) (hc : h.HasHeader c) :
    (h.link a.addr ((l2.map addr).headD 0)).HasHeader c := by
  simpa only [HasHeader, field_link hs hca hcl, reduceCtorEq, false_and, if_false] using hc

theorem Rep.unlink (hr : Rep h (l1 ++ a :: b :: l2)) (hs : Spaced (l1 ++ a :: b :: l2)) :
    Rep (h.link a.addr (h.field b.addr .next)) (l1 ++ a :: l2) := by
  have hb : h.field b.addr .next = (l2.map addr).headD 0 := Rep.next_eq (l1.append_cons a _ ▸ hr)
  have hs' : Spaced (l1 ++ a :: l2) := ⟨hs.1.sublist (by simp), fun x hx => hs.2 x (by simp at hx ⊢; tauto)⟩
  have hl := hr.linked
  rw [map_append, map_cons, linked_append, map_cons] at hl
  rw [hb]
  refine ⟨Linked.link hs' hl.1 hl.2.1 hl.2.2.2.2.2, fun c hc => ?_⟩
  have hsa : Spaced (a :: l2) := ⟨(pairwise_append.1 hs'.1).2.1, (forall_mem_append.1 hs'.2).2⟩
  refine (hr.headers c (by simp at hc ⊢; tauto)).link hsa (apart_of_spaced hs' hc (by simp)) fun y hy => ?_
  exact apart_of_spaced hs' hc (mem_append_right _ (mem_cons_of_mem _ (mem_of_mem_head? hy)))

theorem set_comm (hne : x + f.offset ≠ y + g.offset) : (h.set x f v).set y g w = (h.set y g w).set x f v := by
  simp only [set, store, update_comm hne]

theorem Rep.congr (hr : Rep h l) (hf : ∀ d ∈ l, ∀ f, h'.field d.addr f = h.field d.addr f) : Rep h' l := by
  refine ⟨hr.linked.congr (forall_mem_map.2 fun d hd => ?_), fun d hd => ?_⟩
  · exact ⟨hf d hd _, hf d hd _⟩
  · simpa only [HasHeader, hf d hd] using hr.headers d hd

theorem Rep.insert (hr : Rep h (l1 ++ b :: l2)) (hs : Spaced (l1 ++ b :: n :: l2)) (hn : h.HasHeader n) :
    Rep ((h.link n.addr (h.field b.addr .next)).link b.addr n.addr) (l1 ++ b :: n :: l2) := by
  have hb := hr.next_eq
  have hl := hr.linked
  rw [map_append, map_cons, linked_append] at hl
  have hsn : Spaced (n :: l2) := ⟨(pairwise_cons.1 (pairwise_append.1 hs.1).2.1).2,
    fun x hx => hs.2 x (by simp at hx ⊢; tauto)⟩
  have hsb : Spaced (b :: n :: l2) := ⟨(pairwise_append.1 hs.1).2.1,
    (forall_mem_append.1 hs.2).2⟩
  have hap : ∀ c ∈ l1 ++ b :: n :: l2, Apart c.addr n.addr ∧
      ∀ y ∈ l2.head?, Apart c.addr y.addr := fun c hc => ⟨apart_of_spaced hs hc (by simp), fun y hy =>
    apart_of_spaced hs hc (by simp [mem_of_mem_head? hy])⟩
  -- the headers up to `b` do not see the links between `n` and its successor
  have hfar : ∀ c ∈ l1 ++ [b], ∀ f,
      (h.link n.addr ((l2.map addr).headD 0)).field c.addr f = h.field c.addr f := by
    intro c hc f
    have hcm : c ∈ l1 ++ b :: n :: l2 := by simp at hc ⊢; tauto
    have hlt : ∀ y ∈ n :: l2, c.addr + sizeofMemoryHeader ≤ y.addr := fun y hy => by
      have hp := pairwise_append.1 hs.1
      rcases mem_append.1 hc with hc | hc
      · exact hp.2.2 c hc y (mem_cons_of_mem _ hy)
      · rw [mem_singleton.1 hc]; exact (pairwise_cons.1 hp.2.1).1 y hy
    rw [field_link hsn (hap c hcm).1 (hap c hcm).2]
    have h1 : ¬ (f = .next ∧ c.addr = n.addr) := fun e => by
      have := hlt n (by simp); simp only [sizeofMemoryHeader] at this; omega
    have h2 : ¬ (f = .prev ∧ (l2.map addr).head? = some c.addr) := fun e => by
      obtain ⟨y, hy, hyc⟩ : ∃ y ∈ l2, y.addr = c.addr := by
        have := mem_of_mem_head? (Option.mem_def.2 e.2)
        simpa using this
      have := hlt y (by simp [hy]); simp only [sizeofMemoryHeader] at this; omega
    rw [if_neg h1, if_neg h2]
  have hstage := @Linked.link h [] l2 n (h.field n.addr .prev) _ hsn trivial rfl hl.2.2.2
  rw [hb]
  refine ⟨Linked.link hs (hl.1.congr (forall_mem_map.2 fun d hd => ?_)) ?_ hstage, fun c hc => ?_⟩
  · exact ⟨hfar d (by simp [hd]) _, hfar d (by simp [hd]) _⟩
  · rw [hfar b (by simp)]; exact hl.2.1
  · have hc' : h.HasHeader c := by
      by_cases hcn : c = n
      · exact hcn ▸ hn
      · exact hr.headers c (by simp [hcn] at hc ⊢; tauto)
    exact (hc'.link hsn (hap c hc).1 (hap c hc).2).link hsb (apart_of_spaced hs hc (by simp))
      fun y hy => by simp only [head?_cons, Option.mem_some_iff] at hy; exact hy ▸ (hap c hc).1

end KernelHeap

end HeisenKernel
