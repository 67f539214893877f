import Mathlib.Data.List.Induction
import Mathlib.Data.List.Nodup

/-!
# Tail queues

The tail queues of `queue.h`: doubly linked lists in which the link back is the address of the
pointer to the element, and the head holds the address of the last pointer.
-/

namespace HeisenKernel.Lib.TailQueue

open Function List

/-- Where a pointer to an element is kept: `tqh_first` of a queue or `tqe_next` of an element. -/
inductive Place (Q ι : Type) where
  | head (q : Q)
  | elem (e : ι)
deriving DecidableEq

/-- The heads of the queues and the links of the elements. -/
structure Links (Q ι : Type) where
  first : Q → Option ι
  last : Q → Place Q ι
  next : ι → Option ι
  prev : ι → Place Q ι

namespace Links

variable {Q ι : Type} {s s' : Links Q ι} {p p' : Place Q ι} {q q' : Q} {e : ι} {l l' : List ι}

/-- The pointer at a place. -/
def get (s : Links Q ι) : Place Q ι → Option ι
  | .head q => s.first q
  | .elem e => s.next e

theorem get_congr {r : Links Q ι} (hfirst : r.first = s.first) (hnext : r.next = s.next) : r.get p = s.get p := by
  cases p with
  | head q => exact congrFun hfirst q
  | elem e => exact congrFun hnext e

/-- The elements `l` follow each other from the place `p` on. -/
def Seg (s : Links Q ι) : Place Q ι → List ι → Prop
  | _, [] => True
  | p, e :: l => s.get p = some e ∧ s.prev e = p ∧ Seg s (.elem e) l

/-- The place behind the elements of a segment. -/
def endPlace : Place Q ι → List ι → Place Q ι
  | p, [] => p
  | _, e :: l => endPlace (.elem e) l

theorem endPlace_append (p : Place Q ι) (l1 l2 : List ι) :
    endPlace p (l1 ++ l2) = endPlace (endPlace p l1) l2 := by
  induction l1 generalizing p with
  | nil => rfl
  | cons e l1 ih => exact ih (.elem e)

theorem endPlace_mem (p : Place Q ι) (l : List ι) : endPlace p l = p ∨ ∃ e ∈ l, endPlace p l = .elem e := by
  induction l generalizing p with
  | nil => exact .inl rfl
  | cons e l ih =>
    right
    rcases ih (.elem e) with h | ⟨e', he', h⟩
    · exact ⟨e, mem_cons_self, h⟩
    · exact ⟨e', mem_cons_of_mem e he', h⟩

theorem endPlace_cons_mem (p : Place Q ι) (e : ι) (l : List ι) :
    ∃ e' ∈ e :: l, endPlace p (e :: l) = .elem e' := by
  rcases endPlace_mem (Place.elem e) l with heq | ⟨e', he', heq⟩
  · exact ⟨e, mem_cons_self, heq⟩
  · exact ⟨e', mem_cons_of_mem e he', heq⟩

theorem elem_ne_endPlace (h : e ∉ l) : Place.elem e ≠ endPlace (.head q) l := by
  rcases endPlace_mem (.head q) l with heq | ⟨e', he', heq⟩
  · rw [heq]
    exact nofun
  · rw [heq]
    rintro ⟨⟩
    exact h he'

theorem ne_endPlace_of_ne (hq : q' ≠ q) (hdisjoint : ∀ a ∈ l, a ∉ l')
    (hp : p = .head q' ∨ ∃ a ∈ l', p = .elem a) : p ≠ endPlace (.head q) l := by
  rcases hp with rfl | ⟨a, ha, rfl⟩
  · rcases endPlace_mem (.head q) l with heq | ⟨b, hb, heq⟩
    · rw [heq]
      rintro ⟨⟩
      exact hq rfl
    · rw [heq]
      exact nofun
  · exact elem_ne_endPlace fun hal => hdisjoint a hal ha

theorem seg_append : s.Seg p (l1 ++ l2) ↔ s.Seg p l1 ∧ s.Seg (endPlace p l1) l2 := by
  induction l1 generalizing p with
  | nil => exact ⟨fun h => ⟨trivial, h⟩, fun h => h.2⟩
  | cons e l1 ih =>
    constructor
    · rintro ⟨hget, hprev, hseg⟩
      exact ⟨⟨hget, hprev, (ih.1 hseg).1⟩, (ih.1 hseg).2⟩
    · rintro ⟨⟨hget, hprev, hseg⟩, hrest⟩
      exact ⟨hget, hprev, ih.2 ⟨hseg, hrest⟩⟩

theorem Seg.congr (h : s.Seg p l)
    (hget : ∀ p', p' = p ∨ (∃ e ∈ l, p' = .elem e) → p' ≠ endPlace p l → s'.get p' = s.get p')
    (hprev : ∀ e ∈ l, s'.prev e = s.prev e) (hnodup : l.Nodup) (hp : ∀ e ∈ l, p ≠ .elem e) : s'.Seg p l := by
  induction l generalizing p with
  | nil => trivial
  | cons e l ih =>
    obtain ⟨hfirst, hback, hseg⟩ := h
    obtain ⟨hnotMem, hnodup⟩ := nodup_cons.1 hnodup
    have hend : p ≠ endPlace p (e :: l) := by
      obtain ⟨e', he', heq⟩ := endPlace_cons_mem p e l
      rw [heq]
      exact hp e' he'
    refine ⟨(hget p (.inl rfl) hend).trans hfirst, (hprev e mem_cons_self).trans hback, ?_⟩
    refine ih hseg (fun p' hp' hne => hget p' (.inr ?_) hne)
      (fun e' he' => hprev e' (mem_cons_of_mem e he')) hnodup fun e' he' heq => ?_
    · rcases hp' with rfl | ⟨e', he', rfl⟩
      · exact ⟨e, mem_cons_self, rfl⟩
      · exact ⟨e', mem_cons_of_mem e he', rfl⟩
    · obtain rfl := Place.elem.inj heq
      exact hnotMem he'

/-- The queue `q` is well formed and has the elements `l`. -/
structure Holds (s : Links Q ι) (q : Q) (l : List ι) : Prop where
  seg : s.Seg (.head q) l
  last : s.last q = endPlace (.head q) l
  ends : s.get (s.last q) = none
  nodup : l.Nodup

theorem Holds.get_endPlace (h : s.Holds q (l1 ++ l2)) : s.get (endPlace (.head q) l1) = l2.head? := by
  cases l2 with
  | nil =>
    have hends := h.ends
    rw [h.last, append_nil] at hends
    exact hends
  | cons e l2 => exact (seg_append.1 h.seg).2.1

theorem Holds.first (h : s.Holds q l) : s.first q = l.head? := by
  rw [← nil_append l] at h
  exact h.get_endPlace

theorem Holds.next (h : s.Holds q (l1 ++ e :: l2)) : s.next e = l2.head? := by
  rw [append_cons] at h
  have hget := h.get_endPlace
  rw [endPlace_append] at hget
  exact hget

theorem Holds.next_ne (h : s.Holds q (l1 ++ e :: l2)) : s.next e ≠ some e := by
  rw [h.next]
  intro hhead
  exact (nodup_cons.1 (nodup_append.1 h.nodup).2.1).1 (mem_of_mem_head? hhead)

theorem Holds.prev (h : s.Holds q (l1 ++ e :: l2)) : s.prev e = endPlace (.head q) l1 :=
  (seg_append.1 h.seg).2.2.1

theorem Holds.congr (h : s.Holds q l) (hget : ∀ p, p = .head q ∨ (∃ a ∈ l, p = .elem a) → s'.get p = s.get p)
    (hprev : ∀ a ∈ l, s'.prev a = s.prev a) (hlast : s'.last q = s.last q) : s'.Holds q l := by
  refine ⟨?_, hlast.trans h.last, ?_, h.nodup⟩
  · exact h.seg.congr (fun p hp _ => hget p hp) hprev h.nodup fun _ _ => nofun
  · rw [hlast, hget _ (by rw [h.last]; exact endPlace_mem _ _), h.ends]

theorem Holds.disjoint (h : s.Holds q l) (h' : s.Holds q' l') (hq : q ≠ q') (he : e ∈ l) : e ∉ l' := by
  intro he'
  obtain ⟨l1, l2, rfl⟩ := append_of_mem he
  obtain ⟨m1, m2, rfl⟩ := append_of_mem he'
  have hprev := h.prev.symm.trans h'.prev
  clear he he'
  induction l1 using List.reverseRecOn generalizing e l2 m1 m2 with
  | nil =>
    rcases eq_nil_or_concat' m1 with rfl | ⟨m, x, rfl⟩
    · exact hq (Place.head.inj hprev)
    · rw [endPlace_append] at hprev
      cases hprev
  | append_singleton l0 x ih =>
    rcases eq_nil_or_concat' m1 with rfl | ⟨m, y, rfl⟩
    · rw [endPlace_append] at hprev
      cases hprev
    · rw [endPlace_append, endPlace_append] at hprev
      obtain rfl : x = y := Place.elem.inj hprev
      rw [append_assoc] at h h'
      exact ih _ h _ _ h' (h.prev.symm.trans h'.prev)

/-- The first element that is accepted, in a loop over at most `fuel` elements from a pointer on. -/
def find (s : Links Q ι) (accept : ι → Bool) : Nat → Option ι → Option (Option ι)
  | _, none => some none
  | 0, some _ => none
  | fuel + 1, some e => if accept e then some (some e) else find s accept fuel (s.next e)

theorem Holds.find_eq (h : s.Holds q l) (accept : ι → Bool) (hfuel : l.length ≤ fuel) :
    s.find accept fuel (s.first q) = some (l.find? accept) := by
  have hmain : ∀ (l2 l1 : List ι) (fuel : Nat), s.Holds q (l1 ++ l2) → l2.length ≤ fuel →
      s.find accept fuel l2.head? = some (l2.find? accept) := by
    intro l2
    induction l2 with
    | nil =>
      intro l1 fuel _ _
      cases fuel <;> rfl
    | cons e l2 ih =>
      intro l1 fuel hholds hlen
      obtain _ | fuel := fuel
      · exact absurd hlen (Nat.not_succ_le_zero _)
      rw [head?_cons, find, find?_cons]
      cases haccept : accept e with
      | true => rfl
      | false =>
        rw [if_neg Bool.false_ne_true, hholds.next]
        refine ih (l1 ++ [e]) fuel ?_ (Nat.le_of_succ_le_succ hlen)
        rw [append_assoc]
        exact hholds
  rw [h.first]
  exact hmain l [] fuel h hfuel

variable [DecidableEq Q] [DecidableEq ι]

/-- The links after the pointer at a place was set. -/
def put (s : Links Q ι) (p : Place Q ι) (v : Option ι) : Links Q ι :=
  match p with
  | .head q => { s with first := update s.first q v }
  | .elem e => { s with next := update s.next e v }

/-- `TAILQ_INIT`. -/
def init (q : Q) (s : Links Q ι) : Links Q ι :=
  { s with
    first := update s.first q none
    last := update s.last q (.head q) }

/-- `TAILQ_INSERT_TAIL`. -/
def insertTail (q : Q) (e : ι) (s : Links Q ι) : Links Q ι :=
  let s := { s with next := update s.next e none, prev := update s.prev e (s.last q) }
  let s := s.put (s.last q) (some e)
  { s with last := update s.last q (.elem e) }

/-- `TAILQ_INSERT_HEAD`. -/
def insertHead (q : Q) (e : ι) (s : Links Q ι) : Links Q ι :=
  let s := { s with next := update s.next e (s.first q) }
  let s := match s.first q with
    | some f => { s with prev := update s.prev f (.elem e) }
    | none => { s with last := update s.last q (.elem e) }
  { s with
    first := update s.first q (some e)
    prev := update s.prev e (.head q) }

/-- `TAILQ_REMOVE`. -/
def remove (q : Q) (e : ι) (s : Links Q ι) : Links Q ι :=
  let s := match s.next e with
    | some n => { s with prev := update s.prev n (s.prev e) }
    | none => { s with last := update s.last q (s.prev e) }
  s.put (s.prev e) (s.next e)

variable {l1 l2 : List ι}

@[simp] theorem get_put (v : Option ι) : (s.put p v).get p' = if p' = p then v else s.get p' := by
  cases p <;> cases p' <;> simp [put, get, update_apply]

@[simp] theorem prev_put (v : Option ι) : (s.put p v).prev = s.prev := by
  cases p <;> rfl

@[simp] theorem last_put (v : Option ι) : (s.put p v).last = s.last := by
  cases p <;> rfl

/-! ### Inserting -/

theorem get_insertTail : (s.insertTail q e).get p =
    if p = s.last q then some e else if p = .elem e then none else s.get p := by
  have hget : (s.insertTail q e).get p = (({ s with
      next := update s.next e none
      prev := update s.prev e (s.last q) } : Links Q ι).put (s.last q) (some e)).get p :=
    get_congr rfl rfl
  rw [hget, get_put]
  split
  · rfl
  · cases p with
    | head q' => simp [get]
    | elem e' => simp [get, update_apply]

theorem prev_insertTail (e' : ι) : (s.insertTail q e).prev e' = if e' = e then s.last q else s.prev e' := by
  simp only [insertTail, prev_put]
  exact update_apply _ _ _ _

theorem last_insertTail (q' : Q) : (s.insertTail q e).last q' = if q' = q then .elem e else s.last q' := by
  simp only [insertTail, last_put]
  exact update_apply _ _ _ _

theorem Holds.insertTail (h : s.Holds q l) (he : e ∉ l) : (s.insertTail q e).Holds q (l ++ [e]) := by
  have hlast : Place.elem e ≠ s.last q := by
    rw [h.last]
    exact elem_ne_endPlace he
  have hseg : (s.insertTail q e).Seg (.head q) l := by
    refine h.seg.congr (fun p hp hne => ?_) (fun e' he' => ?_) h.nodup fun _ _ => nofun
    · rw [get_insertTail, if_neg (by rw [h.last]; exact hne), if_neg]
      rcases hp with rfl | ⟨e', he', rfl⟩
      · exact nofun
      · rintro ⟨⟩
        exact he he'
    · rw [prev_insertTail, if_neg]
      rintro rfl
      exact he he'
  refine ⟨seg_append.2 ⟨hseg, ?_, ?_, trivial⟩, ?_, ?_, ?_⟩
  · rw [get_insertTail, if_pos h.last.symm]
  · rw [prev_insertTail, if_pos rfl, h.last]
  · rw [last_insertTail, if_pos rfl, endPlace_append]
    rfl
  · rw [last_insertTail, if_pos rfl, get_insertTail, if_neg hlast, if_pos rfl]
  · exact nodup_append.2 ⟨h.nodup, nodup_singleton e, fun a ha b hb hab =>
      he (mem_singleton.1 hb ▸ hab ▸ ha)⟩

theorem Holds.insertTail_of_ne (h' : s.Holds q' l') (h : s.Holds q l) (hq : q' ≠ q) (he' : e ∉ l')
    (hdisjoint : ∀ a ∈ l, a ∉ l') : (s.insertTail q e).Holds q' l' := by
  refine h'.congr (fun p hp => ?_) (fun a ha => ?_) ?_
  · have hne : p ≠ .elem e := by
      rcases hp with rfl | ⟨a, ha, rfl⟩
      · exact nofun
      · rintro ⟨⟩
        exact he' ha
    rw [get_insertTail, if_neg (by rw [h.last]; exact ne_endPlace_of_ne hq hdisjoint hp), if_neg hne]
  · rw [prev_insertTail, if_neg]
    rintro rfl
    exact he' ha
  · rw [last_insertTail, if_neg hq]

/-! ### Removing -/

theorem get_remove (h : s.next e ≠ some e) :
    (s.remove q e).get p = if p = s.prev e then s.next e else s.get p := by
  unfold remove
  cases hnext : s.next e with
  | none =>
    dsimp only
    rw [get_put, hnext]
    exact if_congr Iff.rfl rfl (get_congr rfl rfl)
  | some n =>
    have hne : e ≠ n := fun heq => h (hnext.trans (congrArg some heq.symm))
    dsimp only
    rw [get_put, update_of_ne hne, hnext]
    exact if_congr Iff.rfl rfl (get_congr rfl rfl)

theorem prev_remove (a : ι) : (s.remove q e).prev a = if s.next e = some a then s.prev e else s.prev a := by
  unfold remove
  rw [prev_put]
  cases hnext : s.next e with
  | none => rfl
  | some n =>
    dsimp only
    rw [update_apply]
    exact if_congr ⟨fun h => congrArg some h.symm, fun h => (Option.some.inj h).symm⟩ rfl rfl

theorem last_remove (q' : Q) :
    (s.remove q e).last q' = if q' = q ∧ s.next e = none then s.prev e else s.last q' := by
  unfold remove
  rw [last_put]
  cases hnext : s.next e with
  | none =>
    dsimp only
    rw [update_apply]
    exact if_congr (and_iff_left rfl).symm rfl rfl
  | some n => exact (if_neg fun h => nomatch h.2).symm

theorem Holds.remove (h : s.Holds q (l1 ++ e :: l2)) : (s.remove q e).Holds q (l1 ++ l2) := by
  obtain ⟨hseg1, hget, hprev, hseg2⟩ := seg_append.1 h.seg
  obtain ⟨hnodup1, hnodup2, hdisjoint⟩ := nodup_append.1 h.nodup
  obtain ⟨he, hnodup2⟩ := nodup_cons.1 hnodup2
  have hnotMem : ∀ a ∈ l2, a ∉ l1 := fun a ha hmem => hdisjoint a hmem a (mem_cons_of_mem e ha) rfl
  have hfront : (s.remove q e).Seg (.head q) l1 := by
    refine hseg1.congr (fun p _ hne => ?_) (fun a ha => ?_) hnodup1 fun _ _ => nofun
    · rw [get_remove h.next_ne, if_neg (by rw [h.prev]; exact hne)]
    · rw [prev_remove, if_neg]
      rw [h.next]
      exact fun hhead => hnotMem a (mem_of_mem_head? hhead) ha
  have hnodup : (l1 ++ l2).Nodup := h.nodup.sublist ((List.Sublist.refl l1).append (sublist_cons_self e l2))
  have hlastEq : (s.remove q e).last q = endPlace (.head q) (l1 ++ l2) := by
    rw [last_remove, h.next, h.prev, h.last]
    cases l2 with
    | nil => rw [if_pos ⟨rfl, rfl⟩, append_nil]
    | cons n l3 =>
      rw [if_neg fun hc => nomatch hc.2]
      exact (endPlace_append _ l1 (e :: n :: l3)).trans (endPlace_append _ l1 (n :: l3)).symm
  cases l2 with
  | nil =>
    rw [append_nil] at hlastEq ⊢
    refine ⟨hfront, hlastEq, ?_, hnodup1⟩
    rw [hlastEq, get_remove h.next_ne, if_pos h.prev.symm, h.next]
    rfl
  | cons n l3 =>
    have hplace : ∀ a ∈ n :: l3, Place.elem a ≠ s.prev e := by
      intro a ha
      rw [h.prev]
      exact elem_ne_endPlace (hnotMem a ha)
    obtain ⟨hn, hnodup3⟩ := nodup_cons.1 hnodup2
    refine ⟨seg_append.2 ⟨hfront, ?_, ?_, ?_⟩, hlastEq, ?_, hnodup⟩
    · rw [get_remove h.next_ne, if_pos h.prev.symm, h.next]
      rfl
    · rw [prev_remove, h.next, head?_cons, if_pos rfl, h.prev]
    · refine hseg2.2.2.congr (fun p hp _ => ?_) (fun a ha => ?_) hnodup3 fun a ha heq => ?_
      · rw [get_remove h.next_ne, if_neg]
        rcases hp with rfl | ⟨a, ha, rfl⟩
        · exact hplace n mem_cons_self
        · exact hplace a (mem_cons_of_mem n ha)
      · rw [prev_remove, h.next, if_neg]
        intro heq
        exact hn (Option.some.inj heq ▸ ha)
      · obtain rfl := Place.elem.inj heq
        exact hn ha
    · have hends := h.ends
      have hlast : (s.remove q e).last q = s.last q := by
        rw [last_remove, h.next, if_neg fun hc => nomatch hc.2]
      have hne : s.last q ≠ s.prev e := by
        rw [h.last, endPlace_append]
        obtain ⟨a, ha, heq⟩ := endPlace_cons_mem (Place.elem e) n l3
        exact fun hc => hplace a ha (heq.symm.trans hc)
      rw [hlast, get_remove h.next_ne, if_neg hne, hends]

theorem Holds.remove_of_ne (h' : s.Holds q' l') (h : s.Holds q (l1 ++ e :: l2)) (hq : q' ≠ q)
    (hdisjoint : ∀ a ∈ l1 ++ e :: l2, a ∉ l') : (s.remove q e).Holds q' l' := by
  refine h'.congr (fun p hp => ?_) (fun a ha => ?_) ?_
  · rw [get_remove h.next_ne, if_neg]
    rw [h.prev]
    exact ne_endPlace_of_ne hq (forall_mem_append.1 hdisjoint).1 hp
  · rw [prev_remove, if_neg]
    rw [h.next]
    intro hhead
    exact hdisjoint a (mem_append_right _ (mem_cons_of_mem e (mem_of_mem_head? hhead))) ha
  · rw [last_remove, if_neg fun hc => hq hc.1]

theorem Holds.move (h : s.Holds q (l1 ++ e :: l2)) (h' : s.Holds q' l') (hq : q' ≠ q)
    (hdisjoint : ∀ a ∈ l1 ++ e :: l2, a ∉ l') :
    ((s.remove q e).insertTail q' e).Holds q (l1 ++ l2) ∧
      ((s.remove q e).insertTail q' e).Holds q' (l' ++ [e]) := by
  have hremoved : (s.remove q e).Holds q' l' := h'.remove_of_ne h hq hdisjoint
  have hsub : ∀ a ∈ l1 ++ l2, a ∈ l1 ++ e :: l2 :=
    ((List.Sublist.refl l1).append (sublist_cons_self e l2)).subset
  constructor
  · refine h.remove.insertTail_of_ne hremoved hq.symm ?_ fun a ha ha' => hdisjoint a (hsub a ha') ha
    exact (nodup_cons.1 (nodup_middle.1 h.nodup)).1
  · exact hremoved.insertTail (hdisjoint e (mem_append_right _ mem_cons_self))

end Links

end HeisenKernel.Lib.TailQueue
