import Mathlib.Data.List.Basic

/-!
# Doubly linked lists in a store

A store of nodes is given by two link functions, `next` and `prev`.
-/

namespace HeisenKernel.Lib

open Function List

variable {α : Type*} {next prev next' prev' : α → α} {p q x : α} {l r : List α}

/-- The nodes `l` are linked both ways, entered from `p` and left to `q`. -/
def Linked (next prev : α → α) : α → List α → α → Prop
  | _, [], _ => True
  | p, x :: r, q => prev x = p ∧ next x = r.headD q ∧ Linked next prev x r q

@[simp] theorem linked_nil : Linked next prev p [] q := trivial

theorem linked_cons :
    Linked next prev p (x :: r) q ↔ prev x = p ∧ next x = r.headD q ∧ Linked next prev x r q :=
  Iff.rfl

theorem Linked.congr (h : Linked next prev p l q)
    (hl : ∀ x ∈ l, next' x = next x ∧ prev' x = prev x) : Linked next' prev' p l q := by
  induction l generalizing p with
  | nil => trivial
  | cons x r ih =>
    obtain ⟨hp, hn, hr⟩ := h
    obtain ⟨hn', hp'⟩ := hl x (by simp)
    exact ⟨hp'.trans hp, hn'.trans hn, ih hr fun y hy => hl y (by simp [hy])⟩

theorem linked_append :
    Linked next prev p (l ++ x :: r) q ↔
      Linked next prev p l x ∧ Linked next prev (l.getLastD p) (x :: r) q := by
  induction l generalizing p with
  | nil => simp
  | cons y l ih =>
    have hd : (l ++ x :: r).headD q = l.headD x := by cases l <;> rfl
    rw [cons_append, linked_cons, hd, ih, linked_cons, getLastD_cons]
    constructor
    · rintro ⟨h1, h2, h3, h4⟩; exact ⟨⟨h1, h2, h3⟩, h4⟩
    · rintro ⟨⟨h1, h2, h3⟩, h4⟩; exact ⟨h1, h2, h3, h4⟩

theorem Linked.at_map {f : β → α} {l r : List β} (h : Linked next prev p ((l ++ b :: r).map f) q) :
    next (f b) = (r.map f).headD q ∧ prev (f b) = (l.map f).getLastD p := by
  rw [map_append, map_cons, linked_append] at h
  exact ⟨h.2.2.1, h.2.1⟩

/-- What holds of the empty list, and of a node in front of what its link leads to, holds of the list. -/
theorem Linked.follow {H : α → List α → Prop} (h : Linked next prev p l q) (hnil : H q [])
    (hcons : ∀ x ∈ l, ∀ r, H (next x) r → H x (x :: r)) : H (l.headD q) l := by
  induction l generalizing p with
  | nil => exact hnil
  | cons x r ih =>
    refine hcons x mem_cons_self r ?_
    rw [h.2.1]
    exact ih h.2.2 (forall_mem_cons.1 hcons).2

theorem Linked.join [DecidableEq α] (hnd : (l ++ x :: r).Nodup)
    (hl : Linked next prev p l x) (hx : prev x = l.getLastD p) (hr : Linked next prev p' r q)
    (hnext : ∀ y ∈ l ++ x :: r, next' y = if y = x then r.headD q else next y)
    (hprev : ∀ y ∈ l ++ x :: r, prev' y = if r.head? = some y then x else prev y) :
    Linked next' prev' p (l ++ x :: r) q := by
  rw [nodup_append, nodup_cons] at hnd
  obtain ⟨-, ⟨hxr, hnr⟩, hdis⟩ := hnd
  have hmem : ∀ y, r.head? = some y → y ∈ r := fun y => mem_of_mem_head?
  rw [linked_append]
  refine ⟨hl.congr fun y hy => ?_, ?_, ?_, ?_⟩
  · have hyx : y ≠ x := fun e => hdis y hy x (by simp) e
    have hyr : r.head? ≠ some y := fun e => hdis y hy y (by simp [hmem y e]) rfl
    rw [hnext y (by simp [hy]), hprev y (by simp [hy]), if_neg hyx, if_neg hyr]
    exact ⟨rfl, rfl⟩
  · have hxh : r.head? ≠ some x := fun e => hxr (hmem x e)
    rw [hprev x (by simp), if_neg hxh, hx]
  · rw [hnext x (by simp), if_pos rfl]
  · cases r with
    | nil => trivial
    | cons y r =>
      obtain ⟨-, hyn, hrr⟩ := hr
      rw [nodup_cons] at hnr
      have hyx : y ≠ x := fun e => hxr (by simp [e])
      refine ⟨by rw [hprev y (by simp)]; simp, by rw [hnext y (by simp), if_neg hyx, hyn], ?_⟩
      refine hrr.congr fun z hz => ?_
      have hzx : z ≠ x := fun e => hxr (by simp [← e, hz])
      have hzy : (y :: r).head? ≠ some z := fun e => by
        rw [head?_cons, Option.some_inj] at e
        exact hnr.1 (e ▸ hz)
      rw [hnext z (by simp [hz]), hprev z (by simp [hz]), if_neg hzx, if_neg hzy]
      exact ⟨rfl, rfl⟩

theorem Linked.remove [DecidableEq α] {n : α} (h : Linked next prev p (l ++ x :: n :: r) q)
    (hnd : (l ++ x :: n :: r).Nodup)
    (hnext : ∀ y ∈ l ++ x :: r, next' y = if y = x then r.headD q else next y)
    (hprev : ∀ y ∈ l ++ x :: r, prev' y = if r.head? = some y then x else prev y) :
    Linked next' prev' p (l ++ x :: r) q := by
  obtain ⟨hl, hx, -, -, -, hr⟩ := linked_append.1 h
  exact Linked.join (hnd.sublist (by simp)) hl hx hr hnext hprev

theorem Linked.insert [DecidableEq α] {n : α} (h : Linked next prev p (l ++ x :: r) q)
    (hnd : (l ++ x :: n :: r).Nodup)
    (hnext : ∀ y ∈ l ++ x :: n :: r,
      next' y = if y = x then n else if y = n then r.headD q else next y)
    (hprev : ∀ y ∈ l ++ x :: n :: r, prev' y = if y = n then x else if r.head? = some y then n else prev y) :
    Linked next' prev' p (l ++ x :: n :: r) q := by
  obtain ⟨hl, hx, -, hr⟩ := linked_append.1 h
  have hnd' : ((l ++ [x]) ++ n :: r).Nodup := by simpa using hnd
  obtain ⟨hlx, hnr, hdis⟩ := nodup_append.1 hnd'
  obtain ⟨-, -, hxl⟩ := nodup_append.1 hlx
  have hxn : x ≠ n := hdis x (by simp) n (by simp)
  -- first `x` is linked to `n` alone, then `n` to the rest of the list
  have hfront : Linked (update next x n) (update prev n x) p (l ++ [x]) n := by
    rw [linked_append]
    refine ⟨hl.congr fun y hy => ?_, ?_, ?_, trivial⟩
    · have hyx : y ≠ x := hxl y hy x (by simp)
      have hyn : y ≠ n := hdis y (by simp [hy]) n (by simp)
      rw [update_of_ne hyx, update_of_ne hyn]
      exact ⟨rfl, rfl⟩
    · rw [update_of_ne hxn, hx]
    · exact update_self ..
  have hback : Linked (update next x n) (update prev n x) x r q := by
    refine hr.congr fun y hy => ?_
    have hyx : y ≠ x := fun e => hdis x (by simp) y (by simp [hy]) e.symm
    have hyn : y ≠ n := fun e => (nodup_cons.1 hnr).1 (e ▸ hy)
    rw [update_of_ne hyx, update_of_ne hyn]
    exact ⟨rfl, rfl⟩
  suffices hjoin : Linked next' prev' p ((l ++ [x]) ++ n :: r) q by simpa using hjoin
  refine Linked.join hnd' hfront (by rw [update_self]; simp) hback (fun y hy => ?_) fun y hy => ?_
  · rw [hnext y (by simpa using hy), update_apply]
    by_cases hyx : y = x
    · rw [if_pos hyx, if_neg (hyx ▸ hxn), if_pos hyx]
    · rw [if_neg hyx, if_neg hyx]
  · rw [hprev y (by simpa using hy), update_apply]
    by_cases hyn : y = n
    · have hhead : r.head? ≠ some y := fun e =>
        (nodup_cons.1 hnr).1 (hyn ▸ mem_of_mem_head? e)
      rw [if_pos hyn, if_neg hhead, if_pos hyn]
    · rw [if_neg hyn, if_neg hyn]

end HeisenKernel.Lib
