import Mathlib.Data.List.Rotate
import HeisenKernel.Tasking.Scheduler

/-!
# The order of task switches

The search for the next thread goes once round the scheduler's list, from the place behind the
current thread on: `turn` is the list in that order.
-/

namespace HeisenKernel

open Function List Kernel Except Prod

variable {α : Type} {l a b : List α} {c : α} {i : Nat}

/-- The next index of a loop that goes round a list. -/
def wrap (l : List α) (i : Nat) : Nat := if i ≥ l.length then 0 else i

theorem wrap_lt (hi : i < l.length) : wrap l j < l.length := by
  unfold wrap
  split <;> omega

theorem rotate_wrap (hi : i < l.length) (h : l.rotate i = x :: r) : l.rotate (wrap l (i + 1)) = r ++ [x] := by
  have hone : l.rotate (i + 1) = r ++ [x] := by
    rw [← rotate_rotate, h]
    simp
  unfold wrap
  split
  · next hend =>
    have hlen : i + 1 = l.length := by omega
    rw [← hone, hlen, rotate_length, rotate_zero]
  · exact hone

theorem rotate_behind : (a ++ c :: b).rotate (wrap (a ++ c :: b) (a.length + 1)) = b ++ a ++ [c] :=
  rotate_wrap (by simp) (rotate_append_length_eq a (c :: b))

theorem eq_of_isRotated (h : (x :: a).Nodup) (hr : (x :: a) ~r (x :: b)) : a = b := by
  obtain ⟨n, hn⟩ := hr
  have hpos : n % (x :: a).length < (x :: a).length := Nat.mod_lt _ (by simp)
  have hhead : (x :: a)[n % (x :: a).length]? = (x :: a)[0]? := by
    rw [← head?_rotate hpos, rotate_mod, hn]
    rfl
  have hzero : n % (x :: a).length = 0 := (getElem?_inj hpos h).1 hhead
  rw [← rotate_mod, hzero, rotate_zero] at hn
  exact (cons.inj hn).2

theorem getLast?_ne (h : (a ++ x :: b).Nodup) (hb : b ≠ []) : (a ++ x :: b).getLast? ≠ some x := by
  intro hlast
  obtain ⟨b, y, rfl⟩ := (eq_nil_or_concat b).resolve_left hb
  have hx := (nodup_cons.1 (nodup_append.1 h).2.1).1
  have hyx : y = x := by simpa [getLast?_append, getLast?_cons] using hlast
  simp [hyx] at hx

variable [DecidableEq α]

theorem filter_erase (h : l.Nodup) (hx : p x = false) : (l.erase x).filter p = l.filter p := by
  rw [h.erase_eq_filter, filter_filter]
  refine filter_congr fun y _ => ?_
  by_cases hy : y = x
  · simp [hy, hx]
  · simp [hy]

theorem removeElem_of_not_mem (h : x ∉ l) : removeElem x l = l := by
  induction l with
  | nil => rfl
  | cons y l ih =>
    rw [mem_cons, not_or] at h
    unfold removeElem
    rw [if_neg (Ne.symm h.1), ih h.2]

theorem removeElem_eq_erase (h : l.Nodup) : removeElem x l = l.erase x := by
  induction l with
  | nil => rfl
  | cons y l ih =>
    rw [nodup_cons] at h
    unfold removeElem
    split
    · next hy =>
      subst hy
      rw [erase_cons_head]
      cases l with
      | nil => rfl
      | cons z l =>
        rw [mem_cons, not_or] at h
        exact congrArg (z :: ·) (removeElem_of_not_mem h.1.2)
    · next hy =>
      rw [erase_cons_tail (by simpa using hy), ih h.2]

theorem indexOf_append (h : c ∉ a) : indexOf (a ++ c :: b) c = a.length := by
  have hfind : (a ++ c :: b).findIdx? (· = c) = some a.length := by
    rw [findIdx?_eq_some_iff_getElem]
    refine ⟨by simp, by simp, fun j hj => ?_⟩
    rw [getElem_append_left hj]
    have hne : a[j] ≠ c := fun he => h (he ▸ getElem_mem hj)
    simpa using hne
  rw [indexOf, hfind]

theorem indexOf_of_not_mem (h : c ∉ l) : indexOf l c = -1 := by
  have hfind : l.findIdx? (· = c) = none := by
    rw [findIdx?_eq_none_iff]
    intro y hy
    have hne : y ≠ c := fun he => h (he ▸ hy)
    simpa using hne
  rw [indexOf, hfind]

namespace Kernel

/-- The index at which `GetNextReadyThread` starts (`scheduler.cpp:103`). -/
def searchIndex (k : Kernel) : Nat :=
  let index := (if k.currentThread ≠ 0 then indexOf k.threadsList k.currentThread else 0) + 1
  (if index ≥ k.threadsList.length then 0 else index).toNat

/-- The scheduler's list in the order in which `GetNextReadyThread` goes through it. -/
def turn (k : Kernel) : List Nat := k.threadsList.rotate k.searchIndex

variable {k k' : Kernel} {t n : Nat} {th : Thread} {a b : List Nat} {c : Nat}

theorem turn_perm : k.turn.Perm k.threadsList := rotate_perm _ _

theorem mem_turn : t ∈ k.turn ↔ t ∈ k.threadsList := turn_perm.mem_iff

theorem searchIndex_wrap {i : Nat}
    (h : (if k.currentThread ≠ 0 then indexOf k.threadsList k.currentThread else 0) = i) :
    k.searchIndex = wrap k.threadsList (i + 1) := by
  simp only [searchIndex, wrap, h]
  split
  · next hi => rw [if_pos (by omega)]; rfl
  · next hi => rw [if_neg (by omega)]; rfl

theorem turn_split (hl : k.threadsList = a ++ c :: b)
    (hc : k.currentThread = c ∧ c ≠ 0 ∧ c ∉ a ∨ k.currentThread = 0 ∧ a = []) : k.turn = b ++ a ++ [c] := by
  have hindex : (if k.currentThread ≠ 0 then indexOf k.threadsList k.currentThread else 0) = a.length := by
    rcases hc with ⟨rfl, h0, ha⟩ | ⟨h0, rfl⟩
    · rw [if_pos h0, hl, indexOf_append ha]
    · rw [if_neg (by simp [h0])]
      rfl
  rw [turn, searchIndex_wrap hindex, hl]
  exact rotate_behind

theorem turn_of_not_mem (h0 : k.currentThread ≠ 0) (hc : k.currentThread ∉ k.threadsList) :
    k.turn = k.threadsList := by
  have hindex : k.searchIndex = 0 := by
    simp only [searchIndex, if_pos h0, indexOf_of_not_mem hc]
    split <;> rfl
  rw [turn, hindex, rotate_zero]

theorem turn_cases (hl : k.threadsList ≠ []) :
    (∃ a c b, k.threadsList = a ++ c :: b ∧
      (k.currentThread = c ∧ c ≠ 0 ∧ c ∉ a ∨ k.currentThread = 0 ∧ a = [])) ∨
      k.currentThread ≠ 0 ∧ k.currentThread ∉ k.threadsList := by
  by_cases h0 : k.currentThread = 0
  · obtain ⟨c, b, hcb⟩ := exists_cons_of_ne_nil hl
    exact .inl ⟨[], c, b, hcb, .inr ⟨h0, rfl⟩⟩
  · by_cases hc : k.currentThread ∈ k.threadsList
    · obtain ⟨a, b, hab, ha⟩ := eq_append_cons_of_mem hc
      exact .inl ⟨a, _, b, hab, .inl ⟨rfl, h0, ha⟩⟩
    · exact .inr ⟨h0, hc⟩

theorem turn_getLast (h0 : k.currentThread ≠ 0) (hc : k.currentThread ∈ k.threadsList) :
    k.turn.getLast? = some k.currentThread := by
  obtain ⟨a, b, hab, ha⟩ := eq_append_cons_of_mem hc
  rw [turn_split hab (.inl ⟨rfl, h0, ha⟩)]
  simp

theorem turn_deleteThread (hnodup : k.threadsList.Nodup) (ht : t ∈ k.threadsList)
    (hlast : k.turn.getLast? ≠ some t) : (k.deleteThread t).turn = k.turn.erase t := by
  have hlist : (k.deleteThread t).threadsList = k.threadsList.erase t := removeElem_eq_erase hnodup
  rcases turn_cases (ne_nil_of_mem ht) with ⟨a, c, b, hl, hc⟩ | ⟨h0, hc⟩
  · rw [turn_split hl hc] at hlast ⊢
    have hct : t ≠ c := by
      rintro rfl
      simp at hlast
    rw [hl] at hlist ht
    by_cases hta : t ∈ a
    · have htb : t ∉ b := by
        intro htb
        rw [hl] at hnodup
        exact (nodup_append.1 hnodup).2.2 t hta t (by simp [htb]) rfl
      rw [erase_append_left _ hta] at hlist
      rw [erase_append_left _ (by simp [hta]), erase_append_right _ htb]
      refine turn_split hlist (hc.imp ?_ ?_)
      · rintro ⟨h, h0, ha⟩
        exact ⟨h, h0, fun h => ha (mem_of_mem_erase h)⟩
      · rintro ⟨-, rfl⟩
        cases hta
    · have htb : t ∈ b := by simpa [hta, hct] using ht
      rw [erase_append_right _ hta, erase_cons_tail (by simpa using hct.symm)] at hlist
      rw [append_assoc, erase_append_left _ htb, ← append_assoc]
      exact turn_split hlist hc
  · rw [turn_of_not_mem h0 hc, ← hlist]
    refine turn_of_not_mem h0 ?_
    rw [hlist]
    exact fun h => hc (mem_of_mem_erase h)

theorem nextReady_eq (hi : i < k.threadsList.length) (hturn : k.threadsList.rotate i = pre ++ t :: post)
    (hpre : ∀ x ∈ pre, ∃ th, k.threads x = some th ∧ th.state = .blocked) (ht : k.threads t = some th)
    (hb : th.state ≠ .blocked) (hfuel : pre.length < fuel) : k.nextReady fuel i = .ok t := by
  induction pre generalizing fuel i post with
  | nil =>
    obtain ⟨fuel, rfl⟩ := Nat.exists_eq_add_of_lt hfuel
    have hget : k.threadsList[i]? = some t := by
      rw [← head?_rotate hi, hturn]
      rfl
    simp only [nextReady, bind_eq_ok]
    exact ⟨t, getAt_eq_ok.2 hget, th, thread_eq_ok.2 ht, if_neg hb⟩
  | cons x pre ih =>
    obtain ⟨fuel, rfl⟩ := Nat.exists_eq_add_of_lt hfuel
    obtain ⟨thx, hx, hxb⟩ := hpre x (by simp)
    have hget : k.threadsList[i]? = some x := by
      rw [← head?_rotate hi, hturn]
      rfl
    have hnext : k.threadsList.rotate (wrap k.threadsList (i + 1)) = pre ++ t :: (post ++ [x]) := by
      simpa using rotate_wrap hi hturn
    have hrest : k.nextReady ((x :: pre).length + fuel) (wrap k.threadsList (i + 1)) = .ok t :=
      ih (wrap_lt hi) hnext (fun y hy => hpre y (by simp [hy])) (by simp; omega)
    simp only [nextReady, bind_eq_ok]
    refine ⟨x, getAt_eq_ok.2 hget, thx, thread_eq_ok.2 hx, ?_⟩
    rw [if_pos hxb]
    exact hrest

theorem getNextReadyThread_eq (hturn : k.turn = pre ++ t :: post)
    (hpre : ∀ x ∈ pre, ∃ th, k.threads x = some th ∧ th.state = .blocked)
    (ht : k.threads t = some th) (hb : th.state ≠ .blocked) : k.getNextReadyThread = .ok t := by
  have hlen : k.threadsList.length = (pre ++ t :: post).length := by
    rw [← hturn, turn_perm.length_eq]
  rw [length_append, length_cons] at hlen
  refine nextReady_eq ?_ hturn hpre ht hb (by omega)
  split <;> omega

/-- The thread exists and is neither blocked nor stopped. -/
def canRun (k : Kernel) (t : Nat) : Bool :=
  match k.threads t with
  | some th => th.state ≠ .blocked && th.state ≠ .stopped
  | none => false

theorem canRun_iff : k.canRun t = true ↔
    ∃ th, k.threads t = some th ∧ th.state ≠ .blocked ∧ th.state ≠ .stopped := by
  unfold canRun
  cases k.threads t with
  | none => simp
  | some th => simp

/-- What the scheduler's list is like: pointers to threads that exist, each of them once, and a parent
that exists for each one that is not stopped. The current thread exists, if there is one. -/
structure Sound (k : Kernel) : Prop where
  nodup : k.threadsList.Nodup
  thread : ∀ t ∈ k.threadsList, t ≠ 0 ∧ ∃ th, k.threads t = some th
  parent : ∀ t ∈ k.threadsList, ∀ th, k.threads t = some th → th.state ≠ .stopped →
    th.parent = 0 ∨ ∃ p, k.processes th.parent = some p
  current : k.currentThread = 0 ∨ ∃ th, k.threads k.currentThread = some th

theorem Sound.search (hs : k.Sound) (hrun : ∃ t ∈ k.threadsList, k.canRun t = true) :
    ∃ pre t th post, k.turn = pre ++ t :: post ∧
      (∀ x ∈ pre, ∃ th, k.threads x = some th ∧ th.state = .blocked) ∧
      k.threads t = some th ∧ th.state ≠ .blocked ∧ k.getNextReadyThread = .ok t := by
  let p : Nat → Bool := fun t => match k.threads t with
    | some th => th.state ≠ .blocked
    | none => false
  obtain ⟨idle, hidle, hcan⟩ := hrun
  obtain ⟨t, ht⟩ : ∃ t, k.turn.find? p = some t := by
    rw [← Option.isSome_iff_exists, find?_isSome]
    obtain ⟨th, hth, hb, -⟩ := canRun_iff.1 hcan
    exact ⟨idle, mem_turn.2 hidle, by simp [p, hth, hb]⟩
  obtain ⟨hpt, pre, post, hturn, hpre⟩ := find?_eq_some_iff_append.1 ht
  have hblocked : ∀ x ∈ pre, ∃ th, k.threads x = some th ∧ th.state = .blocked := by
    intro x hx
    obtain ⟨-, th, hth⟩ := hs.thread x (mem_turn.1 (by simp [hturn, hx]))
    exact ⟨th, hth, by simpa [p, hth] using hpre x hx⟩
  obtain ⟨-, th, hth⟩ := hs.thread t (mem_turn.1 (by simp [hturn]))
  have hb : th.state ≠ .blocked := by simpa [p, hth] using hpt
  exact ⟨pre, t, th, post, hturn, hblocked, hth, hb, getNextReadyThread_eq hturn hblocked hth hb⟩

/-- The threads that the loop over stopped threads (`dropStopped`) deletes, in this order. -/
def stoppedFrom (k : Kernel) : (fuel next : Nat) → Exec (List Nat)
  | 0, _ => .error .loop
  | fuel + 1, next => do
    let th ← k.thread next
    if th.state = .stopped then
      let k := k.deleteThread next
      let n ← k.getNextReadyThread
      let ds ← stoppedFrom k fuel n
      .ok (next :: ds)
    else .ok []

/-- The threads that a task switch deletes, in this order: those its loop meets, and the current one
when it is stopped. -/
def switchDeletions (k : Kernel) : Exec (List Nat) := do
  let next ← k.getNextReadyThread
  let ds ← k.stoppedFrom (k.threadsList.length + 1) next
  if k.currentThread ≠ 0 then
    let th ← (ds.foldl deleteThread k).thread k.currentThread
    .ok (if th.state = .stopped then ds ++ [k.currentThread] else ds)
  else .ok ds

theorem deleteThread_threads (x : Nat) :
    (k.deleteThread t).threads x = if x = t then none else k.threads x := by
  simp [deleteThread, update_apply]

theorem foldl_deleteThread (hnodup : k.threadsList.Nodup) (ds : List Nat) :
    ds.foldl deleteThread k = { k with
      threadsList := k.threadsList.filter (· ∉ ds)
      threads := fun t => if t ∈ ds then none else k.threads t } := by
  induction ds generalizing k with
  | nil => simp
  | cons d ds ih =>
    have hlist : (k.deleteThread d).threadsList = k.threadsList.filter (· ≠ d) := by
      rw [deleteThread, removeElem_eq_erase hnodup, hnodup.erase_eq_filter]
      simp only [ne_eq, decide_not]
      rfl
    rw [foldl_cons, ih (by rw [hlist]; exact hnodup.filter _), hlist]
    simp only [filter_filter, mem_cons, not_or, Bool.decide_and, deleteThread, mk.injEq, and_true, true_and]
    refine ⟨funext fun t => ?_, ?_⟩
    · by_cases htd : t = d <;> simp [htd]
    · refine filter_congr fun t _ => Bool.and_comm _ _

theorem canRun_deleteThread (ht : k.canRun t = false) : (k.deleteThread t).canRun = k.canRun := by
  funext x
  by_cases hx : x = t
  · subst hx
    rw [ht]
    simp [canRun, deleteThread_threads]
  · simp [canRun, deleteThread_threads, hx]

theorem Sound.deleteThread (hs : k.Sound) (hcur : t ≠ k.currentThread) : (k.deleteThread t).Sound := by
  have hlist : (k.deleteThread t).threadsList = k.threadsList.erase t := removeElem_eq_erase hs.nodup
  have hmem : ∀ x ∈ (k.deleteThread t).threadsList, x ≠ t ∧ x ∈ k.threadsList := by
    intro x hx
    rw [hlist] at hx
    exact hs.nodup.mem_erase_iff.1 hx
  refine ⟨hlist ▸ hs.nodup.erase t, ?_, ?_, ?_⟩
  · intro x hx
    obtain ⟨hxt, hx⟩ := hmem x hx
    rw [deleteThread_threads, if_neg hxt]
    exact hs.thread x hx
  · intro x hx th hth hst
    obtain ⟨hxt, hx⟩ := hmem x hx
    rw [deleteThread_threads, if_neg hxt] at hth
    exact hs.parent x hx th hth hst
  · rw [deleteThread_threads]
    show k.currentThread = 0 ∨ ∃ th, (if k.currentThread = t then none else _) = some th
    rw [if_neg hcur.symm]
    exact hs.current

theorem Sound.dropStopped (hs : k.Sound) (hrun : ∃ t ∈ k.threadsList, k.canRun t = true)
    {fuel next : Nat} (hfuel : k.threadsList.length ≤ fuel)
    (hnext : k.getNextReadyThread = .ok next) :
    ∃ ds n, k.stoppedFrom fuel next = .ok ds ∧
      k.dropStopped fuel next = .ok (n, ds.foldl Kernel.deleteThread k) ∧ ds.Nodup ∧
      (∀ d ∈ ds, d ≠ k.currentThread ∧ ∃ th, k.threads d = some th ∧ th.state = .stopped) ∧
      (k.turn.filter k.canRun).head? = some n := by
  induction fuel generalizing k next with
  | zero =>
    obtain ⟨t, ht, -⟩ := hrun
    rw [length_eq_zero_iff.1 (Nat.le_zero.1 hfuel)] at ht
    cases ht
  | succ fuel ih =>
    obtain ⟨pre, t, th, post, hturn, hpre, hth, hb, hget⟩ := hs.search hrun
    obtain rfl : t = next := ok.inj (hget.symm.trans hnext)
    have hfilter : pre.filter k.canRun = [] := by
      rw [filter_eq_nil_iff]
      intro x hx
      obtain ⟨thx, hthx, hxb⟩ := hpre x hx
      simp [canRun, hthx, hxb]
    by_cases hst : th.state = .stopped
    · -- the thread that can run is behind `t` in the turn, so that `t` is not the last
      have hcan : k.canRun t = false := by simp [canRun, hth, hst]
      obtain ⟨idle, hidle, hidleRun⟩ := hrun
      have hne : idle ≠ t := by
        rintro rfl
        rw [hcan] at hidleRun
        cases hidleRun
      have hpost : idle ∈ post := by
        have hmem : idle ∈ pre ++ t :: post := hturn ▸ mem_turn.2 hidle
        have hidlePre : idle ∉ pre := by
          intro h
          have hf : idle ∈ pre.filter k.canRun := mem_filter.2 ⟨h, hidleRun⟩
          rw [hfilter] at hf
          cases hf
        simpa [hidlePre, hne] using hmem
      have hlast : k.turn.getLast? ≠ some t := by
        have hnodup := turn_perm.nodup_iff.2 hs.nodup
        rw [hturn] at hnodup ⊢
        exact getLast?_ne hnodup (ne_nil_of_mem hpost)
      have htl : t ∈ k.threadsList := mem_turn.1 (by simp [hturn])
      have hcur : t ≠ k.currentThread := by
        rintro rfl
        exact hlast (turn_getLast (hs.thread _ htl).1 htl)
      -- the rest of the loop runs in the kernel without `t`
      have hs' := hs.deleteThread hcur
      have hlist : (k.deleteThread t).threadsList = k.threadsList.erase t := removeElem_eq_erase hs.nodup
      have hrun' : ∃ x ∈ (k.deleteThread t).threadsList, (k.deleteThread t).canRun x = true := by
        refine ⟨idle, ?_, ?_⟩
        · rw [hlist]
          exact (mem_erase_of_ne hne).2 hidle
        · rwa [canRun_deleteThread hcan]
      obtain ⟨-, n1, -, -, -, -, -, -, hget'⟩ := hs'.search hrun'
      have hlen : (k.deleteThread t).threadsList.length ≤ fuel := by
        rw [hlist, length_erase_of_mem htl]
        omega
      obtain ⟨ds, n, hfrom, hdrop, hnodup, hds, hhead⟩ := ih hs' hrun' hlen hget'
      refine ⟨t :: ds, n, ?_, ?_, nodup_cons.2 ⟨?_, hnodup⟩, ?_, ?_⟩
      · simp only [stoppedFrom, bind_eq_ok, thread_eq_ok]
        refine ⟨th, hth, ?_⟩
        rw [if_pos hst, bind_eq_ok]
        exact ⟨n1, hget', bind_eq_ok.2 ⟨ds, hfrom, rfl⟩⟩
      · simp only [dropStopped, bind_eq_ok, thread_eq_ok]
        refine ⟨th, hth, ?_⟩
        rw [if_pos hst, bind_eq_ok]
        exact ⟨n1, hget', hdrop⟩
      · intro htds
        obtain ⟨-, thd, hthd, -⟩ := hds t htds
        rw [deleteThread_threads, if_pos rfl] at hthd
        cases hthd
      · rintro d (_ | ⟨_, hd⟩)
        · exact ⟨hcur, th, hth, hst⟩
        · obtain ⟨hdc, thd, hthd, hstd⟩ := hds d hd
          rw [deleteThread_threads] at hthd
          split at hthd
          · cases hthd
          · exact ⟨hdc, thd, hthd, hstd⟩
      · rw [canRun_deleteThread hcan, turn_deleteThread hs.nodup htl hlast,
          filter_erase (turn_perm.nodup_iff.2 hs.nodup) hcan] at hhead
        exact hhead
    · refine ⟨[], t, ?_, ?_, .nil, by simp, ?_⟩
      · simp only [stoppedFrom, bind_eq_ok, thread_eq_ok]
        exact ⟨th, hth, if_neg hst⟩
      · simp only [dropStopped, bind_eq_ok, thread_eq_ok]
        exact ⟨th, hth, if_neg hst⟩
      · rw [hturn, filter_append, hfilter, nil_append, filter_cons_of_pos]
        · rfl
        · exact canRun_iff.2 ⟨th, hth, hb, hst⟩

theorem Sound.taskSwitch (hs : k.Sound) (hrun : ∃ t ∈ k.threadsList, k.canRun t = true) :
    ∃ ds n, k.switchDeletions = .ok ds ∧ k.taskSwitch = (ds.foldl Kernel.deleteThread k).switchTo n
      ∧ ds.Nodup ∧ (∀ d ∈ ds, ∃ th, k.threads d = some th ∧ th.state = .stopped) ∧
      (k.turn.filter k.canRun).head? = some n := by
  obtain ⟨-, next, -, -, -, -, -, -, hget⟩ := hs.search hrun
  obtain ⟨ds, n, hfrom, hdrop, hnodup, hds, hhead⟩ := hs.dropStopped hrun (Nat.le_succ _) hget
  have hfold := foldl_deleteThread hs.nodup ds
  have hcurrent : (ds.foldl Kernel.deleteThread k).currentThread = k.currentThread := by
    rw [hfold]
  have htask : k.taskSwitch = ((ds.foldl Kernel.deleteThread k).dropCurrent >>= fun k' => k'.switchTo n) := by
    rw [Kernel.taskSwitch, bind_of_ok hget]
    exact bind_of_ok hdrop
  have hdeletions : k.switchDeletions = (if k.currentThread ≠ 0 then do
      let th ← (ds.foldl Kernel.deleteThread k).thread k.currentThread
      ok (if th.state = .stopped then ds ++ [k.currentThread] else ds)
      else .ok ds) := by
    rw [switchDeletions, bind_of_ok hget, bind_of_ok hfrom]
  by_cases h0 : k.currentThread = 0
  · refine ⟨ds, n, ?_, ?_, hnodup, fun d hd => (hds d hd).2, hhead⟩
    · rw [hdeletions, if_neg (not_not.2 h0)]
    · rw [htask, dropCurrent, hcurrent, if_neg (not_not.2 h0)]
      rfl
  · -- the loop has not deleted the current thread
    obtain ⟨th, hth⟩ := hs.current.resolve_left h0
    have hcur : k.currentThread ∉ ds := fun h => (hds _ h).1 rfl
    have hth' : (ds.foldl Kernel.deleteThread k).thread k.currentThread = .ok th := by
      rw [thread_eq_ok, hfold]
      exact (if_neg hcur).trans hth
    rw [if_pos h0, bind_of_ok hth'] at hdeletions
    rw [dropCurrent, hcurrent, if_pos h0, bind_of_ok hth'] at htask
    by_cases hst : th.state = .stopped
    · rw [if_pos hst] at hdeletions htask
      refine ⟨_, n, hdeletions, ?_, ?_, ?_, hhead⟩
      · rw [htask, foldl_append]
        rfl
      · rw [← concat_eq_append]
        exact hnodup.concat hcur
      · exact forall_mem_append.2 ⟨fun d hd => (hds d hd).2, forall_mem_singleton.2 ⟨th, hth, hst⟩⟩
    · rw [if_neg hst] at hdeletions htask
      exact ⟨ds, n, hdeletions, htask, hnodup, fun d hd => (hds d hd).2, hhead⟩

theorem switchTo_eq (hth : k.threads n = some th)
    (hp : th.parent = 0 ∨ ∃ p, k.processes th.parent = some p) :
    ∃ k' th', k.switchTo n = .ok k' ∧ k'.currentThread = n ∧ k'.threadsList = k.threadsList ∧
      (∀ t, k'.threads t = if t = n then some th' else k.threads t) ∧
      (th'.state = th.state ∨ th'.state = .ready) := by
  obtain ⟨isUser, huser⟩ : ∃ b, parentIsUserspace { k with currentThread := n } th = .ok b := by
    unfold parentIsUserspace
    by_cases h0 : th.parent = 0
    · exact ⟨false, if_neg (not_not.2 h0)⟩
    · obtain ⟨p, hp⟩ := hp.resolve_left h0
      refine ⟨p.isUserspace, ?_⟩
      rw [if_pos h0]
      exact bind_of_ok (process_eq_ok.2 hp)
  have hswitch : k.switchTo n = if th.state = .started ∧ isUser = true then
      .ok { setThread { k with currentThread := n } n
        { th with state := .ready, control := .user } with enabled := true }
      else .ok { k with currentThread := n } := by
    have hth' : thread { k with currentThread := n } n = .ok th := thread_eq_ok.2 hth
    rw [switchTo, bind_of_ok hth', bind_of_ok huser]
  by_cases hstart : th.state = .started ∧ isUser = true
  · exact ⟨_, { th with state := .ready, control := .user }, hswitch.trans (if_pos hstart), rfl, rfl,
      fun t => setThread_threads t, .inr rfl⟩
  · refine ⟨_, th, hswitch.trans (if_neg hstart), rfl, rfl, fun t => ?_, .inl rfl⟩
    split
    · next ht => rw [ht, hth]
    · rfl

/-- What the passing of time does to a thread: nothing, or it wakes it. -/
def Roused (k k' : Kernel) : Prop :=
  ∀ t th, k.threads t = some th → ∃ th', k'.threads t = some th' ∧ th'.parent = th.parent ∧
    (th'.state = th.state ∨ th.state = .blocked ∧ th'.state = .ready)

theorem Roused.setThread (h : Roused k0 k) (hth : k.threads t = some th) (hp : th'.parent = th.parent)
    (hst : th'.state = th.state ∨ th.state = .blocked ∧ th'.state = .ready) : Roused k0 (k.setThread t th')
    := by
  intro x thx hthx
  obtain ⟨th₁, hth₁, hp1, hst₁⟩ := h x thx hthx
  by_cases hxt : x = t
  · subst hxt
    obtain rfl : th = th₁ := Option.some.inj (hth.symm.trans hth₁)
    refine ⟨th', by rw [setThread_threads, if_pos rfl], hp.trans hp1, ?_⟩
    rcases hst with hst | ⟨hb, hr⟩
    · rw [hst]
      exact hst₁
    · rcases hst₁ with hst₁ | ⟨-, hr1⟩
      · exact .inr ⟨hst₁ ▸ hb, hr⟩
      · rw [hr1] at hb
        cases hb
  · exact ⟨th₁, by rw [setThread_threads, if_neg hxt]; exact hth₁, hp1, hst₁⟩

theorem processSleepingThread_returns (h : Roused k0 k) (hth : k.threads t = some th) :
    ∃ k', k.processSleepingThread t = .ok k' ∧ Roused k0 k' := by
  rw [processSleepingThread, bind_of_ok (thread_eq_ok.2 hth)]
  split
  · next hsleep =>
    have h' : Roused k0 (k.setThread t { th with timeDelta := th.timeDelta - 1 }) :=
      h.setThread hth rfl (.inl rfl)
    have hth' : (k.setThread t { th with timeDelta := th.timeDelta - 1 }).threads t =
        some { th with timeDelta := th.timeDelta - 1 } := by
      rw [setThread_threads, if_pos rfl]
    split
    · refine ⟨_, bind_of_ok (thread_eq_ok.2 hth'), h'.setThread hth' rfl (.inr ⟨?_, rfl⟩)⟩
      exact hsleep.1
    · exact ⟨_, rfl, h'⟩
  · exact ⟨k, rfl, h⟩

theorem passTime_returns (hl : ∀ t ∈ k.threadsList, ∃ th, k.threads t = some th) :
    ∃ k', k.passTime = .ok k' ∧ Woken { k with switchForced := k'.switchForced } k' ∧ Roused k k' := by
  have hrefl : Roused k k := fun t th hth => ⟨th, hth, rfl, .inl rfl⟩
  unfold passTime
  split
  · next hforced =>
    obtain ⟨k', hk', hr⟩ := Lib.foldlM_returns
      (fun t ht k₁ hk1 => by
        obtain ⟨th, hth⟩ := hl t ht
        obtain ⟨th₁, hth₁, -⟩ := hk1 t th hth
        exact processSleepingThread_returns hk1 hth₁) hrefl
    have hw := processSleepingThreads_spec hk'
    exact ⟨k', hk', ⟨⟨hw.processes, hw.processList, hw.receivers, hw.kept, hw.gone⟩,
      hw.threadsList, hw.currentThread, hw.tickCount, hw.enabled, hw.awake⟩, hr⟩
  · exact ⟨_, rfl, .refl, fun t th hth => ⟨th, hth, rfl, .inl rfl⟩⟩

/-- The next interrupt performs a task switch (`scheduler.cpp:31`). -/
def Due (k : Kernel) : Prop := u32 (k.tickCount + 1) = schedulerFrequency ∧ k.enabled = true

/-- The threads that an interrupt deletes, in this order. -/
def interruptDeletions (k : Kernel) : Exec (List Nat) := do
  let k ← { k with tickCount := u32 (k.tickCount + 1) }.passTime
  if k.tickCount = schedulerFrequency then
    let k := { k with tickCount := 0 }
    if k.threadsList.length > 0 ∧ k.enabled = true then k.switchDeletions else .ok []
  else .ok []

theorem Sound.roused (hs : k.Sound) (hr : Roused k k') (hl : k'.threadsList = k.threadsList)
    (hc : k'.currentThread = k.currentThread) (hp : k'.processes = k.processes) : k'.Sound := by
  refine ⟨hl ▸ hs.nodup, ?_, ?_, ?_⟩
  · intro t ht
    rw [hl] at ht
    obtain ⟨h0, th, hth⟩ := hs.thread t ht
    obtain ⟨th', hth', -⟩ := hr t th hth
    exact ⟨h0, th', hth'⟩
  · intro t ht th' hth' hst'
    rw [hl] at ht
    obtain ⟨-, th, hth⟩ := hs.thread t ht
    obtain ⟨th₁, hth₁, hparent, hst⟩ := hr t th hth
    obtain rfl : th' = th₁ := Option.some.inj (hth'.symm.trans hth₁)
    rw [hparent, hp]
    refine hs.parent t ht th hth ?_
    rcases hst with hst | ⟨hst, -⟩
    · exact hst ▸ hst'
    · simp [hst]
  · rw [hc]
    refine hs.current.imp_right ?_
    rintro ⟨th, hth⟩
    obtain ⟨th', hth', -⟩ := hr _ th hth
    exact ⟨th', hth'⟩

theorem Roused.canRun (hr : Roused k k') (h : k.canRun t = true) : k'.canRun t = true := by
  obtain ⟨th, hth, hb, hst⟩ := canRun_iff.1 h
  obtain ⟨th', hth', -, hstate⟩ := hr t th hth
  have heq : th'.state = th.state := hstate.resolve_right fun h => hb h.1
  exact canRun_iff.2 ⟨th', hth', heq ▸ hb, heq ▸ hst⟩

theorem Sound.handleInterrupt (hs : k.Sound) (hrun : ∃ t ∈ k.threadsList, k.canRun t = true)
    (hdue : k.Due) :
    ∃ k₁ ds k' th', Roused k k₁ ∧ (∀ t, k.threads t = none → k₁.threads t = none) ∧
      k₁.threadsList = k.threadsList ∧ k₁.currentThread = k.currentThread ∧
      k.interruptDeletions = .ok ds ∧ k.handleInterrupt = .ok k' ∧ ds.Nodup ∧
      (∀ d ∈ ds, ∃ th, k₁.threads d = some th ∧ th.state = .stopped) ∧
      (k₁.turn.filter k₁.canRun).head? = some k'.currentThread ∧
      k'.threadsList = k.threadsList.filter (· ∉ ds) ∧
      (∀ t, k'.threads t =
        if t = k'.currentThread then some th' else if t ∈ ds then none else k₁.threads t) ∧
      th'.state ≠ .blocked ∧ th'.state ≠ .stopped := by
  obtain ⟨k₁, hpass, hw, hr⟩ := passTime_returns
    (k := { k with tickCount := u32 (k.tickCount + 1) }) fun t ht => (hs.thread t ht).2
  -- the kernel in which the task switch starts
  let k₂ : Kernel := { k₁ with tickCount := 0 }
  have hr2 : Roused k k₂ := hr
  have hs2 : k₂.Sound := hs.roused hr2 hw.threadsList hw.currentThread hw.processes
  have hrun2 : ∃ t ∈ k₂.threadsList, k₂.canRun t = true := by
    obtain ⟨t, ht, hcan⟩ := hrun
    exact ⟨t, hw.threadsList.symm ▸ ht, hr2.canRun hcan⟩
  have htick : k₁.tickCount = schedulerFrequency := hw.tickCount.trans hdue.1
  have hgo : k₂.threadsList.length > 0 ∧ k₂.enabled = true := by
    obtain ⟨t, ht, -⟩ := hrun2
    exact ⟨length_pos_of_mem ht, hw.enabled.trans hdue.2⟩
  obtain ⟨ds, n, hdel, htask, hnodup, hds, hhead⟩ := hs2.taskSwitch hrun2
  obtain ⟨hn, hcan⟩ := mem_filter.1 (mem_of_head? hhead)
  obtain ⟨th, hth, hb, hst⟩ := canRun_iff.1 hcan
  have hnds : n ∉ ds := by
    intro h
    obtain ⟨thd, hthd, hstd⟩ := hds n h
    rw [hth, Option.some.injEq] at hthd
    exact hst (hthd ▸ hstd)
  rw [foldl_deleteThread hs2.nodup] at htask
  have hkept : (if n ∈ ds then none else k₂.threads n) = some th := (if_neg hnds).trans hth
  obtain ⟨k', th', hswitch, hcur, hlist, hthreads, hstate⟩ := switchTo_eq
    (k := { k₂ with
      threadsList := k₂.threadsList.filter (· ∉ ds)
      threads := fun t => if t ∈ ds then none else k₂.threads t })
    hkept (hs2.parent n (mem_turn.1 hn) th hth hst)
  refine ⟨k₂, ds, k', th', hr2, hw.gone, hw.threadsList, hw.currentThread, ?_, ?_, hnodup, hds,
    hcur ▸ hhead, ?_, ?_, ?_, ?_⟩
  · rw [interruptDeletions, bind_of_ok hpass, if_pos htick, if_pos hgo, hdel]
  · rw [Kernel.handleInterrupt, bind_of_ok hpass, if_pos htick, if_pos hgo, ← hswitch, ← htask]
  · rw [hlist, show k₂.threadsList = k.threadsList from hw.threadsList]
  · rw [hcur]
    exact hthreads
  · rcases hstate with h | h
    · exact h ▸ hb
    · simp [h]
  · rcases hstate with h | h
    · exact h ▸ hst
    · simp [h]

/-- When the list holds a thread that is neither blocked nor stopped, an interrupt that performs a
task switch returns, so that it reads no thread behind its deletion. It deletes only stopped threads,
each of them once, and the thread it ends at is still in the list and can run. -/
theorem handleInterrupt_deletes_stopped (k : Kernel) (hs : k.Sound) (idle : Nat)
    (hidle : idle ∈ k.threadsList) (hrun : k.canRun idle = true) (hdue : k.Due) :
    ∃ ds k', k.interruptDeletions = .ok ds ∧ k.handleInterrupt = .ok k' ∧ ds.Nodup ∧
      (∀ d ∈ ds, ∃ th, k.threads d = some th ∧ th.state = .stopped) ∧
      (∀ t, k'.threads t = none ↔ k.threads t = none ∨ t ∈ ds) ∧ k'.threadsList = k.threadsList.filter
      (· ∉ ds) ∧ k'.currentThread ∈ k'.threadsList ∧ k'.canRun k'.currentThread = true := by
  obtain ⟨k₁, ds, k', th', hr, hgone, hlist₁, -, hdel, hok, hnodup, hds, hhead, hlist, hthreads, hb,
    hst⟩ := hs.handleInterrupt ⟨idle, hidle, hrun⟩ hdue
  obtain ⟨hn, hcan⟩ := mem_filter.1 (mem_of_head? hhead)
  rw [mem_turn, hlist₁] at hn
  have hnds : k'.currentThread ∉ ds := by
    intro h
    obtain ⟨th₁, hth₁, -, hst₁⟩ := canRun_iff.1 hcan
    obtain ⟨thd, hthd, hstd⟩ := hds _ h
    rw [hth₁, Option.some.injEq] at hthd
    exact hst₁ (hthd ▸ hstd)
  have hnone : ∀ t, k₁.threads t = none ↔ k.threads t = none := by
    intro t
    refine ⟨fun h => ?_, hgone t⟩
    cases ht : k.threads t with
    | none => rfl
    | some th =>
      obtain ⟨th₁, hth₁, -⟩ := hr t th ht
      rw [h] at hth₁
      cases hth₁
  refine ⟨ds, k', hdel, hok, hnodup, ?_, ?_, hlist, ?_, ?_⟩
  · intro d hd
    obtain ⟨th₁, hth₁, hst₁⟩ := hds d hd
    cases ht : k.threads d with
    | none =>
      rw [hgone d ht] at hth₁
      cases hth₁
    | some th =>
      obtain ⟨th₂, hth₂, -, hstate⟩ := hr d th ht
      obtain rfl : th₁ = th₂ := Option.some.inj (hth₁.symm.trans hth₂)
      refine ⟨th, rfl, ?_⟩
      rcases hstate with h | ⟨-, h⟩
      · exact h ▸ hst₁
      · rw [h] at hst₁
        cases hst₁
  · intro t
    rw [hthreads t]
    split
    · next ht =>
      obtain ⟨-, th, hth⟩ := hs.thread _ hn
      rw [← ht] at hth hnds
      simp [hth, hnds]
    · split
      · next ht => simp [ht]
      · next ht => simp [ht, hnone]
  · rw [hlist, mem_filter]
    exact ⟨hn, by simpa using hnds⟩
  · exact canRun_iff.2 ⟨th', by rw [hthreads, if_pos rfl], hb, hst⟩

/-- Threads of the kernel itself in the given states, each behind the pointer it goes with. -/
def kernelOf (states : List (Nat × ThreadState)) (currentThread tickCount : Nat) : Kernel where
  threads t := (states.lookup t).map (⟨0, ·, .unkown, 0, .user⟩)
  processes _ := none
  processList := []
  threadsList := states.map Prod.fst
  currentThread := currentThread
  tickCount := tickCount
  switchForced := false
  enabled := true
  receivingBlockedList := []

theorem kernelOf_sound {currentThread tickCount : Nat} (hnodup : (states.map fst).Nodup)
    (h0 : 0 ∉ states.map fst) (hcur : currentThread ∈ states.map fst) :
    (kernelOf states currentThread tickCount).Sound := by
  have hsome : ∀ t ∈ states.map fst, ∃ th, (kernelOf states currentThread tickCount).threads t = some th := by
    refine forall_mem_map.2 fun p hp => ?_
    obtain ⟨state, hstate⟩ := Option.isSome_iff_exists.1 (lookup_isSome_iff.2 ⟨p, hp, beq_self_eq_true p.1⟩)
    exact ⟨_, congrArg (Option.map _) hstate⟩
  refine ⟨hnodup, fun t ht => ⟨fun h => h0 (h ▸ ht), hsome t ht⟩, ?_, .inr (hsome _ hcur)⟩
  intro t _ th hth _
  obtain ⟨state, -, rfl⟩ := Option.map_eq_some_iff.1 hth
  exact .inl rfl

/-- Of four threads the current one, 2, and the one behind it are stopped. -/
def stoppedKernel : Kernel :=
  kernelOf [(1, .ready), (2, .stopped), (3, .stopped), (4, .blocked)] 2 29

/-- The switch deletes 3, then 2, and ends at 1. -/
theorem handleInterrupt_deletes_stopped_current :
    ∃ k', stoppedKernel.interruptDeletions = .ok [3, 2] ∧ stoppedKernel.handleInterrupt = .ok k' ∧
      k'.threadsList = [1, 4] ∧ k'.currentThread ∈ k'.threadsList ∧ k'.canRun k'.currentThread = true := by
  have hs : stoppedKernel.Sound := kernelOf_sound (by decide) (by decide) (by decide)
  obtain ⟨ds, k', hdel, hok, -, -, -, hlist, hcur, hrun⟩ := handleInterrupt_deletes_stopped
    stoppedKernel hs 1 (by decide) (by decide) ⟨by decide, rfl⟩
  have hds : stoppedKernel.interruptDeletions = .ok [3, 2] := rfl
  obtain rfl : ds = [3, 2] := ok.inj (hdel.symm.trans hds)
  exact ⟨k', hdel, hok, hlist, hcur, hrun⟩

/-- The scheduler's list is `l`, none of its threads is stopped, and the blocked ones are those of
`blocked`. -/
structure Steady (l : List Nat) (blocked : Nat → Bool) (k : Kernel) : Prop extends Sound k where
  list_eq : k.threadsList = l
  state : ∀ t ∈ l, ∀ th, k.threads t = some th →
    th.state ≠ .stopped ∧ (th.state = .blocked ↔ blocked t = true)

/-- Task switches one behind the other that make the threads of a list current in this order. What
happens between two of them leaves the current thread and the states of the threads as they are. -/
inductive Switches (l : List Nat) (blocked : Nat → Bool) : Kernel → List Nat → Prop
  | nil {k : Kernel} : Switches l blocked k []
  | cons {k k₁ k₂ : Kernel} {ts : List Nat} : Steady l blocked k → k.Due → k.handleInterrupt = .ok
      k₁ → Steady l blocked k₁ → Steady l blocked k₂ → k₂.currentThread = k₁.currentThread →
      Switches l blocked k₂ ts → Switches l blocked k (k₁.currentThread :: ts)

variable {l ts : List Nat} {blocked : Nat → Bool}

theorem turn_next (hnodup : k.threadsList.Nodup) (hturn : k.turn = pre ++ t :: post)
    (hlist : k'.threadsList = k.threadsList) (hcur : k'.currentThread = t) (h0 : t ≠ 0) :
    k'.turn = post ++ pre ++ [t] := by
  have ht : t ∈ k'.threadsList := by
    rw [hlist, ← mem_turn, hturn]
    simp
  obtain ⟨a, b, hab, ha⟩ := eq_append_cons_of_mem ht
  rw [turn_split hab (.inl ⟨hcur, h0, ha⟩)]
  have hold : k.threadsList ~r (t :: (post ++ pre)) := by
    refine List.IsRotated.trans ⟨k.searchIndex, hturn⟩ ⟨pre.length, ?_⟩
    rw [rotate_append_length_eq]
    rfl
  have hnew : k.threadsList ~r (t :: (b ++ a)) := by
    refine ⟨a.length, ?_⟩
    rw [← hlist, hab, rotate_append_length_eq]
    rfl
  have heq : b ++ a = post ++ pre := eq_of_isRotated (hnew.nodup_iff.1 hnodup) (hnew.symm.trans hold)
  rw [heq]

theorem Steady.canRun (hk : Steady l blocked k) (ht : t ∈ l) : k.canRun t = !blocked t := by
  obtain ⟨-, th, hth⟩ := hk.thread t (hk.list_eq.symm ▸ ht)
  obtain ⟨hst, hb⟩ := hk.state t ht th hth
  cases hbt : blocked t with
  | true => simp [Kernel.canRun, hth, hb.2 hbt]
  | false =>
    have hnb : th.state ≠ .blocked := fun h => by simp [hb.1 h] at hbt
    simp [Kernel.canRun, hth, hnb, hst]

theorem Steady.exists_canRun (hk : Steady l blocked k) (hrun : ∃ t ∈ l, blocked t = false) :
    ∃ t ∈ k.threadsList, k.canRun t = true := by
  obtain ⟨t, ht, hbt⟩ := hrun
  exact ⟨t, hk.list_eq.symm ▸ ht, by rw [hk.canRun ht, hbt]; rfl⟩

theorem Steady.handleInterrupt (hk : Steady l blocked k) (hk' : Steady l blocked k')
    (hrun : ∃ t ∈ l, blocked t = false) (hdue : k.Due) (h : k.handleInterrupt = .ok k') :
    (k.turn.filter fun t => !blocked t).head? = some k'.currentThread := by
  obtain ⟨k₁, ds, k₂, th', hr, -, hlist₁, hcur1, -, hok, -, -, hhead, -, hthreads, hb, -⟩ :=
    hk.toSound.handleInterrupt (hk.exists_canRun hrun) hdue
  obtain rfl : k₂ = k' := ok.inj (hok.symm.trans h)
  have hturn : k₁.turn = k.turn := by
    simp only [turn, searchIndex, hlist₁, hcur1]
  rw [hturn] at hhead
  rw [← hhead]
  congr 1
  refine filter_congr fun t ht => ?_
  have htl : t ∈ l := hk.list_eq ▸ mem_turn.1 ht
  cases hbt : blocked t with
  | false => exact (hr.canRun (by rw [hk.canRun htl, hbt]; rfl)).symm
  | true =>
    -- no thread is blocked by a switch, so that `t` was blocked when it started
    obtain ⟨-, th, hth⟩ := hk'.thread t (hk'.list_eq.symm ▸ htl)
    have hthb : th.state = .blocked := (hk'.state t htl th hth).2.2 hbt
    rw [hthreads t] at hth
    split at hth
    · cases hth
      exact absurd hthb hb
    · split at hth
      · cases hth
      · simp [Kernel.canRun, hth, hthb]

theorem Switches.eq_take (h : Switches l blocked k ts) (hrun : ∃ t ∈ l, blocked t = false)
    (hlen : ts.length ≤ (k.turn.filter fun t => !blocked t).length) :
    ts = (k.turn.filter fun t => !blocked t).take ts.length := by
  induction h with
  | nil => rfl
  | @cons k k₁ k₂ ts hk hdue hok hk1 hk2 hcur _ ih =>
    have hhead := hk.handleInterrupt hk1 hrun hdue hok
    obtain ⟨rest, hfilter⟩ := head?_eq_some_iff.1 hhead
    obtain ⟨pre, post, hturn, hpre, -, hpost⟩ := filter_eq_cons_iff.1 hfilter
    have hpre' : pre.filter (fun t => !blocked t) = [] := filter_eq_nil_iff.2 hpre
    have hmem : k₁.currentThread ∈ k.threadsList := mem_turn.1 (by simp [hturn])
    have hnext := turn_next hk.nodup hturn (hk2.list_eq.trans hk.list_eq.symm) hcur (hk.thread _ hmem).1
    have hcurb : (!blocked k₁.currentThread) = true := (mem_filter.1 (mem_of_head? hhead)).2
    have hfilter2 : k₂.turn.filter (fun t => !blocked t) = rest ++ [k₁.currentThread] := by
      rw [hnext, filter_append, filter_append, hpre', hpost, append_nil]
      simp only [filter_cons, hcurb, if_true, filter_nil]
    rw [hfilter, length_cons, length_cons] at hlen
    have hts : ts = rest.take ts.length := by
      have := ih (by rw [hfilter2, length_append]; omega)
      rwa [hfilter2, take_append_of_le_length (by omega)] at this
    rw [hfilter, length_cons, take_succ_cons, ← hts]

/-- As many task switches as there are threads that are not blocked make each of these threads current
once and no other one, whatever thread was current before; and each of the switches returns. -/
theorem taskSwitch_round (l : List Nat) (blocked : Nat → Bool)
    (hpos : 1 ≤ (l.filter fun t => !blocked t).length) :
    (∀ k, Steady l blocked k → k.Due → ∃ k', k.handleInterrupt = .ok k') ∧
      ∀ k ts, Switches l blocked k ts → ts.length = (l.filter fun t => !blocked t).length →
        (∀ t ∈ l, blocked t = false → ts.count t = 1) ∧ ∀ t ∈ ts, t ∈ l ∧ blocked t = false := by
  have hrun : ∃ t ∈ l, blocked t = false := by
    obtain ⟨t, ht⟩ := exists_mem_of_length_pos hpos
    obtain ⟨htl, hbt⟩ := mem_filter.1 ht
    exact ⟨t, htl, by simpa using hbt⟩
  refine ⟨?_, ?_⟩
  · intro k hk hdue
    obtain ⟨-, -, k', -, -, -, -, -, -, hok, -⟩ := hk.toSound.handleInterrupt (hk.exists_canRun hrun) hdue
    exact ⟨k', hok⟩
  · intro k ts h hlen
    have hk : Steady l blocked k := by
      cases h with
      | nil =>
        rw [← hlen] at hpos
        exact absurd hpos (by decide)
      | cons hk => exact hk
    have hperm : (k.turn.filter fun t => !blocked t).Perm (l.filter fun t => !blocked t) :=
      (hk.list_eq ▸ turn_perm).filter _
    have hts : ts = k.turn.filter fun t => !blocked t := by
      have htake := h.eq_take hrun (by rw [hlen, hperm.length_eq])
      rwa [take_of_length_le (by rw [hlen, hperm.length_eq])] at htake
    have hnodup : ts.Nodup := hts ▸ (turn_perm.nodup_iff.2 hk.nodup).filter _
    have hmem : ∀ t, t ∈ ts ↔ t ∈ l ∧ blocked t = false := by
      intro t
      rw [hts, hperm.mem_iff, mem_filter]
      simp
    exact ⟨fun t ht hbt => count_eq_one_of_mem hnodup ((hmem t).2 ⟨ht, hbt⟩), fun t ht => (hmem t).1 ht⟩

/-- Of three threads the second is blocked. -/
def steadyKernel (currentThread tickCount : Nat) : Kernel :=
  kernelOf [(1, .ready), (2, .blocked), (3, .ready)] currentThread tickCount

theorem steadyKernel_steady {currentThread tickCount : Nat} (hcur : currentThread ∈ [1, 2, 3]) :
    Steady [1, 2, 3] (· == 2) (steadyKernel currentThread tickCount) := by
  refine ⟨kernelOf_sound (by decide) (by decide) hcur, rfl, ?_⟩
  intro t ht th hth
  simp only [mem_cons, not_mem_nil, or_false] at ht
  rcases ht with rfl | rfl | rfl <;> cases hth <;> decide

/-- From the blocked thread 2 on, two switches make the threads 3 and 1 current. -/
theorem taskSwitch_round_blocked :
    Switches [1, 2, 3] (· == 2) (steadyKernel 2 29) [3, 1] ∧
      (∀ t ∈ [1, 2, 3], (t == 2) = false → [3, 1].count t = 1) := by
  have hsecond : Switches [1, 2, 3] (· == 2) (steadyKernel 3 29) [1] :=
    @Switches.cons _ _ _ (steadyKernel 1 0) (steadyKernel 1 29) _ (steadyKernel_steady (by decide))
      ⟨by decide, rfl⟩ rfl (steadyKernel_steady (by decide)) (steadyKernel_steady (by decide)) rfl .nil
  have hrun : Switches [1, 2, 3] (· == 2) (steadyKernel 2 29) [3, 1] :=
    @Switches.cons _ _ _ (steadyKernel 3 0) (steadyKernel 3 29) _ (steadyKernel_steady (by decide))
      ⟨by decide, rfl⟩ rfl (steadyKernel_steady (by decide)) (steadyKernel_steady (by decide)) rfl hsecond
  exact ⟨hrun, ((taskSwitch_round [1, 2, 3] (· == 2) (by decide)).2 _ _ hrun rfl).1⟩

end Kernel

end HeisenKernel
