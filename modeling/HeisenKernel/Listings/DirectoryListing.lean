import HeisenKernel.Base
import HeisenKernel.Lib.Run
import Mathlib.Data.List.Nodup

/-!
# The directory listing service

Translation of `listings/directorylisting.cpp`. A thread opens a listing with `BeginListing`, reads
entries with `GetEntry` and closes it with `EndListing`; there is one list for the whole service.
-/

namespace HeisenKernel.Listings

open Lib Function List

/-- What a thread is at: its program; blocked in `BeginListing`; unblocked, but still in
`BeginListing` behind `Block` (`directorylisting.cpp:24`). -/
inductive Activity (Path : Type) where
  | user
  | waiting (path : Path)
  | resuming (path : Path)

/-- `DirectoryListing` with `currentDirectoryList` (`directorylisting.cpp:10`), where null and a list
that is deleted are `none`, the directories of the file system and what every thread is at.
`opened` and `pending` are not in the source: the entries a thread got with the listing that it has
opened and not closed, and the threads that are blocked, the longest-waiting one first. -/
structure DirectoryListing (Path Entry : Type) where
  waitingQueue : List Nat
  currentReqThread : Nat
  requestBusy : Bool
  currentDirectoryList : Option (List Entry)
  directories : Path → Option (List Entry)
  activity : Nat → Activity Path
  opened : Nat → Option (List Entry)
  pending : List Nat

namespace DirectoryListing

variable {Path Entry : Type}

section
variable (l : DirectoryListing Path Entry)

/-- `Scheduler::Block` for a thread in `BeginListing`. -/
def block (thread : Nat) (path : Path) : DirectoryListing Path Entry :=
  { l with
    activity := update l.activity thread (.waiting path)
    pending := l.pending ++ [thread] }

/-- `Scheduler::Unblock`: a thread that is not blocked in `BeginListing` is no matter of the
service. -/
def unblock (thread : Nat) : DirectoryListing Path Entry :=
  match l.activity thread with
  | .waiting path =>
    { l with
      activity := update l.activity thread (.resuming path)
      pending := l.pending.erase thread }
  | _ => l

/-- `BeginListing` behind the wait (`directorylisting.cpp:27`). -/
def openListing (thread : Nat) (path : Path) : Exec (Int × DirectoryListing Path Entry) :=
  match l.directories path with
  | none => .error .memory
  | some entries =>
    .ok (entries.length, { l with
      requestBusy := true
      currentReqThread := thread
      currentDirectoryList := some entries
      activity := update l.activity thread .user
      opened := update l.opened thread (some entries) })

/-- `BeginListing` (`directorylisting.cpp:15`), up to the switch to another thread when a listing is
open: then there is no result yet. -/
def beginListing (thread : Nat) (path : Path) : Exec (Option Int × DirectoryListing Path Entry) :=
  if (l.directories path).isNone then .ok (some (-1), l)
  else if l.requestBusy then
    .ok (none, { l with waitingQueue := l.waitingQueue ++ [thread] }.block thread path)
  else do
    let (size, l) ← l.openListing thread path
    .ok (some size, l)

/-- `GetEntry` (`directorylisting.cpp:33`): the entry that is copied to the buffer when the call
returns 1. -/
def getEntry (thread : Nat) (entry : Int) (buf : Nat) : Exec (Option Entry) :=
  if l.currentReqThread ≠ thread then .ok none
  else if entry ≥ 0 then
    match l.currentDirectoryList with
    | none => .error .memory
    | some entries => .ok (if buf ≠ 0 then entries[entry.toNat]? else none)
  else .ok none

/-- `EndListing` (`directorylisting.cpp:53`). -/
def endListing (thread : Nat) : DirectoryListing Path Entry :=
  if l.currentReqThread ≠ thread ∨ l.currentReqThread = 0 then l
  else
    let l :=
      { l with
        requestBusy := false
        currentReqThread := 0
        currentDirectoryList := none
        opened := update l.opened thread none }
    match l.waitingQueue with
    | [] => l
    | first :: _ => l.unblock first

end

/-- What can happen next: a call of a thread, with its result; a thread that was unblocked goes on;
the directories change. -/
inductive Action (Path Entry : Type) where
  | beginListing (thread : Nat) (path : Path) (result : Option Int)
  | resume (thread : Nat) (result : Int)
  | getEntry (thread : Nat) (entry : Int) (buf : Nat) (result : Option Entry)
  | endListing (thread : Nat)
  | change

/-- One step of the service. A thread is a pointer that is not null. -/
inductive Step : DirectoryListing Path Entry → Action Path Entry → DirectoryListing Path Entry → Prop
  | beginListing {l l' : DirectoryListing Path Entry} {t : Nat} {path : Path} {r : Option Int} : t ≠ 0 →
      l.activity t = .user → l.beginListing t path = .ok (r, l') → Step l (.beginListing t path r) l'
  | resume {l l' : DirectoryListing Path Entry} {t : Nat} {path : Path} {r : Int} : t ≠ 0 →
      l.activity t = .resuming path → l.openListing t path = .ok (r, l') → Step l (.resume t r) l'
  | getEntry {l : DirectoryListing Path Entry} {t buf : Nat} {entry : Int} {r : Option Entry} : t ≠
      0 → l.activity t = .user → l.getEntry t entry buf = .ok r → Step l (.getEntry t entry buf r) l
  | endListing {l : DirectoryListing Path Entry} {t : Nat} :
      t ≠ 0 → l.activity t = .user → Step l (.endListing t) (l.endListing t)
  | change {l : DirectoryListing Path Entry} (directories : Path → Option (List Entry)) :
      Step l .change { l with directories := directories }

/-- The service before the first call. -/
def initial (directories : Path → Option (List Entry)) : DirectoryListing Path Entry where
  waitingQueue := []
  currentReqThread := 0
  requestBusy := false
  currentDirectoryList := none
  directories := directories
  activity := fun _ => .user
  opened := fun _ => none
  pending := []

/-- At most one thread has a listing open. -/
def OneOpen (l : DirectoryListing Path Entry) : Prop :=
  ∀ t u, (l.opened t).isSome → (l.opened u).isSome → t = u

/-- The thread `t` goes on, and no other thread. -/
def Unblocks (l : DirectoryListing Path Entry) (t : Nat) (l' : DirectoryListing Path Entry) : Prop :=
  (∃ path, l.activity t = .waiting path ∧ l'.activity t = .resuming path) ∧
    ∀ u ≠ t, l'.activity u = l.activity u

/-- What is asked of a step: behind it at most one listing is open, and the end of a listing while
threads are waiting unblocks the longest-waiting one. -/
def StepOk (l : DirectoryListing Path Entry) (a : Action Path Entry)
    (l' : DirectoryListing Path Entry) : Prop :=
  l'.OneOpen ∧ ∀ t, a = .endListing t → l.currentReqThread = t → ∀ u us, l.pending = u :: us → l.Unblocks u l'

/-- The condition on a step: a thread goes on in `BeginListing` only while no listing is open, and a
listing is closed while threads are waiting only if the longest-waiting one is first in the queue. -/
def Safe (l : DirectoryListing Path Entry) : Action Path Entry → Prop
  | .resume _ _ => l.requestBusy = false
  | .endListing t => l.currentReqThread = t → ∀ u us, l.pending = u :: us → l.waitingQueue.head? = some u
  | _ => True

variable {l l' : DirectoryListing Path Entry} {t : Nat} {path : Path}

theorem openListing_spec (h : l.openListing t path = .ok (r, l')) :
    ∃ entries, l.directories path = some entries ∧ l' = { l with
      requestBusy := true
      currentReqThread := t
      currentDirectoryList := some entries
      activity := update l.activity t .user
      opened := update l.opened t (some entries) } := by
  unfold openListing at h
  split at h
  · cases h
  · next entries hdir =>
    cases h
    exact ⟨entries, hdir, rfl⟩

theorem beginListing_cases (h : l.beginListing t path = .ok (r, l')) :
    l' = l ∨ l.requestBusy = true ∧ l' = { l with waitingQueue := l.waitingQueue ++ [t] }.block t
      path ∨ l.requestBusy = false ∧ ∃ n, l.openListing t path = .ok (n, l') := by
  unfold beginListing at h
  split at h
  · cases h
    exact .inl rfl
  · split at h
    · next hbusy =>
      cases h
      exact .inr (.inl ⟨hbusy, rfl⟩)
    · next hbusy =>
      obtain ⟨⟨n, l1⟩, hopen, h⟩ := bind_eq_ok.1 h
      cases h
      exact .inr (.inr ⟨by simpa using hbusy, n, hopen⟩)

/-- The listing is closed, before a thread is unblocked. -/
def closed (l : DirectoryListing Path Entry) (t : Nat) : DirectoryListing Path Entry :=
  { l with
    requestBusy := false
    currentReqThread := 0
    currentDirectoryList := none
    opened := update l.opened t none }

theorem endListing_cases (ht : t ≠ 0) :
    l.currentReqThread ≠ t ∧ l.endListing t = l ∨
      l.currentReqThread = t ∧ (l.waitingQueue = [] ∧ l.endListing t = l.closed t ∨
        ∃ u us, l.waitingQueue = u :: us ∧ l.endListing t = (l.closed t).unblock u) := by
  unfold endListing
  by_cases hc : l.currentReqThread = t
  · refine .inr ⟨hc, ?_⟩
    rw [if_neg (by rw [hc]; simp [ht])]
    dsimp only
    split
    · next hq => exact .inl ⟨hq, rfl⟩
    · next u us hq => exact .inr ⟨u, us, hq, rfl⟩
  · exact .inl ⟨hc, if_pos (.inl hc)⟩

theorem unblock_cases (u : Nat) : (∃ path, l.activity u = .waiting path ∧ l.unblock u =
      { l with
        activity := update l.activity u (.resuming path)
        pending := l.pending.erase u }) ∨
    (∀ path, l.activity u ≠ .waiting path) ∧ l.unblock u = l := by
  unfold unblock
  split
  · next path hw => exact .inl ⟨path, hw, rfl⟩
  · next hw => exact .inr ⟨hw, rfl⟩

theorem getEntry_some (h : l.getEntry t entry buf = .ok (some e)) : l.currentReqThread = t ∧ ∃
    entries, l.currentDirectoryList = some entries ∧ e ∈ entries := by
  unfold getEntry at h
  split at h
  · cases h
  · next hcur =>
    refine ⟨not_not.1 hcur, ?_⟩
    split at h
    · split at h
      · cases h
      · next entries hlist =>
        split at h
        · have he : entries[entry.toNat]? = some e := Except.ok.inj h
          exact ⟨entries, hlist, mem_of_getElem? he⟩
        · cases h
    · cases h

/-- The list of the service is the one of the thread that opened it last. -/
def Owner (l : DirectoryListing Path Entry) : Prop :=
  l.currentReqThread ≠ 0 → l.currentDirectoryList = l.opened l.currentReqThread

theorem Owner.openListing (h : l.openListing t path = .ok (r, l')) : l'.Owner := by
  obtain ⟨entries, -, rfl⟩ := openListing_spec h
  intro _
  simp

theorem Owner.endListing (ho : l.Owner) (ht : t ≠ 0) : (l.endListing t).Owner := by
  obtain ⟨-, he⟩ | ⟨-, ⟨-, he⟩ | ⟨u, us, -, he⟩⟩ := l.endListing_cases ht
  · rwa [he]
  · rw [he]
    exact fun h => absurd rfl h
  · rw [he]
    obtain ⟨path, -, hu⟩ | ⟨-, hu⟩ := (l.closed t).unblock_cases u
    · rw [hu]
      exact fun h => absurd rfl h
    · rw [hu]
      exact fun h => absurd rfl h

theorem Owner.step {a : Action Path Entry} (ho : l.Owner) (h : Step l a l') : l'.Owner := by
  cases h with
  | beginListing _ _ h =>
    obtain rfl | ⟨-, rfl⟩ | ⟨-, n, hopen⟩ := beginListing_cases h
    · exact ho
    · exact ho
    · exact .openListing hopen
  | resume _ _ h => exact .openListing h
  | getEntry => exact ho
  | endListing ht => exact ho.endListing ht
  | change => exact ho

/-- The invariant of runs whose steps meet the condition. -/
structure Inv (l : DirectoryListing Path Entry) : Prop where
  owner : ∀ t, (l.opened t).isSome → l.requestBusy = true ∧ l.currentReqThread = t
  busy : l.requestBusy = true → (l.opened l.currentReqThread).isSome
  free : l.requestBusy = false → l.currentReqThread = 0
  resuming : ∀ t path, l.activity t = .resuming path → l.opened t = none
  pending : ∀ t, t ∈ l.pending ↔ ∃ path, l.activity t = .waiting path
  nodup : l.pending.Nodup

section
variable (hi : l.Inv)
include hi

theorem Inv.oneOpen : l.OneOpen := fun t u ht hu =>
  (hi.owner t ht).2.symm.trans (hi.owner u hu).2

theorem Inv.opened_eq_none (hfree : l.requestBusy = false) (t : Nat) : l.opened t = none := by
  rw [← Option.not_isSome_iff_eq_none]
  intro h
  rw [(hi.owner t h).1] at hfree
  cases hfree

theorem Inv.openListing (hfree : l.requestBusy = false) (ht : ∀ path, l.activity t ≠ .waiting path)
    (h : l.openListing t path = .ok (r, l')) : l'.Inv := by
  obtain ⟨entries, -, rfl⟩ := openListing_spec h
  have hnone := hi.opened_eq_none hfree
  refine ⟨fun u hu => ⟨rfl, ?_⟩, fun _ => by simp, nofun, fun u p hu => ?_, fun u => ?_, hi.nodup⟩
  · by_contra hne
    simp [Ne.symm hne, hnone] at hu
  · have hne : u ≠ t := by
      rintro rfl
      simp at hu
    simp [hne, hnone]
  · by_cases hu : u = t
    · subst hu
      simpa [hi.pending] using ht
    · simpa [update_apply, hu] using hi.pending u

theorem Inv.block (ht : l.activity t = .user) (q : List Nat) :
    ({ l with waitingQueue := q }.block t path).Inv := by
  have hnot : t ∉ l.pending := by
    rw [hi.pending]
    simp [ht]
  refine ⟨hi.owner, hi.busy, hi.free, fun u p hu => ?_, fun u => ?_, ?_⟩
  · have hne : u ≠ t := by
      rintro rfl
      simp [DirectoryListing.block] at hu
    exact hi.resuming u p (by simpa [DirectoryListing.block, update_apply, hne] using hu)
  · by_cases hu : u = t
    · simp [DirectoryListing.block, hu]
    · simpa [DirectoryListing.block, update_apply, hu] using hi.pending u
  · exact nodup_append.2 ⟨hi.nodup, nodup_singleton t,
      fun a ha b hb => mem_singleton.1 hb ▸ ne_of_mem_of_not_mem ha hnot⟩

theorem Inv.closed (hc : l.currentReqThread = t) : (l.closed t).Inv := by
  have hnone : ∀ u, (l.closed t).opened u = none := by
    intro u
    by_cases hu : u = t
    · simp [DirectoryListing.closed, hu]
    · rw [← Option.not_isSome_iff_eq_none]
      intro h
      exact hu ((hi.owner u (by simpa [DirectoryListing.closed, hu] using h)).2.symm.trans hc)
  refine ⟨fun u hu => ?_, nofun, fun _ => rfl, fun u _ _ => hnone u, hi.pending, hi.nodup⟩
  rw [hnone] at hu
  cases hu

theorem Inv.unblock (hfree : l.requestBusy = false) (u : Nat) : (l.unblock u).Inv := by
  obtain ⟨path, hw, he⟩ | ⟨-, he⟩ := l.unblock_cases u
  · rw [he]
    refine ⟨hi.owner, hi.busy, hi.free, fun v _ _ => hi.opened_eq_none hfree v, fun v => ?_, hi.nodup.erase u⟩
    by_cases hv : v = u
    · simp [hv, hi.nodup.mem_erase_iff]
    · simpa [update_apply, hv, hi.nodup.mem_erase_iff] using hi.pending v
  · rwa [he]

theorem Inv.endListing (ht : t ≠ 0) : (l.endListing t).Inv := by
  obtain ⟨-, he⟩ | ⟨hc, ⟨-, he⟩ | ⟨u, us, -, he⟩⟩ := l.endListing_cases ht
  · rwa [he]
  · rw [he]
    exact hi.closed hc
  · rw [he]
    exact (hi.closed hc).unblock rfl u

theorem Inv.step {a : Action Path Entry} (h : guarded Safe Step l a l') : l'.Inv := by
  obtain ⟨hsafe, h⟩ := h
  cases h with
  | beginListing _ hu h =>
    obtain rfl | ⟨-, rfl⟩ | ⟨hfree, n, hopen⟩ := beginListing_cases h
    · exact hi
    · exact hi.block hu _
    · exact hi.openListing hfree (by simp [hu]) hopen
  | resume _ hr h => exact hi.openListing hsafe (by simp [hr]) h
  | getEntry => exact hi
  | endListing ht => exact hi.endListing ht
  | change => exact ⟨hi.owner, hi.busy, hi.free, hi.resuming, hi.pending, hi.nodup⟩

theorem Inv.unblocks_iff (ht : t ≠ 0) (hc : l.currentReqThread = t)
    (hp : l.pending = u :: us) : l.Unblocks u (l.endListing t) ↔ l.waitingQueue.head? = some u := by
  obtain ⟨path, hw⟩ := (hi.pending u).1 (by simp [hp])
  obtain ⟨hne, -⟩ | ⟨-, ⟨hq, he⟩ | ⟨v, vs, hq, he⟩⟩ := l.endListing_cases ht
  · exact absurd hc hne
  · rw [he, hq]
    refine ⟨fun h => ?_, nofun⟩
    obtain ⟨⟨path', -, hr⟩, -⟩ := h
    have hr : l.activity u = .resuming path' := hr
    rw [hw] at hr
    cases hr
  · rw [he, hq, head?_cons, Option.some.injEq]
    obtain ⟨path', hv, hun⟩ | ⟨hv, hun⟩ := (l.closed t).unblock_cases v
    · have hv : l.activity v = .waiting path' := hv
      rw [hun]
      constructor
      · intro h
        by_contra hne
        obtain ⟨⟨path2, -, hr⟩, -⟩ := h
        have hr : update l.activity v (.resuming path') u = .resuming path2 := hr
        rw [update_of_ne (Ne.symm hne), hw] at hr
        cases hr
      · rintro rfl
        refine ⟨⟨path', hv, ?_⟩, fun w hwv => ?_⟩
        · exact update_self ..
        · exact update_of_ne hwv ..
    · rw [hun]
      constructor
      · intro h
        obtain ⟨⟨path2, -, hr⟩, -⟩ := h
        have hr : l.activity u = .resuming path2 := hr
        rw [hw] at hr
        cases hr
      · rintro rfl
        exact absurd hw (hv path)

theorem Inv.safe_of_oneOpen (hr : l.activity t = .resuming path)
    (h : l.openListing t path = .ok (r, l')) (hone : l'.OneOpen) : l.requestBusy = false := by
  by_contra hbusy
  have hcur := hi.busy (by simpa using hbusy)
  obtain ⟨entries, -, rfl⟩ := openListing_spec h
  have hne : l.currentReqThread ≠ t := by
    intro he
    rw [he, hi.resuming t path hr] at hcur
    cases hcur
  refine hne (hone _ _ ?_ ?_)
  · simpa [update_apply, hne] using hcur
  · simp

theorem Inv.stepOk_iff (h : Step l a l') : l.StepOk a l' ↔ l.Safe a := by
  constructor
  · intro hok
    cases h with
    | resume _ hr h => exact hi.safe_of_oneOpen hr h hok.1
    | endListing ht =>
      exact fun hc u us hp => (hi.unblocks_iff ht hc hp).1 (hok.2 _ rfl hc u us hp)
    | _ => trivial
  · intro hsafe
    refine ⟨(hi.step ⟨hsafe, h⟩).oneOpen, ?_⟩
    rintro t rfl hc u us hp
    cases h with
    | endListing ht => exact (hi.unblocks_iff ht hc hp).2 (hsafe hc u us hp)

end

theorem inv_initial (directories : Path → Option (List Entry)) : (initial directories).Inv :=
  ⟨nofun, nofun, fun _ => rfl, fun _ _ _ => rfl, fun t => by simp [initial], .nil⟩

end DirectoryListing

open DirectoryListing

/-- An entry that `GetEntry` copies out is one of the directory that the calling thread has opened, in
every run. In every run whose steps meet the condition at most one listing is open and every end of a
listing while threads are waiting unblocks the longest-waiting one; the first step that does not meet
it loses this. -/
theorem listings_ok_iff_safe {Path Entry : Type} (directories : Path → Option (List Entry)) :
    (∀ as l, Run Step (initial directories) as l → ∀ t entry buf e l',
      Step l (.getEntry t entry buf (some e)) l' →
        ∃ entries, l.opened t = some entries ∧ e ∈ entries) ∧
    ∀ as l, Run (guarded Safe Step) (initial directories) as l →
      l.OneOpen ∧ ∀ a l', Step l a l' → (l.StepOk a l' ↔ l.Safe a) := by
  constructor
  · intro as l hrun t entry buf e l' h
    have ho : l.Owner := hrun.invariant (absurd rfl) fun _ _ _ ho h => ho.step h
    cases h with
    | getEntry ht _ h =>
      obtain ⟨rfl, entries, hlist, he⟩ := getEntry_some h
      exact ⟨entries, (ho ht).symm.trans hlist, he⟩
  · intro as l hrun
    have hi : l.Inv := hrun.invariant (inv_initial directories) fun _ _ _ hi h => hi.step h
    exact ⟨hi.oneOpen, fun a l' h => hi.stepOk_iff h⟩

/-- Two threads: the second waits for the first, which closes its listing. -/
theorem listings_ok_two_threads : ∃ l l' : DirectoryListing Unit Unit,
    Run (guarded Safe Step) (initial fun _ => some [()])
      [.beginListing 1 () (some 1), .beginListing 2 () none] l ∧
      Step l (.endListing 1) l' ∧ l.Safe (.endListing 1) ∧ l.StepOk (.endListing 1) l' := by
  obtain ⟨l, hrun, huser, hp, hq⟩ : ∃ l : DirectoryListing Unit Unit,
      Run (guarded Safe Step) (initial fun _ => some [()])
        [.beginListing 1 () (some 1), .beginListing 2 () none] l ∧
      l.activity 1 = .user ∧ l.pending = [2] ∧ l.waitingQueue = [2] := by
    refine ⟨_, (Run.nil.snoc (And.intro ?_ (.beginListing (by decide) rfl rfl))).snoc
      (And.intro ?_ (.beginListing (by decide) rfl rfl)), rfl, rfl, rfl⟩
    · trivial
    · trivial
  have hstep : Step l (.endListing 1) (l.endListing 1) := .endListing (by decide) huser
  have hsafe : l.Safe (.endListing 1) := by
    intro _ u us hpending
    rw [hp] at hpending
    cases hpending
    rw [hq]
    rfl
  exact ⟨_, _, hrun, hstep, hsafe, (((listings_ok_iff_safe _).2 _ _ hrun).2 _ _ hstep).2 hsafe⟩

/-- Three threads: the second waits for the first, and the third opens a listing after the first has
closed its own and before the second goes on. -/
theorem two_listings_open : ∃ l : DirectoryListing Unit Unit,
    Run Step (initial fun _ => some [()]) [.beginListing 1 () (some 1), .beginListing 2 () none,
      .endListing 1, .beginListing 3 () (some 1), .resume 2 1] l ∧
      l.opened 2 = some [()] ∧ l.opened 3 = some [()] ∧ ¬ l.OneOpen := by
  have hne : (2 : Nat) ≠ 0 := by decide
  refine ⟨_, ((((Run.nil.snoc (.beginListing (by decide) rfl rfl)).snoc
    (.beginListing (by decide) rfl rfl)).snoc (.endListing (by decide) rfl)).snoc
    (.beginListing (by decide) rfl rfl)).snoc (.resume hne rfl rfl), rfl, rfl, fun hone => ?_⟩
  exact absurd (hone 2 3 rfl rfl) (by decide)

end HeisenKernel.Listings
