import Mathlib.Data.List.Basic

/-!
# Lists of writes

A loop that only writes to a store, and never reads it back, is a list of writes.
-/

namespace HeisenKernel.Lib

open Function List

/-- A write of a value at an index. -/
structure Write (ε α : Type*) where
  index : Nat
  value : Except ε α

namespace Write

variable {ε α κ : Type*}

/-- The write, in a store with `size` places. -/
def exec (out : ε) (size : Nat) (f : Nat → α) (w : Write ε α) : Except ε (Nat → α) :=
  match w.value with
  | .error e => .error e
  | .ok v => if w.index < size then .ok (update f w.index v) else .error out

/-- The writes one after the other. -/
def runAll (out : ε) (size : Nat) (ws : List (Write ε α)) (f : Nat → α) : Except ε (Nat → α) :=
  ws.foldlM (fun f w => w.exec out size f) f

/-- The write is inside the store and has a value. -/
def Sound (size : Nat) (w : Write ε α) : Prop := w.index < size ∧ ∃ v, w.value = .ok v

variable {out : ε} {size : Nat} {w : Write ε α} {ws : List (Write ε α)} {f g f' g' : Nat → α}

theorem exec_eq_ok_iff : w.exec out size f = .ok g ↔
    ∃ v, w.value = .ok v ∧ w.index < size ∧ g = update f w.index v := by
  unfold exec
  cases hv : w.value with
  | error e => exact ⟨fun h => (nomatch h), fun ⟨v, h, _⟩ => (nomatch h)⟩
  | ok v =>
    dsimp only
    split
    · next hi =>
      refine ⟨fun h => ⟨v, rfl, hi, (Except.ok.inj h).symm⟩, ?_⟩
      rintro ⟨v', hv', -, rfl⟩
      rw [Except.ok.inj hv']
    · next hi => exact ⟨fun h => (nomatch h), fun ⟨_, _, h, _⟩ => absurd h hi⟩

theorem runAll_nil : runAll out size [] f = .ok f := rfl

theorem runAll_cons_eq_ok : runAll out size (w :: ws) f = .ok g ↔
    ∃ f', w.exec out size f = .ok f' ∧ runAll out size ws f' = .ok g := by
  rw [runAll, foldlM_cons]
  cases hw : w.exec out size f with
  | error e => exact ⟨fun h => (nomatch h), fun ⟨_, h, _⟩ => (nomatch h)⟩
  | ok f' => exact ⟨fun h => ⟨f', rfl, h⟩, fun ⟨_, h, h'⟩ => by cases h; exact h'⟩

theorem runAll_append_eq_ok : runAll out size (ws ++ ws') f = .ok g ↔
    ∃ f', runAll out size ws f = .ok f' ∧ runAll out size ws' f' = .ok g := by
  induction ws generalizing f with
  | nil => exact ⟨fun h => ⟨f, rfl, h⟩, fun ⟨_, h, h'⟩ => by cases h; exact h'⟩
  | cons w ws ih =>
    rw [cons_append, runAll_cons_eq_ok]
    constructor
    · rintro ⟨f1, hw, h⟩
      obtain ⟨f', h1, h2⟩ := ih.1 h
      exact ⟨f', runAll_cons_eq_ok.2 ⟨f1, hw, h1⟩, h2⟩
    · rintro ⟨f', h, h2⟩
      obtain ⟨f1, hw, h1⟩ := runAll_cons_eq_ok.1 h
      exact ⟨f1, hw, ih.2 ⟨f', h1, h2⟩⟩

theorem sound_of_runAll (h : runAll out size ws f = .ok g) : ∀ w ∈ ws, w.Sound size := by
  induction ws generalizing f with
  | nil => exact fun w hw => (nomatch hw)
  | cons w ws ih =>
    obtain ⟨f', hw, h'⟩ := runAll_cons_eq_ok.1 h
    obtain ⟨v, hv, hi, -⟩ := exec_eq_ok_iff.1 hw
    exact forall_mem_cons.2 ⟨⟨hi, v, hv⟩, ih h'⟩

theorem runAll_of_sound (out : ε) (f : Nat → α) (h : ∀ w ∈ ws, w.Sound size) :
    ∃ g, runAll out size ws f = .ok g := by
  induction ws generalizing f with
  | nil => exact ⟨f, rfl⟩
  | cons w ws ih =>
    obtain ⟨⟨hi, v, hv⟩, hws⟩ := forall_mem_cons.1 h
    obtain ⟨g, hg⟩ := ih (update f w.index v) hws
    exact ⟨g, runAll_cons_eq_ok.2 ⟨_, exec_eq_ok_iff.2 ⟨v, hv, hi, rfl⟩, hg⟩⟩

theorem runAll_eq_ok_iff (out : ε) (f : Nat → α) :
    (∃ g, runAll out size ws f = .ok g) ↔ ∀ w ∈ ws, w.Sound size :=
  ⟨fun ⟨_, h⟩ => sound_of_runAll h, runAll_of_sound out f⟩

theorem runAll_untouched (h : runAll out size ws f = .ok g) (hi : ∀ w ∈ ws, w.index ≠ i) : g i = f i := by
  induction ws generalizing f with
  | nil =>
    rw [runAll_nil] at h
    rw [Except.ok.inj h]
  | cons w ws ih =>
    obtain ⟨f', hw, h'⟩ := runAll_cons_eq_ok.1 h
    obtain ⟨v, -, -, rfl⟩ := exec_eq_ok_iff.1 hw
    rw [forall_mem_cons] at hi
    rw [ih h' hi.2, update_of_ne (Ne.symm hi.1)]

theorem runAll_touched (h : runAll out size ws f = .ok g) (h' : runAll out size ws f' = .ok g')
    (hi : ∃ w ∈ ws, w.index = i) : g i = g' i := by
  induction ws generalizing f f' with
  | nil =>
    obtain ⟨w, hw, -⟩ := hi
    exact (nomatch hw)
  | cons w ws ih =>
    obtain ⟨f1, hw, h1⟩ := runAll_cons_eq_ok.1 h
    obtain ⟨f1', hw', h1'⟩ := runAll_cons_eq_ok.1 h'
    by_cases hrest : ∃ w ∈ ws, w.index = i
    · exact ih h1 h1' hrest
    · have huntouched : ∀ w ∈ ws, w.index ≠ i := fun x hx hxi => hrest ⟨x, hx, hxi⟩
      obtain ⟨x, hx, hxi⟩ := hi
      rcases mem_cons.1 hx with rfl | hx
      · obtain ⟨v, hv, -, rfl⟩ := exec_eq_ok_iff.1 hw
        obtain ⟨v', hv', -, rfl⟩ := exec_eq_ok_iff.1 hw'
        rw [runAll_untouched h1 huntouched, runAll_untouched h1' huntouched, ← hxi, update_self, update_self]
        exact Except.ok.inj (hv.symm.trans hv')
      · exact absurd hxi (huntouched x hx)

theorem runAll_last (h : runAll out size (ws ++ w :: ws') f = .ok g)
    (hv : w.value = .ok v) (hlast : ∀ x ∈ ws', x.index ≠ w.index) : g w.index = v := by
  obtain ⟨f1, -, h1⟩ := runAll_append_eq_ok.1 h
  obtain ⟨f2, hw, h2⟩ := runAll_cons_eq_ok.1 h1
  obtain ⟨v', hv', -, rfl⟩ := exec_eq_ok_iff.1 hw
  rw [runAll_untouched h2 hlast, update_self]
  exact Except.ok.inj (hv'.symm.trans hv)

/-- The writes of the values `v` of some keys at the places `index` of these keys. -/
def ofKeys (keys : List κ) (index : κ → Nat) (v : κ → Except ε α) : List (Write ε α) :=
  keys.map fun k => ⟨index k, v k⟩

variable {keys : List κ} {index : κ → Nat} {a : κ → Except ε α} {front back : List (Write ε α)}

theorem forall_mem_ofKeys {p : Write ε α → Prop} :
    (∀ w ∈ ofKeys keys index a, p w) ↔ ∀ k ∈ keys, p ⟨index k, a k⟩ := forall_mem_map

theorem exists_last {p : κ → Prop} (h : ∃ k ∈ keys, p k) :
    ∃ l k r, keys = l ++ k :: r ∧ p k ∧ ∀ x ∈ r, ¬p x := by
  induction keys with
  | nil =>
    obtain ⟨k, hk, -⟩ := h
    exact (nomatch hk)
  | cons x keys ih =>
    by_cases hrest : ∃ k ∈ keys, p k
    · obtain ⟨l, k, r, hkeys, hk, hr⟩ := ih hrest
      exact ⟨x :: l, k, r, congrArg (x :: ·) hkeys, hk, hr⟩
    · obtain ⟨k, hk, hp⟩ := h
      rcases mem_cons.1 hk with rfl | hk
      · exact ⟨[], k, keys, rfl, hp, fun y hy hpy => hrest ⟨y, hy, hpy⟩⟩
      · exact absurd ⟨k, hk, hp⟩ hrest

theorem runAll_hidden (ha : runAll out size (front ++ (ofKeys keys index a ++ back)) f = .ok g)
    (hb : runAll out size (front ++ (ofKeys keys index b ++ back)) f = .ok g')
    (hidden : ∀ k ∈ keys, ∃ w ∈ back, w.index = index k) : g = g' := by
  obtain ⟨f1, hf1, ha1⟩ := runAll_append_eq_ok.1 ha
  obtain ⟨f1', hf1', hb1⟩ := runAll_append_eq_ok.1 hb
  obtain rfl := Except.ok.inj (hf1.symm.trans hf1')
  obtain ⟨f2, ha2, ha3⟩ := runAll_append_eq_ok.1 ha1
  obtain ⟨f2', hb2, hb3⟩ := runAll_append_eq_ok.1 hb1
  funext i
  by_cases hi : ∃ w ∈ back, w.index = i
  · exact runAll_touched ha3 hb3 hi
  · have hback : ∀ w ∈ back, w.index ≠ i := fun w hw hwi => hi ⟨w, hw, hwi⟩
    have hkeys : ∀ k ∈ keys, index k ≠ i := by
      rintro k hk rfl
      exact hi (hidden k hk)
    rw [runAll_untouched ha3 hback, runAll_untouched hb3 hback,
      runAll_untouched ha2 (forall_mem_ofKeys.2 hkeys), runAll_untouched hb2 (forall_mem_ofKeys.2 hkeys)]

theorem runAll_shown (h : runAll out size (front ++ (ofKeys (l ++ k :: r) index a ++ back)) f = .ok g)
    (hv : a k = .ok v) (hr : ∀ x ∈ r, index x ≠ index k) (hback : ∀ w ∈ back, w.index ≠ index k) : g
    (index k) = v := by
  have hsplit : front ++ (ofKeys (l ++ k :: r) index a ++ back) =
      (front ++ ofKeys l index a) ++ ⟨index k, a k⟩ :: (ofKeys r index a ++ back) := by
    simp only [ofKeys, map_append, map_cons, append_assoc, cons_append]
  rw [hsplit] at h
  exact runAll_last h hv (forall_mem_append.2 ⟨forall_mem_map.2 hr, hback⟩)

/-- The keys of a loop over rows with a loop over columns in it. -/
def grid (rows cols : Nat) : List (Nat × Nat) :=
  (List.range rows).flatMap fun y => (List.range cols).map fun x => (y, x)

theorem mem_grid : k ∈ grid rows cols ↔ k.1 < rows ∧ k.2 < cols := by
  simp only [grid, mem_flatMap, mem_map, mem_range]
  constructor
  · rintro ⟨y, hy, x, hx, rfl⟩
    exact ⟨hy, hx⟩
  · exact fun h => ⟨k.1, h.1, k.2, h.2, rfl⟩

end Write

end HeisenKernel.Lib
