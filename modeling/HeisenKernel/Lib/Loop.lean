import Mathlib.Data.List.Basic

/-!
# Loops

A loop that returns at the first index it accepts is `List.findSome?` over a range.
-/

namespace HeisenKernel.Lib

open List

theorem findSome?_congr {l : List α} (h : ∀ a ∈ l, f a = g a) : l.findSome? f = l.findSome? g := by
  induction l with
  | nil => rfl
  | cons a l ih =>
    rw [findSome?_cons, findSome?_cons, h a mem_cons_self, ih (forall_mem_cons.1 h).2]

theorem findSome?_range_mul (f : Nat → Option β) (n w : Nat) :
    ((List.range n).findSome? fun i => (List.range w).findSome? fun j => f (i * w + j)) =
      (List.range (n * w)).findSome? f := by
  induction n with
  | zero => simp
  | succ n ih =>
    rw [range_succ, findSome?_append, ih, Nat.succ_mul, range_add,
      findSome?_append, findSome?_map, findSome?_singleton]
    rfl

theorem getElem?_flatMap_range {α : Type*} {f : Nat → List α} {w : Nat} (hw : ∀ i, (f i).length = w)
    {n i j : Nat} (hi : i < n) (hj : j < w) : ((List.range n).flatMap f)[i * w + j]? = (f i)[j]? := by
  have hlen : ∀ k, ((range k).flatMap f).length = k * w := by
    intro k
    simp [length_flatMap, hw]
  induction n with
  | zero => exact absurd hi (Nat.not_lt_zero i)
  | succ n ih =>
    rw [range_succ, flatMap_append, flatMap_singleton]
    rcases Nat.lt_succ_iff_lt_or_eq.1 hi with hlt | rfl
    · have hin : i * w + j < n * w := by
        have := Nat.mul_le_mul_right w hlt
        rw [Nat.succ_mul] at this
        omega
      rw [getElem?_append_left (by rw [hlen]; exact hin), ih hlt]
    · rw [getElem?_append_right (by rw [hlen]; omega), hlen, Nat.add_sub_cancel_left]

theorem foldl_last {σ α : Type*} {f : σ → α → σ} (h : ∀ s a b, f (f s a) b = f s b) (l : List α) (s : σ)
    (b : α) : f (l.foldl f s) b = f s b := by
  induction l generalizing s with
  | nil => rfl
  | cons a l ih => rw [foldl_cons, ih, h]

theorem foldlM_rel {σ α ε : Type*} {f : σ → α → Except ε σ} {R : σ → σ → Prop} (refl : ∀ s, R s s)
    (trans : ∀ {s1 s2 s3}, R s1 s2 → R s2 s3 → R s1 s3) {l : List α}
    (step : ∀ a ∈ l, ∀ s s', f s a = .ok s' → R s s') {s s' : σ} (h : l.foldlM f s = .ok s') : R s s' := by
  induction l generalizing s with
  | nil =>
    cases h
    exact refl _
  | cons a l ih =>
    rw [foldlM_cons] at h
    cases hf : f s a with
    | error e => rw [hf] at h; cases h
    | ok s1 =>
      rw [hf] at h
      exact trans (step a mem_cons_self s s1 hf) (ih (forall_mem_cons.1 step).2 h)

theorem foldlM_returns {σ α ε : Type*} {f : σ → α → Except ε σ} {I : σ → Prop} {l : List α}
    (step : ∀ a ∈ l, ∀ s, I s → ∃ s', f s a = .ok s' ∧ I s') {s : σ} (hs : I s) :
    ∃ s', l.foldlM f s = .ok s' ∧ I s' := by
  induction l generalizing s with
  | nil => exact ⟨s, rfl, hs⟩
  | cons a l ih =>
    obtain ⟨s1, hf, hs1⟩ := step a mem_cons_self s hs
    obtain ⟨s', hl, hs'⟩ := ih (forall_mem_cons.1 step).2 hs1
    refine ⟨s', ?_, hs'⟩
    rw [foldlM_cons, hf]
    exact hl

/-- A fallible step returns exactly under `p`, and then with the invariant. -/
structure ReturnsIff {σ ε : Type*} (I : σ → Prop) (r : Except ε σ) (p : Prop) : Prop where
  returns : p → ∃ s, r = .ok s
  keeps : ∀ s, r = .ok s → p ∧ I s

/-- Every element of the list finds a state with `P`, for as long as the loop goes on. -/
def Allows {σ α ε : Type*} (f : σ → α → Except ε σ) (P : σ → α → Prop) : List α → σ → Prop
  | [], _ => True
  | a :: l, s => P s a ∧ ∀ s', f s a = .ok s' → Allows f P l s'

theorem foldlM_returnsIff {σ α ε : Type*} {f : σ → α → Except ε σ} {I : σ → Prop} {P : σ → α → Prop}
    (step : ∀ s a, I s → ReturnsIff I (f s a) (P s a)) (l : List α) {s : σ} (hs : I s) :
    ReturnsIff I (l.foldlM f s) (Allows f P l s) := by
  induction l generalizing s with
  | nil => exact ⟨fun _ => ⟨s, rfl⟩, fun t h => ⟨trivial, by cases h; exact hs⟩⟩
  | cons a l ih =>
    have ha := step s a hs
    rw [foldlM_cons, Allows]
    cases hf : f s a with
    | error e => exact ⟨fun h => absurd (hf ▸ ha.returns h.1) nofun, nofun⟩
    | ok s₁ =>
      obtain ⟨hP, hs₁⟩ := ha.keeps s₁ hf
      refine ⟨fun h => (ih hs₁).returns (h.2 s₁ rfl), fun t h => ?_⟩
      obtain ⟨hl, ht⟩ := (ih hs₁).keeps t h
      exact ⟨⟨hP, fun s' h' => Except.ok.inj h' ▸ hl⟩, ht⟩

theorem foldlM_range {σ ε : Type*} {f : σ → Nat → Except ε σ} {I : Nat → σ → Prop}
    (step : ∀ i < n, ∀ s, I i s → ∃ s', f s i = .ok s' ∧ I (i + 1) s') {s : σ} (hs : I 0 s) :
    ∃ s', (List.range n).foldlM f s = .ok s' ∧ I n s' := by
  induction n with
  | zero => exact ⟨s, rfl, hs⟩
  | succ n ih =>
    obtain ⟨s1, hloop, hs1⟩ := ih fun i hi => step i (Nat.lt_succ_of_lt hi)
    obtain ⟨s', hf, hs'⟩ := step n (Nat.lt_succ_self n) s1 hs1
    refine ⟨s', ?_, hs'⟩
    rw [range_succ, foldlM_append, hloop]
    show foldlM f s1 [n] = _
    rw [foldlM_cons, hf]
    rfl

theorem foldlM_congr {σ α ε : Type*} {f g : σ → α → Except ε σ} {l : List α}
    (h : ∀ a ∈ l, ∀ s, f s a = g s a) (s : σ) : l.foldlM f s = l.foldlM g s := by
  induction l generalizing s with
  | nil => rfl
  | cons a l ih =>
    rw [foldlM_cons, foldlM_cons, h a mem_cons_self]
    exact congrArg _ (funext (ih (forall_mem_cons.1 h).2))

variable {m : Type → Type} [Monad m] {σ α β : Type}

/-- A loop whose body may leave the function around it: `.inl` is the state for the next pass, `.inr`
the value that is returned. -/
def forReturn (body : σ → α → m (σ ⊕ β)) : σ → List α → m (σ ⊕ β)
  | s, [] => pure (.inl s)
  | s, a :: l => do
    match ← body s a with
    | .inl s => forReturn body s l
    | .inr b => pure (.inr b)

/-- What comes behind a loop: it is skipped when the loop has returned. -/
def orElse (f : σ → m (σ ⊕ β)) : σ ⊕ β → m (σ ⊕ β)
  | .inl s => f s
  | .inr b => pure (.inr b)

theorem forReturn_cons (body : σ → α → m (σ ⊕ β)) (s : σ) (a : α) (l : List α) :
    forReturn body s (a :: l) = body s a >>= orElse fun s => forReturn body s l := by
  rw [forReturn]
  congr 1

theorem forReturn_map (body : σ → α → m (σ ⊕ β)) (f : α' → α) (s : σ) (l : List α') :
    forReturn body s (l.map f) = forReturn (fun s a => body s (f a)) s l := by
  induction l generalizing s with
  | nil => rfl
  | cons a l ih =>
    rw [map_cons, forReturn_cons, forReturn_cons]
    congr 2
    funext s
    exact ih s

variable [LawfulMonad m]

theorem orElse_bind (f k : σ → m (σ ⊕ β)) (r : σ ⊕ β) :
    (orElse f r >>= orElse k) = orElse (fun s => f s >>= orElse k) r := by
  cases r with
  | inl s => rfl
  | inr b => exact pure_bind ..

theorem forReturn_append (body : σ → α → m (σ ⊕ β)) (s : σ) (l l' : List α) :
    forReturn body s (l ++ l') = forReturn body s l >>= orElse fun s => forReturn body s l' := by
  induction l generalizing s with
  | nil =>
    show _ = (pure (.inl s) : m (σ ⊕ β)) >>= _
    rw [pure_bind]
    rfl
  | cons a l ih =>
    rw [cons_append, forReturn_cons, forReturn_cons, bind_assoc]
    congr 1
    funext r
    rw [orElse_bind]
    congr 1
    funext s
    exact ih s

theorem forReturn_flatMap (body : σ → α → m (σ ⊕ β)) (f : α' → List α) (s : σ) (l : List α') :
    forReturn body s (l.flatMap f) = forReturn (fun s a => forReturn body s (f a)) s l := by
  induction l generalizing s with
  | nil => rfl
  | cons a l ih =>
    rw [flatMap_cons, forReturn_append, forReturn_cons]
    congr 2
    funext s
    exact ih s

theorem forReturn_range {τ ε σ β : Type} {f : σ → Nat → StateT τ (Except ε) (σ ⊕ β)}
    {I : Nat → σ → τ → Prop} {a : σ} {s : τ} (h : I 0 a s)
    (step : ∀ i < n, ∀ a s, I i a s → ∃ a' s', f a i s = .ok (.inl a', s') ∧ I (i + 1) a' s') :
    ∃ a' s', forReturn f a (List.range n) s = .ok (.inl a', s') ∧ I n a' s' := by
  induction n with
  | zero => exact ⟨a, s, rfl, h⟩
  | succ n ih =>
    obtain ⟨a1, s1, hloop, h1⟩ := ih fun i hi => step i (Nat.lt_succ_of_lt hi)
    obtain ⟨a', s', hf, h'⟩ := step n (Nat.lt_succ_self n) a1 s1 h1
    refine ⟨a', s', ?_, h'⟩
    rw [range_succ, forReturn_append]
    show (forReturn f a (range n) s >>= fun r =>
      orElse (fun a => forReturn f a [n]) r.1 r.2) = _
    rw [hloop]
    show forReturn f a1 [n] s1 = _
    rw [forReturn_cons]
    show (f a1 n s1 >>= fun r => orElse (fun a => forReturn f a []) r.1 r.2) = _
    rw [hf]
    rfl

end HeisenKernel.Lib
