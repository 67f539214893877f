import Mathlib.Data.List.Find
import HeisenKernel.KernelHeap.Client

/-!
# Where the bytes of the kernel heap go

The blocks of the heap and their headers take `footprint` bytes.
-/

namespace HeisenKernel

open Lib Function List KernelHeap

/-- The bytes that the blocks of a list take together with their headers. -/
def footprint (l : List Block) : Nat := (l.map fun b => b.size + sizeofMemoryHeader).sum

/-- A request for `size` bytes takes all of the block `b` or leaves enough of it for a split. -/
def Block.Snug (b : Block) (size : Nat) : Prop :=
  b.size = size ∨ size + sizeofMemoryHeader + minimalSplitSize ≤ b.size

variable {l : List Block} {b : Block} {size : Nat}

@[simp] theorem footprint_nil : footprint [] = 0 := rfl

@[simp] theorem footprint_cons : footprint (b :: l) = b.size + sizeofMemoryHeader + footprint l := rfl

@[simp] theorem footprint_append : footprint (l1 ++ l2) = footprint l1 + footprint l2 := by
  simp [footprint]

theorem footprint_carve (hle : size ≤ b.size) :
    footprint (b.carve size) ≤ b.size + sizeofMemoryHeader ∧
      (footprint (b.carve size) = b.size + sizeofMemoryHeader ↔ b.Snug size) := by
  unfold Block.carve Block.Snug
  split
  · next hfit =>
    simp only [footprint_cons, footprint_nil, sizeofMemoryHeader, minimalSplitSize] at hfit ⊢
    omega
  · next hfit =>
    simp only [footprint_cons, footprint_nil, sizeofMemoryHeader, minimalSplitSize] at hfit ⊢
    omega

theorem footprint_mergeBack :
    footprint (mergeBack l1 b).1 + ((mergeBack l1 b).2.size + sizeofMemoryHeader) =
      footprint l1 + (b.size + sizeofMemoryHeader) := by
  unfold mergeBack
  rcases eq_nil_or_concat l1 with rfl | ⟨l0, p, rfl⟩
  · rfl
  · rw [concat_eq_append]
    simp only [getLast?_append, getLast?_singleton, Option.some_or, dropLast_concat]
    split
    · rfl
    · simp only [Block.absorb, footprint_append, footprint_cons, footprint_nil]
      omega

theorem footprint_mergeFront : footprint (mergeFront b l2) = b.size + sizeofMemoryHeader + footprint l2 := by
  cases l2 with
  | nil => rfl
  | cons n l2 =>
    simp only [mergeFront]
    split
    · rfl
    · simp only [Block.absorb, footprint_cons]
      omega

theorem footprint_release : footprint (release l1 b l2) = footprint (l1 ++ b :: l2) := by
  have hback : _ = footprint l1 + (b.size + sizeofMemoryHeader) :=
    footprint_mergeBack (b := { b with allocated := false })
  simp only [release, footprint_append, footprint_mergeFront, footprint_cons]
  omega

/-- The block that a request for memory gets is used up or split. -/
def SnugStep (l : List Block) : HeapRequest → Prop
  | .malloc size => ∀ b, l.find? (KernelHeap.Fits (alignUp size 4)) = some b → b.Snug (alignUp size 4)
  | _ => True

theorem BlockStep.footprint (h : BlockStep l r l') :
    footprint l' ≤ footprint l ∧ (footprint l' = footprint l ↔ SnugStep l r) := by
  cases h with
  | @malloc l1 l2 b size hfind =>
    have hle := (fits_iff.1 (find?_some hfind)).2
    obtain ⟨hcarve, hiff⟩ := footprint_carve hle
    have hsnug : SnugStep (l1 ++ b :: l2) (.malloc size) ↔ b.Snug (alignUp size 4) := by
      simp only [SnugStep, hfind, Option.some.injEq, forall_eq']
    rw [hsnug, ← hiff]
    simp only [footprint_append, footprint_cons]
    omega
  | free =>
    rw [footprint_release]
    exact ⟨le_refl _, by simp [SnugStep]⟩
  | store => exact ⟨le_refl _, by simp [SnugStep]⟩

theorem Layout.eq_singleton (hl : Layout start stop l)
    (hfree : ∀ b ∈ l, b.allocated = false) (hfoot : footprint l = stop - start)
    (hlt : start < stop) : l = [⟨start, stop - start - sizeofMemoryHeader, false⟩] := by
  cases l with
  | nil =>
    rw [footprint_nil] at hfoot
    omega
  | cons b l =>
    cases l with
    | nil =>
      obtain ⟨addr, size, allocated⟩ := b
      obtain rfl : allocated = false := hfree _ (mem_singleton_self _)
      have hb := hl.bounds _ (mem_singleton_self _)
      simp only [footprint_cons, footprint_nil, Block.stop, List.cons.injEq, Block.mk.injEq,
        and_true] at hfoot hb ⊢
      omega
    | cons c l =>
      have hbc := (isChain_cons.1 hl.coalesced).1 c (by simp)
      rw [hfree b (by simp), hfree c (by simp)] at hbc
      simp at hbc

namespace KernelHeap

/-- The sizes of the blocks in the header list and 20 bytes for each header make up the range. -/
def Conserved (h : KernelHeap) (start stop : Nat) : Prop :=
  ∃ l, h.Headers h.firstHeader l ∧ (l.map fun x => h.field x .size + sizeofMemoryHeader).sum = stop - start

/-- The header list is a single free block that takes the whole range. -/
def SingleFree (h : KernelHeap) (start stop : Nat) : Prop :=
  h.Headers h.firstHeader [start] ∧ h.field start .allocated = 0 ∧
    h.field start .size = stop - start - sizeofMemoryHeader

/-- The first free block of the header list that is large enough for the request is used up by it or
leaves enough for a split. -/
def Snug (h : KernelHeap) (request : Nat) : Prop :=
  ∀ l x, h.Headers h.firstHeader l →
    l.find? (fun x => h.field x .allocated = 0 && alignUp request 4 ≤ h.field x .size) = some x →
    h.field x .size = alignUp request 4 ∨
      alignUp request 4 + sizeofMemoryHeader + minimalSplitSize ≤ h.field x .size

variable {h : KernelHeap} {start stop : Nat}

theorem Headers.unique (hr : h.Headers block r) (hr' : h.Headers block r') : r = r' := by
  induction r generalizing block r' with
  | nil =>
    cases r' with
    | nil => rfl
    | cons y r' => exact absurd (hr'.1.symm.trans hr) hr'.2.1
  | cons x r ih =>
    cases r' with
    | nil => exact absurd (hr.1.symm.trans hr') hr.2.1
    | cons y r' =>
      obtain ⟨rfl, -, hr⟩ := hr
      obtain ⟨rfl, -, hr'⟩ := hr'
      rw [ih hr hr']

theorem Inv.conserved_iff (hi : h.Inv l) : h.Conserved start stop ↔ footprint l = stop - start := by
  have hheaders := hi.wellFormed.headers
  have hsum : ((l.map Block.addr).map fun x => h.field x .size + sizeofMemoryHeader).sum = footprint l := by
    rw [map_map, footprint]
    congr 1
    refine map_congr_left fun b hb => ?_
    simp only [comp_apply, (hi.rep.headers b hb).2.2]
  constructor
  · rintro ⟨l', hl', hconserved⟩
    rw [← hsum, hheaders.unique hl', hconserved]
  · intro hfoot
    exact ⟨_, hheaders, hsum.trans hfoot⟩

theorem Inv.snug_iff (hi : h.Inv l) : h.Snug request ↔ SnugStep l (.malloc request) := by
  have hheaders := hi.wellFormed.headers
  have hfind : (l.map Block.addr).find?
      (fun x => h.field x .allocated = 0 && alignUp request 4 ≤ h.field x .size) =
        (l.find? (Fits (alignUp request 4))).map Block.addr := by
    rw [find?_map]
    congr 1
    refine find?_congr fun b hb => ?_
    obtain ⟨-, ha, hs⟩ := hi.rep.headers b hb
    simp only [comp_apply, Fits, ha, hs]
    cases b.allocated <;> simp
  constructor
  · intro hsnug b hb
    have hmem := mem_of_find?_eq_some hb
    have := hsnug _ b.addr hheaders (by rw [hfind, hb]; rfl)
    rwa [(hi.rep.headers b hmem).2.2] at this
  · intro hsnug l' x hl' hx
    rw [← hheaders.unique hl', hfind, Option.map_eq_some_iff] at hx
    obtain ⟨b, hb, rfl⟩ := hx
    rw [(hi.rep.headers b (mem_of_find?_eq_some hb)).2.2]
    exact hsnug b hb

end KernelHeap

/-- A client's request for memory is snug. -/
def Client.Snug (c : Client) : HeapRequest → Prop
  | .malloc size => c.heap.Snug size
  | _ => True

variable {start stop : Nat} {c : Client} {r : HeapRequest} {rs : List HeapRequest}

theorem ClientInv.snug_iff (hi : ClientInv start stop c l) : c.Snug r ↔ SnugStep l r := by
  cases r with
  | malloc size => exact hi.inv.snug_iff
  | free ptr => exact Iff.rfl
  | store addr value => exact Iff.rfl

theorem Client.step_unique (c : Client) (r : HeapRequest) (c1 c2 : Client) (h₁ : c.Step r c1)
    (h₂ : c.Step r c2) : c1 = c2 := by
  cases h₁ with
  | malloc hm =>
    cases h₂ with
    | malloc hm' =>
      rw [hm] at hm'
      cases hm'
      rfl
  | free _ hf =>
    cases h₂ with
    | free _ hf' =>
      rw [hf] at hf'
      cases hf'
      rfl
  | store =>
    cases h₂ with
    | store => rfl

theorem ClientInv.footprint_run {mem : Nat → Nat} (hlt : start < stop)
    (hstop : stop < 2 ^ 32) (hinit : initializeRange mem start stop = .ok h₀)
    (hrun : Run Client.Step ⟨h₀, []⟩ rs c) :
    ∃ l, ClientInv start stop c l ∧ footprint l ≤ stop - start ∧
      (footprint l = stop - start ↔ start ≠ 0 ∧ Run (guarded Client.Snug Client.Step) ⟨h₀, []⟩ rs c) := by
  induction hrun with
  | nil =>
    have hpage : start % pageSize = 0 ∧ stop % pageSize = 0 := by
      unfold initializeRange at hinit
      split at hinit
      · cases hinit
      · next hpage => omega
    refine ⟨_, .initial hlt hstop hinit, ?_⟩
    simp only [pageSize] at hpage
    unfold initialBlocks
    split
    · next h0 =>
      simp only [footprint_nil, h0, ne_eq, not_true_eq_false, false_and, iff_false]
      omega
    · next h0 =>
      have hnil : Run (guarded Client.Snug Client.Step) ⟨h₀, []⟩ [] ⟨h₀, []⟩ := .nil
      simp only [footprint_cons, footprint_nil, sizeofMemoryHeader, ne_eq, h0, not_false_eq_true,
        true_and, hnil, iff_true]
      omega
  | @snoc rs t u r hrun hstep ih =>
    obtain ⟨l, hi, hle, hiff⟩ := ih
    obtain ⟨l', hblock, hi'⟩ := hi.simulates hstep
    obtain ⟨hle', hiff'⟩ := hblock.footprint
    refine ⟨l', hi', le_trans hle' hle, ?_⟩
    constructor
    · intro hfoot
      obtain ⟨h0, hguarded⟩ := hiff.1 (by omega)
      exact ⟨h0, hguarded.snoc ⟨hi.snug_iff.2 (hiff'.1 (by omega)), hstep⟩⟩
    · rintro ⟨h0, hguarded⟩
      obtain ⟨v, hv, hsnug, -⟩ := hguarded.of_snoc
      obtain rfl : v = t := hv.of_guarded.unique Client.step_unique hrun
      rw [hiff'.2 (hi.snug_iff.1 hsnug), hiff.2 ⟨h0, hv⟩]

/-- After every sequence of requests of a client, the blocks of the heap and their headers make up the
whole range, and a heap without live pointers is a single free block again, exactly if the range does
not start at the null pointer and every block that `malloc` handed out was used up or split. -/
theorem kernelHeap_conserved_iff (mem : Nat → Nat) (start stop : Nat)
    (hstart : start % pageSize = 0) (hend : stop % pageSize = 0) (hlt : start < stop)
    (hstop : stop < 2 ^ 32) :
    ∃ h₀, initializeRange mem start stop = .ok h₀ ∧
      ∀ rs c, Run Client.Step ⟨h₀, []⟩ rs c →
        (c.heap.Conserved start stop ∧ (c.live = [] → c.heap.SingleFree start stop) ↔
          start ≠ 0 ∧ Run (guarded Client.Snug Client.Step) ⟨h₀, []⟩ rs c) := by
  have hpage : ¬ (start % pageSize ≠ 0 ∨ stop % pageSize ≠ 0) := by omega
  refine ⟨_, if_neg hpage, fun rs c hrun => ?_⟩
  obtain ⟨l, hi, -, hiff⟩ := ClientInv.footprint_run hlt hstop (if_neg hpage) hrun
  rw [hi.inv.conserved_iff, ← hiff, and_iff_left_iff_imp]
  intro hfoot hlive
  have hfree : ∀ b ∈ l, b.allocated = false := by
    intro b hb
    cases ha : b.allocated with
    | false => rfl
    | true =>
      have hmem := (hi.live.mem_iff b.ptr).2 ⟨b, hb, ha, rfl⟩
      rw [hlive] at hmem
      cases hmem
  have hlayout : Layout start stop l := by
    have hl := hi.inv.layout
    rwa [hi.start_eq, hi.stop_eq] at hl
  obtain rfl := hlayout.eq_singleton hfree hfoot hlt
  obtain ⟨-, ha, hs⟩ := hi.inv.rep.headers _ (mem_singleton_self _)
  exact ⟨hi.inv.wellFormed.headers, ha.2 rfl, hs⟩

/-- A client of the page at 4096 takes 8 bytes and gives them back. -/
theorem kernelHeap_conserved_iff_page :
    ∃ h₀ c, initializeRange (fun _ => 0) 4096 8192 = .ok h₀ ∧ Run (guarded Client.Snug Client.Step) ⟨h₀, []⟩
      [.malloc 8, .free 4116] c ∧ c.heap.Conserved 4096 8192 ∧ c.heap.SingleFree 4096 8192 := by
  obtain ⟨h₀, hinit, hiff⟩ := kernelHeap_conserved_iff (fun _ => 0) 4096 8192 (by decide)
    (by decide) (by decide) (by decide)
  have hcalls : ∃ h₁ h₂, h₀.malloc 8 = .ok (4116, h₁) ∧ h₁.free 4116 = .ok h₂ := by
    cases hinit
    exact ⟨_, _, rfl, rfl⟩
  obtain ⟨h₁, h₂, hm, hf⟩ := hcalls
  have hsnug : Client.Snug ⟨h₀, []⟩ (.malloc 8) := by
    rw [(ClientInv.initial (by decide) (by decide) hinit).snug_iff]
    intro b hb
    cases hb
    exact .inr (by decide)
  have hguarded : Run (guarded Client.Snug Client.Step) ⟨h₀, []⟩ [.malloc 8, .free 4116] ⟨h₂, []⟩ :=
    (Run.nil.snoc ⟨hsnug, .malloc hm⟩).snoc ⟨trivial, .free (by simp) hf⟩
  obtain ⟨hconserved, hsingle⟩ := (hiff _ _ hguarded.of_guarded).2 ⟨by decide, hguarded⟩
  exact ⟨h₀, _, hinit, hguarded, hconserved, hsingle rfl⟩

/-- A request for 4060 of the 4076 bytes of a page loses 16 of them, and the freed heap is smaller than
it was. -/
theorem kernelHeap_conserved_fails :
    ∃ h₀ c, initializeRange (fun _ => 0) 4096 8192 = .ok h₀ ∧
      Run Client.Step ⟨h₀, []⟩ [.malloc 4060, .free 4116] c ∧ c.live = [] ∧
      ¬ c.heap.Conserved 4096 8192 ∧ ¬ c.heap.SingleFree 4096 8192 := by
  have hcalls : ∃ h₀ h₁ h₂, initializeRange (fun _ => 0) 4096 8192 = .ok h₀ ∧
      h₀.malloc 4060 = .ok (4116, h₁) ∧ h₁.free 4116 = .ok h₂ ∧ h₂.firstHeader = 4096 ∧
      h₂.field 4096 .next = 0 ∧ h₂.field 4096 .size = 4060 :=
    ⟨_, _, _, rfl, rfl, rfl, rfl, rfl, rfl⟩
  obtain ⟨h₀, h₁, h₂, hinit, hm, hf, hfirst, hnext, hsize⟩ := hcalls
  have hrun : Run Client.Step ⟨h₀, []⟩ [.malloc 4060, .free 4116] ⟨h₂, []⟩ :=
    (Run.nil.snoc (.malloc hm)).snoc (.free (by simp) hf)
  refine ⟨h₀, _, hinit, hrun, rfl, ?_, ?_⟩
  · rintro ⟨l, hl, hsum⟩
    have hone : h₂.Headers h₂.firstHeader [4096] := ⟨hfirst, by decide, hnext⟩
    obtain rfl := hl.unique hone
    simp [hsize, sizeofMemoryHeader] at hsum
  · rintro ⟨-, -, hs⟩
    simp [hsize, sizeofMemoryHeader] at hs

end HeisenKernel
