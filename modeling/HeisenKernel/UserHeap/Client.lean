import HeisenKernel.UserHeap.Refine

/-!
# Runs of a process that uses its heap

A process allocates, writes into the blocks it holds and frees what it has not freed yet
(`UserClient.Step`).
-/

namespace HeisenKernel

open Lib UserHeap List

/-- A process with its heap, and the pointers it got from `Malloc` and has not freed, with the sizes
it asked for. -/
structure UserClient where
  heap : UserHeap
  live : List (Nat × Nat)

/-- What a process does with its heap: the two calls, and a store to a byte of a block. -/
inductive UserHeapRequest where
  | malloc (size : Nat)
  | free (ptr : Nat)
  | store (addr value : Nat)

namespace UserHeap

/-- The headers from `hdr` on, found by following `next` to the null pointer. -/
def Headers (h : UserHeap) : Nat → List Nat → Prop
  | hdr, [] => hdr = 0
  | hdr, x :: r => hdr = x ∧ x ≠ 0 ∧ Headers h (h.field x .next) r

/-- First address behind the block that starts at `ptr`. -/
def payloadEnd (h : UserHeap) (ptr : Nat) : Nat := ptr + h.field (ptr - sizeofUserHeader) .size

end UserHeap

namespace UserClient

/-- One request of a process. A call that writes through the null pointer ends the run. -/
inductive Step : UserClient → UserHeapRequest → UserClient → Prop
  | malloc {c : UserClient} {size ptr : Nat} {h : UserHeap} : size < 2 ^ 32 → c.heap.malloc size
      (2 ^ 32) = .ok (ptr, h) → Step c (.malloc size) ⟨h, (ptr, size) :: c.live⟩
  | free {c : UserClient} {ptr : Nat} : ptr ∈ c.live.map Prod.fst →
      Step c (.free ptr) ⟨c.heap.free ptr, c.live.filter (·.1 ≠ ptr)⟩
  | store {c : UserClient} {ptr addr value : Nat} : ptr ∈ c.live.map Prod.fst → ptr ≤ addr → addr <
      c.heap.payloadEnd ptr → Step c (.store addr value) { c with heap.mem := putByte c.heap.mem addr value }

/-- No call of `Malloc` lets a block grow that is not the last one. -/
def Safe (c : UserClient) : UserHeapRequest → Prop
  | .malloc size => ∀ l, c.heap.Headers c.heap.firstHeader l → c.heap.Expands l size
  | _ => True

/-- The headers `l` of the list lie inside the heap with their blocks, the live pointers are blocks of
the list that are as long as requested and do not overlap, and no header is inside of one. -/
structure Ok (c : UserClient) (l : List Nat) : Prop where
  headers : c.heap.Headers c.heap.firstHeader l
  inside : ∀ x ∈ l, c.heap.startAddress ≤ x ∧ x + sizeofUserHeader + c.heap.field x .size ≤ c.heap.endAddress
  block : ∀ b ∈ c.live, ∃ x ∈ l, b.1 = x + sizeofUserHeader
  large : ∀ b ∈ c.live, b.1 + b.2 ≤ c.heap.payloadEnd b.1
  disjoint : c.live.Pairwise fun a b =>
    c.heap.payloadEnd a.1 ≤ b.1 ∨ c.heap.payloadEnd b.1 ≤ a.1
  noHeader : ∀ b ∈ c.live, ∀ x ∈ l, x + sizeofUserHeader ≤ b.1 ∨ c.heap.payloadEnd b.1 ≤ x

/-- The invariant of a process with the chunks `l` in its heap. -/
structure Inv (c : UserClient) (l : List Chunk) : Prop where
  heap : c.heap.Inv l
  distinct : c.live.Pairwise fun a b => a.1 ≠ b.1
  live : ∀ b ∈ c.live, ∃ d ∈ l, d.allocated = true ∧ d.ptr = b.1 ∧ b.2 ≤ d.size

variable {c c' : UserClient} {h : UserHeap} {l : List Chunk} {r : UserHeapRequest}

theorem headers_of_rep {l : List Nat} (hpos : ∀ x ∈ l, x ≠ 0)
    (hl : Linked (h.field · .next) (h.field · .prev) p l 0) : h.Headers (l.headD 0) l :=
  hl.follow rfl fun x hx _ hr => ⟨rfl, hpos x hx, hr⟩

theorem Inv.headers (hi : c.Inv l) : c.heap.Headers c.heap.firstHeader (l.map Chunk.addr) := by
  rw [hi.heap.first]
  refine headers_of_rep (forall_mem_map.2 fun d hd => ?_) hi.heap.rep.linked
  exact (hi.heap.placed.pos d hd).ne'

theorem Inv.payloadEnd_eq (hi : c.Inv l) (hd : d ∈ l) : c.heap.payloadEnd d.ptr = d.stop := by
  rw [payloadEnd, show d.ptr - sizeofUserHeader = d.addr from Nat.add_sub_cancel ..,
    (hi.heap.rep.headers d hd).2]
  rfl

theorem Inv.ok (hi : c.Inv l) : c.Ok (l.map Chunk.addr) := by
  have hplaced := hi.heap.placed
  have hinside : ∀ d ∈ l, c.heap.startAddress ≤ d.addr ∧
      d.addr + sizeofUserHeader + c.heap.field d.addr .size ≤ c.heap.endAddress := by
    intro d hd
    rw [(hi.heap.rep.headers d hd).2]
    exact hplaced.bounds d hd
  refine ⟨hi.headers, by simpa using hinside, ?_, ?_, ?_, ?_⟩
  · intro b hb
    obtain ⟨d, hd, -, hptr, -⟩ := hi.live b hb
    exact ⟨d.addr, mem_map_of_mem hd, hptr.symm⟩
  · intro b hb
    obtain ⟨d, hd, -, hptr, hsize⟩ := hi.live b hb
    rw [← hptr, hi.payloadEnd_eq hd]
    exact Nat.add_le_add_left hsize _
  · refine hi.distinct.imp_of_mem fun {a b} ha hb hne => ?_
    obtain ⟨d, hd, -, hdptr, -⟩ := hi.live a ha
    obtain ⟨e, he, -, heptr, -⟩ := hi.live b hb
    rw [← hdptr, ← heptr, hi.payloadEnd_eq hd, hi.payloadEnd_eq he]
    have hde : d ≠ e := fun e => hne (by rw [← hdptr, ← heptr, e])
    have := hplaced.disjoint hd he hde
    simp only [Chunk.ptr]
    omega
  · intro b hb x hx
    obtain ⟨d, hd, -, hptr, -⟩ := hi.live b hb
    obtain ⟨e, he, rfl⟩ := mem_map.1 hx
    rw [← hptr, hi.payloadEnd_eq hd]
    by_cases hde : d = e
    · exact .inl (by rw [hde]; rfl)
    · have := hplaced.disjoint hd he hde
      simp only [Chunk.stop, Chunk.ptr] at this ⊢
      omega

theorem field_putByte (hx : addr < x ∨ x + sizeofUserHeader ≤ addr) :
    { h with mem := putByte h.mem addr v }.field x f = h.field x f := by
  simp only [sizeofUserHeader] at hx
  cases f <;> simp only [field, HeaderField.offset]
  all_goals first
    | exact word32_putByte_ne (by omega)
    | rw [putByte_ne (by omega)]

theorem Inv.store (hi : c.Inv l) {d : Chunk} (hd : d ∈ l) {addr v : Nat} (hlo : d.ptr ≤ addr)
    (hhi : addr < d.stop) : Inv { c with heap.mem := putByte c.heap.mem addr v } l := by
  have hfield : ∀ e ∈ l, ∀ f, { c.heap with mem := putByte c.heap.mem addr v }.field e.addr f
      = c.heap.field e.addr f := by
    intro e he f
    refine field_putByte ?_
    simp only [Chunk.ptr] at hlo
    by_cases hed : e = d
    · exact .inr (hed ▸ hlo)
    · have := hi.heap.placed.disjoint he hd hed
      simp only [Chunk.stop] at this hhi
      omega
  have hrep : { c.heap with mem := putByte c.heap.mem addr v }.Rep l := by
    constructor
    · refine hi.heap.rep.linked.congr (forall_mem_map.2 fun e he => ?_)
      exact ⟨hfield e he _, hfield e he _⟩
    · intro e he
      rw [UserHeap.HasHeader, hfield e he, hfield e he]
      exact hi.heap.rep.headers e he
  exact ⟨⟨hrep, hi.heap.placed, hi.heap.below, hi.heap.first⟩, hi.distinct, hi.live⟩

theorem Inv.step (hi : c.Inv l) (hs : guarded Safe Step c r c') : ∃ l', c'.Inv l' := by
  obtain ⟨hsafe, hs⟩ := hs
  cases hs with
  | @malloc size ptr h _ hm =>
    obtain ⟨l', d, hinv, rfl, hout⟩ := hi.heap.malloc (hsafe _ hi.headers) (show 2 ≤ 2 ^ 32 by decide) hm
    refine ⟨l', hinv, pairwise_cons.2 ⟨?_, hi.distinct⟩, ?_⟩
    · intro b hb
      obtain ⟨e, he, hea, heptr, -⟩ := hi.live b hb
      have hne := (hout.keeps e he hea).2
      rw [← heptr]
      simp only [Chunk.ptr]
      omega
    · refine forall_mem_cons.2 ⟨⟨d, hout.mem, hout.allocated, rfl, hout.large⟩, fun b hb => ?_⟩
      obtain ⟨e, he, hea, heptr, hesize⟩ := hi.live b hb
      exact ⟨e, (hout.keeps e he hea).1, hea, heptr, hesize⟩
  | @free ptr hp =>
    obtain ⟨b, hb, rfl⟩ := mem_map.1 hp
    obtain ⟨d, hd, -, hptr, -⟩ := hi.live b hb
    obtain ⟨l1, l2, rfl⟩ := append_of_mem hd
    obtain ⟨l', hinv, hkeep⟩ := hi.heap.free
    rw [hptr] at hinv
    refine ⟨l', by dsimp only; exact hinv, hi.distinct.filter _, ?_⟩
    intro a ha
    obtain ⟨ha, hne⟩ := mem_filter.1 ha
    obtain ⟨e, he, hea, heptr, hesize⟩ := hi.live a ha
    have hed : e ≠ d := by
      rintro rfl
      simp [← heptr, hptr] at hne
    exact ⟨e, hkeep e (by simpa [hed] using he) hea, hea, heptr, hesize⟩
  | @store ptr addr value hp hlo hhi =>
    obtain ⟨b, hb, rfl⟩ := mem_map.1 hp
    obtain ⟨d, hd, -, hptr, -⟩ := hi.live b hb
    rw [← hptr] at hlo hhi
    rw [hi.payloadEnd_eq hd] at hhi
    exact ⟨l, hi.store hd hlo hhi⟩

theorem Inv.initial (mem : Buffer) (hroom : start + sizeofUserHeader ≤ stop)
    (hstop : stop < 2 ^ 32) : ∃ l, Inv ⟨.initializeHeap mem start stop, []⟩ l := by
  simp only [sizeofUserHeader] at hroom
  have hsub : sub32 (sub32 stop start) sizeofUserHeader = stop - start - sizeofUserHeader := by
    rw [sub32_eq hstop (by omega), sub32_eq (by omega) (by simp only [sizeofUserHeader]; omega)]
  rcases Nat.eq_zero_or_pos start with rfl | hpos
  · exact ⟨[], ⟨⟨trivial, by simp⟩, ⟨.nil, by simp, by simp⟩, hstop, rfl⟩, .nil, by simp⟩
  · refine ⟨[⟨start, stop - start - sizeofUserHeader, false⟩],
      ⟨⟨?_, ?_⟩, .singleton ⟨le_rfl, ?_⟩ hpos, hstop, rfl⟩, .nil, by simp⟩
    · simp [linked_cons, initializeHeap, field_set (UserHeap.Apart.refl start)]
    · simp [UserHeap.HasHeader, initializeHeap,
        field_set (UserHeap.Apart.refl start), hsub, HeaderField.bound]
      omega
    · simp only [Chunk.stop, sizeofUserHeader, initializeHeap, set_endAddress]
      omega

end UserClient

/-- In every run of a process whose calls of `Malloc` let no block but the last one grow, the blocks
it holds lie in the heap, are as long as requested, do not overlap and hold no header. -/
theorem userHeap_ok_of_safe (mem : Buffer) (start stop : Nat) (hroom : start + sizeofUserHeader ≤ stop)
    (hstop : stop < 2 ^ 32) (rs : List UserHeapRequest) (c : UserClient)
    (hrun : Run (guarded UserClient.Safe UserClient.Step) ⟨.initializeHeap mem start stop, []⟩ rs c) : ∃ l,
    c.Ok l := by
  obtain ⟨l, hi⟩ := hrun.invariant (I := fun c => ∃ l, c.Inv l)
    (UserClient.Inv.initial mem hroom hstop) (fun _ _ _ hi hs => hi.choose_spec.step hs)
  exact ⟨_, hi.ok⟩

/-- A heap of one page. -/
def onePageHeap : UserHeap := .initializeHeap (fun _ => 0) 4096 8192

/-- A request that is larger than the heap lets its only block grow. -/
theorem userHeap_ok_of_safe_onePageHeap : ∃ h,
    Run (guarded UserClient.Safe UserClient.Step) ⟨onePageHeap, []⟩ [.malloc 5000]
      ⟨h, [(4109, 5000)]⟩ ∧ ∃ l, UserClient.Ok ⟨h, [(4109, 5000)]⟩ l := by
  have hsafe : UserClient.Safe ⟨onePageHeap, []⟩ (.malloc 5000) := by
    intro l hl
    obtain rfl : l = [4096] := by
      cases l with
      | nil =>
        have hne : onePageHeap.firstHeader ≠ 0 := by decide
        exact absurd hl hne
      | cons x r =>
        obtain ⟨rfl, -, hr⟩ := hl
        cases r with
        | nil => rfl
        | cons y r =>
          obtain ⟨rfl, hy, -⟩ := hr
          exact absurd (by decide +kernel) hy
    exact .inr (.inr ⟨4096, rfl, by decide +kernel, by decide +kernel⟩)
  have hmalloc : (onePageHeap.malloc 5000 (2 ^ 32)).map Prod.fst = .ok 4109 := by decide +kernel
  obtain ⟨⟨_, h⟩, hm, rfl⟩ := map_eq_ok hmalloc
  have hstep : guarded UserClient.Safe UserClient.Step ⟨onePageHeap, []⟩ (.malloc 5000)
      ⟨h, [(4109, 5000)]⟩ := ⟨hsafe, .malloc (by decide) hm⟩
  have hrun := Run.nil.snoc hstep
  exact ⟨h, hrun, userHeap_ok_of_safe _ 4096 8192 (by decide) (by decide) _ _ hrun⟩

/-- The first of two blocks of a page is freed, and a request for more than the page then lets it grow
over the second one: the new block `[4109, 7109)` and the block `[6122, 8192)` overlap. -/
theorem userHeap_blocks_overlap : ∃ c : UserClient, Run UserClient.Step ⟨onePageHeap, []⟩
    [.malloc 2000, .malloc 2060, .free 4109, .malloc 3000] c ∧ c.live = [(4109, 3000), (6122, 2060)] ∧
    c.heap.payloadEnd 4109 = 7109 ∧ c.heap.payloadEnd 6122 = 8192 ∧ ¬ ∃ l, c.Ok l := by
  have hcalls : (do
      let r₁ ← onePageHeap.malloc 2000 (2 ^ 32)
      let r₂ ← r₁.2.malloc 2060 (2 ^ 32)
      let r₃ ← (r₂.2.free 4109).malloc 3000 (2 ^ 32)
      .ok [r₁.1, r₂.1, r₃.1, r₃.2.payloadEnd 4109, r₃.2.payloadEnd 6122] : Exec (List Nat)) =
        .ok [4109, 6122, 4109, 7109, 8192] := by decide +kernel
  obtain ⟨⟨p₁, h₁⟩, hm₁, hcalls⟩ := bind_eq_ok.1 hcalls
  obtain ⟨⟨p₂, h₂⟩, hm₂, hcalls⟩ := bind_eq_ok.1 hcalls
  obtain ⟨⟨p₃, h₃⟩, hm₃, hcalls⟩ := bind_eq_ok.1 hcalls
  simp only [Except.ok.injEq, cons.injEq, and_true] at hcalls
  obtain ⟨rfl, rfl, rfl, hend₁, hend₂⟩ := hcalls
  have hrun₁ := Run.nil.snoc (UserClient.Step.malloc (c := ⟨onePageHeap, []⟩) (by decide) hm₁)
  have hrun₂ := hrun₁.snoc (UserClient.Step.malloc (by decide) hm₂)
  have hlive : 4109 ∈ [(6122, 2060), (4109, 2000)].map Prod.fst := by decide
  have hrun₃ := hrun₂.snoc (UserClient.Step.free hlive)
  have hrun₄ := hrun₃.snoc (UserClient.Step.malloc (by decide) hm₃)
  refine ⟨_, hrun₄, by simp, hend₁, hend₂, ?_⟩
  rintro ⟨l, hok⟩
  have hdis := hok.disjoint
  simp [hend₁, hend₂] at hdis

end HeisenKernel
