import HeisenKernel.KernelHeap.Refine
import HeisenKernel.Lib.Run

/-!
# Runs of a client of the kernel heap

A client allocates, writes into the payloads it holds and frees what it has not freed yet
(`Client.Step`).
-/

namespace HeisenKernel

open Lib List KernelHeap Block

/-- A heap and the pointers its client got from `malloc` and has not freed. -/
structure Client where
  heap : KernelHeap
  live : List Nat

/-- What a client can do: the two calls, and a store to a word of a payload. -/
inductive HeapRequest where
  | malloc (size : Nat)
  | free (ptr : Nat)
  | store (addr value : Nat)

namespace Client

/-- One request of a client. A call that panics ends the run. -/
inductive Step : Client → HeapRequest → Client → Prop
  | malloc {c : Client} {size ptr : Nat} {h : KernelHeap} :
      c.heap.malloc size = .ok (ptr, h) → Step c (.malloc size) ⟨h, ptr :: c.live⟩
  | free {c : Client} {ptr : Nat} {h : KernelHeap} :
      ptr ∈ c.live → c.heap.free ptr = .ok h → Step c (.free ptr) ⟨h, c.live.erase ptr⟩
  | store {c : Client} {ptr addr value : Nat} : ptr ∈ c.live → ptr ≤ addr → addr < ptr + c.heap.field
      (ptr - sizeofMemoryHeader) .size → Step c (.store addr value) { c with heap := c.heap.store addr value }

end Client

/-- The pointers `live` are the payloads of the blocks of `l` that are in use. -/
structure Live (live : List Nat) (l : List Block) : Prop where
  nodup : live.Nodup
  mem_iff : ∀ p, p ∈ live ↔ ∃ b ∈ l, b.allocated = true ∧ b.ptr = p

/-- The invariant of a client of the heap over `[start, stop)`. -/
structure ClientInv (start stop : Nat) (c : Client) (l : List Block) : Prop where
  inv : c.heap.Inv l
  start_eq : c.heap.startAddress = start
  stop_eq : c.heap.endAddress = stop
  live : Live c.live l

variable {start stop : Nat} {c c' : Client} {h : KernelHeap} {l l₁ l₂ : List Block} {b : Block}

theorem Placed.disjoint (hl : Placed start stop l) (ha : a ∈ l) (hb : b ∈ l)
    (hne : a ≠ b) : a.stop ≤ b.addr ∨ b.stop ≤ a.addr :=
  (placed_iff.1 hl).disjoint ha hb hne

theorem Placed.ptr_inj (hl : Placed start stop l) (ha : a ∈ l) (hb : b ∈ l) (h : a.ptr = b.ptr) : a = b := by
  by_contra hne
  have := hl.disjoint ha hb hne
  simp only [Block.ptr, Block.stop, sizeofMemoryHeader] at h this
  omega

theorem Live.carve {size : Nat} (hv : Live live (l₁ ++ b :: l₂)) (hl : Placed start stop (l₁ ++ b :: l₂))
    (hb : b.allocated = false) : Live (b.ptr :: live) (l₁ ++ b.carve size ++ l₂) := by
  have hmem : ∀ p, (∃ x ∈ l₁ ++ b.carve size ++ l₂, x.allocated = true ∧ x.ptr = p) ↔
      p = b.ptr ∨ ∃ x ∈ l₁ ++ b :: l₂, x.allocated = true ∧ x.ptr = p := by
    intro p
    have hc : ∀ x, x.allocated = true → (x ∈ b.carve size ↔ x = ⟨b.addr, size, true⟩) := fun x hx => by
      unfold Block.carve
      split
      · simp only [mem_cons, not_mem_nil, or_false, or_iff_left_iff_imp]
        rintro rfl; cases hx
      · simp
    constructor
    · rintro ⟨x, hx, hxa, rfl⟩
      simp only [append_assoc, mem_append, hc x hxa] at hx
      rcases hx with hx | rfl | hx
      · exact .inr ⟨x, by simp [hx], hxa, rfl⟩
      · exact .inl rfl
      · exact .inr ⟨x, by simp [hx], hxa, rfl⟩
    · rintro (rfl | ⟨x, hx, hxa, rfl⟩)
      · exact ⟨⟨b.addr, size, true⟩, by simp [hc], rfl, rfl⟩
      · have hxb : x ≠ b := fun e => by rw [e, hb] at hxa; cases hxa
        refine ⟨x, ?_, hxa, rfl⟩
        simp [hxb] at hx ⊢; tauto
  refine ⟨nodup_cons.2 ⟨fun hp => ?_, hv.nodup⟩, fun p => ?_⟩
  · obtain ⟨x, hx, hxa, hxp⟩ := (hv.mem_iff _).1 hp
    rw [hl.ptr_inj hx (by simp) hxp, hb] at hxa
    cases hxa
  · rw [mem_cons, hv.mem_iff, hmem]

theorem Live.release (hv : Live live (l₁ ++ b :: l₂))
    (hl : Placed start stop (l₁ ++ b :: l₂)) : Live (live.erase b.ptr) (release l₁ b l₂) := by
  obtain ⟨hlo, hhi⟩ := hl.spaced.split
  have hne : ∀ x ∈ l₁ ++ l₂, x.ptr ≠ b.ptr := fun x hx => by
    simp only [ptr, sizeofMemoryHeader] at hlo hhi ⊢
    rcases mem_append.1 hx with hx | hx
    · have := hlo x hx; omega
    · have := hhi x hx; omega
  refine ⟨hv.nodup.erase _, fun p => ?_⟩
  rw [hv.nodup.mem_erase_iff, hv.mem_iff]
  constructor
  · rintro ⟨hp, x, hx, hxa, rfl⟩
    have hxb : x ≠ b := fun e => hp (by rw [e])
    refine ⟨x, (mem_release hxa).2 ?_, hxa, rfl⟩
    simp [hxb] at hx ⊢; tauto
  · rintro ⟨x, hx, hxa, rfl⟩
    have hx' := (mem_release hxa).1 hx
    refine ⟨hne x hx', x, ?_, hxa, rfl⟩
    simp at hx' ⊢; tauto

theorem KernelHeap.Inv.store (hi : h.Inv l) (hb : b ∈ l) {addr value : Nat}
    (hlo : b.ptr ≤ addr) (hhi : addr < b.stop) : (h.store addr value).Inv l := by
  refine ⟨hi.rep.congr fun d hd f => ?_, hi.layout, hi.below, hi.first⟩
  have hne : d.addr + f.offset ≠ addr := by
    have hf : f.offset < sizeofMemoryHeader := by cases f <;> decide
    simp only [ptr] at hlo
    by_cases hdb : d = b
    · subst hdb; omega
    · have := hi.layout.toPlaced.disjoint hd hb hdb
      simp only [stop] at this hhi
      omega
  exact Function.update_of_ne hne _ _

/-- What a request does to the list of blocks. -/
inductive BlockStep : List Block → HeapRequest → List Block → Prop
  | malloc {l₁ l₂ : List Block} {b : Block} {size : Nat} :
      (l₁ ++ b :: l₂).find? (KernelHeap.Fits (alignUp size 4)) = some b →
      BlockStep (l₁ ++ b :: l₂) (.malloc size) (l₁ ++ b.carve (alignUp size 4) ++ l₂)
  | free {l₁ l₂ : List Block} {b : Block} : b.allocated = true →
      BlockStep (l₁ ++ b :: l₂) (.free b.ptr) (release l₁ b l₂)
  | store {l : List Block} {addr value : Nat} : BlockStep l (.store addr value) l

theorem ClientInv.simulates (hi : ClientInv start stop c l) (hs : c.Step r c') :
    ∃ l', BlockStep l r l' ∧ ClientInv start stop c' l' := by
  cases hs with
  | @malloc size ptr h' hm =>
    rcases hi.inv.malloc size with hp | ⟨l₁, b, l₂, h₁, rfl, hfind, hok, hinv, hst, hen⟩
    · rw [hp] at hm; cases hm
    · rw [hok] at hm
      cases hm
      have hb := (fits_iff.1 (find?_some hfind)).1
      exact ⟨_, .malloc hfind, hinv, hst.trans hi.start_eq, hen.trans hi.stop_eq,
        hi.live.carve hi.inv.layout.toPlaced hb⟩
  | @free ptr h' hp hf =>
    obtain ⟨b, hb, hba, rfl⟩ := (hi.live.mem_iff _).1 hp
    obtain ⟨l₁, l₂, rfl⟩ := append_of_mem hb
    obtain ⟨h₁, hok, hinv, hst, hen⟩ := hi.inv.free hba
    rw [hok] at hf
    cases hf
    exact ⟨_, .free hba, hinv, hst.trans hi.start_eq, hen.trans hi.stop_eq,
      hi.live.release hi.inv.layout.toPlaced⟩
  | @store ptr addr value hp hlo hhi =>
    obtain ⟨b, hb, -, rfl⟩ := (hi.live.mem_iff _).1 hp
    have hsz : c.heap.field (b.ptr - sizeofMemoryHeader) .size = b.size := by
      exact (hi.inv.rep.headers b hb).2.2
    rw [hsz] at hhi
    exact ⟨l, .store, hi.inv.store hb hlo hhi, hi.start_eq, hi.stop_eq, hi.live⟩

theorem ClientInv.step {r : HeapRequest} (hi : ∃ l, ClientInv start stop c l)
    (hs : c.Step r c') : ∃ l, ClientInv start stop c' l := by
  obtain ⟨l, hi⟩ := hi
  obtain ⟨l', -, hi'⟩ := hi.simulates hs
  exact ⟨l', hi'⟩

/-- The blocks of a heap that has just been set up. Over a range that starts at address 0 there are
none, since `firstHeader` is the null pointer. -/
def initialBlocks (start stop : Nat) : List Block :=
  if start = 0 then [] else [⟨start, stop - start - sizeofMemoryHeader, false⟩]

theorem ClientInv.initial {mem : Nat → Nat} (hlt : start < stop) (hstop : stop < 2 ^ 32)
    (hinit : initializeRange mem start stop = .ok h) :
    ClientInv start stop ⟨h, []⟩ (initialBlocks start stop) := by
  unfold initializeRange at hinit
  split at hinit
  · cases hinit
  next hpage =>
  cases hinit
  simp only [pageSize, not_or, ne_eq, not_not] at hpage
  have hsub : sub32 (sub32 stop start) sizeofMemoryHeader = stop - start - sizeofMemoryHeader := by
    rw [sub32_eq (a := stop) (by omega) (by omega), sub32_eq (by omega)
      (by simp only [sizeofMemoryHeader]; omega)]
  unfold initialBlocks
  by_cases h0 : start = 0
  · rw [if_pos h0]
    subst h0
    exact ⟨⟨⟨trivial, by simp⟩, ⟨⟨.nil, by simp, by simp⟩, .nil⟩, hstop, rfl⟩, rfl, rfl, .nil, by simp⟩
  · rw [if_neg h0]
    refine ⟨⟨⟨?_, ?_⟩, ⟨⟨by simp, ?_, ?_⟩, by simp⟩, hstop, rfl⟩, rfl, rfl, .nil, by simp⟩
    · simp [linked_cons, field_set (.inl rfl)]
    · simp [KernelHeap.HasHeader, field_set (.inl rfl), hsub]
    · simp only [mem_singleton, forall_eq, Block.stop, sizeofMemoryHeader,
        set_startAddress, set_endAddress]
      omega
    · simp only [mem_singleton, forall_eq, sizeofMemoryHeader]
      omega

theorem ClientInv.init {mem : Nat → Nat} (hlt : start < stop) (hstop : stop < 2 ^ 32)
    (hinit : initializeRange mem start stop = .ok h) : ∃ l, ClientInv start stop ⟨h, []⟩ l :=
  ⟨_, .initial hlt hstop hinit⟩

namespace KernelHeap

/-- The headers from `block` on, found by following `next` to the null pointer. -/
def Headers (h : KernelHeap) : Nat → List Nat → Prop
  | block, [] => block = 0
  | block, x :: r => block = x ∧ x ≠ 0 ∧ Headers h (h.field x .next) r

/-- First address behind the block of the header at `x`. -/
def blockStop (h : KernelHeap) (x : Nat) : Nat := x + sizeofMemoryHeader + h.field x .size

/-- What the headers `l` of a heap over `[start, stop)` look like in raw memory. -/
structure WellFormed (h : KernelHeap) (start stop : Nat) (l : List Nat) : Prop where
  headers : h.Headers h.firstHeader l
  first_prev : ∀ x ∈ l.head?, h.field x .prev = 0
  inverse : l.IsChain fun x y => h.field x .next = y ∧ h.field y .prev = x
  increasing : l.Pairwise (· < ·)
  magic : ∀ x ∈ l, h.field x .magic = memoryHeaderMagic
  inside : ∀ x ∈ l, start ≤ x ∧ h.blockStop x ≤ stop
  disjoint : ∀ x ∈ l, ∀ y ∈ l, x ≠ y → h.blockStop x ≤ y ∨ h.blockStop y ≤ x
  coalesced : l.IsChain fun x y => h.field x .allocated ≠ 0 ∨ h.field y .allocated ≠ 0

end KernelHeap

theorem headers_of_linked {l : List Nat} (hpos : ∀ x ∈ l, x ≠ 0)
    (hl : Linked (h.field · .next) (h.field · .prev) p l 0) : h.Headers (l.headD 0) l :=
  hl.follow rfl fun x hx _ hr => ⟨rfl, hpos x hx, hr⟩

theorem inverse_of_linked {l : List Nat} (hl : Linked (h.field · .next) (h.field · .prev) p l 0) :
    l.IsChain fun x y => h.field x .next = y ∧ h.field y .prev = x := by
  induction l generalizing p with
  | nil => exact .nil
  | cons x l ih =>
    obtain ⟨-, hn, hl⟩ := hl
    refine isChain_cons.2 ⟨fun y hy => ?_, ih hl⟩
    cases l with
    | nil => cases hy
    | cons z l =>
      simp only [head?_cons, Option.mem_some_iff] at hy
      subst hy
      exact ⟨hn, hl.1⟩

theorem KernelHeap.Inv.wellFormed (hi : h.Inv l) :
    h.WellFormed h.startAddress h.endAddress (l.map Block.addr) := by
  have hstop : ∀ b ∈ l, h.blockStop b.addr = b.stop := fun b hb => by
    rw [blockStop, (hi.rep.headers b hb).2.2]; rfl
  have hpos : ∀ x ∈ l.map addr, x ≠ 0 := forall_mem_map.2 fun b hb => by
    exact Nat.pos_iff_ne_zero.1 (hi.layout.spaced.2 b hb)
  refine ⟨hi.first ▸ headers_of_linked hpos hi.rep.linked, fun x hx => ?_,
    inverse_of_linked hi.rep.linked, ?_, ?_, ?_, ?_, ?_⟩
  · have hl := hi.rep.linked
    cases hm : l.map addr with
    | nil => rw [hm] at hx; cases hx
    | cons y r =>
      rw [hm] at hx hl
      simp only [head?_cons, Option.mem_some_iff] at hx
      exact hx ▸ hl.1
  · rw [pairwise_map]
    exact hi.layout.spaced.1.imp fun hab => by simp only [sizeofMemoryHeader] at hab; omega
  · simp only [forall_mem_map]
    exact fun b hb => (hi.rep.headers b hb).1
  · simp only [forall_mem_map]
    exact fun b hb => by rw [hstop b hb]; exact hi.layout.bounds b hb
  · simp only [forall_mem_map]
    intro a ha b hb hab
    rw [hstop a ha, hstop b hb]
    exact hi.layout.toPlaced.disjoint ha hb fun e => hab (by rw [e])
  · rw [isChain_map]
    have hne : ∀ b ∈ l, b.allocated = true → h.field b.addr .allocated ≠ 0 := fun b hb ha e => by
      rw [(hi.rep.headers b hb).2.1.1 e] at ha; cases ha
    refine hi.layout.coalesced.imp_of_mem_imp fun a b ha hb hab => ?_
    exact hab.imp (hne a ha) (hne b hb)

theorem ClientInv.run {mem : Nat → Nat}
    (hlt : start < stop) (hstop : stop < 2 ^ 32) (hinit : initializeRange mem start stop = .ok h₀)
    (hrun : Run Client.Step ⟨h₀, []⟩ rs c) : ∃ l, ClientInv start stop c l :=
  hrun.invariant (ClientInv.init hlt hstop hinit) fun _ _ _ hi hs => ClientInv.step hi hs

/-- `free` of a live pointer returns, and `malloc` returns or panics. -/
def Client.Returns (c : Client) : Prop :=
  (∀ p ∈ c.live, ∃ h, c.heap.free p = .ok h) ∧
    ∀ size, c.heap.malloc size = .error .panic ∨ ∃ r, c.heap.malloc size = .ok r

theorem ClientInv.returns (hi : ClientInv start stop c l) : c.Returns := by
  constructor
  · intro p hp
    obtain ⟨b, hb, hba, rfl⟩ := (hi.live.mem_iff _).1 hp
    obtain ⟨l₁, l₂, rfl⟩ := append_of_mem hb
    obtain ⟨h₁, hok, -⟩ := hi.inv.free hba
    exact ⟨h₁, hok⟩
  · intro size
    rcases hi.inv.malloc size with hp | ⟨_, b, _, h₁, -, -, hok, -⟩
    · exact .inl hp
    · exact .inr ⟨_, hok⟩

/-- Over every page-aligned range and after every sequence of `malloc`, `free` and payload writes of
a client, the headers from `firstHeader` on form a finite doubly linked list of blocks inside the
range that do not overlap, with no two free neighbours; the pointers the client holds are payloads
of blocks in use, and any two of them own disjoint payloads of their recorded size. -/
theorem kernelHeap_wellFormed (mem : Nat → Nat) (start stop : Nat)
    (hstart : start % pageSize = 0) (hend : stop % pageSize = 0)
    (hlt : start < stop) (hstop : stop < 2 ^ 32) :
    ∃ h₀, initializeRange mem start stop = .ok h₀ ∧
      ∀ rs c, Run Client.Step ⟨h₀, []⟩ rs c →
        (∃ l, c.heap.WellFormed start stop l ∧
          ∀ p ∈ c.live, ∃ x ∈ l, p = x + sizeofMemoryHeader ∧ c.heap.field x .allocated ≠ 0) ∧
        c.live.Nodup ∧
        ∀ p ∈ c.live, ∀ q ∈ c.live, p ≠ q → p + c.heap.field (p - sizeofMemoryHeader) .size ≤ q ∨ q
          + c.heap.field (q - sizeofMemoryHeader) .size ≤ p := by
  have hpage : ¬ (start % pageSize ≠ 0 ∨ stop % pageSize ≠ 0) := by omega
  refine ⟨_, if_neg hpage, fun rs c hrun => ?_⟩
  obtain ⟨l, hi⟩ := ClientInv.run hlt hstop (if_neg hpage) hrun
  have hsize : ∀ b ∈ l, c.heap.field (b.ptr - sizeofMemoryHeader) .size = b.size := fun b hb => by
    exact (hi.inv.rep.headers b hb).2.2
  refine ⟨⟨l.map addr, ?_, fun p hp => ?_⟩, hi.live.nodup, fun p hp q hq hpq => ?_⟩
  · have := hi.inv.wellFormed
    rwa [hi.start_eq, hi.stop_eq] at this
  · obtain ⟨b, hb, hba, rfl⟩ := (hi.live.mem_iff _).1 hp
    refine ⟨b.addr, mem_map_of_mem hb, rfl, fun e => ?_⟩
    rw [(hi.inv.rep.headers b hb).2.1.1 e] at hba
    cases hba
  · obtain ⟨a, ha, -, rfl⟩ := (hi.live.mem_iff _).1 hp
    obtain ⟨b, hb, -, rfl⟩ := (hi.live.mem_iff _).1 hq
    rw [hsize a ha, hsize b hb]
    have := hi.inv.layout.toPlaced.disjoint ha hb fun e => hpq (by rw [e])
    simp only [Block.stop, Block.ptr] at this ⊢
    omega

/-- A client of the page at 4096 gets two payloads and frees the first. -/
theorem kernelHeap_wellFormed_page :
    ∃ h₀ c l, initializeRange (fun _ => 0) 4096 8192 = .ok h₀ ∧ Run Client.Step ⟨h₀, []⟩
      [.malloc 8, .malloc 5, .free 4116] c ∧ c.live = [4144] ∧ c.heap.WellFormed 4096 8192 l := by
  obtain ⟨h₀, hinit, hwf⟩ := kernelHeap_wellFormed (fun _ => 0) 4096 8192 (by decide) (by decide)
    (by decide) (by decide)
  have hcalls : ∃ h₁ h₂ h₃, h₀.malloc 8 = .ok (4116, h₁) ∧ h₁.malloc 5 = .ok (4144, h₂) ∧
      h₂.free 4116 = .ok h₃ := by
    cases hinit
    exact ⟨_, _, _, rfl, rfl, rfl⟩
  obtain ⟨h₁, h₂, h₃, hm₁, hm₂, hf⟩ := hcalls
  have hrun := ((Run.nil.snoc (Client.Step.malloc (c := ⟨h₀, []⟩) hm₁)).snoc
    (Client.Step.malloc hm₂)).snoc (Client.Step.free (by simp) hf)
  obtain ⟨⟨l, hl, -⟩, -⟩ := hwf _ _ hrun
  exact ⟨h₀, _, l, hinit, hrun, rfl, hl⟩

end HeisenKernel
