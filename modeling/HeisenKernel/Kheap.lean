import HeisenKernel.Base
import HeisenKernel.Lib.Run

/-!
# The kernel heap of AliNix

`kernel/drivers/mm/kheap.c`: a list of headers from the end of the kernel up to `HEAP_END`, each in
front of its payload.
-/

namespace HeisenKernel

open Lib Function List Option

/-- `HEAP_END` (`kheap.c:34`). -/
def heapEnd : Nat := 0x200000

/-- `HEAP_MAGIC` (`xheap.h:30`). -/
def heapMagic : Nat := 0xA0B0C0

/-- `heap_header_t` (`xheap.h:37`), of 16 bytes. -/
structure HeapHeader where
  magic : Nat
  size : Nat
  isFree : Nat
  next : Nat
deriving Repr, DecidableEq

/-- `sizeof(heap_header_t)`. -/
def headerSize : Nat := 16

/-- `heap_info` (`kheap.c:36`), with the header at each address. The headers that are used lie whole headers
apart. -/
structure KHeap where
  start : Nat
  size : Nat
  used : Nat
  firstHeader : Nat
  headers : Nat → HeapHeader

/-- `kheap_init` (`kheap.c:42`). -/
def kheapInit (kernelEnd : Nat) (headers : Nat → HeapHeader) : KHeap where
  start := kernelEnd
  size := sub32 heapEnd kernelEnd
  used := headerSize
  firstHeader := kernelEnd
  headers := update headers kernelEnd
    { magic := heapMagic, size := sub32 (sub32 heapEnd kernelEnd) headerSize, isFree := 1, next := 0 }

/-- The test of a header in `first_free` (`kheap.c:109`). -/
def HeapHeader.Fits (h : HeapHeader) (len : Nat) : Prop := len ≤ h.size ∧ h.isFree = 1 ∧ h.magic = heapMagic

instance (h : HeapHeader) (len : Nat) : Decidable (h.Fits len) := inferInstanceAs (Decidable (_ ∧ _))

/-- The loop of `first_free` (`kheap.c:108`). It does not end when it has not after as many headers as there are
addresses. -/
def findFree (headers : Nat → HeapHeader) (len : Nat) : Nat → Nat → Exec (Option Nat)
  | 0, _ => .error .loop
  | fuel + 1, head =>
    if head = 0 then .ok none
    else if (headers head).Fits len then .ok (some head)
    else findFree headers len fuel (headers head).next

/-- The headers after `head` was split (`kheap.c:110`). The new header is `len + 16` headers behind it. -/
def splitHeaders (headers : Nat → HeapHeader) (head len : Nat) : Nat → HeapHeader :=
  let head2 := u32 (head + (len + headerSize) * headerSize)
  let headers := update headers head { headers head with isFree := 0 }
  let headers := update headers head2
    { magic := heapMagic, size := sub32 (sub32 (headers head).size len) headerSize, isFree := 1, next := 0 }
  update headers head { headers head with next := head2, size := len }

/-- `first_free` (`kheap.c:102`), which is `kmalloc`. -/
def kmalloc (len : Nat) (h : KHeap) : Exec (Nat × KHeap) :=
  if h.size ≤ h.used then .ok (0, h)
  else (findFree h.headers len (2 ^ 32) h.firstHeader).map fun found =>
    match found with
    | none => (0, h)
    | some head =>
      (u32 (head + headerSize),
        { h with
          headers := splitHeaders h.headers head len
          used := u32 (h.used + len + headerSize) })

/-- The loop of `kfree` (`kheap.c:80`). -/
def mergeLoop (head : Nat) : Nat → Nat → (Nat → HeapHeader) → Exec (Nat → HeapHeader)
  | 0, _, _ => .error .loop
  | fuel + 1, app, headers =>
    if app ≠ 0 ∧ (headers app).isFree = 1 then
      let headers' := update headers head
        { headers head with
          size := u32 ((headers head).size + (headers app).size + headerSize)
          next := (headers app).next }
      mergeLoop head fuel (headers' app).next headers'
    else .ok headers

/-- `kfree` (`kheap.c:72`). -/
def kfree (ptr : Nat) (h : KHeap) : Exec KHeap :=
  let head := sub32 ptr headerSize
  if (h.headers head).isFree = 0 ∧ (h.headers head).magic = heapMagic then
    let headers := update h.headers head { h.headers head with isFree := 1 }
    (mergeLoop head (2 ^ 32) (headers head).next headers).map fun headers =>
      { h with headers := headers, used := sub32 h.used (h.headers head).size }
  else .ok h

/-- The heap with the live pointers and the lengths they were asked for. -/
structure KHeapSystem where
  heap : KHeap
  live : List (Nat × Nat)

/-- A call of the heap. -/
inductive KHeapCall where
  | malloc (len : BitVec 32)
  | free (ptr : Nat)
deriving Repr, DecidableEq

namespace KHeapSystem

/-- The steps: `kfree` is called for live pointers only. -/
inductive Step : KHeapSystem → KHeapCall → KHeapSystem → Prop where
  | malloc {s : KHeapSystem} {len : BitVec 32} {ptr : Nat} {heap : KHeap}
    (h : kmalloc len.toNat s.heap = .ok (ptr, heap)) :
    Step s (.malloc len) ⟨heap, if ptr = 0 then s.live else (ptr, len.toNat) :: s.live⟩
  | free {s : KHeapSystem} {ptr len : Nat} {heap : KHeap} (hlive : (ptr, len) ∈ s.live)
    (h : kfree ptr s.heap = .ok heap) : Step s (.free ptr) ⟨heap, s.live.erase (ptr, len)⟩

/-- The heap behind `kheap_init`. -/
def new (kernelEnd : Nat) (headers : Nat → HeapHeader) : KHeapSystem := ⟨kheapInit kernelEnd headers, []⟩

/-- The headers from `a` on. -/
def Chain (headers : Nat → HeapHeader) : Nat → List Nat → Prop
  | a, [] => a = 0
  | a, b :: l => a ≠ 0 ∧ b = a ∧ Chain headers (headers a).next l

/-- The live payloads are disjoint and inside the heap with their headers, the headers of the list have their
magic and reach all memory of the heap, and without live pointers a request for the initial free size
succeeds. -/
structure Sound (s : KHeapSystem) : Prop where
  disjoint : s.live.Pairwise fun a b => a.1 + a.2 ≤ b.1 ∨ b.1 + b.2 ≤ a.1
  inside : ∀ a ∈ s.live, s.heap.start + headerSize ≤ a.1 ∧ a.1 + a.2 ≤ s.heap.start + s.heap.size
  list : ∃ l, Chain s.heap.headers s.heap.firstHeader l ∧
    (∀ a ∈ l, (s.heap.headers a).magic = heapMagic) ∧
    ∀ x, s.heap.start ≤ x → x < s.heap.start + s.heap.size →
      ∃ a ∈ l, a ≤ x ∧ x < a + headerSize + (s.heap.headers a).size
  restored : s.live = [] → ∃ r, kmalloc (sub32 s.heap.size headerSize) s.heap = .ok r ∧ r.1 ≠ 0

/-- The calls that are right: a request that is refused, or one for all the memory of the heap, when there is
room in the count for one more header. -/
def Allowed (s : KHeapSystem) : KHeapCall → Prop
  | .malloc len => s.heap.size ≤ s.heap.used ∨ s.heap.size < len.toNat + headerSize ∨
      (len.toNat + headerSize = s.heap.size ∧ s.heap.used + headerSize < s.heap.size)
  | .free _ => True

/-- The heap with all its memory free. -/
structure Idle (kernelEnd : Nat) (s : KHeapSystem) : Prop where
  start : s.heap.start = kernelEnd
  size : s.heap.size = heapEnd - kernelEnd
  first : s.heap.firstHeader = kernelEnd
  header : s.heap.headers kernelEnd = ⟨heapMagic, heapEnd - kernelEnd - headerSize, 1, 0⟩
  live : s.live = []
  used : s.heap.used < heapEnd - kernelEnd

/-- The heap with all its memory in use, and the new header behind it. -/
structure Busy (kernelEnd : Nat) (s : KHeapSystem) : Prop where
  start : s.heap.start = kernelEnd
  size : s.heap.size = heapEnd - kernelEnd
  first : s.heap.firstHeader = kernelEnd
  header : s.heap.headers kernelEnd =
    ⟨heapMagic, heapEnd - kernelEnd - headerSize, 0, kernelEnd + (heapEnd - kernelEnd) * headerSize⟩
  behind : s.heap.headers (kernelEnd + (heapEnd - kernelEnd) * headerSize) =
    ⟨heapMagic, 2 ^ 32 - headerSize, 1, 0⟩
  live : s.live = [(kernelEnd + headerSize, heapEnd - kernelEnd - headerSize)]
  used : heapEnd - kernelEnd ≤ s.heap.used ∧ s.heap.used < heapEnd - kernelEnd + (heapEnd - kernelEnd)

variable {kernelEnd : Nat} {s s' : KHeapSystem} {len : BitVec 32}

theorem findFree_of_fits {n fuel head : Nat} (hfuel : 0 < fuel) (hhead : head ≠ 0)
    (h : (headers head).Fits n) : findFree headers n fuel head = .ok (some head) := by
  cases fuel with
  | zero => exact absurd hfuel (Nat.lt_irrefl 0)
  | succ fuel => rw [findFree, if_neg hhead, if_pos h]

theorem findFree_of_small {n fuel head : Nat} (hfuel : 1 < fuel) (hhead : head ≠ 0)
    (h : ¬(headers head).Fits n) (hnext : (headers head).next = 0) :
    findFree headers n fuel head = .ok none := by
  match fuel with
  | fuel + 2 => rw [findFree, if_neg hhead, if_neg h, hnext, findFree, if_pos rfl]

theorem mergeLoop_of_last (headers : Nat → HeapHeader) (head app : Nat) (hfuel : 1 < fuel) (happ : app ≠ 0) (hne : app ≠ head)
    (hfree : (headers app).isFree = 1) (hnext : (headers app).next = 0) :
    mergeLoop head fuel app headers = .ok (update headers head
      { headers head with size := u32 ((headers head).size + (headers app).size + headerSize), next := 0 }) := by
  match fuel with
  | fuel + 2 =>
    rw [mergeLoop, if_pos ⟨happ, hfree⟩]
    dsimp only
    rw [update_of_ne hne, hnext, mergeLoop, if_neg fun h => h.1 rfl]

theorem Chain.unique (h : Chain headers a l) (h' : Chain headers a l') : l = l' := by
  induction l generalizing a l' with
  | nil =>
    cases l' with
    | nil => rfl
    | cons b l' => exact absurd h h'.1
  | cons b l ih =>
    cases l' with
    | nil => exact absurd h' h.1
    | cons b' l' => rw [h.2.1, h'.2.1, ih h.2.2 h'.2.2]

section
variable (h : Idle kernelEnd s)
include h

theorem Idle.kmalloc_eq (h0 : 0 < kernelEnd)
    (hn : n + headerSize ≤ heapEnd - kernelEnd) :
    kmalloc n s.heap = .ok (u32 (kernelEnd + headerSize),
      { s.heap with
        headers := splitHeaders s.heap.headers kernelEnd n
        used := u32 (s.heap.used + n + headerSize) }) := by
  have hfits : (s.heap.headers kernelEnd).Fits n := by
    rw [h.header]
    exact ⟨Nat.le_sub_of_add_le hn, rfl, rfl⟩
  have hfind : findFree s.heap.headers n (2 ^ 32) s.heap.firstHeader = .ok (some kernelEnd) := by
    rw [h.first]
    exact findFree_of_fits (by decide) (Nat.ne_of_gt h0) hfits
  rw [kmalloc, if_neg (by rw [h.size]; exact Nat.not_le.2 h.used), hfind]
  rfl

theorem Idle.kmalloc_large (h0 : 0 < kernelEnd) (hn : heapEnd - kernelEnd < n + headerSize)
    (hbig : headerSize ≤ heapEnd - kernelEnd) : kmalloc n s.heap = .ok (0, s.heap) := by
  have hfits : ¬(s.heap.headers kernelEnd).Fits n := by
    rw [h.header]
    rintro ⟨hle, -⟩
    dsimp only at hle
    omega
  have hfind : findFree s.heap.headers n (2 ^ 32) s.heap.firstHeader = .ok none := by
    rw [h.first]
    exact findFree_of_small (by decide) (Nat.ne_of_gt h0) hfits (by rw [h.header])
  rw [kmalloc, if_neg (by rw [h.size]; exact Nat.not_le.2 h.used), hfind]
  rfl

theorem Idle.sound (h0 : 0 < kernelEnd) (hbig : kernelEnd + headerSize < heapEnd) : Sound s := by
  have hend : heapEnd = 0x200000 := rfl
  refine ⟨by rw [h.live]; exact .nil, by rw [h.live]; exact fun a ha => absurd ha not_mem_nil,
    ⟨[kernelEnd], ⟨?_, h.first.symm, ?_⟩, fun a ha => ?_, fun x hlow hhigh => ?_⟩, fun _ => ?_⟩
  · rw [h.first]
    exact Nat.ne_of_gt h0
  · rw [h.first, h.header]
    rfl
  · rw [mem_singleton.1 ha, h.header]
  · rw [h.start] at hlow hhigh
    rw [h.size] at hhigh
    refine ⟨kernelEnd, mem_singleton_self _, hlow, ?_⟩
    rw [h.header]
    dsimp only
    omega
  · have hsize : sub32 s.heap.size headerSize = heapEnd - kernelEnd - headerSize := by
      rw [h.size]
      exact sub32_eq (by omega) (by omega)
    rw [hsize, h.kmalloc_eq h0 (by omega)]
    refine ⟨_, rfl, ?_⟩
    rw [u32_eq (by omega)]
    omega

theorem Idle.split_headers (hn : n + headerSize ≤ heapEnd - kernelEnd) :
    splitHeaders s.heap.headers kernelEnd n kernelEnd =
        ⟨heapMagic, n, 0, kernelEnd + (n + headerSize) * headerSize⟩ ∧
      splitHeaders s.heap.headers kernelEnd n (kernelEnd + (n + headerSize) * headerSize) =
        ⟨heapMagic, sub32 (heapEnd - kernelEnd - headerSize - n) headerSize, 1, 0⟩ := by
  have hend : heapEnd = 0x200000 := rfl
  have hheader : headerSize = 16 := rfl
  have hbehind : u32 (kernelEnd + (n + headerSize) * headerSize) =
      kernelEnd + (n + headerSize) * headerSize := u32_eq (by rw [hheader]; omega)
  have hne : kernelEnd ≠ kernelEnd + (n + headerSize) * headerSize := by
    rw [hheader]
    omega
  have hrest : sub32 (heapEnd - kernelEnd - headerSize) n = heapEnd - kernelEnd - headerSize - n :=
    sub32_eq (by omega) (by omega)
  constructor
  · simp only [splitHeaders, hbehind, update_self, update_of_ne hne, h.header]
  · simp only [splitHeaders, hbehind, update_self, update_of_ne hne.symm, h.header, hrest]

theorem Idle.busy (h0 : 0 < kernelEnd) (hlen : len.toNat + headerSize = s.heap.size)
    (hstep : Step s (.malloc len) s') :
    Busy kernelEnd s' ∧ s'.heap.used = s.heap.used + (heapEnd - kernelEnd) := by
  have hend : heapEnd = 0x200000 := rfl
  have hused := h.used
  rw [h.size] at hlen
  obtain ⟨hhead, hbehind⟩ := h.split_headers (Nat.le_of_eq hlen)
  have hn : len.toNat = heapEnd - kernelEnd - headerSize := by omega
  cases hstep with
  | malloc hcall =>
    rw [h.kmalloc_eq h0 (Nat.le_of_eq hlen)] at hcall
    cases hcall
    have hptr : u32 (kernelEnd + headerSize) = kernelEnd + headerSize := u32_eq (by omega)
    have husedAfter : u32 (s.heap.used + len.toNat + headerSize) = s.heap.used + (heapEnd - kernelEnd) := by
      rw [u32_eq (by omega)]
      omega
    refine ⟨⟨h.start, h.size, h.first, ?_, ?_, ?_, ?_⟩, husedAfter⟩
    · exact hhead.trans (by rw [hlen, hn])
    · rw [hlen] at hbehind
      refine hbehind.trans ?_
      rw [hn, Nat.sub_self]
      rfl
    · rw [hptr, if_neg (by omega), h.live, hn]
    · dsimp only
      rw [husedAfter]
      omega

theorem Idle.gap (h0 : 0 < kernelEnd) (hlen : len.toNat + headerSize < s.heap.size)
    (hstep : Step s (.malloc len) s') : ¬Sound s' := by
  have hheader : headerSize = 16 := rfl
  rw [h.size] at hlen
  obtain ⟨hhead, hbehind⟩ := h.split_headers (Nat.le_of_lt hlen)
  cases hstep with
  | malloc hcall =>
    rw [h.kmalloc_eq h0 (Nat.le_of_lt hlen)] at hcall
    cases hcall
    rintro ⟨-, -, ⟨l, hchain, -, hcover⟩, -⟩
    have hlist : l = [kernelEnd, kernelEnd + (len.toNat + headerSize) * headerSize] := by
      refine hchain.unique ⟨?_, h.first.symm, ?_⟩
      · exact fun hzero => absurd (h.first.symm.trans hzero) (Nat.ne_of_gt h0)
      · dsimp only
        rw [h.first, hhead]
        refine ⟨by dsimp only; omega, rfl, ?_⟩
        rw [hbehind]
        rfl
    obtain ⟨a, ha, hle, hlt⟩ := hcover (kernelEnd + headerSize + len.toNat)
      (by dsimp only; rw [h.start]; omega) (by dsimp only; rw [h.start, h.size]; omega)
    dsimp only at hlt
    rw [hlist] at ha
    rcases mem_cons.1 ha with rfl | ha
    · rw [hhead] at hlt
      exact absurd hlt (Nat.lt_irrefl _)
    · rw [mem_singleton.1 ha, hheader] at hle
      omega

end

theorem Busy.sound (h : Busy kernelEnd s) (h0 : 0 < kernelEnd) (hbig : kernelEnd + headerSize < heapEnd) :
    Sound s := by
  refine ⟨by rw [h.live]; exact .cons (fun a ha => absurd ha not_mem_nil) .nil, fun a ha => ?_,
    ⟨[kernelEnd, kernelEnd + (heapEnd - kernelEnd) * headerSize], ⟨?_, h.first.symm, ?_⟩, fun a ha => ?_,
      fun x hlow hhigh => ?_⟩, fun hnil => ?_⟩
  · rw [h.live] at ha
    rw [mem_singleton.1 ha, h.start, h.size]
    dsimp only
    omega
  · rw [h.first]
    exact Nat.ne_of_gt h0
  · rw [h.first, h.header]
    refine ⟨by dsimp only; omega, rfl, ?_⟩
    rw [h.behind]
    rfl
  · rcases mem_cons.1 ha with rfl | ha
    · rw [h.header]
    · rw [mem_singleton.1 ha, h.behind]
  · rw [h.start] at hlow hhigh
    rw [h.size] at hhigh
    refine ⟨kernelEnd, mem_cons_self, hlow, ?_⟩
    rw [h.header]
    dsimp only
    omega
  · rw [h.live] at hnil
    cases hnil

theorem Busy.malloc (h : Busy kernelEnd s) (hstep : Step s (.malloc len) s') : s' = s := by
  cases hstep with
  | malloc hcall =>
    rw [kmalloc, if_pos (by rw [h.size]; exact h.used.1)] at hcall
    cases hcall
    rfl

theorem Busy.kfree_eq (h : Busy kernelEnd s) (hbig : kernelEnd + headerSize < heapEnd) :
    ∃ heap, kfree (kernelEnd + headerSize) s.heap = .ok heap ∧ heap.used + (heapEnd - kernelEnd) =
      s.heap.used + headerSize ∧ heap.start = kernelEnd ∧ heap.size = heapEnd - kernelEnd ∧ heap.firstHeader
      = kernelEnd ∧ heap.headers kernelEnd = ⟨heapMagic, heapEnd - kernelEnd - headerSize, 1, 0⟩ := by
  have hend : heapEnd = 0x200000 := rfl
  have hheader : headerSize = 16 := rfl
  have hhead : sub32 (kernelEnd + headerSize) headerSize = kernelEnd := by
    rw [sub32_eq (by omega) (Nat.le_add_left _ _), Nat.add_sub_cancel]
  have hne : kernelEnd + (heapEnd - kernelEnd) * headerSize ≠ kernelEnd := by
    rw [hheader]
    omega
  have hsize : u32 (heapEnd - kernelEnd - headerSize + (2 ^ 32 - headerSize) + headerSize) =
      heapEnd - kernelEnd - headerSize := by
    rw [u32, hheader]
    omega
  have hfuel : 1 < 2 ^ 32 := by decide
  have hmerge := mergeLoop_of_last
    (update s.heap.headers kernelEnd { s.heap.headers kernelEnd with isFree := 1 }) kernelEnd
    (kernelEnd + (heapEnd - kernelEnd) * headerSize) hfuel (by rw [hheader]; omega) hne
    (by rw [update_of_ne hne, h.behind]) (by rw [update_of_ne hne, h.behind])
  rw [update_of_ne hne, update_self, h.behind, h.header] at hmerge
  rw [hsize] at hmerge
  have hused := h.used
  refine ⟨{ s.heap with
    headers := update (update s.heap.headers kernelEnd
      ⟨heapMagic, heapEnd - kernelEnd - headerSize, 1, kernelEnd + (heapEnd - kernelEnd) * headerSize⟩) kernelEnd
      ⟨heapMagic, heapEnd - kernelEnd - headerSize, 1, 0⟩
    used := sub32 s.heap.used (heapEnd - kernelEnd - headerSize) }, ?_, ?_, h.start, h.size, h.first, ?_⟩
  · rw [kfree, hhead]
    dsimp only
    rw [if_pos (by rw [h.header]; exact ⟨rfl, rfl⟩), update_self, h.header]
    rw [hmerge]
    rfl
  · dsimp only
    rw [sub32_eq (by omega) (by omega)]
    omega
  · dsimp only
    rw [update_self]

theorem Busy.free (h : Busy kernelEnd s) (hbig : kernelEnd + headerSize < heapEnd)
    (hroom : s.heap.used + headerSize < heapEnd - kernelEnd + (heapEnd - kernelEnd)) {ptr : Nat}
    (hstep : Step s (.free ptr) s') : Idle kernelEnd s' := by
  obtain ⟨heap, hkfree, hused, hstart, hsize, hfirst, hheader⟩ := h.kfree_eq hbig
  cases hstep with
  | free hlive hcall =>
    have hlive' := hlive
    rw [h.live] at hlive'
    obtain ⟨rfl, rfl⟩ := Prod.mk.inj (mem_singleton.1 hlive')
    rw [hkfree] at hcall
    cases hcall
    refine ⟨hstart, hsize, hfirst, hheader, ?_, ?_⟩
    · rw [h.live, erase_cons_head]
    · dsimp only
      omega

theorem Idle.full (h : Idle kernelEnd s) (h0 : 0 < kernelEnd) (hbig : kernelEnd + headerSize < heapEnd)
    (hlen : len.toNat + headerSize = s.heap.size) (hused : s.heap.size ≤ s.heap.used + headerSize)
    (hstep : Step s (.malloc len) s') : ∃ calls t, Run Step s' calls t ∧ ¬Sound t := by
  obtain ⟨hbusy, husedAfter⟩ := h.busy h0 hlen hstep
  obtain ⟨heap, hkfree, hback, -, hsize, -⟩ := hbusy.kfree_eq hbig
  have hlive : (kernelEnd + headerSize, heapEnd - kernelEnd - headerSize) ∈ s'.live := by
    rw [hbusy.live]
    exact mem_singleton_self _
  refine ⟨_, _, Run.nil.snoc (.free hlive hkfree), fun hsound => ?_⟩
  obtain ⟨r, hr, hne⟩ := hsound.restored (by rw [hbusy.live, erase_cons_head])
  rw [kmalloc, if_pos (by dsimp only; rw [hsize]; rw [h.size] at hused; omega)] at hr
  cases hr
  exact hne rfl

theorem exists_step_malloc (h : Idle kernelEnd s) (h0 : 0 < kernelEnd) (len : BitVec 32)
    (hlen : len.toNat + headerSize ≤ s.heap.size) : ∃ t, Step s (.malloc len) t := by
  rw [h.size] at hlen
  exact ⟨_, .malloc (h.kmalloc_eq h0 hlen)⟩

/-- The states that are reached as long as all calls are right. -/
def Kept (kernelEnd : Nat) (s : KHeapSystem) : Prop :=
  Idle kernelEnd s ∨ Busy kernelEnd s ∧ s.heap.used + headerSize < heapEnd - kernelEnd + (heapEnd - kernelEnd)

section
variable (h : Kept kernelEnd s) (h0 : 0 < kernelEnd) (hbig : kernelEnd + headerSize < heapEnd)
include h h0 hbig

theorem Kept.sound : Sound s := by
  rcases h with h | ⟨h, -⟩
  · exact h.sound h0 hbig
  · exact h.sound h0 hbig

theorem Kept.step {call : KHeapCall} (ha : s.Allowed call) (hstep : Step s call s') : Kept kernelEnd s' := by
  cases call with
  | malloc len =>
    rcases h with h | ⟨h, hroom⟩
    · rcases ha with hfull | hlarge | ⟨hlen, hused⟩
      · rw [h.size] at hfull
        exact absurd h.used (Nat.not_lt.2 hfull)
      · rw [h.size] at hlarge
        cases hstep with
        | malloc hcall =>
          rw [h.kmalloc_large h0 hlarge (by omega)] at hcall
          cases hcall
          exact .inl h
      · obtain ⟨hbusy, husedAfter⟩ := h.busy h0 hlen hstep
        rw [h.size] at hused
        exact .inr ⟨hbusy, by omega⟩
    · rw [h.malloc hstep]
      exact .inr ⟨h, hroom⟩
  | free ptr =>
    rcases h with h | ⟨h, hroom⟩
    · cases hstep with
      | free hlive hcall =>
        rw [h.live] at hlive
        exact absurd hlive not_mem_nil
    · exact .inl (h.free hbig hroom hstep)

theorem Kept.spoils (ha : ¬s.Allowed call) : ∃ s', Step s call s' ∧ ∃ calls t,
    Run Step s' calls t ∧ ¬Sound t := by
  cases call with
  | malloc len =>
    obtain ⟨hnotFull, hnot⟩ := not_or.1 ha
    obtain ⟨hnotLarge, hnotWhole⟩ := not_or.1 hnot
    rcases h with h | ⟨h, -⟩
    · obtain ⟨s', hstep⟩ := exists_step_malloc h h0 len (Nat.not_lt.1 hnotLarge)
      refine ⟨s', hstep, ?_⟩
      rcases Nat.lt_or_eq_of_le (Nat.not_lt.1 hnotLarge) with hlt | heq
      · exact ⟨[], s', .nil, h.gap h0 hlt hstep⟩
      · exact h.full h0 hbig heq (Nat.not_lt.1 fun hused => hnotWhole ⟨heq, hused⟩) hstep
    · refine absurd ?_ hnotFull
      rw [h.size]
      exact h.used.1
  | free ptr => exact absurd trivial ha

end

theorem idle_new (h0 : 0 < kernelEnd) (hbig : kernelEnd + headerSize < heapEnd) :
    Idle kernelEnd (new kernelEnd headers) := by
  have hend : heapEnd = 0x200000 := rfl
  have hsize : sub32 heapEnd kernelEnd = heapEnd - kernelEnd := sub32_eq (by decide) (by omega)
  refine ⟨rfl, hsize, rfl, ?_, rfl, ?_⟩
  · show update headers kernelEnd _ kernelEnd = _
    rw [update_self, hsize, sub32_eq (by omega) (by omega)]
  · show headerSize < heapEnd - kernelEnd
    omega

theorem not_sound_new (hend : kernelEnd ≤ heapEnd) (h : ¬(0 < kernelEnd ∧ kernelEnd + headerSize < heapEnd)) :
    ¬Sound (new kernelEnd headers) := by
  have hsize : sub32 heapEnd kernelEnd = heapEnd - kernelEnd := sub32_eq (by decide) hend
  intro hsound
  obtain ⟨r, hr, hne⟩ := hsound.restored rfl
  have hrefused : kmalloc (sub32 (new kernelEnd headers).heap.size headerSize) (new kernelEnd headers).heap =
      .ok (0, (new kernelEnd headers).heap) := by
    rw [kmalloc]
    split
    · rfl
    · next hused =>
      have hbig : ¬sub32 heapEnd kernelEnd ≤ headerSize := hused
      obtain rfl : kernelEnd = 0 := by omega
      rfl
  rw [hrefused] at hr
  cases hr
  exact hne rfl

/-- As long as all calls are right, the heap is sound in every state, and any other call spoils it. A heap
without room for a byte is not sound from the start. -/
theorem kheap_sound (kernelEnd : Nat) (headers : Nat → HeapHeader) (hend : kernelEnd ≤ heapEnd) :
    ((0 < kernelEnd ∧ kernelEnd + headerSize < heapEnd) →
      ∀ calls s, Run (guarded Allowed Step) (new kernelEnd headers) calls s → Sound s ∧
        ∀ call, ¬s.Allowed call → ∃ s', Step s call s' ∧ ∃ calls t, Run Step s' calls t ∧ ¬Sound t) ∧
    (¬(0 < kernelEnd ∧ kernelEnd + headerSize < heapEnd) → ¬Sound (new kernelEnd headers)) := by
  refine ⟨fun ⟨h0, hbig⟩ calls s hrun => ?_, not_sound_new hend⟩
  have hkept : Kept kernelEnd s := hrun.invariant (.inl (idle_new h0 hbig))
    fun s call s' hs hstep => hs.step h0 hbig hstep.1 hstep.2
  exact ⟨hkept.sound h0 hbig, fun call ha => hkept.spoils h0 hbig ha⟩

/-- A heap of 1 MB, of which all memory is taken. -/
theorem kheap_sound_whole : 0x100000 ≤ heapEnd ∧
    ∃ s, Run (guarded Allowed Step) (new 0x100000 fun _ => ⟨0, 0, 0, 0⟩) [.malloc 0xFFFF0] s ∧
      s.live = [(0x100010, 0xFFFF0)] ∧ Sound s := by
  have hidle : Idle 0x100000 (new 0x100000 fun _ => ⟨0, 0, 0, 0⟩) := idle_new (by decide) (by decide)
  obtain ⟨s, hstep⟩ := exists_step_malloc hidle (by decide) 0xFFFF0 (by decide)
  have hrun : Run (guarded Allowed Step) (new 0x100000 fun _ => ⟨0, 0, 0, 0⟩) [.malloc 0xFFFF0] s :=
    Run.nil.snoc ⟨.inr (.inr ⟨by decide, by decide⟩), hstep⟩
  refine ⟨by decide, s, hrun, ?_, ?_⟩
  · exact (hidle.busy (by decide) (by decide) hstep).1.live
  · exact ((kheap_sound 0x100000 _ (by decide)).1 ⟨by decide, by decide⟩ _ _ hrun).1

/-- A call, carried out. -/
def exec (s : KHeapSystem) : KHeapCall → Option KHeapSystem
  | .malloc len => (kmalloc len.toNat s.heap).toOption.map fun r =>
      ⟨r.2, if r.1 = 0 then s.live else (r.1, len.toNat) :: s.live⟩
  | .free ptr => (s.live.find? fun a => a.1 = ptr).bind fun a =>
      (kfree a.1 s.heap).toOption.map fun heap => ⟨heap, s.live.erase a⟩

theorem step_of_exec (h : s.exec call = some s') : Step s call s' := by
  have hok : ∀ {α : Type} {x : Exec α} {a : α}, x.toOption = some a → x = .ok a := by
    intro α x a hx
    cases x with
    | error e => cases hx
    | ok b => rw [some.inj hx]
  cases call with
  | malloc len =>
    obtain ⟨r, hr, rfl⟩ := map_eq_some_iff.1 h
    exact .malloc (hok hr)
  | free ptr =>
    obtain ⟨a, ha, h⟩ := bind_eq_some_iff.1 h
    obtain ⟨heap, hheap, rfl⟩ := map_eq_some_iff.1 h
    obtain rfl : a.1 = ptr := by simpa using find?_some ha
    exact .free (mem_of_find?_eq_some ha) (hok hheap)

theorem run_of_exec (h : calls.foldlM exec s = some s') : Run Step s calls s' := by
  induction calls generalizing s with
  | nil =>
    obtain rfl := some.inj h
    exact .nil
  | cons call calls ih =>
    obtain ⟨t, ht, h⟩ := bind_eq_some_iff.1 h
    exact (Run.nil.snoc (step_of_exec ht)).append (ih h)

/-- A heap of 1 MB: with two live pointers the first is given back and asked for again. The new header overwrites
that of the second pointer, and the next request returns this pointer once more. -/
theorem kheap_overlap : ∃ calls s, Run Step (new 0x100000 fun _ => ⟨0, 0, 0, 0⟩) calls s ∧
    s.live = [(0x100750, 2000), (0x100010, 100), (0x100750, 2000)] := by
  have hlive : ([.malloc 100, .malloc 2000, .free 0x100010, .malloc 100, .malloc 2000].foldlM exec
      (new 0x100000 fun _ => ⟨0, 0, 0, 0⟩)).map (·.live) =
      some [(0x100750, 2000), (0x100010, 100), (0x100750, 2000)] := by decide +kernel
  obtain ⟨s, hs, hlive⟩ := map_eq_some_iff.1 hlive
  exact ⟨_, s, run_of_exec hs, hlive⟩

end KHeapSystem

end HeisenKernel
