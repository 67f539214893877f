import HeisenKernel.Gui.ContextHeap
import HeisenKernel.Gui.Desktop

/-!
# Opening and closing contexts

A client reserves an area for a context in its own heap and asks the compositor for the context; the
compositor reserves one in its heap, and the kernel maps both to the same memory
(`GUI::RequestContext`, `Compositor::HandleClientRequest`).
-/

namespace HeisenKernel.Gui

open Lib ContextHeap Function List Bitmap

/-- `CONTEXT_INFO_SIZE` (`contextinfo.h:10`). -/
def contextInfoSize : Nat := 0x1000

/-- The fields of a `ContextInfo` (`contextinfo.h:32`) that say where it is. The client reads them in the shared
memory too. -/
structure OpenContext where
  id : Nat
  clientID : Nat
  bytes : Nat
  width : Nat
  height : Nat
  virtAddrServer : Nat
  virtAddrClient : Nat
deriving Repr, DecidableEq

namespace OpenContext

/-- The blocks of the shared memory (`compositor.cpp:398`). -/
def blocks (c : OpenContext) : Nat := pageRoundUp c.bytes / 0x1000

/-- Where the area of the compositor begins. -/
def address (c : OpenContext) : Nat := sub32 c.virtAddrServer contextInfoSize

/-- The end of the area. -/
def areaEnd (c : OpenContext) : Nat := c.address + pageRoundUp c.bytes

end OpenContext

/-- The compositor and its clients: their heaps, and the contexts from front to back. -/
structure ContextSystem where
  heap : Words
  clients : Nat → Words
  contexts : List OpenContext
  nextContextID : Nat

/-- A request of a client. When a context is opened, the kernel may not find the client any more, and then does
not share memory (`sharedmem.cpp:16`). -/
inductive ContextRequest where
  | request (client : Nat) (width height : UInt32) (found : Bool)
  | close (client id : Nat)
deriving Repr, DecidableEq

/-- `bytesRequired` (`compositor.cpp:395`). -/
def bytesRequired (width height : UInt32) : Nat :=
  u32 (u32 (width.toNat * height.toNat * 4) + contextInfoSize)

/-- The blocks that a client reserves for each context (`gui.cpp:180`). -/
def Desktop.contextBlocks (d : Desktop) : Nat :=
  pageRoundUp (u32 (d.width * d.height * 4 + contextInfoSize)) / 0x1000

namespace ContextSystem

/-- The request for a context (`compositor.cpp:382`), with the answer. -/
def handleRequestContext (client memAddressClient : Nat) (width height : UInt32) (found : Bool)
    (s : ContextSystem) : Bool × ContextSystem :=
  let bytes := bytesRequired width height
  let area := allocateArea (pageRoundUp bytes / 0x1000) s.heap
  if found = false ∨ pageRoundUp bytes = 0 then (false, { s with heap := area.2 })
  else (true,
    { s with
      heap := area.2
      contexts :=
        { id := s.nextContextID
          clientID := client
          bytes := bytes
          width := width.toNat
          height := height.toNat
          virtAddrServer := u32 (area.1 + contextInfoSize)
          virtAddrClient := u32 (memAddressClient + contextInfoSize) } :: s.contexts
      nextContextID := s.nextContextID + 1 })

/-- The loop over the contexts at `REQUEST_CLOSE` (`compositor.cpp:446`): the contexts that stay and those that
are removed. Behind a removed one the next is skipped. -/
def closeLoop (id : Nat) : List OpenContext → List OpenContext × List OpenContext
  | [] => ([], [])
  | c :: contexts =>
    if c.id = id then
      match contexts with
      | [] => ([], [c])
      | next :: rest => (next :: (closeLoop id rest).1, c :: (closeLoop id rest).2)
    else (c :: (closeLoop id contexts).1, (closeLoop id contexts).2)

/-- The request to close a context (`compositor.cpp:444`). -/
def handleRequestClose (id : Nat) (s : ContextSystem) : ContextSystem :=
  { s with
    heap := (closeLoop id s.contexts).2.foldl
      (fun w c => freeArea (u32 (c.virtAddrServer + contextInfoSize)) c.blocks w) s.heap
    contexts := (closeLoop id s.contexts).1 }

/-- `GUI::RequestContext` (`gui.cpp:178`). -/
def requestContext (d : Desktop) (client : Nat) (width height : UInt32) (found : Bool)
    (s : ContextSystem) : Bool × ContextSystem :=
  let area := allocateArea d.contextBlocks (s.clients client)
  { s with clients := update s.clients client area.2 }.handleRequestContext client area.1 width height found

/-- `Context::CloseContext` (`context.cpp:82`), for a context of the client. -/
def closeContext (client id : Nat) (s : ContextSystem) : ContextSystem :=
  match s.contexts.find? fun c => c.id = id ∧ c.clientID = client with
  | none => s
  | some c =>
    let area := freeArea (sub32 c.virtAddrClient contextInfoSize) c.blocks (s.clients client)
    { s with clients := update s.clients client area }.handleRequestClose id

/-- The answer of a request, and the state behind it. -/
def exec (d : Desktop) (s : ContextSystem) : ContextRequest → Bool × ContextSystem
  | .request client width height found => s.requestContext d client width height found
  | .close client id => (true, s.closeContext client id)

/-- The steps of the system. -/
def Step (d : Desktop) (s : ContextSystem) (e : ContextRequest) (s' : ContextSystem) : Prop :=
  s' = (s.exec d e).2

/-- The system at the start, with whatever lies behind the bitmaps. -/
def new (behind : Words) (behindClients : Nat → Words) : ContextSystem where
  heap := init behind
  clients := fun client => init (behindClients client)
  contexts := []
  nextContextID := 1

/-- The areas of the compositor are disjoint and inside the heap, the shared memory is large enough for the
pixels, and without contexts the bitmaps are as in `s₀`. -/
structure Sound (s₀ s : ContextSystem) : Prop where
  inside : ∀ c ∈ s.contexts, startAddress ≤ c.address ∧ c.areaEnd ≤ endAddress
  disjoint : s.contexts.Pairwise fun c c' => c.areaEnd ≤ c'.address ∨ c'.areaEnd ≤ c.address
  large : ∀ c ∈ s.contexts, c.width * c.height * 4 + contextInfoSize ≤ pageRoundUp c.bytes
  restored : s.contexts = [] → s.heap = s₀.heap ∧ s.clients = s₀.clients

/-- The blocks of some contexts together. -/
def total : List OpenContext → Nat
  | [] => 0
  | c :: contexts => c.blocks + total contexts

/-- The requests that are handled properly: those for a context that the kernel can share, whose size does not
wrap, and for which there is room behind the others; those that the kernel cannot share, for which neither the
compositor nor the client find room; and those to close a context that the client does not have. -/
def Allowed (d : Desktop) (s : ContextSystem) : ContextRequest → Prop
  | .request client width height found =>
    (found = true ∧ width.toNat * height.toNat * 4 + 0x1FFF < 2 ^ 32 ∧
      total s.contexts + pageRoundUp (bytesRequired width height) / 0x1000 ≤ blockCount) ∨
    ((found = false ∨ pageRoundUp (bytesRequired width height) = 0) ∧
      ¬HasRoom s.heap (pageRoundUp (bytesRequired width height) / 0x1000) ∧
      ¬HasRoom (s.clients client) d.contextBlocks)
  | .close client id => ∀ c ∈ s.contexts, ¬(c.id = id ∧ c.clientID = client)

/-- The request is answered with failure although something has changed, or the system can get into a state
that is not sound. -/
def Spoils (d : Desktop) (s₀ s : ContextSystem) (e : ContextRequest) : Prop :=
  ((s.exec d e).1 = false ∧ (s.exec d e).2 ≠ s) ∨
    ∃ events t, Run (Step d) (s.exec d e).2 events t ∧ ¬Sound s₀ t

end ContextSystem

theorem pageRoundUp_cases (h : a < 2 ^ 32) :
    (a + 0x1000 ≤ 2 ^ 32 ∧ pageRoundUp a = (a + 0xFFF) / 0x1000 * 0x1000) ∨
      (2 ^ 32 < a + 0x1000 ∧ pageRoundUp a = 0) := by
  rcases lt_or_ge (2 ^ 32) (a + 0x1000) with hwrap | hfit
  · right
    have hmask : a &&& 0xFFFFF000 = a / 0x1000 * 0x1000 := and_mask_eq h
    refine ⟨hwrap, ?_⟩
    rw [pageRoundUp, if_pos (by omega), hmask]
    have hpage : a / 0x1000 * 0x1000 + 0x1000 = 2 ^ 32 := by omega
    rw [hpage]
    rfl
  · exact .inl ⟨hfit, pageRoundUp_eq hfit⟩

theorem bytesRequired_lt (width height : UInt32) : bytesRequired width height < 2 ^ 32 := u32_lt _

theorem bytesRequired_eq (h : width.toNat * height.toNat * 4 + contextInfoSize < 2 ^ 32) :
    bytesRequired width height = width.toNat * height.toNat * 4 + contextInfoSize := by
  rw [bytesRequired, u32_eq (lt_of_le_of_lt (Nat.le_add_right _ _) h), u32_eq h]

theorem pageRoundUp_bytesRequired (h : width.toNat * height.toNat * 4 + 0x1FFF < 2 ^ 32) : width.toNat *
    height.toNat * 4 + contextInfoSize ≤ pageRoundUp (bytesRequired width height) := by
  have hinfo : contextInfoSize = 0x1000 := rfl
  have hbytes : bytesRequired width height = _ := bytesRequired_eq (by omega)
  have hcases := pageRoundUp_cases (bytesRequired_lt width height)
  omega

theorem pageRoundUp_bytesRequired_wrapped (h : 2 ^ 32 ≤ width.toNat * height.toNat * 4 + 0x1FFF) :
    pageRoundUp (bytesRequired width height) < width.toNat * height.toNat * 4 + contextInfoSize := by
  have hinfo : contextInfoSize = 0x1000 := rfl
  have hcases := pageRoundUp_cases (bytesRequired_lt width height)
  rcases lt_or_ge (width.toNat * height.toNat * 4 + contextInfoSize) (2 ^ 32) with hlt | hge
  · have hbytes := bytesRequired_eq hlt
    omega
  · have hlt := bytesRequired_lt width height
    omega

theorem sub32_contextInfoSize (h : a + contextInfoSize < 2 ^ 32) :
    sub32 (u32 (a + contextInfoSize)) contextInfoSize = a := by
  rw [u32_eq h, sub32_eq h (Nat.le_add_left _ _), Nat.add_sub_cancel]

namespace ContextSystem

-- The search over the whole bitmap is never to be unfolded here.
attribute [local irreducible] firstFreeSize

variable {d : Desktop} {s₀ s : ContextSystem} {contexts : List OpenContext} {c : OpenContext}

/-- Each area begins where those of the contexts behind it in the list end. -/
def Piled : List OpenContext → Prop
  | [] => True
  | c :: contexts => (c.address = startAddress + total contexts * 0x1000 ∧ 0 < c.blocks ∧
      pageRoundUp c.bytes = c.blocks * 0x1000 ∧
      c.width * c.height * 4 + contextInfoSize ≤ pageRoundUp c.bytes) ∧ Piled contexts

theorem Piled.bounds (h : Piled contexts) : ∀ c ∈ contexts, startAddress ≤ c.address ∧
    c.areaEnd ≤ startAddress + total contexts * 0x1000 ∧
    c.width * c.height * 4 + contextInfoSize ≤ pageRoundUp c.bytes := by
  induction contexts with
  | nil => exact fun c hc => absurd hc not_mem_nil
  | cons c contexts ih =>
    obtain ⟨⟨haddress, -, hsize, hlarge⟩, hrest⟩ := h
    intro c' hc'
    rw [total]
    rcases mem_cons.1 hc' with rfl | hc'
    · rw [OpenContext.areaEnd]
      exact ⟨by omega, by omega, hlarge⟩
    · obtain ⟨hstart, hend, hlarge'⟩ := ih hrest c' hc'
      have hmore : total contexts * 0x1000 ≤ (c.blocks + total contexts) * 0x1000 :=
        Nat.mul_le_mul_right _ (Nat.le_add_left _ _)
      exact ⟨hstart, le_trans hend (Nat.add_le_add_left hmore _), hlarge'⟩

theorem Piled.disjoint (h : Piled contexts) :
    contexts.Pairwise fun c c' => c.areaEnd ≤ c'.address ∨ c'.areaEnd ≤ c.address := by
  induction contexts with
  | nil => exact .nil
  | cons c contexts ih =>
    refine .cons (fun c' hc' => .inr ?_) (ih h.2)
    rw [h.1.1]
    exact (h.2.bounds c' hc').2.1

/-- The state as long as no context was closed. -/
structure Stacked (s₀ s : ContextSystem) : Prop where
  bits : ∀ b < blockCount, bit s.heap b = decide (b < total s.contexts)
  piled : Piled s.contexts
  fits : total s.contexts ≤ blockCount
  restored : s.contexts = [] → s.heap = s₀.heap ∧ s.clients = s₀.clients

theorem stacked_new (behind : Words) (behindClients : Nat → Words) :
    Stacked (new behind behindClients) (new behind behindClients) := by
  refine ⟨fun b hb => ?_, trivial, Nat.zero_le _, fun _ => ⟨rfl, rfl⟩⟩
  exact (bit_init hb).trans (decide_eq_false (Nat.not_lt_zero b)).symm

theorem Stacked.sound (h : Stacked s₀ s) : Sound s₀ s := by
  have hcount : startAddress + blockCount * 0x1000 = endAddress := by decide
  refine ⟨fun c hc => ?_, h.piled.disjoint, fun c hc => (h.piled.bounds c hc).2.2, h.restored⟩
  obtain ⟨hstart, hend, -⟩ := h.piled.bounds c hc
  have hfits := h.fits
  exact ⟨hstart, by omega⟩

theorem exec_refused {found : Bool}
    (h : found = false ∨ pageRoundUp (bytesRequired width height) = 0) :
    s.exec d (.request client width height found) = (false,
      { s with
        heap := (allocateArea (pageRoundUp (bytesRequired width height) / 0x1000) s.heap).2
        clients := update s.clients client
          (allocateArea d.contextBlocks (s.clients client)).2 }) := by
  rw [exec, requestContext, handleRequestContext, if_pos h]

/-- The context that a request opens. -/
def opened (d : Desktop) (s : ContextSystem) (client : Nat) (width height : UInt32) : OpenContext where
  id := s.nextContextID
  clientID := client
  bytes := bytesRequired width height
  width := width.toNat
  height := height.toNat
  virtAddrServer :=
    u32 ((allocateArea (pageRoundUp (bytesRequired width height) / 0x1000) s.heap).1 + contextInfoSize)
  virtAddrClient := u32 ((allocateArea d.contextBlocks (s.clients client)).1 + contextInfoSize)

theorem exec_shared {found : Bool}
    (h : ¬(found = false ∨ pageRoundUp (bytesRequired width height) = 0)) :
    s.exec d (.request client width height found) = (true,
      { heap := (allocateArea (pageRoundUp (bytesRequired width height) / 0x1000) s.heap).2
        clients := update s.clients client (allocateArea d.contextBlocks (s.clients client)).2
        contexts := s.opened d client width height :: s.contexts
        nextContextID := s.nextContextID + 1 }) := by
  rw [exec, requestContext, handleRequestContext, if_neg h]
  rfl

theorem exec_close_of_none {client id : Nat} (h : ∀ c ∈ s.contexts, ¬(c.id = id ∧ c.clientID = client)) :
    s.exec d (.close client id) = (true, s) := by
  have hfind : s.contexts.find? (fun c => c.id = id ∧ c.clientID = client) = none :=
    find?_eq_none.2 fun c hc => by simpa using h c hc
  rw [exec, closeContext, hfind]

theorem Stacked.opened (h : Stacked s₀ s) (client : Nat)
    (hsize : width.toNat * height.toNat * 4 + 0x1FFF < 2 ^ 32)
    (hroom : total s.contexts + pageRoundUp (bytesRequired width height) / 0x1000 ≤ blockCount) :
    Stacked s₀ (s.exec d (.request client width height true)).2 := by
  have hlarge := pageRoundUp_bytesRequired hsize
  have hinfo : contextInfoSize = 0x1000 := rfl
  have hcases := pageRoundUp_cases (bytesRequired_lt width height)
  set n := pageRoundUp (bytesRequired width height) / 0x1000
  have hblocks : 0 < n := by omega
  have hfirst := firstFreeSize_of_stacked hblocks hroom h.bits
  have harea : allocateArea n s.heap = (startAddress + total s.contexts * 0x1000,
      (blocksFrom (total s.contexts) n).foldl set s.heap) := by
    rw [allocateArea_of_some hfirst, (address_eq (by omega)).1]
  have hend := (address_eq (b := total s.contexts) (by omega)).2
  have hend' : endAddress = 0xAB000000 := rfl
  rw [exec_shared (by rintro (hf | h0) <;> [cases hf; omega])]
  refine ⟨fun b hb => ?_, ⟨⟨?_, hblocks, ?_, hlarge⟩, h.piled⟩, ?_, fun hnil => ?_⟩
  · dsimp only
    have hmem : b ∈ blocksFrom (total s.contexts) n ↔ _ := mem_blocksFrom (by omega)
    rw [harea, bit_foldl_set, h.bits b hb, total, Bool.eq_iff_iff, Bool.or_eq_true,
      decide_eq_true_eq, decide_eq_true_eq, decide_eq_true_eq, hmem]
    show _ ↔ b < n + total s.contexts
    omega
  · show sub32 (u32 ((allocateArea _ s.heap).1 + contextInfoSize)) contextInfoSize = _
    rw [harea, sub32_contextInfoSize (by dsimp only; omega)]
  · show pageRoundUp (bytesRequired width height) = n * 0x1000
    omega
  · show n + total s.contexts ≤ blockCount
    omega
  · cases hnil

theorem Stacked.exec (h : Stacked s₀ s) (ha : s.Allowed d e) :
    Stacked s₀ (s.exec d e).2 ∧ ((s.exec d e).1 = false → (s.exec d e).2 = s) := by
  cases e with
  | request client width height found =>
    rcases ha with ⟨rfl, hsize, hroom⟩ | ⟨hrefused, hserver, hclient⟩
    · have hlarge := pageRoundUp_bytesRequired hsize
      have hinfo : contextInfoSize = 0x1000 := rfl
      refine ⟨h.opened client hsize hroom, fun hfalse => ?_⟩
      rw [exec_shared (by rintro (hf | h0) <;> [cases hf; omega])] at hfalse
      cases hfalse
    · have hsame : s.exec d (.request client width height found) = (false, s) := by
        rw [exec_refused hrefused, allocateArea_of_none (firstFreeSize_eq_none_iff.2 hserver),
          allocateArea_of_none (firstFreeSize_eq_none_iff.2 hclient), update_eq_self]
      rw [hsame]
      exact ⟨h, fun _ => rfl⟩
  | close client id =>
    rw [exec_close_of_none ha]
    exact ⟨h, fun _ => rfl⟩

theorem closeLoop_subset (id : Nat) (contexts : List OpenContext) :
    (closeLoop id contexts).1.Sublist contexts ∧ ∀ c ∈ (closeLoop id contexts).2, c ∈ contexts := by
  fun_induction closeLoop id contexts with
  | case1 => exact ⟨.refl _, fun c hc => hc⟩
  | case2 c hid => exact ⟨nil_sublist _, fun c' hc' => hc'⟩
  | case3 c hid next rest ih =>
    refine ⟨(ih.1.cons_cons next).cons c, fun c' hc' => ?_⟩
    rcases mem_cons.1 hc' with rfl | hc'
    · exact mem_cons_self
    · exact mem_cons_of_mem _ (mem_cons_of_mem _ (ih.2 c' hc'))
  | case4 c contexts hid ih => exact ⟨ih.1.cons_cons c, fun c' hc' => mem_cons_of_mem _ (ih.2 c' hc')⟩

theorem closeLoop_of_ne {id : Nat} (h : ∀ c ∈ contexts, c.id ≠ id) : closeLoop id contexts = (contexts, []) := by
  induction contexts with
  | nil => rfl
  | cons c contexts ih =>
    obtain ⟨hc, hrest⟩ := forall_mem_cons.1 h
    unfold closeLoop
    rw [if_neg hc, ih hrest]

theorem closeLoop_head (h : ∀ c' ∈ contexts, c'.id ≠ c.id) : (closeLoop c.id (c :: contexts)).1 = contexts := by
  unfold closeLoop
  rw [if_pos rfl]
  cases contexts with
  | nil => rfl
  | cons next rest =>
    dsimp only
    rw [closeLoop_of_ne (forall_mem_cons.1 h).2]

/-- The contexts have numbers of their own, and addresses of the heap, or address 0. -/
structure Regular (s : ContextSystem) : Prop where
  nodup : (s.contexts.map (·.id)).Nodup
  lt : ∀ c ∈ s.contexts, c.id < s.nextContextID
  addresses : ∀ c ∈ s.contexts, c.virtAddrServer = contextInfoSize ∨
    ∃ b < blockCount, c.virtAddrServer = startAddress + b * 0x1000 + contextInfoSize
  bytes : ∀ c ∈ s.contexts, c.bytes < 2 ^ 32

theorem regular_new (behind : Words) (behindClients : Nat → Words) : (new behind behindClients).Regular :=
  ⟨nodup_nil, fun _ hc => absurd hc not_mem_nil, fun _ hc => absurd hc not_mem_nil,
    fun _ hc => absurd hc not_mem_nil⟩

theorem allocateArea_address (w : Words) (n : Nat) :
    u32 ((allocateArea n w).1 + contextInfoSize) = contextInfoSize ∨
      ∃ b < blockCount, u32 ((allocateArea n w).1 + contextInfoSize) = startAddress + b * 0x1000 + contextInfoSize := by
  cases hfirst : firstFreeSize n w with
  | none =>
    rw [allocateArea_of_none hfirst]
    have hinfo : contextInfoSize < 2 ^ 32 := by decide
    exact .inl ((congrArg u32 (zero_add contextInfoSize)).trans (u32_eq hinfo))
  | some b =>
    obtain ⟨-, hlt, -⟩ := firstFreeSize_eq_some hfirst
    obtain ⟨haddress, hend⟩ := address_eq hlt
    rw [allocateArea_of_some hfirst, haddress]
    have hregion : endAddress < 2 ^ 32 := by decide
    exact .inr ⟨b, hlt, u32_eq (lt_of_le_of_lt hend hregion)⟩

theorem bit_zero_freeArea (haddress : c.virtAddrServer = contextInfoSize ∨
      ∃ b < blockCount, c.virtAddrServer = startAddress + b * 0x1000 + contextInfoSize)
    (hbytes : c.bytes < 2 ^ 32) (h : bit w 0 = true) :
    bit (freeArea (u32 (c.virtAddrServer + contextInfoSize)) c.blocks w) 0 = true := by
  have hframe : 0 < sub32 (u32 (c.virtAddrServer + contextInfoSize)) startAddress / 0x1000 := by
    rcases haddress with haddress | ⟨b, hb, haddress⟩
    · rw [haddress]
      decide
    · have hregion : startAddress + b * 0x1000 + contextInfoSize + contextInfoSize < 2 ^ 32 := by
        have hend := (address_eq hb).2
        have hendAddress : endAddress = 0xAB000000 := rfl
        have hinfo : contextInfoSize = 0x1000 := rfl
        omega
      rw [haddress, u32_eq hregion, sub32_eq hregion (by omega)]
      have hinfo : contextInfoSize = 0x1000 := rfl
      omega
  have hround := Boot.pageRoundUp_lt hbytes
  have hlast := sub32_lt (u32 (c.virtAddrServer + contextInfoSize)) startAddress
  have hmem : 0 ∉ blocksFrom (sub32 (u32 (c.virtAddrServer + contextInfoSize)) startAddress / 0x1000) c.blocks := by
    have hblocks : c.blocks ≤ 2 ^ 20 := by
      rw [OpenContext.blocks]
      omega
    rw [mem_blocksFrom (by omega)]
    omega
  rw [freeArea, bit_foldl_unset, h, decide_eq_false hmem]
  rfl

theorem Regular.exec (h : Regular s) (e : ContextRequest) :
    Regular (s.exec d e).2 ∧ (bit s.heap 0 = true → bit (s.exec d e).2.heap 0 = true) := by
  cases e with
  | request client width height found =>
    by_cases hrefused : found = false ∨ pageRoundUp (bytesRequired width height) = 0
    · rw [exec_refused hrefused]
      exact ⟨⟨h.nodup, h.lt, h.addresses, h.bytes⟩, bit_allocateArea⟩
    · rw [exec_shared hrefused]
      refine ⟨⟨?_, ?_, ?_, ?_⟩, bit_allocateArea⟩
      · refine nodup_cons.2 ⟨fun hmem => ?_, h.nodup⟩
        obtain ⟨c, hc, hid⟩ := mem_map.1 hmem
        exact absurd (h.lt c hc) (Nat.not_lt.2 (le_of_eq hid.symm))
      · exact forall_mem_cons.2 ⟨Nat.lt_succ_self _, fun c hc => Nat.lt_succ_of_lt (h.lt c hc)⟩
      · exact forall_mem_cons.2 ⟨allocateArea_address _ _, h.addresses⟩
      · exact forall_mem_cons.2 ⟨bytesRequired_lt width height, h.bytes⟩
  | close client id =>
    rw [ContextSystem.exec, closeContext]
    cases hfind : s.contexts.find? fun c => c.id = id ∧ c.clientID = client with
    | none => exact ⟨h, fun hbit => hbit⟩
    | some c =>
      obtain ⟨hkept, hclosed⟩ := closeLoop_subset id s.contexts
      refine ⟨⟨h.nodup.sublist (hkept.map _), fun c' hc' => h.lt c' (hkept.subset hc'),
        fun c' hc' => h.addresses c' (hkept.subset hc'), fun c' hc' => h.bytes c' (hkept.subset hc')⟩,
        fun hbit => ?_⟩
      refine List.foldlRecOn (motive := fun w => bit w 0 = true) _ _ hbit fun w hw c' hc' => ?_
      exact bit_zero_freeArea (h.addresses c' (hclosed c' hc')) (h.bytes c' (hclosed c' hc')) hw

theorem Regular.exists_closed (h : Regular s) : ∃ events t, Run (Step d) s events t ∧ t.contexts = [] ∧
    (bit s.heap 0 = true → bit t.heap 0 = true) := by
  induction hlen : s.contexts.length generalizing s with
  | zero => exact ⟨[], s, .nil, length_eq_zero_iff.1 hlen, fun hbit => hbit⟩
  | succ n ih =>
    obtain ⟨c, contexts, hcontexts⟩ := exists_cons_of_length_eq_add_one hlen
    have hfind : s.contexts.find? (fun c' => c'.id = c.id ∧ c'.clientID = c.clientID) = some c := by
      rw [hcontexts]
      exact find?_cons_of_pos (by simp)
    have hothers : ∀ c' ∈ contexts, c'.id ≠ c.id := by
      intro c' hc' hid
      have hnodup := h.nodup
      rw [hcontexts] at hnodup
      exact (nodup_cons.1 hnodup).1 (mem_map.2 ⟨c', hc', hid⟩)
    have hstep : (s.exec d (.close c.clientID c.id)).2.contexts = contexts := by
      rw [ContextSystem.exec, closeContext, hfind]
      show (closeLoop c.id s.contexts).1 = contexts
      rw [hcontexts, closeLoop_head hothers]
    obtain ⟨hregular, hkeeps⟩ := h.exec (.close c.clientID c.id)
    have hlen' : (s.exec d (.close c.clientID c.id)).2.contexts.length = n := by
      rw [hstep]
      rw [hcontexts, length_cons] at hlen
      exact Nat.succ.inj hlen
    obtain ⟨events, t, hrun, hnil, hbit⟩ := ih hregular hlen'
    exact ⟨_, t, (Run.nil.snoc rfl).append hrun, hnil, fun hs => hbit (hkeeps hs)⟩

theorem Stacked.spoils_refused (d : Desktop) {found : Bool}
    (hrefused : found = false ∨ pageRoundUp (bytesRequired width height) = 0)
    (ha : ¬s.Allowed d (.request client width height found)) :
    Spoils d s₀ s (.request client width height found) := by
  refine .inl ?_
  rw [exec_refused hrefused]
  refine ⟨rfl, fun hsame => ha (.inr ⟨hrefused, fun hroom => ?_, fun hroom => ?_⟩)⟩
  · exact allocateArea_ne hroom (congrArg ContextSystem.heap hsame)
  · refine allocateArea_ne hroom ?_
    have hclients := congrFun (congrArg ContextSystem.clients hsame) client
    exact (update_self client _ s.clients).symm.trans hclients

theorem Stacked.spoils_shared (h : Stacked s₀ s) {found : Bool}
    (hshared : ¬(found = false ∨ pageRoundUp (bytesRequired width height) = 0))
    (ha : ¬s.Allowed d (.request client width height found)) :
    Spoils d s₀ s (.request client width height found) := by
  refine .inr ⟨[], _, .nil, fun hsound => ha (.inl ?_)⟩
  rw [exec_shared hshared] at hsound
  obtain ⟨hfound, hne⟩ := not_or.1 hshared
  have hmem : s.opened d client width height ∈ s.opened d client width height :: s.contexts := mem_cons_self
  have hlarge := hsound.large _ hmem
  obtain ⟨hstart, hend⟩ := hsound.inside _ hmem
  refine ⟨Bool.eq_true_of_not_eq_false hfound, Nat.lt_of_not_le fun hwrap => ?_, ?_⟩
  · exact absurd (pageRoundUp_bytesRequired_wrapped hwrap) (Nat.not_lt.2 hlarge)
  · have hcases := pageRoundUp_cases (bytesRequired_lt width height)
    rw [OpenContext.areaEnd] at hend
    have haddress : (s.opened d client width height).address = sub32 (u32 ((allocateArea
      (pageRoundUp (bytesRequired width height) / 0x1000) s.heap).1 + contextInfoSize)) contextInfoSize := rfl
    rw [haddress] at hstart hend
    cases hfirst : firstFreeSize (pageRoundUp (bytesRequired width height) / 0x1000) s.heap with
    | none =>
      have hnull : ¬startAddress ≤ sub32 (u32 (0 + contextInfoSize)) contextInfoSize := by decide
      rw [allocateArea_of_none hfirst] at hstart
      exact absurd hstart hnull
    | some b =>
      obtain ⟨-, hlt, hclear⟩ := firstFreeSize_eq_some hfirst
      rw [h.bits b hlt, decide_eq_false_iff_not] at hclear
      obtain ⟨hblock, hblockEnd⟩ := address_eq hlt
      have hregion : endAddress = startAddress + blockCount * 0x1000 := by decide
      have htop : endAddress < 2 ^ 32 := by decide
      have hbytes : (s.opened d client width height).bytes = bytesRequired width height := rfl
      rw [allocateArea_of_some hfirst] at hend
      rw [hblock, sub32_contextInfoSize (lt_of_le_of_lt hblockEnd htop), hbytes, hregion] at hend
      omega

theorem Stacked.spoils_close (h : Stacked s₀ s) (hregular : Regular s) (hstart : bit s₀.heap 0 = false)
    {client id : Nat} (ha : ¬s.Allowed d (.close client id)) : Spoils d s₀ s (.close client id) := by
  obtain ⟨hregular', hkeeps⟩ := hregular.exec (.close client id)
  obtain ⟨events, t, hrun, hnil, hbit⟩ := hregular'.exists_closed
  refine .inr ⟨events, t, hrun, fun hsound => ?_⟩
  have hopen : bit s.heap 0 = true := by
    rw [h.bits 0 (by decide), decide_eq_true_eq]
    have hpiled := h.piled
    cases hcontexts : s.contexts with
    | nil =>
      refine absurd (fun c hc => ?_) ha
      rw [hcontexts] at hc
      cases hc
    | cons c contexts =>
      rw [hcontexts] at hpiled
      exact lt_of_lt_of_le hpiled.1.2.1 (Nat.le_add_right _ _)
  rw [← (hsound.restored hnil).1, hbit (hkeeps hopen)] at hstart
  cases hstart

theorem Stacked.spoils (h : Stacked s₀ s) (hregular : Regular s) (hstart : bit s₀.heap 0 = false)
    (ha : ¬s.Allowed d e) : Spoils d s₀ s e := by
  cases e with
  | request client width height found =>
    by_cases hrefused : found = false ∨ pageRoundUp (bytesRequired width height) = 0
    · exact Stacked.spoils_refused d hrefused ha
    · exact h.spoils_shared hrefused ha
  | close client id => exact h.spoils_close hregular hstart ha

/-- As long as every request is one that is handled properly, the areas are disjoint and inside the heap, the
memory is large enough, and a failed request changes nothing. Any other request is answered with failure
although it changes a heap, or leads to a state that is not sound. -/
theorem areas_sound (d : Desktop) (behind : Words) (behindClients : Nat → Words)
    {events : List ContextRequest} {s : ContextSystem}
    (hrun : Run (guarded (fun s e => s.Allowed d e) (Step d)) (new behind behindClients) events s) :
    Sound (new behind behindClients) s ∧ (∀ e, s.Allowed d e → (s.exec d e).1 = false → (s.exec d e).2 = s)
      ∧ ∀ e, ¬s.Allowed d e → Spoils d (new behind behindClients) s e := by
  have hinv : Stacked (new behind behindClients) s ∧ Regular s := by
    refine hrun.invariant (I := fun s => Stacked (new behind behindClients) s ∧ Regular s)
      ⟨stacked_new _ _, regular_new _ _⟩ fun t e t' ht hstep => ?_
    obtain ⟨hallowed, rfl⟩ := hstep
    exact ⟨(ht.1.exec hallowed).1, (ht.2.exec e).1⟩
  exact ⟨hinv.1.sound, fun e ha => (hinv.1.exec ha).2,
    fun e ha => hinv.1.spoils hinv.2 (bit_init (by decide)) ha⟩

/-- A desktop of 640 by 480 pixels, on which a client opens a context of 100 by 50. -/
theorem areas_sound_one : ∃ d : Desktop, d.width = 640 ∧ d.height = 480 ∧
    ∃ s : ContextSystem, s.contexts.length = 1 ∧
      Run (guarded (fun s e => s.Allowed d e) (Step d)) (new (fun _ => 0#32) fun _ _ => 0#32)
        [.request 1 100 50 true] s ∧
      Sound (new (fun _ => 0#32) fun _ _ => 0#32) s := by
  let d : Desktop := ⟨640, 480, by decide, by decide, by decide⟩
  have hrun : Run (guarded (fun s e => s.Allowed d e) (Step d)) (new (fun _ => 0#32) fun _ _ => 0#32)
      [.request 1 100 50 true] _ :=
    Run.nil.snoc ⟨.inl ⟨rfl, by decide, by decide⟩, rfl⟩
  exact ⟨d, rfl, rfl, _, by decide +kernel, hrun, (areas_sound d _ _ hrun).1⟩

/-- After the only context is closed, the first block of the compositor's heap is still in use. -/
theorem areas_not_restored : ∃ d : Desktop, ∃ events s,
    Run (Step d) (new (fun _ => 0#32) fun _ _ => 0#32) events s ∧ s.contexts = [] ∧
      s.heap ≠ (new (fun _ => 0#32) fun _ _ => 0#32).heap := by
  let d : Desktop := ⟨640, 480, by decide, by decide, by decide⟩
  let s := ((new (fun _ => 0#32) fun _ _ => 0#32).exec d (.request 1 100 50 true)).2
  have hbit : bit (s.exec d (.close 1 1)).2.heap 0 = true := by decide +kernel
  have hcontexts : (s.exec d (.close 1 1)).2.contexts = [] := by decide +kernel
  refine ⟨d, _, _, (Run.nil.snoc rfl).snoc rfl, hcontexts, fun hsame => ?_⟩
  have hstart : bit (new (fun _ => 0#32) fun _ _ => 0#32).heap 0 = false := bit_init (by decide)
  rw [← hsame, hbit] at hstart
  cases hstart

end ContextSystem

end HeisenKernel.Gui
