import HeisenKernel.VirtualMemory.Loading

/-!
# The segments of an executable

When the process that `ProcessHelper::Create` makes has the segments of its executable in memory.
-/

namespace HeisenKernel

open PhysicalMemoryManager Function List Machine Option Prod

/-- The addresses of a segment. -/
def ElfProgramHeader.Covers (h : ElfProgramHeader) (a : Nat) : Prop :=
  h.pType = 1 ∧ h.pVaddr ≤ a ∧ a < h.pVaddr + h.pMemsz

/-- The byte that belongs at an address of a segment. -/
def ElfSegment.byte (s : ElfSegment) (file : Nat → UInt8) (a : Nat) : UInt8 :=
  if a - s.pVaddr < s.pFilesz then file (s.pOffset + (a - s.pVaddr)) else 0

/-- The segments are in the memory of the process, and every frame that was taken for it can be found
from its page directory. -/
structure Loaded (file : Nat → UInt8) (segments : List ElfSegment) (pageDirPhys : Nat)
    (v v' : VirtualMemory) (m : Contents) : Prop where
  bytes : ∀ s ∈ segments, ∀ a, s.Covers a → ∃ f, v'.translate pageDirPhys a = some f ∧
    m f (a % pageSize) = s.byte file a
  distinct : ∀ a < kernelVirtAddr, ∀ b < kernelVirtAddr, a / pageSize ≠ b / pageSize →
    ∀ f, v'.translate pageDirPhys a = some f → v'.translate pageDirPhys b ≠ some f
  reachable : ∀ f, v.manager.testBit f = false → v'.manager.testBit f = true →
    (∃ a < kernelVirtAddr, v'.translate pageDirPhys a = some f) ∨
      ∃ i < 768, (v'.entries (pageDirPhys / pageSize) i).present = true ∧
        (v'.entries (pageDirPhys / pageSize) i).frame = f

/-- Every byte of a segment is on a page that a segment steps on, and no page is stepped on twice by
the segments, the stack and the heap. -/
structure PagesFit (headers : List ElfProgramHeader) : Prop where
  covered : ∀ h ∈ headers, ∀ a, h.Covers a → a / pageSize ∈ headers.flatMap steppedPages
  nodup : (headers.flatMap steppedPages ++ (stackPages ++ heapPages (imageTop headers))).Nodup

namespace VirtualMemory

variable {v : VirtualMemory} {m : Contents}

/-- Two user pages of the current directory have two frames. -/
def Apart (v : VirtualMemory) : Prop :=
  ∀ a < kernelVirtAddr, ∀ b < kernelVirtAddr, ∀ f, v.translate v.cr3 a = some f →
    v.translate v.cr3 b = some f → a / pageSize = b / pageSize

/-- The byte that is read at an address. -/
def byteAt (v : VirtualMemory) (m : Contents) (a : Nat) : Option UInt8 :=
  (v.translate v.cr3 a).map fun f => m f (a % pageSize)

theorem byteAt_writeByte (h : v.Apart) (hk : addr + k < kernelVirtAddr)
    (hm : v.writeByte value addr m k = .ok m') (ha : a < kernelVirtAddr) :
    v.byteAt m' a = if a = addr + k then some (value k) else v.byteAt m a := by
  have hsmall : kernelVirtAddr < 2 ^ 32 := by decide
  unfold writeByte at hm
  rw [u32_eq (by omega)] at hm
  split at hm
  · cases hm
  · next f hf =>
    cases hm
    unfold byteAt
    by_cases hsame : a = addr + k
    · subst hsame
      simp [hf]
    · rw [if_neg hsame]
      cases hta : v.translate v.cr3 a with
      | none => rfl
      | some g =>
        rw [map_some, map_some]
        by_cases hg : g = f
        · subst hg
          have hpage := h a ha _ hk _ hta hf
          have hoff : a % pageSize ≠ (addr + k) % pageSize := by
            simp only [pageSize] at hpage ⊢
            omega
          rw [update_self, Function.update_of_ne hoff]
        · rw [Function.update_of_ne hg]

theorem writeByte_ok_iff (hk : addr + k < kernelVirtAddr) :
    (∃ m', v.writeByte value addr m k = .ok m') ↔ (v.translate v.cr3 (addr + k)).isSome := by
  have hsmall : kernelVirtAddr < 2 ^ 32 := by decide
  unfold writeByte
  rw [u32_eq (by omega)]
  cases v.translate v.cr3 (addr + k) with
  | none => simp
  | some f => exact ⟨fun _ => rfl, fun _ => ⟨_, rfl⟩⟩

theorem writeBytes_ok_iff (value : Nat → UInt8) (m : Contents) (hend : addr + len ≤ kernelVirtAddr) :
    (∃ m', v.writeBytes value addr len m = .ok m') ↔ ∀ k < len, (v.translate v.cr3 (addr + k)).isSome := by
  unfold writeBytes
  induction len with
  | zero => simp [pure, Except.pure]
  | succ len ih =>
    rw [range_succ, foldlM_append]
    simp only [foldlM_cons, foldlM_nil, bind_pure, bind_eq_ok]
    constructor
    · rintro ⟨m2, m₁, hloop, hlast⟩ k hk
      rcases Nat.lt_succ_iff_lt_or_eq.1 hk with hk | rfl
      · exact (ih (by omega)).1 ⟨m₁, hloop⟩ k hk
      · exact (writeByte_ok_iff (by omega)).1 ⟨m2, hlast⟩
    · intro hall
      obtain ⟨m₁, hloop⟩ := (ih (by omega)).2 fun k hk => hall k (by omega)
      obtain ⟨m2, hlast⟩ := (writeByte_ok_iff (by omega)).2 (hall len (by omega))
      exact ⟨m2, m₁, hloop, hlast⟩

theorem byteAt_writeBytes (h : v.Apart) (hend : addr + len ≤ kernelVirtAddr)
    (hm : v.writeBytes value addr len m = .ok m') (ha : a < kernelVirtAddr) :
    v.byteAt m' a =
      if addr ≤ a ∧ a < addr + len then some (value (a - addr)) else v.byteAt m a := by
  unfold writeBytes at hm
  induction len generalizing m' with
  | zero =>
    cases hm
    rw [if_neg (by omega)]
  | succ len ih =>
    rw [range_succ, foldlM_append] at hm
    simp only [foldlM_cons, foldlM_nil, bind_pure] at hm
    obtain ⟨m₁, hloop, hlast⟩ := bind_eq_ok.1 hm
    rw [byteAt_writeByte h (by omega) hlast ha, ih (by omega) hloop]
    by_cases hsame : a = addr + len
    · rw [if_pos hsame, if_pos (by omega), hsame, Nat.add_sub_cancel_left]
    · rw [if_neg hsame]
      exact if_congr (by omega) rfl rfl

variable {m' : Contents} {file : Nat → UInt8} {s : ElfSegment}

theorem loadBytes_ok_iff (hend : s.pType = 1 → s.pVaddr + s.pMemsz ≤ kernelVirtAddr)
    (hfile : s.pType = 1 → s.pFilesz ≤ s.pMemsz) :
    (∃ m', v.loadBytes file m s = .ok m') ↔ ∀ a, s.Covers a → (v.translate v.cr3 a).isSome := by
  have hsmall : kernelVirtAddr < 2 ^ 32 := by decide
  unfold loadBytes
  split
  · next htype =>
    have hfile := hfile htype
    rw [u32_eq (by omega), sub32_eq (by omega) hfile]
    simp only [bind_eq_ok]
    constructor
    · rintro ⟨m2, m₁, hcopy, hclear⟩ a ⟨-, hle, hlt⟩
      by_cases hin : a < s.pVaddr + s.pFilesz
      · have hsome := (writeBytes_ok_iff _ _ (by omega)).1 ⟨m₁, hcopy⟩ (a - s.pVaddr) (by omega)
        rwa [Nat.add_sub_cancel' hle] at hsome
      · have hsome := (writeBytes_ok_iff _ _ (by omega)).1 ⟨m2, hclear⟩ (a - (s.pVaddr + s.pFilesz))
          (by omega)
        rwa [Nat.add_sub_cancel' (by omega)] at hsome
    · intro hall
      obtain ⟨m₁, hcopy⟩ := (writeBytes_ok_iff (fun k => file (s.pOffset + k)) m
        (by omega : s.pVaddr + s.pFilesz ≤ _)).2 fun k hk => hall _ ⟨htype, by omega, by omega⟩
      obtain ⟨m2, hclear⟩ := (writeBytes_ok_iff (fun _ => 0) m₁
        (by omega : s.pVaddr + s.pFilesz + (s.pMemsz - s.pFilesz) ≤ _)).2
        fun k hk => hall _ ⟨htype, by omega, by omega⟩
      exact ⟨m2, m₁, hcopy, hclear⟩
  · next htype => exact ⟨fun _ a ha => absurd ha.1 htype, fun _ => ⟨m, rfl⟩⟩

open Classical in
theorem byteAt_loadBytes (h : v.Apart) (hend : s.pType = 1 → s.pVaddr + s.pMemsz ≤ kernelVirtAddr)
    (hfile : s.pType = 1 → s.pFilesz ≤ s.pMemsz) (hm : v.loadBytes file m s = .ok m')
    (ha : a < kernelVirtAddr) :
    v.byteAt m' a = if s.Covers a then some (s.byte file a) else v.byteAt m a := by
  have hsmall : kernelVirtAddr < 2 ^ 32 := by decide
  unfold loadBytes at hm
  split at hm
  · next htype =>
    have hfile := hfile htype
    rw [u32_eq (by omega), sub32_eq (by omega) hfile] at hm
    obtain ⟨m₁, hcopy, hclear⟩ := bind_eq_ok.1 hm
    rw [byteAt_writeBytes h (by omega) hclear ha, byteAt_writeBytes h (by omega) hcopy ha]
    unfold ElfProgramHeader.Covers ElfSegment.byte
    split
    · rw [if_pos ⟨htype, by omega, by omega⟩, if_neg (by omega)]
    · split
      · rw [if_pos ⟨htype, by omega, by omega⟩, if_pos (by omega)]
      · rw [if_neg]
        rintro ⟨-, hle, hlt⟩
        omega
  · next htype =>
    cases hm
    rw [if_neg fun hc => htype hc.1]

theorem loadAll_ok_iff {segments : List ElfSegment}
    (hend : ∀ s ∈ segments, s.pType = 1 → s.pVaddr + s.pMemsz ≤ kernelVirtAddr)
    (hfile : ∀ s ∈ segments, s.pType = 1 → s.pFilesz ≤ s.pMemsz) :
    (∃ m', segments.foldlM (v.loadBytes file) m = .ok m') ↔
      ∀ s ∈ segments, ∀ a, s.Covers a → (v.translate v.cr3 a).isSome := by
  induction segments generalizing m with
  | nil => exact ⟨fun _ => by simp, fun _ => ⟨m, rfl⟩⟩
  | cons s segments ih =>
    have ih := fun m => @ih m (forall_mem_cons.1 hend).2
      (forall_mem_cons.1 hfile).2
    have hs := @loadBytes_ok_iff v m file s (hend s mem_cons_self) (hfile s mem_cons_self)
    rw [foldlM_cons]
    simp only [bind_eq_ok, forall_mem_cons]
    constructor
    · rintro ⟨m2, m₁, hfirst, hrest⟩
      exact ⟨hs.1 ⟨m₁, hfirst⟩, (ih m₁).1 ⟨m2, hrest⟩⟩
    · rintro ⟨hfirst, hrest⟩
      obtain ⟨m₁, hfirst⟩ := hs.2 hfirst
      obtain ⟨m2, hrest⟩ := (ih m₁).2 hrest
      exact ⟨m2, m₁, hfirst, hrest⟩

theorem byteAt_loadAll (h : v.Apart) {segments : List ElfSegment}
    (hend : ∀ s ∈ segments, s.pType = 1 → s.pVaddr + s.pMemsz ≤ kernelVirtAddr)
    (hfile : ∀ s ∈ segments, s.pType = 1 → s.pFilesz ≤ s.pMemsz)
    (hapart : segments.Pairwise fun s t => ∀ a, s.Covers a → ¬ t.Covers a)
    (hm : segments.foldlM (v.loadBytes file) m = .ok m') (ha : a < kernelVirtAddr) :
    (∀ s ∈ segments, s.Covers a → v.byteAt m' a = some (s.byte file a)) ∧
      ((∀ s ∈ segments, ¬ s.Covers a) → v.byteAt m' a = v.byteAt m a) := by
  induction segments generalizing m with
  | nil =>
    cases hm
    exact ⟨by simp, fun _ => rfl⟩
  | cons s segments ih =>
    obtain ⟨m₁, hfirst, hrest⟩ := bind_eq_ok.1 hm
    rw [pairwise_cons] at hapart
    obtain ⟨hin, hout⟩ := ih (forall_mem_cons.1 hend).2
      (forall_mem_cons.1 hfile).2 hapart.2 hrest
    have hstep := byteAt_loadBytes h (hend s mem_cons_self) (hfile s mem_cons_self) hfirst ha
    constructor
    · rintro t (_ | ⟨_, ht⟩) hc
      · -- no later segment writes there
        rw [hout fun t ht => hapart.1 t ht a hc, hstep, if_pos hc]
      · exact hin t ht hc
    · intro hnone
      rw [hout (forall_mem_cons.1 hnone).2, hstep,
        if_neg (hnone s mem_cons_self)]

variable {log : List (Nat × Nat)}

section
variable (h : Filled K pageDirPhys v0 log owner v)
include h

theorem Filled.owner_of_translate (ha : a < kernelVirtAddr) (hf : v.translate pageDirPhys a = some f) :
    owner f = some (.page (pageDirPhys / pageSize) (a / pageSize)) := by
  obtain ⟨e, he, hpresent, rfl⟩ := pageAt_of_translate hf
  exact h.owned.backed _ rfl _ (div_lt_userPages ha) e he hpresent

theorem Filled.page_eq
    (ha : a < kernelVirtAddr) (hb : b < kernelVirtAddr) (hfa : v.translate pageDirPhys a = some f)
    (hfb : v.translate pageDirPhys b = some f) : a / pageSize = b / pageSize := by
  have hrole := h.owner_of_translate ha hfa
  rw [h.owner_of_translate hb hfb, some.injEq, FrameRole.page.injEq] at hrole
  exact hrole.2.symm

theorem Filled.apart : v.Apart := by
  intro a ha b hb f
  rw [h.cr3]
  exact h.page_eq ha hb

theorem Filled.translate_eq
    (ha : a < kernelVirtAddr) : v.translate pageDirPhys a = log.lookup (a / pageSize) := by
  rw [translate_eq_frameAt, h.found _ (div_lt_userPages ha)]

end

theorem lookup_isSome_iff {l : List (Nat × Nat)} {n : Nat} : (l.lookup n).isSome ↔ n ∈ l.map fst := by
  simp [List.lookup_isSome_iff]

theorem lookup_of_nodup {l : List (Nat × Nat)} (h : (l.map fst).Nodup) {x : Nat × Nat}
    (hx : x ∈ l) : l.lookup x.1 = some x.2 := by
  obtain ⟨l₁, l₂, rfl⟩ := append_of_mem hx
  rw [map_append, map_cons, nodup_middle, nodup_cons] at h
  refine lookup_eq_some_iff.2 ⟨l₁, l₂, rfl, fun p hp => bne_iff_ne.2 fun he => h.1 ?_⟩
  exact he ▸ mem_append_left _ (mem_map_of_mem hp)

theorem Filled.reachable_iff (h : Filled v0.usedFrames pageDirPhys v0 log owner v) :
    (∀ f, v0.manager.testBit f = false → v.manager.testBit f = true →
      (∃ a < kernelVirtAddr, v.translate pageDirPhys a = some f) ∨
        ∃ i < 768, (v.entries (pageDirPhys / pageSize) i).present = true ∧
          (v.entries (pageDirPhys / pageSize) i).frame = f) ↔ (log.map fst).Nodup := by
  constructor
  · intro hall
    have hlookup : ∀ x ∈ log, log.lookup x.1 = some x.2 := by
      intro x hx
      have hrole := h.role x hx
      obtain ⟨hpos, hlt, hset⟩ := h.owned.marked _ _ hrole
      have hfresh : v0.manager.testBit x.2 = false := by
        refine Bool.eq_false_iff.2 fun hold => ?_
        rw [h.owned.kernel x.2 ⟨hpos, h.max ▸ hlt, hold⟩] at hrole
        cases hrole
      rcases hall x.2 hfresh hset with ⟨a, ha, hf⟩ | ⟨i, hi, hpresent, hf⟩
      · have hpage := h.owner_of_translate ha hf
        rw [hrole, some.injEq, FrameRole.page.injEq] at hpage
        rw [hpage.2, ← h.translate_eq ha, hf]
      · have htable := h.owned.tables _ rfl i hi hpresent
        rw [hf, hrole] at htable
        cases htable
    refine List.Nodup.map_on (fun x hx y hy hxy => Prod.ext hxy ?_) h.nodup.of_map
    have hboth := hlookup x hx
    rw [hxy, hlookup y hy] at hboth
    exact (some.inj hboth).symm
  · intro hnodup f hfree hset
    rcases h.used f hset with hold | hlog | htable
    · rw [hfree] at hold
      cases hold
    · obtain ⟨x, hx, rfl⟩ := mem_map.1 hlog
      have haddr : x.1 * pageSize < kernelVirtAddr := by
        have hlt := h.page_lt x hx
        simp only [userPages, kernelVirtAddr, pageSize] at hlt ⊢
        omega
      refine .inl ⟨x.1 * pageSize, haddr, ?_⟩
      rw [h.translate_eq haddr, Nat.mul_div_cancel _ (by decide), lookup_of_nodup hnodup hx]
    · exact .inr htable

theorem create_phases (isKernel : Bool) (bootPageDirectory : Nat) (hcounted : v.manager.Counted)
    (hreleased : v.released = []) (hdir : pageDirPhys / pageSize ∈ v.usedFrames)
    (hbelow : BelowKernel headers)
    (hframes : 2 * (segmentPages headers + userStackSize / pageSize + procUserHeapSize / pageSize) ≤
      v.manager.freeBlockCount) :
    ∃ l owner₁ log p v' owner₂ new, headers.foldlM (loadSegment isKernel)
        ⟨0, 0, v.newDirectory bootPageDirectory pageDirPhys⟩ = .ok l ∧
      Filled v.usedFrames pageDirPhys v log owner₁ l.memory ∧
      log.map fst = (headers.flatMap steppedPages).reverse ∧
      addStackAndHeap isKernel pageDirPhys v.cr3 l = .ok (p, { v' with cr3 := v.cr3 }) ∧
      p = ⟨pageDirPhys, !isKernel, (imageRange headers).1, (imageRange headers).2,
        pageRoundUp (u32 (imageTop headers)),
        pageRoundUp (u32 (imageTop headers)) + procUserHeapSize, [(userStack, userStackSize)]⟩ ∧
      Filled v.usedFrames pageDirPhys v (new ++ log) owner₂ v' ∧
      new.map fst = (stackPages ++ heapPages (imageTop headers)).reverse := by
  have hsegmentFrames : 2 * segmentPages headers ≤ v.manager.freeBlockCount := by
    have h8 : userStackSize / pageSize = 8 := by decide
    have h256 : procUserHeapSize / pageSize = 256 := by decide
    omega
  obtain ⟨owner, h⟩ := Filled.initial bootPageDirectory hcounted hreleased hdir
  obtain ⟨l, owner₁, log, hsegments, h₁, hpages, hrange, hcount⟩ := h.loadSegments headers
    isKernel (l := ⟨0, 0, _⟩) hbelow.segments hsegmentFrames
  have hcount : v.manager.freeBlockCount ≤ _ := hcount
  obtain ⟨hbase, hsize⟩ : l.memBase = (imageRange headers).1 ∧ l.memSize = (imageRange headers).2 :=
    Prod.ext_iff.1 hrange
  have htop : l.memBase + l.memSize = imageTop headers := by rw [hbase, hsize, imageTop]
  rw [append_nil] at h₁
  obtain ⟨v', owner₂, new, hrest, h₂, hpages'⟩ := h₁.addStackAndHeap isKernel v.cr3
    (by rw [htop]; exact hbelow.heap) (by omega)
  rw [hbase, hsize, ← imageTop] at hrest
  rw [htop] at hpages'
  exact ⟨l, owner₁, log, _, v', owner₂, new, hsegments, h₁, hpages, hrest, rfl, h₂, hpages'⟩

/-- For every executable whose segments have no byte in common and end, as its heap does, below the
kernel, and with enough free frames: the process has its segments in memory, and no frame is lost,
exactly when the pages fit. -/
theorem create_loads_iff (v : VirtualMemory) (m : Contents) (file : Nat → UInt8)
    (bootPageDirectory pageDirPhys : Nat) (segments : List ElfSegment) (isKernel : Bool)
    (hcounted : v.manager.Counted) (hreleased : v.released = [])
    (hdir : pageDirPhys / pageSize ∈ v.usedFrames)
    (hfile : ∀ s ∈ segments, s.pType = 1 → s.pFilesz ≤ s.pMemsz)
    (hapart : segments.Pairwise fun s t => ∀ a, s.Covers a → ¬ t.Covers a)
    (hbelow : BelowKernel (segments.map (·.toElfProgramHeader)))
    (hframes : 2 * (segmentPages (segments.map (·.toElfProgramHeader)) + userStackSize / pageSize +
      procUserHeapSize / pageSize) ≤ v.manager.freeBlockCount) :
    (∃ p v' m', v.create m file bootPageDirectory pageDirPhys segments isKernel = .ok (p, v', m') ∧
      Loaded file segments pageDirPhys v v' m') ↔
      PagesFit (segments.map (·.toElfProgramHeader)) := by
  obtain ⟨l, owner₁, log, p, v', owner₂, new, hsegments, h₁, hpages, hrest, -, h₂, hpages'⟩ :=
    create_phases isKernel bootPageDirectory hcounted hreleased hdir hbelow hframes
  have hend : ∀ s ∈ segments, s.pType = 1 → s.pVaddr + s.pMemsz ≤ kernelVirtAddr := fun s hs =>
    hbelow.segments _ (mem_map_of_mem hs)
  have hlt : ∀ s ∈ segments, ∀ a, s.Covers a → a < kernelVirtAddr := fun s hs a hc =>
    hc.2.2.trans_le (hend s hs hc.1)
  -- the pages that the segments can be copied to
  have hcopy : (∃ m', segments.foldlM (l.memory.loadBytes file) m = .ok m') ↔
      ∀ s ∈ segments, ∀ a, s.Covers a →
        a / pageSize ∈ (segments.map (·.toElfProgramHeader)).flatMap steppedPages := by
    rw [loadAll_ok_iff hend hfile]
    refine forall₂_congr fun s hs => forall₂_congr fun a hc => ?_
    rw [h₁.cr3, h₁.translate_eq (hlt s hs a hc), lookup_isSome_iff, hpages, mem_reverse]
  -- the pages of all phases
  have hnodup : ((new ++ log).map fst).Nodup ↔
      ((segments.map (·.toElfProgramHeader)).flatMap steppedPages ++ (stackPages ++
        heapPages (imageTop (segments.map (·.toElfProgramHeader))))).Nodup := by
    rw [map_append, hpages, hpages', ← reverse_append, nodup_reverse]
  have hcreate : ∀ m', segments.foldlM (l.memory.loadBytes file) m = .ok m' →
      v.create m file bootPageDirectory pageDirPhys segments isKernel =
        .ok (p, { v' with cr3 := v.cr3 }, m') := by
    intro m' hm'
    unfold create
    rw [bind_of_ok hsegments, bind_of_ok hm', bind_of_ok hrest]
  constructor
  · rintro ⟨p', w, m', hok, hloaded⟩
    unfold create at hok
    rw [bind_of_ok hsegments] at hok
    obtain ⟨m₁, hm₁, hok⟩ := bind_eq_ok.1 hok
    rw [bind_of_ok hrest] at hok
    cases hok
    refine ⟨(forall_mem_map.2 fun s hs a hc => ?_), hnodup.1 (h₂.reachable_iff.1 hloaded.reachable)⟩
    exact hcopy.1 ⟨_, hm₁⟩ s hs a hc
  · intro hfit
    obtain ⟨m', hm'⟩ := hcopy.2 fun s hs => hfit.covered _ (mem_map_of_mem hs)
    refine ⟨_, _, m', hcreate m' hm', ⟨fun s hs a hc => ?_, fun a ha b hb hne f hfa hfb => ?_,
      h₂.reachable_iff.2 (hnodup.2 hfit.nodup)⟩⟩
    · have ha := hlt s hs a hc
      have hmem := hfit.covered _ (mem_map_of_mem hs) a hc
      have hbyte := (byteAt_loadAll h₁.apart hend hfile hapart hm' ha).1 s hs hc
      rw [byteAt, h₁.cr3, h₁.translate_eq ha] at hbyte
      obtain ⟨f, hf, hvalue⟩ := map_eq_some_iff.1 hbyte
      refine ⟨f, ?_, hvalue⟩
      -- neither the stack nor the heap has the page
      have hnew : new.lookup (a / pageSize) = none := by
        rw [← not_isSome_iff_eq_none, lookup_isSome_iff, hpages', mem_reverse]
        exact disjoint_of_nodup_append hfit.nodup hmem
      show v'.translate pageDirPhys a = some f
      rw [h₂.translate_eq ha, lookup_append, hnew, hf]
      rfl
    · exact hne (h₂.page_eq ha hb hfa hfb)

theorem emptyMachine_usedFrames : 2 * pageSize / pageSize ∈ emptyMachine.usedFrames := by
  show 0 < _ ∧ _ < _ ∧ _
  decide

/-- A segment of five bytes at the start of a page, of which three are in the file, is loaded. -/
theorem create_loads_fiveBytes : ∃ p v' m',
    emptyMachine.create (fun _ _ => 0xff) (fun k => if k < 10 then 7 else 9) 0 (2 * pageSize)
      [⟨⟨1, 0x1000, 3, 5, 2⟩, 10⟩] false = .ok (p, v', m') ∧
    Loaded (fun k => if k < 10 then 7 else 9) [⟨⟨1, 0x1000, 3, 5, 2⟩, 10⟩] (2 * pageSize)
      emptyMachine v' m' := by
  refine (create_loads_iff emptyMachine _ _ 0 (2 * pageSize) [⟨⟨1, 0x1000, 3, 5, 2⟩, 10⟩] false
    emptyMachine_counted rfl emptyMachine_usedFrames (by decide) (pairwise_singleton _ _)
    ⟨by decide, by decide⟩ (by decide)).2 ⟨?_, ?_⟩
  · intro h hmem a hc
    obtain rfl := mem_singleton.1 hmem
    obtain ⟨-, hle, hlt⟩ := hc
    have hpage : a / pageSize = 1 := by
      simp only [pageSize] at hle hlt ⊢
      omega
    rw [hpage]
    decide
  · -- the heap lies between the segment and the stack
    have hchain : (([⟨1, 0x1000, 3, 5, 2⟩] : List ElfProgramHeader).flatMap steppedPages ++
        (heapPages (imageTop [⟨1, 0x1000, 3, 5, 2⟩]) ++ stackPages)).IsChain (· < ·) := by
      decide +kernel
    exact (List.Perm.append_left _ perm_append_comm).nodup_iff.2
      ((isChain_iff_pairwise.1 hchain).imp ne_of_lt)

/-- A segment of two bytes, the last one of a page and the first one of the next: the second page is
not allocated, and the kernel takes a page fault when it copies the second byte. -/
theorem create_segment_across_pages : emptyMachine.manager.Counted ∧
    2 * (segmentPages [⟨1, 0x1fff, 2, 2, 2⟩] + userStackSize / pageSize +
      procUserHeapSize / pageSize) ≤ emptyMachine.manager.freeBlockCount ∧
    ¬ ∃ p v' m', emptyMachine.create (fun _ _ => 0xff) (fun _ => 7) 0 (2 * pageSize)
        [⟨⟨1, 0x1fff, 2, 2, 2⟩, 0⟩] false = .ok (p, v', m') ∧
      Loaded (fun _ => 7) [⟨⟨1, 0x1fff, 2, 2, 2⟩, 0⟩] (2 * pageSize) emptyMachine v' m' := by
  refine ⟨emptyMachine_counted, by decide, ?_⟩
  have hpanic : (emptyMachine.create (fun _ _ => 0xff) (fun _ => 7) 0 (2 * pageSize)
      [⟨⟨1, 0x1fff, 2, 2, 2⟩, 0⟩] false).toOption.isNone = true := by decide +kernel
  rintro ⟨p, v', m', hok, -⟩
  rw [hok] at hpanic
  cases hpanic

end VirtualMemory

end HeisenKernel
