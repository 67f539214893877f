import HeisenKernel.UserHeap.Chunks

/-!
# The user heap keeps its chunks

`Inv` says that the memory of a heap represents a list of chunks between its two ends. `Malloc`
hands out the first free chunk that is large enough (`Inv.allocate`).
-/

namespace HeisenKernel

open Lib List HeaderField UserHeap Apart Nat

namespace UserHeap

/-- The invariant of the heap: its memory represents the chunks `l`, which lie between its ends. -/
structure Inv (h : UserHeap) (l : List Chunk) : Prop where
  rep : Rep h l
  placed : Placed h.startAddress h.endAddress l
  below : h.endAddress < 2 ^ 32
  first : h.firstHeader = (l.map Chunk.addr).headD 0

variable {h h' : UserHeap} {size fuel ptr : Nat} {l l1 l2 : List Chunk} {b c : Chunk}

section
variable (hp : ∀ c ∈ l, 0 < c.addr) (hh : ∀ c ∈ l, h.HasHeader c)
  (hl : Linked (h.field · .next) (h.field · .prev) p (l.map Chunk.addr) 0) (hf : l.length < fuel)
include hp hh hl hf

theorem findFree_eq : h.findFree size fuel ((l.map Chunk.addr).headD 0) =
      .ok (((l.find? (Chunk.Fits size)).map Chunk.addr).getD 0) := by
  induction l generalizing p fuel with
  | nil =>
    cases fuel with
    | zero => simp at hf
    | succ fuel => simp [findFree]
  | cons c l ih =>
    obtain _ | fuel := fuel
    · simp at hf
    obtain ⟨ha, hs⟩ := hh c (by simp)
    have hc : c.addr ≠ 0 := (hp c (by simp)).ne'
    have hnext : h.field c.addr .next = (l.map Chunk.addr).headD 0 := hl.2.1
    have htail := ih (fun d hd => hp d (by simp [hd])) (fun d hd => hh d (by simp [hd])) hl.2.2
      (lt_of_succ_lt_succ hf)
    rw [← hnext] at htail
    simp only [findFree, map_cons, headD_cons, ne_eq, hc, not_false_eq_true, if_true,
      ha, hs, gt_iff_lt, find?_cons]
    cases hfit : Chunk.Fits size c with
    | true =>
      rw [if_pos (Chunk.fits_iff.1 hfit).symm]
      rfl
    | false => rw [if_neg fun e => by simp [Chunk.fits_iff.2 e.symm] at hfit, htail]

theorem lastFree_eq : h.lastFree fuel ((l.map Chunk.addr).headD 0) last =
      .ok (((l.filter (!·.allocated)).map Chunk.addr).getLastD last) := by
  induction l generalizing p fuel last with
  | nil =>
    cases fuel with
    | zero => simp at hf
    | succ fuel => simp [lastFree]
  | cons c l ih =>
    obtain _ | fuel := fuel
    · simp at hf
    obtain ⟨ha, -⟩ := hh c (by simp)
    have hc : c.addr ≠ 0 := (hp c (by simp)).ne'
    have hnext : h.field c.addr .next = (l.map Chunk.addr).headD 0 := hl.2.1
    simp only [lastFree, map_cons, headD_cons, ne_eq, hc, not_false_eq_true, if_true, ha, hnext]
    rw [ih (fun d hd => hp d (by simp [hd])) (fun d hd => hh d (by simp [hd])) hl.2.2 (lt_of_succ_lt_succ hf)]
    cases hca : c.allocated with
    | true => simp [hca]
    | false =>
      rw [filter_cons_of_pos (by simp [hca]), map_cons, getLastD_cons, if_pos rfl]

end

theorem Placed.length_lt (hl : Placed start stop l) (hstop : stop < 2 ^ 32) : l.length < 2 ^ 32 :=
  ((placed_iff.1 hl).length_le fun c => by simp only [Chunk.stop, sizeofUserHeader]; omega).trans_lt hstop

theorem Inv.findFree (hi : Inv h l) : h.findFree size (2 ^ 32) h.firstHeader =
    .ok (((l.find? (Chunk.Fits size)).map Chunk.addr).getD 0) := by
  rw [hi.first]
  exact findFree_eq hi.placed.pos hi.rep.headers hi.rep.linked (hi.placed.length_lt hi.below)

theorem Inv.lastFree (hi : Inv h l) : h.lastFree (2 ^ 32) h.firstHeader 0 =
    .ok (((l.filter (!·.allocated)).map Chunk.addr).getLastD 0) := by
  rw [hi.first]
  exact lastFree_eq hi.placed.pos hi.rep.headers hi.rep.linked (hi.placed.length_lt hi.below)

theorem Rep.allocate (hr : Rep h (l1 ++ b :: l2)) (hstop : stop < 2 ^ 32)
    (hl : Placed start stop (l1 ++ b :: l2)) (hb : Chunk.Fits size b) :
    (h.allocate b.addr size).1 = b.ptr ∧ Rep (h.allocate b.addr size).2 (l1 ++ b.carve size ++ l2) := by
  obtain ⟨hfree, hsize⟩ := Chunk.fits_iff.1 hb
  have hbstop : b.stop < 2 ^ 32 := (hl.bounds b (by simp)).2.trans_lt hstop
  simp only [Chunk.stop] at hbstop
  have hu : u32 (size + sizeofUserHeader) = size + sizeofUserHeader := u32_eq (by omega)
  have hrep := hr.headers b (by simp)
  refine ⟨u32_eq (by omega), ?_⟩
  simp only [UserHeap.allocate, hu, hrep.2, ge_iff_le, Chunk.carve]
  split
  · next hfit =>
    have hparts := hl.replace (Placed.parts (hl.pos b (by simp)) hfit b.allocated false)
    simp only [append_assoc, cons_append, nil_append] at hparts ⊢
    have hsplit := hr.split hstop hl hfit
    refine Rep.setData (b := ⟨b.addr, size, b.allocated⟩) hsplit hparts (by simp) rfl ?_
    refine ⟨?_, ?_⟩
    · simp [field_set (refl b.addr), bound]
    · rw [field_set (refl b.addr)]
      simpa using (hsplit.headers ⟨b.addr, size, b.allocated⟩ (by simp)).2
  · simp only [append_assoc, cons_append, nil_append]
    refine Rep.setData hr hl (by simp) rfl ⟨?_, ?_⟩
    · simp [field_set (refl b.addr), bound]
    · rw [field_set (refl b.addr)]
      simpa using hrep.2

theorem split_frame : (h.split x size).startAddress = h.startAddress ∧
    (h.split x size).endAddress = h.endAddress ∧ (h.split x size).firstHeader = h.firstHeader := by
  simp only [split, set_startAddress, set_endAddress, set_firstHeader]
  split <;> exact ⟨rfl, rfl, rfl⟩

theorem allocate_frame (h : UserHeap) (x size : Nat) : (h.allocate x size).2.startAddress = h.startAddress ∧
    (h.allocate x size).2.endAddress = h.endAddress ∧ (h.allocate x size).2.firstHeader = h.firstHeader := by
  simp only [allocate, set_startAddress, set_endAddress, set_firstHeader]
  split
  · exact split_frame
  · exact ⟨rfl, rfl, rfl⟩

theorem headD_carve (l1 l2 : List Chunk) (b : Chunk) (size : Nat) :
    ((l1 ++ b.carve size ++ l2).map Chunk.addr).headD 0 = ((l1 ++ b :: l2).map Chunk.addr).headD 0 := by
  cases l1 with
  | nil =>
    unfold Chunk.carve
    split <;> rfl
  | cons c l1 => rfl

theorem Inv.allocate (hi : Inv h (l1 ++ b :: l2)) (hb : Chunk.Fits size b) :
    Inv (h.allocate b.addr size).2 (l1 ++ b.carve size ++ l2) := by
  obtain ⟨hs, he, hf⟩ := allocate_frame h b.addr size
  refine ⟨(hi.rep.allocate hi.below hi.placed hb).2, ?_, ?_, ?_⟩
  · rw [hs, he]
    exact hi.placed.replace (.carve (hi.placed.pos b (by simp)) size)
  · rw [he]
    exact hi.below
  · rw [hf, headD_carve]
    exact hi.first

theorem Inv.malloc_of_find (hi : Inv h l) (hfind : l.find? (Chunk.Fits size) = some b) :
    h.malloc size (fuel + 1) = .ok (h.allocate b.addr size) := by
  have hb : b.addr ≠ 0 := (hi.placed.pos b (mem_of_find?_eq_some hfind)).ne'
  rw [malloc, bind_of_ok hi.findFree, hfind]
  exact if_neg hb

theorem Inv.malloc_of_not_find (hi : Inv h l) (hfind : l.find? (Chunk.Fits size) = none)
    (hx : ((l.filter (!·.allocated)).map Chunk.addr).getLastD 0 = x) :
    h.malloc size (fuel + 1) =
      if x = 0 then .error .memory
      else { h.set x .size (u32 (h.field x .size + (size + heapIncreaseSize))) with
        endAddress := pageRoundUp (u32 (h.endAddress + size + heapIncreaseSize)) }.malloc size
          fuel := by
  rw [malloc, bind_of_ok hi.findFree, hfind]
  refine (if_pos rfl).trans ?_
  rw [bind_of_ok hi.lastFree, hx]

theorem Inv.grow (hi : Inv h (l ++ [b])) {n : Nat}
    (hn : h.endAddress + n + pageSize ≤ 2 ^ 32) :
    Inv { h.set b.addr .size (u32 (h.field b.addr .size + n)) with
      endAddress := pageRoundUp (u32 (h.endAddress + n)) } (l ++ [{ b with size := b.size + n }]) := by
  have hb := (hi.placed.bounds b (by simp)).2
  simp only [Chunk.stop] at hb
  have hrep := hi.rep.headers b (by simp)
  have hpage : pageSize = 4096 := rfl
  have hend : pageRoundUp (u32 (h.endAddress + n)) =
      (h.endAddress + n + (pageSize - 1)) / pageSize * pageSize := by
    rw [u32_eq (by omega), pageRoundUp_eq (by omega)]
  have hle : h.endAddress + n ≤ pageRoundUp (u32 (h.endAddress + n)) := by
    rw [hend, hpage]
    omega
  have hlt : pageRoundUp (u32 (h.endAddress + n)) < 2 ^ 32 := by
    rw [hend, hpage]
    omega
  refine ⟨?_, ?_, hlt, ?_⟩
  · have hset : Rep (h.set b.addr .size (u32 (h.field b.addr .size + n)))
        (l ++ [{ b with size := b.size + n }]) := by
      refine hi.rep.setData hi.placed (by simp) rfl ⟨?_, ?_⟩
      · rw [field_set (refl _)]
        simpa using hrep.1
      · rw [field_set (refl _), if_pos ⟨rfl, rfl⟩, hrep.2, u32_eq (by omega)]
        exact mod_eq_of_lt (by simp only [bound]; omega)
    exact ⟨hset.linked, hset.headers⟩
  · refine hi.placed.grow (by simpa using by omega) rfl ?_
    simp only [Chunk.stop]
    omega
  · rw [set_firstHeader, hi.first]
    simp

/-- What a call of `Malloc` needs to keep the headers `l` in order: one of them is free and large
enough, or none is free, when it stores through the null pointer, or the last one is free and the heap
can grow below the end of the address space. -/
def Expands (h : UserHeap) (l : List Nat) (size : Nat) : Prop :=
  (∃ x ∈ l, h.field x .allocated = 0 ∧ size < h.field x .size) ∨
    (∀ x ∈ l, h.field x .allocated ≠ 0) ∨
    ∃ x, l.getLast? = some x ∧ h.field x .allocated = 0 ∧
      h.endAddress + (size + heapIncreaseSize) + pageSize ≤ 2 ^ 32

/-- The chunk `c` of `l'` is handed out, and the chunks of `l` that were in use stay. -/
structure HandsOut (l l' : List Chunk) (size : Nat) (c : Chunk) : Prop where
  mem : c ∈ l'
  allocated : c.allocated = true
  large : size ≤ c.size
  keeps : ∀ d ∈ l, d.allocated = true → d ∈ l' ∧ d.addr ≠ c.addr

theorem HandsOut.carve (hl : Placed start stop (l1 ++ b :: l2)) (hb : Chunk.Fits size b) :
    ∃ c, c.addr = b.addr ∧ HandsOut (l1 ++ b :: l2) (l1 ++ b.carve size ++ l2) size c := by
  obtain ⟨hfree, hsize⟩ := Chunk.fits_iff.1 hb
  have hkeeps : ∀ d ∈ l1 ++ b :: l2, d.allocated = true → d ∈ l1 ++ b.carve size ++ l2 ∧ d.addr ≠ b.addr := by
    intro d hd hda
    have hdb : d ≠ b := by
      rintro rfl
      simp [hfree] at hda
    have hd' : d ∈ l1 ++ l2 := by simpa [hdb] using hd
    have := hl.outside hd'
    simp only [Chunk.stop, sizeofUserHeader] at this
    refine ⟨?_, by omega⟩
    simp only [mem_append] at hd' ⊢
    tauto
  by_cases hfit : size + sizeofUserHeader ≤ b.size
  · exact ⟨⟨b.addr, size, true⟩, rfl, by simp [Chunk.carve, hfit], rfl, le_rfl, hkeeps⟩
  · exact ⟨⟨b.addr, b.size, true⟩, rfl, by simp [Chunk.carve, hfit], rfl, hsize.le, hkeeps⟩

theorem Inv.malloc_found (hi : Inv h l) (hfit : ∃ c ∈ l, c.allocated = false ∧ size < c.size)
    (hm : h.malloc size (fuel + 1) = .ok (ptr, h')) :
    ∃ l' c, Inv h' l' ∧ c.ptr = ptr ∧ HandsOut l l' size c := by
  obtain ⟨b, hfind⟩ : ∃ b, l.find? (Chunk.Fits size) = some b := by
    obtain ⟨c, hc, hcf⟩ := hfit
    exact Option.isSome_iff_exists.1 (find?_isSome.2 ⟨c, hc, Chunk.fits_iff.2 hcf⟩)
  have hb := find?_some hfind
  obtain ⟨l1, l2, rfl⟩ := append_of_mem (mem_of_find?_eq_some hfind)
  rw [hi.malloc_of_find hfind, Except.ok.injEq] at hm
  obtain ⟨c, hc, hout⟩ := HandsOut.carve hi.placed hb
  have hptr := (hi.rep.allocate hi.below hi.placed hb).1
  have hinv := hi.allocate hb
  rw [hm] at hptr hinv
  exact ⟨_, c, hinv, by rw [Chunk.ptr, hc]; exact hptr.symm, hout⟩

theorem Inv.malloc (hi : Inv h l) (hsafe : h.Expands (l.map Chunk.addr) size) (hfuel : 2 ≤ fuel)
    (hm : h.malloc size fuel = .ok (ptr, h')) : ∃ l' c, Inv h' l' ∧ c.ptr = ptr ∧ HandsOut l l' size c := by
  obtain ⟨n, rfl⟩ := Nat.exists_eq_add_of_le' hfuel
  by_cases hfit : ∃ c ∈ l, c.allocated = false ∧ size < c.size
  · exact hi.malloc_found hfit hm
  have hfind : l.find? (Chunk.Fits size) = none := by
    rw [find?_eq_none]
    intro c hc hcf
    exact hfit ⟨c, hc, Chunk.fits_iff.1 hcf⟩
  rcases hsafe with ⟨x, hx, hxfree, hxsize⟩ | hall | ⟨x, hlast, hxfree, hroom⟩
  · obtain ⟨c, hc, rfl⟩ := mem_map.1 hx
    obtain ⟨ha, hs⟩ := hi.rep.headers c hc
    exact absurd ⟨c, hc, ha.1 hxfree, hs ▸ hxsize⟩ hfit
  · have hnone : l.filter (!·.allocated) = [] := by
      rw [filter_eq_nil_iff]
      intro c hc
      have hne := hall c.addr (mem_map_of_mem hc)
      rw [ne_eq, (hi.rep.headers c hc).1] at hne
      simpa using hne
    rw [hi.malloc_of_not_find hfind (x := 0) (by simp [hnone]), if_pos rfl] at hm
    simp at hm
  · rw [getLast?_map, Option.map_eq_some_iff] at hlast
    obtain ⟨b, hlast, rfl⟩ := hlast
    obtain ⟨l1, rfl⟩ := getLast?_eq_some_iff.1 hlast
    have hfree : b.allocated = false := (hi.rep.headers b (by simp)).1.1 hxfree
    have hb : b.addr ≠ 0 := (hi.placed.pos b (by simp)).ne'
    rw [hi.malloc_of_not_find hfind (x := b.addr) (by simp [filter_append, hfree]),
      if_neg hb, add_assoc] at hm
    obtain ⟨l', c, hi', hptr, hout⟩ := (hi.grow hroom).malloc_found
      ⟨{ b with size := b.size + (size + heapIncreaseSize) }, by simp, hfree, by
        simp only [heapIncreaseSize]
        omega⟩ hm
    refine ⟨l', c, hi', hptr, hout.mem, hout.allocated, hout.large, ?_⟩
    intro d hd hda
    have hdb : d ≠ b := by
      rintro rfl
      simp [hfree] at hda
    exact hout.keeps d (by simpa [hdb] using Or.inl (by simpa [hdb] using hd)) hda

/-- The header at `y` after the one at `x` took in its successor, which had `n` behind it. -/
def absorbField (h : UserHeap) (x n size y : Nat) : HeaderField → Nat
  | .next => if y = x then n else h.field y .next
  | .prev => if n ≠ 0 ∧ y = n then x else h.field y .prev
  | .allocated => h.field y .allocated
  | .size => if y = x then size else h.field y .size

theorem Rep.absorb (hr : Rep h (l1 ++ a :: b :: l2)) (hl : Placed start stop (l1 ++ a :: b :: l2))
    (hf : ∀ d ∈ l1 ++ a.absorb b :: l2, ∀ f, h'.field d.addr f =
      h.absorbField a.addr (h.field b.addr .next) (a.absorb b).size d.addr f) :
    Rep h' (l1 ++ a.absorb b :: l2) := by
  have hnext : h.field b.addr .next = (l2.map Chunk.addr).headD 0 := by
    have hr' : Rep h ((l1 ++ [a]) ++ b :: l2) := by simpa using hr
    exact hr'.next_eq
  have hpos2 : ∀ c ∈ l2, 0 < c.addr := fun c hc => hl.pos c (by simp [hc])
  have hnd := hl.nodup
  have hlinked := hr.linked
  rw [map_append, map_cons, map_cons] at hnd hlinked
  constructor
  · have hmem : ∀ y ∈ l1.map Chunk.addr ++ a.addr :: l2.map Chunk.addr,
        ∃ d ∈ l1 ++ a.absorb b :: l2, d.addr = y := by
      intro y hy
      exact mem_map.1 (by simpa using hy)
    rw [map_append, map_cons]
    refine hlinked.remove hnd (fun y hy => ?_) fun y hy => ?_
    · obtain ⟨d, hd, rfl⟩ := hmem y hy
      rw [hf d hd, absorbField, hnext]
    · obtain ⟨d, hd, rfl⟩ := hmem y hy
      rw [hf d hd, absorbField, hnext]
      simp only [head?_eq_some_iff hpos2]
  · intro d hd
    rw [HasHeader, hf d hd, hf d hd]
    simp only [absorbField]
    have hother : d ∈ l1 ++ l2 → h.HasHeader d ∧ d.addr ≠ a.addr := by
      intro hd
      have hmem : d ∈ l1 ++ b :: l2 := by
        simp only [mem_append, mem_cons] at hd ⊢
        tauto
      have hout := hl.outside hmem
      simp only [Chunk.stop, sizeofUserHeader] at hout
      refine ⟨hr.headers d ?_, by omega⟩
      simp only [mem_append, mem_cons] at hd ⊢
      tauto
    have hcases : d ∈ l1 ++ l2 ∨ d = a.absorb b := by
      simp only [mem_append, mem_cons] at hd ⊢
      tauto
    rcases hcases with hd | rfl
    · rw [if_neg (hother hd).2]
      exact (hother hd).1
    · rw [if_pos (Chunk.absorb_addr a b)]
      exact ⟨(hr.headers a (by simp)).1, rfl⟩

theorem mergePrev_eq (hp : h.field x .prev = p) (hn : h.field x .next = n)
    (hfree : h.field p .allocated = 0) (hp0 : p ≠ 0) (hxp : Apart x p) (hne : x ≠ p)
    (hxn : n ≠ 0 → Apart x n ∧ x ≠ n) (hlt : p < 2 ^ 32) :
    h.mergePrev x = (p, ((h.set p .next n).set p .size
      (u32 (h.field p .size + (h.field x .size + sizeofUserHeader)))).setPrev n p) := by
  have hlast : (((h.set p .next n).set p .size
      (u32 (h.field p .size + (h.field x .size + sizeofUserHeader)))).setPrev n p).field x .prev
        = p := by
    rw [field_setPrev (fun hn => (hxn hn).1) hlt, if_neg fun e => (hxn e.1.1).2 e.1.2,
      field_set hxp, if_neg (by simp), field_set hxp, if_neg (by simp), hp]
  simp only [mergePrev, hp, hn, hfree, ne_eq, hp0, not_false_eq_true, and_self, if_true,
    field_set hxp, field_set (refl p), hne, false_and, and_false, if_false, reduceCtorEq]
  exact Prod.ext hlast rfl

theorem mergeNext_eq (hm : h.field x .next = m) (hn : h.field m .next = n)
    (hfree : h.field m .allocated = 0) (hm0 : m ≠ 0) (hmx : Apart m x) (hne : m ≠ x) :
    h.mergeNext x = ((h.set x .size
      (u32 (h.field x .size + (h.field m .size + sizeofUserHeader)))).set x .next n).setPrev n x := by
  have hmod : n % next.bound = n := by
    rw [← hn]
    exact mod_eq_of_lt (field_lt h m .next)
  simp only [mergeNext, hm, hn, hfree, ne_eq, hm0, not_false_eq_true, and_self, if_true,
    field_set hmx, field_set (refl x), hne, and_false, if_false, reduceCtorEq, hmod, setPrev]

theorem setPrev_frame : (h.setPrev n p).startAddress = h.startAddress ∧
    (h.setPrev n p).endAddress = h.endAddress ∧ (h.setPrev n p).firstHeader = h.firstHeader := by
  unfold setPrev
  split <;> exact ⟨rfl, rfl, rfl⟩

theorem Inv.absorb (hi : Inv h (l1 ++ a :: b :: l2))
    (hframe : h'.startAddress = h.startAddress ∧ h'.endAddress = h.endAddress ∧
      h'.firstHeader = h.firstHeader)
    (hf : ∀ y f, Apart y a.addr →
      (h.field b.addr .next ≠ 0 → Apart y (h.field b.addr .next)) →
      h'.field y f = h.absorbField a.addr (h.field b.addr .next) (a.absorb b).size y f) :
    Inv h' (l1 ++ a.absorb b :: l2) := by
  obtain ⟨hs, he, hfirst⟩ := hframe
  refine ⟨hi.rep.absorb hi.placed fun d hd f => hf _ f ?_ ?_, ?_, ?_, ?_⟩
  · exact hi.placed.absorb.apart hd (b := a.absorb b) (by simp)
  · intro hn
    have hr : Rep h ((l1 ++ [a]) ++ b :: l2) := by simpa using hi.rep
    obtain ⟨c, hc, hcn⟩ := hr.next_mem hn
    rw [← hcn]
    exact hi.placed.absorb.apart hd (by simp [hc])
  · rw [hs, he]
    exact hi.placed.absorb
  · rw [he]
    exact hi.below
  · rw [hfirst, hi.first]
    simp

theorem Inv.absorb_size_lt (hi : Inv h (l1 ++ a :: b :: l2)) : (a.absorb b).size < 2 ^ 32 := by
  have := (hi.placed.absorb.bounds (a.absorb b) (by simp)).2
  have := hi.below
  simp only [Chunk.stop] at *
  omega

theorem Inv.addr_lt (hi : Inv h l) (hc : c ∈ l) : c.addr < 2 ^ 32 := by
  have := (hi.placed.bounds c hc).2
  have := hi.below
  simp only [Chunk.stop, sizeofUserHeader] at *
  omega

theorem Inv.mergePrev (hi : Inv h (l1 ++ b :: l2)) :
    ∃ l' x, (h.mergePrev b.addr).1 = x.addr ∧ Inv (h.mergePrev b.addr).2 (l' ++ x :: l2) ∧
      ∀ d ∈ l1, d.allocated = true → d ∈ l' := by
  have hprev := hi.rep.prev_eq
  by_cases hmerge : h.field b.addr .prev ≠ 0 ∧ h.field (h.field b.addr .prev) .allocated = 0
  · obtain ⟨hp0, hfree⟩ := hmerge
    obtain ⟨l, a, rfl⟩ : ∃ l a, l1 = l ++ [a] := by
      rcases eq_nil_or_concat l1 with rfl | ⟨l, a, rfl⟩
      · exact absurd hprev hp0
      · exact ⟨l, a, concat_eq_append⟩
    have hpa : h.field b.addr .prev = a.addr := by simpa using hprev
    rw [hpa] at hfree hp0
    have hba : Apart b.addr a.addr := hi.placed.apart (by simp) (by simp)
    have hab : a.stop ≤ b.addr := hi.placed.split.1 a (by simp)
    simp only [Chunk.stop, sizeofUserHeader] at hab
    have hbn : h.field b.addr .next ≠ 0 →
        Apart b.addr (h.field b.addr .next) ∧ b.addr ≠ h.field b.addr .next := by
      intro hn
      obtain ⟨c, hc, hcn⟩ := hi.rep.next_mem hn
      have hbc := hi.placed.split.2 c hc
      simp only [Chunk.stop, sizeofUserHeader] at hbc
      rw [← hcn]
      exact ⟨hi.placed.apart (by simp) (by simp [hc]), by omega⟩
    have hi' : Inv h (l ++ a :: b :: l2) := by simpa using hi
    have hsize : u32 (h.field a.addr .size + (h.field b.addr .size + sizeofUserHeader))
        = (a.absorb b).size := by
      rw [(hi'.rep.headers a (by simp)).2, (hi'.rep.headers b (by simp)).2]
      exact u32_eq hi'.absorb_size_lt
    have ha := hi'.addr_lt (c := a) (by simp)
    rw [mergePrev_eq hpa rfl hfree hp0 hba (by omega) hbn ha, hsize]
    have hn : h.field b.addr .next < 2 ^ 32 := field_lt h b.addr .next
    have hs := hi'.absorb_size_lt
    refine ⟨l, a.absorb b, rfl, hi'.absorb setPrev_frame fun y f hya hyn => ?_, ?_⟩
    · cases f <;>
        simp only [absorbField, field_setPrev hyn ha, field_set hya, bound,
          reduceCtorEq, and_true, and_false, if_false, mod_eq_of_lt hn, mod_eq_of_lt hs]
    · intro d hd hda
      have hda' : a.allocated = false := (hi'.rep.headers a (by simp)).1.1 hfree
      have hne : d ≠ a := by
        rintro rfl
        simp [hda'] at hda
      simpa [hne] using hd
  · rw [UserHeap.mergePrev, if_neg hmerge]
    exact ⟨l1, b, rfl, hi, fun d hd _ => hd⟩

theorem Inv.mergeNext (hi : Inv h (l1 ++ b :: l2)) :
    ∃ l', Inv (h.mergeNext b.addr) l' ∧ ∀ d ∈ l1 ++ l2, d.allocated = true → d ∈ l' := by
  by_cases hmerge : h.field b.addr .next ≠ 0 ∧ h.field (h.field b.addr .next) .allocated = 0
  · obtain ⟨hn0, hfree⟩ := hmerge
    have hnext := hi.rep.next_eq
    obtain _ | ⟨c, l2⟩ := l2
    · exact absurd hnext hn0
    replace hnext : h.field b.addr .next = c.addr := hnext
    rw [hnext] at hfree hn0
    have hcb : Apart c.addr b.addr := hi.placed.apart (by simp) (by simp)
    have hbc : b.stop ≤ c.addr := hi.placed.split.2 c (by simp)
    simp only [Chunk.stop, sizeofUserHeader] at hbc
    have hsize : u32 (h.field b.addr .size + (h.field c.addr .size + sizeofUserHeader))
        = (b.absorb c).size := by
      rw [(hi.rep.headers b (by simp)).2, (hi.rep.headers c (by simp)).2]
      exact u32_eq hi.absorb_size_lt
    rw [mergeNext_eq hnext rfl hfree hn0 hcb (by omega), hsize]
    have hb := hi.addr_lt (c := b) (by simp)
    have hn : h.field c.addr .next < 2 ^ 32 := field_lt h c.addr .next
    have hs := hi.absorb_size_lt
    refine ⟨l1 ++ b.absorb c :: l2, hi.absorb setPrev_frame fun y f hyb hyn => ?_, ?_⟩
    · cases f <;>
        simp only [absorbField, field_setPrev hyn hb, field_set hyb, bound,
          reduceCtorEq, and_true, and_false, if_false, mod_eq_of_lt hn, mod_eq_of_lt hs]
    · intro d hd hda
      have hc : c.allocated = false := (hi.rep.headers c (by simp)).1.1 hfree
      have hne : d ≠ c := by
        rintro rfl
        simp [hc] at hda
      simp only [mem_append, mem_cons, hne, false_or] at hd ⊢
      tauto
  · rw [UserHeap.mergeNext, if_neg hmerge]
    refine ⟨l1 ++ b :: l2, hi, fun d hd _ => ?_⟩
    simp only [mem_append, mem_cons] at hd ⊢
    tauto

theorem Inv.free (hi : Inv h (l1 ++ b :: l2)) :
    ∃ l', Inv (h.free b.ptr) l' ∧ ∀ d ∈ l1 ++ l2, d.allocated = true → d ∈ l' := by
  have hchunk : sub32 b.ptr sizeofUserHeader = b.addr := by
    have := (hi.placed.bounds b (by simp)).2
    have := hi.below
    simp only [Chunk.stop, Chunk.ptr, sizeofUserHeader] at *
    rw [sub32_eq (by omega) (by omega)]
    omega
  have hset : Inv (h.set b.addr .allocated 0) (l1 ++ { b with allocated := false } :: l2) := by
    have hplaced := hi.placed.replace (.singleton (c := { b with allocated := false })
      ⟨le_rfl, le_rfl⟩ (hi.placed.pos b (by simp)))
    rw [append_assoc, singleton_append] at hplaced
    refine ⟨hi.rep.setData hi.placed (by simp) rfl ⟨?_, ?_⟩, hplaced, hi.below, ?_⟩
    · simp [field_set (refl b.addr)]
    · rw [field_set (refl b.addr)]
      simpa using (hi.rep.headers b (by simp)).2
    · rw [set_firstHeader, hi.first]
      simp
  obtain ⟨l, x, hx, hprev, hkeep⟩ := hset.mergePrev
  obtain ⟨l', hnext, hkeep'⟩ := hprev.mergeNext
  rw [← hx] at hnext
  refine ⟨l', ?_, fun d hd hda => hkeep' d ?_ hda⟩
  · rw [UserHeap.free, hchunk]
    exact hnext
  · rcases mem_append.1 hd with hd | hd
    · exact mem_append_left _ (hkeep d hd hda)
    · exact mem_append_right _ hd

end UserHeap

end HeisenKernel
