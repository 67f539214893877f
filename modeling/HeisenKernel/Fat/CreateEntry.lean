import HeisenKernel.Lib.Adjacent
import HeisenKernel.Fat.FreeRun

/-!
# A new entry in a directory

`CreateEntry` writes the slots of a long name and the short entry to the run of free slots that
`FindEntryStartpoint` has found.
-/

namespace HeisenKernel

open Lib List FatM Geometry Nat

/-- The slot `q` is the next one behind `p` in the chain of a directory. -/
inductive Next (g : Geometry) (s : Fat) (p q : DirSlot) : Prop
  | slot : q.cluster = p.cluster → q.index = p.index → q.sector = p.sector →
      q.offset = p.offset + 32 → Next g s p q
  | sector : p.offset + 32 = g.bytesPerSector → q.offset = 0 → q.sector = p.sector + 1 →
      q.cluster = p.cluster → q.index = p.index + 1 → Next g s p q
  | cluster : p.offset + 32 = g.bytesPerSector → q.offset = 0 → p.index + 1 = g.sectorsPerCluster → q.index
      = 0 → q.sector = g.clusterToSector q.cluster → g.table s p.cluster = q.cluster → Next g s p q

/-- The slot `q` lies right behind `p` on the disk. -/
def Behind (g : Geometry) (p q : DirSlot) : Prop :=
  q.sector = p.sector ∧ q.offset = p.offset + 32 ∨
    p.offset + 32 = g.bytesPerSector ∧ q.offset = 0 ∧ q.sector = p.sector + 1

variable {g : Geometry}

theorem slotsPerSector_eq (hg : g.WellFormed) :
    0 < g.slotsPerSector ∧ g.slotsPerSector * 32 = g.bytesPerSector := by
  have := hg.bytes_bounds
  unfold slotsPerSector
  omega

theorem range_map_ends (hn : 0 < n) (f : Nat → β) :
    ((range n).map f).head? = some (f 0) ∧ ((range n).map f).getLast? = some (f (n - 1)) := by
  obtain _ | m := n
  · omega
  constructor
  · rw [range_succ_eq_map, map_cons, head?_cons]
  · rw [range_succ, map_append, map_singleton, getLast?_concat, Nat.add_sub_cancel]

theorem windowSlots_isChain (hg : g.WellFormed) (hwin : start + g.sectorsPerCluster ≤ 2 ^ 32)
    (hslot : ∀ p q : DirSlot, q.cluster = p.cluster →
      q.index = p.index → q.sector = p.sector → q.offset = p.offset + 32 → R p q)
    (hsector : ∀ p q : DirSlot, p.offset + 32 = g.bytesPerSector → q.offset = 0 →
      q.sector = p.sector + 1 → q.cluster = p.cluster → q.index = p.index + 1 → R p q) :
    (windowSlots g s c start).IsChain R := by
  obtain ⟨hpos, hbytes⟩ := slotsPerSector_eq hg
  refine isChain_flatMap (fun i _ => ?_) (fun i _ => ?_) ((isChain_range _ _).2 fun i hi => ?_)
  · refine (isChain_map _).2 ((isChain_range _ _).2 fun k _ => ?_)
    exact hslot _ _ rfl rfl rfl (by show (k + 1) * 32 = k * 32 + 32; omega)
  · exact ne_nil_of_length_pos (by simpa using hpos)
  · rw [(range_map_ends hpos _).1, (range_map_ends hpos _).2]
    rintro x hx y hy
    cases hx
    cases hy
    refine hsector _ _ ?_ (Nat.zero_mul _) ?_ rfl rfl
    · show (g.slotsPerSector - 1) * 32 + 32 = g.bytesPerSector
      omega
    · show u32 (start + (i + 1)) = u32 (start + i) + 1
      rw [u32_eq (by omega), u32_eq (by omega)]
      omega

theorem windowSlots_ends (hg : g.WellFormed) (hpos : 0 < g.sectorsPerCluster) :
    (∀ p ∈ (windowSlots g s c start).head?, p.cluster = c ∧ p.index = 0 ∧ p.sector = u32 start ∧
      p.offset = 0) ∧
    (∀ p ∈ (windowSlots g s c start).getLast?, p.cluster = c ∧
      p.index + 1 = g.sectorsPerCluster ∧ p.sector = u32 (start + p.index) ∧
      p.offset + 32 = g.bytesPerSector) ∧ windowSlots g s c start ≠ [] := by
  obtain ⟨hsps, hbytes⟩ := slotsPerSector_eq hg
  obtain ⟨n, hn⟩ : ∃ n, g.sectorsPerCluster = n + 1 := ⟨g.sectorsPerCluster - 1, by omega⟩
  have hblock : ∀ i, ((range g.slotsPerSector).map fun k => (⟨c, i, u32 (start + i), k * 32,
      slotAt (s.disk (u32 (g.startLBA + (start + i)))) (k * 32)⟩ : DirSlot)) ≠ [] := fun i =>
    ne_nil_of_length_pos (by simpa using hsps)
  refine ⟨fun p hp => ?_, fun p hp => ?_, ?_⟩
  · rw [windowSlots, hn, range_succ_eq_map, flatMap_cons,
      head?_append_of_ne_nil _ (hblock 0), (range_map_ends hsps _).1] at hp
    cases hp
    exact ⟨rfl, rfl, rfl, Nat.zero_mul _⟩
  · rw [windowSlots, hn, range_succ, flatMap_append, flatMap_singleton,
      getLast?_append_of_ne_nil _ (hblock n), (range_map_ends hsps _).2] at hp
    cases hp
    refine ⟨rfl, hn.symm, rfl, ?_⟩
    show (g.slotsPerSector - 1) * 32 + 32 = g.bytesPerSector
    omega
  · rw [windowSlots, hn, range_succ_eq_map, flatMap_cons]
    exact fun h => hblock 0 (append_eq_nil_iff.1 h).1

theorem Chain.links (h : Chain g s c l) : l.IsChain fun a b => g.table s a = b := by
  induction h with
  | last => exact .singleton _
  | link hc hl ih =>
    obtain ⟨t, rfl⟩ := hl.head
    exact .cons_cons rfl ih

theorem chainSlots_next (hg : g.WellFormed) (hl : ∀ d ∈ l, g.IsCluster d)
    (hlinks : l.IsChain fun a b => g.table s a = b) : (chainSlots g s l).IsChain (Next g s) := by
  have hpos := hg.sectorsPerCluster.1
  have hsize := hg.size
  have hbound : ∀ d ∈ l, g.clusterToSector d + g.sectorsPerCluster ≤ 2 ^ 32 := by
    intro d hd
    have := (clusterToSector_bounds hg (hl d hd)).2
    unfold endSector at this
    omega
  refine isChain_flatMap (fun d hd => windowSlots_isChain hg (hbound d hd)
    (fun _ _ h1 h2 h3 h4 => .slot h1 h2 h3 h4) fun _ _ h1 h2 h3 h4 h5 => .sector h1 h2 h3 h4 h5)
    (fun d _ => (windowSlots_ends hg hpos).2.2) ?_
  refine List.IsChain.imp_of_mem_imp (fun a b ha hb hab => ?_) hlinks
  intro x hx y hy
  obtain ⟨hxc, hxi, -, hxo⟩ := (windowSlots_ends hg hpos).2.1 x hx
  obtain ⟨hyc, hyi, hys, hyo⟩ := (windowSlots_ends hg hpos).1 y hy
  refine .cluster hxo hyo hxi hyi ?_ (by rw [hxc, hyc]; exact hab)
  have := hbound b hb
  rw [hys, hyc, u32_eq (by omega)]

theorem rootSlots_behind (hg : g.WellFormed) (hn : g.sectorsPerCluster = 1 ∨ n = 1)
    (hsize : g.rootStart + n + g.sectorsPerCluster ≤ 2 ^ 32) : (rootSlots g s c n).IsChain (Behind g) := by
  have hpos := hg.sectorsPerCluster.1
  refine isChain_flatMap (fun j hj => windowSlots_isChain hg ?_
    (fun _ _ _ _ h3 h4 => .inl ⟨h3, h4⟩) fun _ _ h1 h2 h3 _ _ => .inr ⟨h1, h2, h3⟩)
    (fun j _ => (windowSlots_ends hg hpos).2.2) ((isChain_range _ n).2 fun j hj => ?_)
  · have := mem_range.1 hj
    omega
  · intro x hx y hy
    obtain ⟨-, hxi, hxs, hxo⟩ := (windowSlots_ends hg hpos).2.1 x hx
    obtain ⟨-, -, hys, hyo⟩ := (windowSlots_ends hg hpos).1 y hy
    refine .inr ⟨hxo, hyo, ?_⟩
    rw [hxs, hys, u32_eq (by omega), u32_eq (by omega)]
    omega

/-- The slots follow each other in one sector, from the offset `o` on. -/
def InRow (c index sector : Nat) : Nat → List DirSlot → Prop
  | _, [] => True
  | o, p :: l => (p.cluster = c ∧ p.index = index ∧ p.sector = sector ∧ p.offset = o) ∧
      InRow c index sector (o + 32) l

theorem writeLongFrom_eq (hg : g.WellFormed) (hs : s.Works) (hc : g.fixedRoot root = true ∨ g.Readable c)
    (hagain : walkSector g root c base = base) (hbase : walkSector g root c sector = base)
    (hrow : InRow c index (base + index) (o + i * 32) run) (hlen : run.length = entries.length)
    (hfit : o + i * 32 + 32 * entries.length ≤ g.bytesPerSector) : writeLongFrom g root index entries i
    sector c o s = .ok (true, s.putSlots g (run.zip entries)) := by
  have hb := hg.bytes_bounds
  induction entries generalizing run i sector s with
  | nil => rw [zip_nil_right]; rfl
  | cons e entries ih =>
    obtain ⟨p, run, rfl⟩ := exists_cons_of_length_pos (by rw [hlen]; simp)
    obtain ⟨⟨-, -, hsector, hoffset⟩, hrow⟩ := hrow
    rw [length_cons] at hfit
    have ho : u32 (o + i * 32) = p.offset := by rw [u32_eq (by omega), hoffset]
    have hput : s.write (g.lba (base + index)) (putSlot (s.disk (g.lba (base + index))) p.offset e) =
        s.putAt g p.sector p.offset e := by rw [hsector]; rfl
    rw [writeLongFrom, hbase, ho, bind_eq (readSector_eq hs _)]
    dsimp only
    rw [if_pos (by omega), bind_eq (writeSector_eq hs _ _), if_pos rfl]
    rw [show u32 (g.startLBA + (base + index)) = g.lba (base + index) from rfl, hput, zip_cons_cons]
    have hs' := hs.putAt (g := g) (e := e) p.sector p.offset
    rcases lt_or_ge (p.offset + 32) g.bytesPerSector with hlt | hge
    · rw [if_neg (by omega)]
      refine ih hs' hagain (by rw [show o + (i + 1) * 32 = o + i * 32 + 32 by omega]; exact hrow)
        (by simpa using hlen) (by omega)
    · -- the row ends with the sector, and the name with the row
      obtain rfl : entries = [] := eq_nil_of_length_eq_zero (by omega)
      rw [if_pos hge, zip_nil_right]
      by_cases hfixed : g.fixedRoot root = true
      · rw [if_pos hfixed]
        rfl
      · rw [if_neg hfixed]
        split
        · rw [bind_eq (readTable_eq hs' (hc.resolve_left hfixed))]
          rfl
        · rfl

theorem writeLongFrom_full (hg : g.WellFormed) (hs : s.Works) (hfull : o + i * 32 = g.bytesPerSector)
    (hne : entries ≠ []) : writeLongFrom g root index entries i sector c o s = .error .memory := by
  have hb := hg.bytes_bounds
  obtain ⟨e, entries, rfl⟩ := exists_cons_of_ne_nil hne
  rw [writeLongFrom, bind_eq (readSector_eq hs _)]
  dsimp only
  rw [u32_eq (by omega), if_neg (by omega)]
  rfl

theorem writeLongFrom_overrun (hg : g.WellFormed) (hs : s.Works) (hroot : g.fixedRoot root = false)
    (hc : g.Readable c) (ho : o % 32 = 0) (hi : o + i * 32 ≤ g.bytesPerSector)
    (hover : g.bytesPerSector < o + i * 32 + 32 * entries.length) : writeLongFrom g root index
    entries i sector c o s = .error .memory := by
  have hb := hg.bytes_bounds
  induction entries generalizing i sector s with
  | nil => simp at hover; omega
  | cons e entries ih =>
    rw [length_cons] at hover
    rcases lt_or_ge (o + i * 32) g.bytesPerSector with hlt | hge
    · rw [writeLongFrom, bind_eq (readSector_eq hs _)]
      dsimp only
      rw [u32_eq (by omega), if_pos (by omega), bind_eq (writeSector_eq hs _ _), if_pos rfl]
      split
      · next hend =>
        have hne : entries ≠ [] := by
          rintro rfl
          simp at hover
          omega
        rw [hroot, if_neg Bool.false_ne_true]
        split
        · rw [bind_eq (readTable_eq (hs.write _ _) hc)]
          exact writeLongFrom_full hg (hs.write _ _) (by omega) hne
        · exact writeLongFrom_full hg (hs.write _ _) (by omega) hne
      · exact ih (hs.write _ _) (by omega) (by omega)
    · exact writeLongFrom_full hg hs (by omega) (cons_ne_nil _ _)

variable {count : Nat}

theorem inRow_of_next (h : (p :: run).IsChain (Next g s))
    (hfit : p.offset + 32 * (run.length + 1) ≤ g.bytesPerSector) :
    InRow p.cluster p.index p.sector p.offset (p :: run) := by
  induction run generalizing p with
  | nil => exact ⟨⟨rfl, rfl, rfl, rfl⟩, trivial⟩
  | cons q run ih =>
    obtain ⟨hpq, hrest⟩ := isChain_cons_cons.1 h
    rw [length_cons] at hfit
    refine ⟨⟨rfl, rfl, rfl, rfl⟩, ?_⟩
    cases hpq with
    | slot hc hi hs ho =>
      have := ih hrest (by omega)
      rwa [hc, hi, hs, ho] at this
    | sector hend => omega
    | cluster hend => omega

theorem inRow_of_behind (h : (p :: run).IsChain (Behind g)) (hp : p.sector = sector)
    (hall : ∀ q ∈ p :: run, q.sector = sector → q.cluster = c ∧ q.index = index)
    (hfit : p.offset + 32 * (run.length + 1) ≤ g.bytesPerSector) :
    InRow c index sector p.offset (p :: run) := by
  induction run generalizing p with
  | nil =>
    obtain ⟨hc, hi⟩ := hall p mem_cons_self hp
    exact ⟨⟨hc, hi, hp, rfl⟩, trivial⟩
  | cons q run ih =>
    obtain ⟨hpq, hrest⟩ := isChain_cons_cons.1 h
    rw [length_cons] at hfit
    obtain ⟨hc, hi⟩ := hall p mem_cons_self hp
    refine ⟨⟨hc, hi, hp, rfl⟩, ?_⟩
    rcases hpq with ⟨hs, ho⟩ | ⟨hend, -⟩
    · have := ih hrest (hs.trans hp) (forall_mem_cons.1 hall).2 (by omega)
      rwa [ho] at this
    · omega

theorem InRow.getLast (h : InRow c index sector o run) (hr : run.getLast? = some r) :
    r.cluster = c ∧ r.index = index ∧ r.sector = sector ∧ r.offset + 32 = o + 32 * run.length := by
  induction run generalizing o with
  | nil => cases hr
  | cons p run ih =>
    obtain ⟨⟨hc, hi, hs, ho⟩, hrest⟩ := h
    cases run with
    | nil =>
      cases hr
      exact ⟨hc, hi, hs, by simp [ho]⟩
    | cons q run =>
      obtain ⟨h1, h2, h3, h4⟩ := ih hrest hr
      exact ⟨h1, h2, h3, by rw [h4, length_cons (a := p)]; omega⟩

theorem placeShortEntry_chain (hg : g.WellFormed) (hs : s.Works) (hroot : g.fixedRoot root = false)
    (hc : g.Readable c) (hindex : index < g.sectorsPerCluster)
    (hr : r.cluster = c ∧ r.index = index ∧ r.sector = g.clusterToSector c + index ∧
      r.offset + 32 = o + count * 32) (hrow : o + count * 32 ≤ g.bytesPerSector)
    (hq : g.IsCluster q.cluster ∧ q.index < g.sectorsPerCluster ∧ q.offset + 32 ≤ g.bytesPerSector)
    (hnext : Next g s r q) :
    placeShortEntry g ⟨c, index, o⟩ count root s = .ok ((q.sector, q.offset), s) := by
  have hb := hg.bytes_bounds
  obtain ⟨hrc, hri, hrs, hro⟩ := hr
  have ho : u32 (o + count * 32) = o + count * 32 := u32_eq (by omega)
  rw [placeShortEntry]
  dsimp only
  rw [ho, hroot, if_neg Bool.false_ne_true]
  cases hnext with
  | slot hqc hqi hqs hqo =>
    rw [if_neg (by omega), u32_clusterSector hg hc.isCluster hindex, ← hrs, ← hqs, ← hro, ← hqo]
    rfl
  | sector hend hqo hqs hqc hqi =>
    rw [if_pos (by omega), if_neg (by omega),
      u32_clusterSector hg hc.isCluster (by omega : index + 1 < g.sectorsPerCluster),
      ← hro, hend, mod_self, ← add_assoc, ← hrs, ← hqs, hqo]
    rfl
  | cluster hend hqo hri' hqi hqs ht =>
    have hlt := lt_clusterEnd hg hq.1.2
    rw [if_pos (by omega), if_pos (by omega), bind_eq (readTable_eq hs hc), ← hrc, ht,
      if_neg (not_le.2 hlt), ← hro, hend, mod_self, ← hqs, hqo]
    rfl

theorem placeShortEntry_fixed (hg : g.WellFormed) (hroot : g.fixedRoot root = true)
    (hr : r.sector = g.rootStart ∧ r.offset + 32 = o + count * 32) (hrow : o + count * 32 ≤ g.bytesPerSector)
    (hsize : g.rootStart + 1 < 2 ^ 32) (hq : q.offset + 32 ≤ g.bytesPerSector) (hnext : Behind g r q) :
    placeShortEntry g ⟨c, index, o⟩ count root s = .ok ((q.sector, q.offset), s) := by
  have hb := hg.bytes_bounds
  obtain ⟨hrs, hro⟩ := hr
  have ho : u32 (o + count * 32) = o + count * 32 := u32_eq (by omega)
  rw [placeShortEntry]
  rw [ho, if_pos hroot]
  rcases hnext with ⟨hqs, hqo⟩ | ⟨hend, hqo, hqs⟩
  · rw [if_neg (by omega), ← hro, ← hqo, ← hrs, ← hqs]
    rfl
  · rw [if_pos (by omega), u32_eq hsize, ← hro, hend, mod_self, ← hrs, ← hqs, hqo]
    rfl

variable {s s1 : Fat} {c target : Nat} {root : Bool} {name : List UInt8} {attr : UInt8} {l1 : List Nat}
  {pre run post : List DirSlot}

theorem putSlots_concat (run : List DirSlot) (q : DirSlot)
    (hlen : run.length = es.length) (e : Slot) :
    (s.putSlots g (run.zip es)).putAt g q.sector q.offset e =
      s.putSlots g ((run ++ [q]).zip (es ++ [e])) := by
  rw [Fat.putSlots, Fat.putSlots, zip_append hlen, foldl_append]
  rfl

theorem createEntry_of_parts (hname : 0 < name.length ∧ name.length ≤ 255)
    (hfind : findEntryStartpoint g c (requiredLFNEntries name.length + 1) root s =
      .ok (some st, s1)) (hes : es = createLFNEntriesFromName name
        (requiredLFNEntries name.length) (checksum (createShortFilename name)))
    (hlong : writeLongFilenameEntries g es st root s1 = .ok (true, s2)) {q : DirSlot}
    (hs2 : s2.Works) (hplace : placeShortEntry g st es.length root s2 =
      .ok ((q.sector, q.offset), s2)) (hq : q.offset + 32 ≤ g.bytesPerSector) :
    createEntry g c name attr root target s =
      .ok (some (newEntry s2.rtc name attr target),
        s2.putAt g q.sector q.offset (newEntry s2.rtc name attr target)) := by
  have hwrite : writeDirectoryEntry g (newEntry s2.rtc name attr target) q.sector q.offset s2 =
      .ok (true, s2.putAt g q.sector q.offset (newEntry s2.rtc name attr target)) := by
    rw [writeDirectoryEntry, bind_eq (readSector_eq hs2 _)]
    dsimp only
    rw [if_pos hq, writeSector_eq hs2]
    rfl
  rw [createEntry]
  rw [mod_eq_of_lt (by omega : name.length < 256), if_neg (by omega), bind_eq hfind]
  dsimp only
  rw [← hes, bind_eq hlong, if_pos rfl, bind_eq hplace, bind_eq get_eq, bind_eq hwrite, if_pos rfl]
  rfl

/-- The long name slots of a run end in the sector in which they begin. -/
def Fits (g : Geometry) (name : List UInt8) (run : List DirSlot) : Prop :=
  ∀ p ∈ run.head?, p.offset + 32 * requiredLFNEntries name.length ≤ g.bytesPerSector

theorem FirstRun.parts
    (h : FirstRun (requiredLFNEntries name.length + 1) slots pre run post) (hname : 0 < name.length) :
    ∃ p rest q, run = p :: rest ++ [q] ∧ rest.length + 1 = requiredLFNEntries name.length := by
  obtain ⟨hpos, -⟩ := requiredLFNEntries_bounds hname
  have hlen := h.length
  obtain ⟨p, run', rfl⟩ := exists_cons_of_length_pos (by rw [hlen]; omega)
  rw [length_cons] at hlen
  obtain ⟨rest, q, rfl⟩ := (eq_nil_or_concat' run').resolve_left (by rintro rfl; simp at hlen; omega)
  simp only [length_append, length_singleton] at hlen
  exact ⟨p, rest, q, by simp, by omega⟩

theorem run_chain (hg : g.WellFormed) (hl : Chain g s c l)
    (hread : ∀ d ∈ l, g.Readable d) (hsplit : chainSlots g s l = pre ++ run ++ post) :
    run.IsChain (Next g s) ∧ ∀ p ∈ run, g.Readable p.cluster ∧ p.index < g.sectorsPerCluster ∧ p.sector =
      g.clusterToSector p.cluster + p.index ∧ p.offset % 32 = 0 ∧ p.offset + 32 ≤ g.bytesPerSector := by
  have hcl := hl.mem_isCluster
  refine ⟨?_, fun p hp => ?_⟩
  · have h := chainSlots_next hg hcl hl.links
    rw [hsplit] at h
    exact h.left_of_append.right_of_append
  · have hmem : p ∈ chainSlots g s l := by rw [hsplit]; simp [hp]
    obtain ⟨hd, hi, hs, -⟩ := mem_chainSlots hmem
    rw [u32_clusterSector hg (hcl _ hd) hi] at hs
    exact ⟨hread _ hd, hi, hs, (chainSlots_slotsAt hg hcl (hl.nodup hg)).offset p hmem⟩

/-- A run that fits, with its slots for a long name up to `r` and the slot `q` of the entry. -/
theorem FirstRun.fitted (hrun : FirstRun (requiredLFNEntries name.length + 1) slots pre run post)
    (hname : 0 < name.length) (hfit : Fits g name run) : ∃ p rest q r es, run = p :: rest ++ [q] ∧
      p.offset + 32 * (rest.length + 1) ≤ g.bytesPerSector ∧ (p :: rest).getLast? = some r ∧
      createLFNEntriesFromName name (requiredLFNEntries name.length)
        (checksum (createShortFilename name)) = es ∧ (p :: rest).length = es.length := by
  obtain ⟨p, rest, q, rfl, hlen⟩ := hrun.parts hname
  refine ⟨p, rest, q, _, _, rfl, ?_, getLast?_cons, rfl, ?_⟩
  · rw [hlen]
    exact hfit p rfl
  · rw [createLFNEntriesFromName_length, length_cons, hlen]

section
variable (hg : g.WellFormed) (hs : s.Works) (hroot : g.fixedRoot root = false) (hl : Chain g s c l)
  (hread : ∀ d ∈ l, g.Readable d) (hname : 0 < name.length ∧ name.length ≤ 255)
  (hgrown : Grown g (requiredLFNEntries name.length + 1) s l s1 l1)
include hg hs hroot hl hread hname hgrown

theorem createEntry_chain (attr : UInt8) (target : Nat)
    (hrun : FirstRun (requiredLFNEntries name.length + 1) (chainSlots g s1 l1) pre run post)
    (hfit : Fits g name run) : createEntry g c name attr root target s =
      .ok (some (newEntry s.rtc name attr target),
        s1.putSlots g (run.zip (newSlots s.rtc name attr target))) := by
  obtain ⟨hs1, hl1, hread1⟩ := hgrown.chain hg hs hl hread
  obtain ⟨hnext, hplaces⟩ := run_chain hg hl1 hread1 hrun.split
  have hfind := findEntryStartpoint_grown hg hs hroot hl hread (succ_pos _) hgrown hrun
  obtain ⟨p, rest, q, r, es, rfl, hfit', hr, hes, heslen⟩ := hrun.fitted hname.1 hfit
  obtain ⟨hpc, hpi, hps, -⟩ := hplaces p (by simp)
  obtain ⟨hqc, hqi, -, -, hqo⟩ := hplaces q (by simp)
  obtain ⟨hchain, -, hlast⟩ := isChain_append.1 hnext
  have hrow := inRow_of_next hchain hfit'
  have hsector : ∀ sector, walkSector g root p.cluster sector = g.clusterToSector p.cluster := by
    intro sector
    rw [walkSector, hroot]
    rfl
  have hlong : writeLongFilenameEntries g es (startpoint (p :: rest ++ [q])) root s1 =
      .ok (true, s1.putSlots g ((p :: rest).zip es)) := by
    refine writeLongFrom_eq hg hs1 (.inr hpc) (hsector _) (hsector 0) ?_ heslen ?_
    · show InRow p.cluster p.index (g.clusterToSector p.cluster + p.index) (p.offset + 0 * 32) _
      rw [← hps, Nat.zero_mul, add_zero]
      exact hrow
    · rw [← heslen, length_cons]
      show p.offset + 0 * 32 + _ ≤ _
      omega
  obtain ⟨-, hfail, hrtc, -⟩ := putSlots_fields s1 ((p :: rest).zip es)
  have hs2 : (s1.putSlots g ((p :: rest).zip es)).Works := hfail.trans hs1
  have hplace : placeShortEntry g (startpoint (p :: rest ++ [q])) es.length root
      (s1.putSlots g ((p :: rest).zip es)) =
      .ok ((q.sector, q.offset), s1.putSlots g ((p :: rest).zip es)) := by
    obtain ⟨h1, h2, h3, h4⟩ := hrow.getLast hr
    refine placeShortEntry_chain hg hs2 hroot hpc hpi ⟨h1, h2, h3.trans hps, by rw [h4, heslen]; omega⟩
      (by rw [← heslen, length_cons]; omega) ⟨hqc.isCluster, hqi, hqo⟩ ?_
    have hrq := hlast r hr q rfl
    cases hrq with
    | slot h1 h2 h3 h4 => exact .slot h1 h2 h3 h4
    | sector h1 h2 h3 h4 h5 => exact .sector h1 h2 h3 h4 h5
    | cluster h1 h2 h3 h4 h5 h6 =>
      refine .cluster h1 h2 h3 h4 h5 ?_
      have hslots := chainSlots_slotsAt (s := s1) hg hl1.mem_isCluster (hl1.nodup hg)
      rw [table_putSlots hg (fun x hx => hslots.sector x.1 ?_), h6]
      · have := (hplaces r (mem_append_left _ (mem_of_getLast? hr))).1
        exact this.isCluster.2
      · rw [hrun.split]
        have hmem := (of_mem_zip hx).1
        exact mem_append_left _ (mem_append_right _ (mem_append_left _ hmem))
  rw [createEntry_of_parts hname hfind hes.symm hlong hs2 hplace hqo, hrtc, hgrown.fields.1,
    putSlots_concat _ _ heslen, newSlots, hes]

theorem createEntry_overrun
    (hrun : FirstRun (requiredLFNEntries name.length + 1) (chainSlots g s1 l1) pre run post)
    (hfit : ¬Fits g name run) : createEntry g c name attr root target s = .error .memory := by
  obtain ⟨hs1, hl1, hread1⟩ := hgrown.chain hg hs hl hread
  obtain ⟨-, hplaces⟩ := run_chain hg hl1 hread1 hrun.split
  have hfind := findEntryStartpoint_grown hg hs hroot hl hread (succ_pos _) hgrown hrun
  obtain ⟨p, rest, q, rfl, hlen⟩ := hrun.parts hname.1
  obtain ⟨hpc, -, -, hmod, hpo⟩ := hplaces p (by simp)
  have hfit' : g.bytesPerSector < p.offset + 32 * requiredLFNEntries name.length := by
    refine not_le.1 fun h => hfit ?_
    rintro p' hp'
    cases hp'
    exact h
  have hlong : writeLongFilenameEntries g (createLFNEntriesFromName name
      (requiredLFNEntries name.length) (checksum (createShortFilename name)))
      (startpoint (p :: rest ++ [q])) root s1 = .error .memory := by
    refine writeLongFrom_overrun hg hs1 hroot hpc hmod ?_ ?_
    · show p.offset + 0 * 32 ≤ _
      omega
    · rw [createLFNEntriesFromName_length]
      show _ < p.offset + 0 * 32 + _
      omega
  rw [createEntry]
  rw [mod_eq_of_lt (by omega : name.length < 256), if_neg (by omega), bind_eq hfind]
  exact bind_error hlong

theorem createEntry_full (attr : UInt8) (target : Nat)
    (hno : NoRun (requiredLFNEntries name.length + 1) (chainSlots g s1 l1)) (hfull : g.Full s1) :
    ∃ s2, createEntry g c name attr root target s = .ok (none, s2) := by
  obtain ⟨s2, hfind⟩ := findEntryStartpoint_full hg hs hroot hl hread (succ_pos _) hgrown hno hfull
  refine ⟨s2, ?_⟩
  rw [createEntry]
  rw [mod_eq_of_lt (by omega : name.length < 256), if_neg (by omega), bind_eq hfind]
  rfl

end

theorem createEntry_fixed (attr : UInt8) (target : Nat) (hg : g.WellFormed) (hs : s.Works)
    (hroot : g.fixedRoot root = true) (hc : c ≠ 0 ∧ c < g.clusterEnd) {n : Nat} (hn : n ≤ 224 * 32 / g.bytesPerSector)
    (hwin : g.sectorsPerCluster = 1 ∨ n = 1) (hsize : g.rootStart + 512 < 2 ^ 32)
    (hname : 0 < name.length ∧ name.length ≤ 255)
    (hrun : FirstRun (requiredLFNEntries name.length + 1) (rootSlots g s c n) pre run post)
    (hfirst : ∀ p ∈ run.head?, p.sector = g.rootStart)
    (hfit : Fits g name run) : createEntry g c name attr root target s =
      .ok (some (newEntry s.rtc name attr target),
        s.putSlots g (run.zip (newSlots s.rtc name attr target))) := by
  have hb := hg.bytes_bounds
  have hspc := hg.sectorsPerCluster
  have hn14 : 224 * 32 / g.bytesPerSector ≤ 14 := by
    calc 224 * 32 / g.bytesPerSector ≤ 224 * 32 / 512 := div_le_div_left hb.1 (by decide)
      _ = 14 := by decide
  have hfind := findEntryStartpoint_fixed hs hroot hc hn (by omega) (succ_pos _) hrun
  have hplaces : ∀ p ∈ run, ∃ j < n, p ∈ windowSlots g s c (g.rootStart + j) := by
    intro p hp
    have hmem : p ∈ rootSlots g s c n := by rw [hrun.split]; simp [hp]
    obtain ⟨j, hj, hp⟩ := mem_flatMap.1 hmem
    exact ⟨j, mem_range.1 hj, hp⟩
  have hchain : run.IsChain (Behind g) := by
    have h := rootSlots_behind (s := s) (c := c) hg hwin (by omega)
    rw [hrun.split] at h
    exact h.left_of_append.right_of_append
  obtain ⟨p, rest, q, r, es, rfl, hfit', hr, hes, heslen⟩ := hrun.fitted hname.1 hfit
  have hps : p.sector = g.rootStart := hfirst p rfl
  have hfirst' : ∀ x ∈ p :: rest, x.sector = g.rootStart → x.cluster = c ∧ x.index = 0 := by
    intro x hx hxs
    obtain ⟨j, hj, hx⟩ := hplaces x (mem_append_left _ hx)
    obtain ⟨hxc, hxi, hxsec, -⟩ := mem_windowSlots hx
    rw [hxs, u32_eq (by omega)] at hxsec
    exact ⟨hxc, by omega⟩
  have hqo : q.offset + 32 ≤ g.bytesPerSector := by
    obtain ⟨j, -, hq⟩ := hplaces q (by simp)
    obtain ⟨-, -, -, k, hk, hqk, -⟩ := mem_windowSlots hq
    have := (slotsPerSector_eq hg).2
    omega
  obtain ⟨hchain, -, hlast⟩ := isChain_append.1 hchain
  have hrow := inRow_of_behind hchain hps hfirst' hfit'
  obtain ⟨hpc, hpi⟩ := hfirst' p mem_cons_self hps
  have hstart : startpoint (p :: rest ++ [q]) = ⟨c, 0, p.offset⟩ := by
    rw [← hpc, ← hpi]
    rfl
  rw [hstart] at hfind
  have hagain : ∀ sector, sector = 0 ∨ sector = g.rootStart → walkSector g root c sector = g.rootStart := by
    rintro sector (rfl | rfl)
    · rw [walkSector, hroot]
      rfl
    · rw [walkSector, if_pos hroot]
      split <;> rfl
  have hlong : writeLongFilenameEntries g es ⟨c, 0, p.offset⟩ root s =
      .ok (true, s.putSlots g ((p :: rest).zip es)) := by
    refine writeLongFrom_eq hg hs (.inl hroot) (hagain _ (.inr rfl)) (hagain 0 (.inl rfl)) ?_ heslen ?_
    · exact hrow
    · rw [← heslen, length_cons]
      omega
  obtain ⟨-, hfail, hrtc, -⟩ := putSlots_fields s ((p :: rest).zip es)
  have hplace : placeShortEntry g ⟨c, 0, p.offset⟩ es.length root (s.putSlots g ((p :: rest).zip es)) = .ok
      ((q.sector, q.offset), s.putSlots g ((p :: rest).zip es)) := by
    obtain ⟨-, -, h3, h4⟩ := hrow.getLast hr
    exact placeShortEntry_fixed hg hroot ⟨h3, by rw [h4, heslen]; omega⟩
      (by rw [← heslen, length_cons]; omega) (by omega) hqo (hlast r hr q rfl)
  rw [createEntry_of_parts hname hfind hes.symm hlong (hfail.trans hs) hplace hqo, hrtc,
    putSlots_concat _ _ heslen, newSlots, hes]

end HeisenKernel
