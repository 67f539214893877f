import HeisenKernel.Fat.Slots

/-!
# The search for free slots

`FindEntryStartpoint` looks for the first run of a given number of free slots in a directory
(`FirstRun`).
-/

namespace HeisenKernel

open Lib List Geometry FatM

/-- `FirstRun k slots pre run post`: the slots `run`, between `pre` and `post`, are the first `k`
free slots in a row. -/
structure FirstRun (k : Nat) (slots pre run post : List DirSlot) : Prop where
  split : slots = pre ++ run ++ post
  length : run.length = k
  free : ∀ p ∈ run, p.slot.isFree = true
  first : ∀ i < pre.length, ∃ p ∈ ((pre ++ run).drop i).take k, p.slot.isFree = false

/-- There are no `k` free slots in a row. -/
def NoRun (k : Nat) (slots : List DirSlot) : Prop :=
  ∀ i, i + k ≤ slots.length → ∃ p ∈ (slots.drop i).take k, p.slot.isFree = false

/-- Where a run of slots starts, as `FindEntryStartpoint` has it. -/
def startpoint : List DirSlot → Startpoint
  | [] => ⟨0, 0, 0⟩
  | p :: _ => ⟨p.cluster, p.index, p.offset⟩

/-- The loop of `FAT::FindEntryStartpoint` over the slots of a directory. -/
def findSlots (k : Nat) (acc : Nat × Startpoint) (slots : List DirSlot) :
    Exec ((Nat × Startpoint) ⊕ Option Startpoint) :=
  forReturn (fun acc p => findSlot k p.cluster p.index p.offset acc p.slot) acc slots

section
variable {k : Nat} {slots pre run post front : List DirSlot}

theorem startpoint_concat (front : List DirSlot) (p : DirSlot) :
    startpoint (front ++ [p]) =
      if front.length = 0 then ⟨p.cluster, p.index, p.offset⟩ else startpoint front := by
  cases front <;> rfl

theorem findSlots_free (hp : p.slot.isFree = true) (front : List DirSlot) :
    findSlots k (front.length, startpoint front) (p :: slots) =
      if front.length + 1 = k then .ok (.inr (some (startpoint (front ++ [p]))))
      else findSlots k ((front ++ [p]).length, startpoint (front ++ [p])) slots := by
  rw [findSlots, forReturn_cons, findSlot, if_pos hp, startpoint_concat, length_append, length_singleton]
  dsimp only
  split <;> rfl

theorem findSlots_taken (hp : p.slot.isFree = false) (acc : Nat × Startpoint) :
    findSlots k acc (p :: slots) = findSlots k (0, ⟨0, 0, 0⟩) slots := by
  rw [findSlots, forReturn_cons, findSlot, if_neg (by rw [hp]; exact Bool.false_ne_true)]
  rfl

theorem findSlots_run (hfront : ∀ p ∈ front, p.slot.isFree = true) (hlt : front.length < k)
    (h : FirstRun k (front ++ slots) pre run post) :
    findSlots k (front.length, startpoint front) slots = .ok (.inr (some (startpoint run))) := by
  induction slots generalizing front pre with
  | nil =>
    have hlen := congrArg length h.split
    simp only [append_nil, length_append, h.length] at hlen
    omega
  | cons p slots ih =>
    cases hp : p.slot.isFree with
    | true =>
      rw [findSlots_free hp]
      split
      · next hk =>
        -- the run is complete: it is the first one
        have hall : ∀ q ∈ front ++ [p], q.slot.isFree = true :=
          forall_mem_append.2 ⟨hfront, forall_mem_singleton.2 hp⟩
        have hsplit : front ++ [p] ++ slots = pre ++ run ++ post := by
          rw [← h.split, append_assoc]
          rfl
        have hpre : pre = [] := by
          by_contra hne
          obtain ⟨q, hq, hqf⟩ := h.first 0 (length_pos_iff.2 hne)
          have htake : (pre ++ run).take k = front ++ [p] := by
            have h1 : (pre ++ run ++ post).take k = (pre ++ run).take k :=
              take_append_of_le_length (by rw [length_append, h.length]; omega)
            rw [← h1, ← hsplit, take_append_of_le_length (by simp; omega), take_of_length_le (by simp; omega)]
          rw [drop_zero, htake] at hq
          rw [hall q hq] at hqf
          cases hqf
        rw [hpre, nil_append] at hsplit
        have hrun : front ++ [p] = run := append_inj_left hsplit (by rw [h.length]; simp; omega)
        rw [hrun]
      · next hk =>
        refine @ih pre _ (forall_mem_append.2 ⟨hfront, forall_mem_singleton.2 hp⟩) (by simp; omega) ?_
        rw [append_assoc]
        exact h
    | false =>
      rw [findSlots_taken hp]
      -- the run lies behind the slot in use
      have hlt' : front.length < pre.length := by
        by_contra hge
        have hin : p ∈ run := by
          have hget : (front ++ p :: slots)[front.length]? = some p := by simp
          rw [h.split, append_assoc, getElem?_append_right (by omega),
            getElem?_append_left (by rw [h.length]; omega)] at hget
          exact mem_of_getElem? hget
        rw [h.free p hin] at hp
        cases hp
      have hpre : pre = front ++ p :: pre.drop (front.length + 1) := by
        have h1 : (pre ++ run ++ post).take (front.length + 1) = front ++ [p] := by
          rw [← h.split, show front ++ p :: slots = front ++ [p] ++ slots by simp,
            take_append_of_le_length (by simp), take_of_length_le (by simp)]
        rw [append_assoc, take_append_of_le_length (by omega)] at h1
        conv_lhs => rw [← take_append_drop (front.length + 1) pre, h1]
        simp
      generalize pre.drop (front.length + 1) = pre' at hpre
      subst hpre
      have hslots : slots = pre' ++ run ++ post := by
        have := h.split
        simpa using this
      refine @ih pre' [] (by simp) (by simp; omega) ⟨hslots, h.length, h.free, fun i hi => ?_⟩
      obtain ⟨q, hq, hqf⟩ := h.first (front.length + 1 + i) (by simp; omega)
      refine ⟨q, ?_, hqf⟩
      have hdrop : (front ++ p :: pre' ++ run).drop (front.length + 1 + i) = (pre' ++ run).drop i := by
        rw [show front ++ p :: pre' ++ run = front ++ [p] ++ (pre' ++ run) by simp, drop_append]
        simp
      rwa [hdrop] at hq

theorem findSlots_noRun (hfront : ∀ p ∈ front, p.slot.isFree = true) (hlt : front.length < k)
    (h : NoRun k (front ++ slots)) :
    ∃ acc, findSlots k (front.length, startpoint front) slots = .ok (.inl acc) := by
  induction slots generalizing front with
  | nil => exact ⟨_, rfl⟩
  | cons p slots ih =>
    have hsplit : front ++ p :: slots = front ++ [p] ++ slots := by simp
    cases hp : p.slot.isFree with
    | true =>
      have hall : ∀ q ∈ front ++ [p], q.slot.isFree = true :=
        forall_mem_append.2 ⟨hfront, forall_mem_singleton.2 hp⟩
      rw [findSlots_free hp, if_neg]
      · rw [hsplit] at h
        refine ih hall ?_ h
        by_contra hge
        obtain ⟨q, hq, hqf⟩ := h 0 (by simp at hge ⊢; omega)
        rw [drop_zero, take_append_of_le_length (by simp at hge ⊢; omega)] at hq
        rw [hall q (mem_of_mem_take hq)] at hqf
        cases hqf
      · intro hk
        rw [hsplit] at h
        obtain ⟨q, hq, hqf⟩ := h 0 (by simp; omega)
        rw [drop_zero, take_append_of_le_length (by simp; omega)] at hq
        rw [hall q (mem_of_mem_take hq)] at hqf
        cases hqf
    | false =>
      rw [findSlots_taken hp]
      refine @ih [] (by simp) (by simp; omega) fun i hi => ?_
      rw [hsplit] at h
      obtain ⟨q, hq, hqf⟩ := h (front.length + 1 + i) (by simp at hi ⊢; omega)
      refine ⟨q, ?_, hqf⟩
      have hdrop : (front ++ [p] ++ slots).drop (front.length + 1 + i) = slots.drop i := by
        rw [drop_append]
        simp
      rwa [hdrop] at hq

theorem firstRun_or_noRun (k : Nat) (slots : List DirSlot) :
    (∃ pre run post, FirstRun k slots pre run post) ∨ NoRun k slots := by
  classical
  by_cases h : ∃ i, i + k ≤ slots.length ∧ ∀ p ∈ (slots.drop i).take k, p.slot.isFree = true
  · left
    obtain ⟨hlen, hfree⟩ := Nat.find_spec h
    have hmin := fun i hi => Nat.find_min (m := i) h hi
    generalize Nat.find h = i at hlen hfree hmin
    refine ⟨slots.take i, (slots.drop i).take k, slots.drop (i + k), ?_, ?_, hfree, fun j hj => ?_⟩
    · rw [append_assoc, ← drop_drop, take_append_drop, take_append_drop]
    · rw [length_take, length_drop]
      omega
    · rw [length_take] at hj
      have hfront : slots.take i ++ (slots.drop i).take k = slots.take (i + k) := (take_add ..).symm
      have hj' := hmin j (by omega)
      push Not at hj'
      obtain ⟨p, hp, hpf⟩ := hj' (by omega)
      refine ⟨p, ?_, by simpa using hpf⟩
      rw [hfront, drop_take, take_take, Nat.min_eq_left (by omega)]
      exact hp
  · right
    intro i hi
    push Not at h
    obtain ⟨p, hp, hpf⟩ := h i hi
    exact ⟨p, hp, by simpa using hpf⟩

theorem FirstRun.findSlots_eq (hk : 0 < k) (h : FirstRun k slots pre run post) :
    findSlots k (0, ⟨0, 0, 0⟩) slots = .ok (.inr (some (startpoint run))) :=
  @findSlots_run k slots pre run post [] (by simp) hk h

theorem NoRun.findSlots_eq (hk : 0 < k) (h : NoRun k slots) :
    ∃ acc, findSlots k (0, ⟨0, 0, 0⟩) slots = .ok (.inl acc) :=
  @findSlots_noRun k slots [] (by simp) hk h

end

variable {g : Geometry} {s : Fat} {c k : Nat} {l : List Nat}

theorem findSlots_append (acc : Nat × Startpoint) (l l' : List DirSlot) :
    findSlots k acc (l ++ l') = findSlots k acc l >>= orElse fun acc => findSlots k acc l' :=
  forReturn_append ..

theorem walkSectors_findSlots (hs : s.Works) (sector : Nat) (acc : Nat × Startpoint) :
    walkSectors g sector (fun _ => none) (findSlot k c) acc s =
      liftExec (findSlots k acc (windowSlots g s c sector)) s :=
  walkSectors_eq hs _ _ (by intros; rfl) acc

theorem findEntryStartpointFrom_chain (hg : g.WellFormed) (hs : s.Works)
    (hroot : g.fixedRoot root = false) (hl : Chain g s c l) (hread : ∀ d ∈ l, g.Readable d)
    (hfuel : l.length ≤ fuel) (sector : Nat) (acc : Nat × Startpoint) :
    (∀ r, findSlots k acc (chainSlots g s l) = .ok (.inr r) →
      findEntryStartpointFrom g k root fuel c sector acc s = .ok (r, s)) ∧
    ∀ acc', findSlots k acc (chainSlots g s l) = .ok (.inl acc') → ∃ d, l.getLast? = some d ∧
      findEntryStartpointFrom g k root fuel c sector acc s = (do
        let newCluster ← allocateCluster g
        clearCluster g newCluster
        writeTable g d newCluster
        findEntryStartpointFrom g k root (fuel - l.length) newCluster (g.clusterToSector d)
          acc') s := by
  have hsector : ∀ c sector, walkSector g root c sector = g.clusterToSector c := by
    intro c sector
    rw [walkSector, hroot]
    rfl
  induction hl generalizing fuel sector acc with
  | @last c hc hend =>
    obtain _ | fuel := fuel
    · simp at hfuel
    have hslots : chainSlots g s [c] = windowSlots g s c (g.clusterToSector c) := by
      simp [chainSlots]
    rw [findEntryStartpointFrom, if_pos (hc.inside hg), hsector, bind_congr (walkSectors_findSlots hs _ _), hslots]
    refine ⟨fun r hr => ?_, fun acc' hr => ⟨c, rfl, ?_⟩⟩
    · rw [hr, bind_eq (liftExec_ok _)]
      rfl
    · rw [hr, bind_eq (liftExec_ok _)]
      dsimp only
      rw [hroot, if_neg Bool.false_ne_true, bind_eq (readTable_eq hs (hread c mem_cons_self)), if_pos hend]
      simp
  | @link c l hc hl ih =>
    obtain _ | fuel := fuel
    · simp at hfuel
    have hslots : chainSlots g s (c :: l) =
        windowSlots g s c (g.clusterToSector c) ++ chainSlots g s l := by simp [chainSlots]
    have hnext := lt_clusterEnd hg hl.isCluster.2
    rw [findEntryStartpointFrom, if_pos (hc.inside hg), hsector, bind_congr (walkSectors_findSlots hs _ _),
      hslots, findSlots_append]
    cases hr : findSlots k acc (windowSlots g s c (g.clusterToSector c)) with
    | error e => refine ⟨fun r h => ?_, fun acc' h => ?_⟩ <;> cases h
    | ok r =>
      rw [bind_eq (liftExec_ok _)]
      cases r with
      | inr r =>
        refine ⟨fun r' h => ?_, fun acc' h => ?_⟩ <;> cases h
        rfl
      | inl acc1 =>
        obtain ⟨hfound, hext⟩ := ih (forall_mem_cons.1 hread).2
          (show l.length ≤ fuel by simpa using hfuel) (g.clusterToSector c) acc1
        dsimp only
        rw [hroot, if_neg Bool.false_ne_true,
          bind_eq (readTable_eq hs (hread c mem_cons_self)),
          if_neg (Nat.not_le.2 hnext)]
        refine ⟨hfound, fun acc' h => ?_⟩
        obtain ⟨d, hd, heq⟩ := hext acc' h
        refine ⟨d, ?_, ?_⟩
        · rw [getLast?_cons, hd]
          rfl
        · rw [heq, length_cons, Nat.add_sub_add_right]

theorem findEntryStartpointFrom_fixed (hs : s.Works) (hroot : g.fixedRoot root = true)
    (hc : c ≠ 0 ∧ c < g.clusterEnd) (hn : j + n ≤ 224 * 32 / g.bytesPerSector)
    (hsize : g.rootStart + 224 * 32 / g.bytesPerSector < 2 ^ 32) (hfuel : n < fuel)
    (hsector : walkSector g root c sector = g.rootStart + j) (acc : Nat × Startpoint)
    (hr : findSlots k acc (((List.range n).map (j + ·)).flatMap
      fun j => windowSlots g s c (g.rootStart + j)) = .ok (.inr r)) :
    findEntryStartpointFrom g k root fuel c sector acc s = .ok (r, s) := by
  induction n generalizing j fuel sector acc with
  | zero => cases hr
  | succ n ih =>
    obtain _ | fuel := fuel
    · omega
    rw [rootSlots_succ, findSlots_append] at hr
    rw [findEntryStartpointFrom, if_pos hc, hsector, bind_congr (walkSectors_findSlots hs _ _)]
    cases hw : findSlots k acc (windowSlots g s c (g.rootStart + j)) with
    | error e =>
      rw [hw] at hr
      cases hr
    | ok r1 =>
      rw [hw] at hr
      rw [bind_eq (liftExec_ok _)]
      cases r1 with
      | inr r1 =>
        cases hr
        rfl
      | inl acc' =>
        have hr' : findSlots k acc' _ = .ok (.inr r) := hr
        have hne : n ≠ 0 := by
          rintro rfl
          cases hr'
        dsimp only
        rw [hroot, if_pos rfl, u32_eq (show g.rootStart + j + 1 < 2 ^ 32 by omega),
          u32_eq hsize, if_neg (by omega)]
        refine ih (by omega) (by omega) ?_ acc' hr'
        rw [walkSector, hroot, if_pos rfl, if_neg (by omega)]
        omega

theorem findEntryStartpoint_fixed (hs : s.Works) (hroot : g.fixedRoot root = true)
    (hc : c ≠ 0 ∧ c < g.clusterEnd) (hn : n ≤ 224 * 32 / g.bytesPerSector)
    (hsize : g.rootStart + 224 * 32 / g.bytesPerSector < 2 ^ 32) (hk : 0 < k)
    (hrun : FirstRun k (rootSlots g s c n) pre run post) :
    findEntryStartpoint g c k root s = .ok (some (startpoint run), s) := by
  have hmap : (range n).map (0 + ·) = range n := by simp
  have hr := hrun.findSlots_eq hk
  rw [rootSlots, ← hmap] at hr
  have hfuel : n < walkFuel := by
    unfold walkFuel
    omega
  exact findEntryStartpointFrom_fixed hs hroot hc (by omega) hsize hfuel (by rw [walkSector, hroot]; rfl) _ hr

/-- The volume after `FindEntryStartpoint` has linked the cleared cluster `c'` behind the last
cluster `d` of a directory. -/
def Geometry.extended (g : Geometry) (d c' : Nat) (s : Fat) : Fat :=
  g.setTable d c' (g.clear c' (g.allocated c' s))

theorem extended_works (hs : s.Works) : (g.extended d c' s).Works := by
  have h : (g.clear c' (g.allocated c' s)).Works := clear_works hs
  exact h

theorem extended_fields : (g.extended d c' s).startSearchCluster = c' ∧
    (g.extended d c' s).rtc = s.rtc ∧ (g.extended d c' s).bufferRead = s.bufferRead := by
  have h := clear_fields (g := g) (c := c') (s := g.allocated c' s)
  exact ⟨h.1, h.2.2.1, h.2.2.2⟩

section
variable (hg : g.WellFormed) (hd : g.Readable d) (hc' : g.Readable c')
include hg hd hc'

theorem table_extended
    (hx : x ≤ g.totalClusters + 1) : g.table (g.extended d c' s) x =
      if x = d then c' else if x = c' then g.clusterEnd else g.table s x := by
  rw [extended]
  split
  · next h =>
    rw [h, table_setTable hg.tabled hd, mod_entryBits hg hc'.isCluster.2]
  · next h =>
    rw [table_setTable_ne hg.tabled hd hx h, table_clear hg hc'.isCluster hx]
    split
    · next h' => rw [h', table_allocated hg hc']
    · next h' => rw [table_allocated_ne hg hc' hx h']

theorem extended_disk {lba : Nat} (ht : ¬g.InTable lba) (hcl : ¬g.InCluster c' lba) :
    (g.extended d c' s).disk lba = s.disk lba := by
  rw [extended, setTable_disk_of_not_inTable hg hd ht,
    clear_disk_of_not_inCluster hcl, allocated,
    setTable_disk_of_not_inTable hg hc' ht]

theorem extended_disk_new (hi : i < g.sectorsPerCluster) : (g.extended d c' s).disk
    (g.lba (g.clusterToSector c' + i)) = fun _ => 0 := by
  have hb := clusterToSector_bounds hg hc'.isCluster
  rw [extended, setTable_disk hg.tabled hd
    (le_trans (tableEnd_le g) (Nat.le_add_right_of_le hb.1)) (by omega),
    clear_disk_inCluster hg hc'.isCluster hi]

end

theorem windowSlots_congr
    (h : ∀ i < g.sectorsPerCluster, s'.disk (g.lba (start + i)) = s.disk (g.lba (start + i))) :
    windowSlots g s' c start = windowSlots g s c start := by
  refine flatMap_congr fun i hi => map_congr_left fun k _ => ?_
  have hd := h i (mem_range.1 hi)
  rw [show u32 (g.startLBA + (start + i)) = g.lba (start + i) from rfl, hd]

theorem chainSlots_congr (h : ∀ c ∈ l, ∀ i < g.sectorsPerCluster,
    s'.disk (g.lba (g.clusterToSector c + i)) = s.disk (g.lba (g.clusterToSector c + i))) :
    chainSlots g s' l = chainSlots g s l :=
  flatMap_congr fun c hc => windowSlots_congr (h c hc)

theorem cluster_not_inTable (hg : g.WellFormed) (hc : g.IsCluster c)
    (hi : i < g.sectorsPerCluster) : ¬g.InTable (g.lba (g.clusterToSector c + i)) := by
  have hb := clusterToSector_bounds hg hc
  exact not_inTable hg (le_trans (tableEnd_le g) (Nat.le_add_right_of_le hb.1)) (by omega)

theorem chainSlots_extended (hg : g.WellFormed) (hd : g.Readable d) (hc' : g.Readable c')
    (hl : ∀ x ∈ l, g.IsCluster x) (hnot : c' ∉ l) : chainSlots g (g.extended d c' s) l = chainSlots g s l :=
  chainSlots_congr fun x hx _ hi => extended_disk hg hd hc' (cluster_not_inTable hg (hl x hx) hi)
    (not_inCluster_of_ne hg (hl x hx) hc'.isCluster (fun h => hnot (h ▸ hx)) hi)

theorem Chain.extended (hg : g.WellFormed) (hl : Chain g s c l) (hd : g.Readable d)
    (hlast : l.getLast? = some d) (hc' : g.Readable c') (hfree : g.table s c' = 0) :
    Chain g (g.extended d c' s) c (l ++ [c']) := by
  have hnot : c' ∉ l := fun h => hl.taken c' h hfree
  have hne : c' ≠ d := fun h => hnot (h ▸ mem_of_getLast? hlast)
  refine hl.extend (hl.nodup hg) hlast (fun x hx hxd => ?_) ?_ (.last hc'.isCluster ?_)
  · rw [table_extended hg hd hc' (hl.mem_isCluster x hx).2, if_neg hxd,
      if_neg (fun h : x = c' => hnot (h ▸ hx))]
  · rw [table_extended hg hd hc' hd.isCluster.2, if_pos rfl]
  · rw [table_extended hg hd hc' hc'.isCluster.2, if_neg hne, if_pos rfl]

/-- `Grown g k s l s' l'`: the chain `l` of a directory has grown, one cluster at a time, as long as
it had no run of `k` free slots. -/
inductive Grown (g : Geometry) (k : Nat) : Fat → List Nat → Fat → List Nat → Prop
  | refl {s : Fat} {l : List Nat} : Grown g k s l s l
  | grow {s s' : Fat} {l l' : List Nat} {d c' : Nat} : NoRun k (chainSlots g s l) → l.getLast? = some d →
      g.FirstFree s c' → Grown g k (g.extended d c' s) (l ++ [c']) s' l' → Grown g k s l s' l'

variable {s' : Fat} {l' : List Nat}

theorem chainSlots_append (l l' : List Nat) :
    chainSlots g s (l ++ l') = chainSlots g s l ++ chainSlots g s l' := flatMap_append

theorem Grown.length_le (h : Grown g k s l s' l') : l.length ≤ l'.length := by
  induction h with
  | refl => exact le_refl _
  | grow _ _ _ _ ih =>
    rw [length_append] at ih
    omega

theorem Grown.exists_append (h : Grown g k s l s' l') : ∃ new, l' = l ++ new := by
  induction h with
  | refl => exact ⟨[], (append_nil _).symm⟩
  | grow _ _ _ _ ih =>
    obtain ⟨new, rfl⟩ := ih
    exact ⟨_, append_assoc _ _ _⟩

theorem Grown.fields (h : Grown g k s l s' l') : s'.rtc = s.rtc ∧ s'.bufferRead = s.bufferRead := by
  induction h with
  | refl => exact ⟨rfl, rfl⟩
  | grow _ _ _ _ ih => exact ⟨ih.1.trans extended_fields.2.1, ih.2.trans extended_fields.2.2⟩

section
variable (hg : g.WellFormed)
include hg

theorem Grown.chain (h : Grown g k s l s' l') (hs : s.Works) (hl : Chain g s c l)
    (hread : ∀ d ∈ l, g.Readable d) : s'.Works ∧ Chain g s' c l' ∧ ∀ d ∈ l', g.Readable d := by
  induction h with
  | refl => exact ⟨hs, hl, hread⟩
  | @grow s s' l l' d c' hno hlast hfree _ ih =>
    refine ih (extended_works hs)
      (hl.extended hg (hread d (mem_of_getLast? hlast)) hlast hfree.read hfree.free) ?_
    exact forall_mem_append.2 ⟨hread, forall_mem_singleton.2 hfree.read⟩

theorem Grown.effect (h : Grown g k s l s' l') (hl : Chain g s c l)
    (hread : ∀ d ∈ l, g.Readable d) : ∃ new, l' = l ++ new ∧ (∀ d ∈ new, g.Readable d ∧ g.table s d = 0) ∧
      (∀ x ≤ g.totalClusters + 1, x ∉ new → l.getLast? ≠ some x → g.table s' x = g.table s x) ∧
      (∀ lba, ¬g.InTable lba → (∀ d ∈ new, ¬g.InCluster d lba) → s'.disk lba = s.disk lba) ∧ ∀ d ∈ new, ∀ i
      < g.sectorsPerCluster, s'.disk (g.lba (g.clusterToSector d + i)) = fun _ => 0 := by
  induction h with
  | refl => exact ⟨[], by simp, by simp, fun _ _ _ _ => rfl, fun _ _ _ => rfl, by simp⟩
  | @grow s s' l l' d c' hno hlast hfree _ ih =>
    have hd := hread d (mem_of_getLast? hlast)
    have hc' := hfree.read
    have hchain := hl.extended hg hd hlast hc' hfree.free
    have hlast' : (l ++ [c']).getLast? = some c' := getLast?_concat
    obtain ⟨new, rfl, hnew, htable, hdisk, hzero⟩ :=
      ih hchain (forall_mem_append.2 ⟨hread, forall_mem_singleton.2 hc'⟩)
    -- a cluster that is free after the first step is neither of its two clusters
    have hfree' : ∀ x ∈ new, x ≠ d ∧ x ≠ c' := by
      intro x hx
      have hx0 := (hnew x hx).2
      rw [table_extended hg hd hc' (hnew x hx).1.isCluster.2] at hx0
      have := hc'.1
      have := lt_clusterEnd hg hc'.isCluster.2
      refine ⟨?_, ?_⟩ <;> rintro rfl
      · rw [if_pos rfl] at hx0
        omega
      · split at hx0
        · omega
        · rw [if_pos rfl] at hx0
          omega
    refine ⟨c' :: new, by simp, fun x hx => ?_, fun x hx hxn hxl => ?_, fun lba ht hcl => ?_,
      fun x hx i hi => ?_⟩
    · rcases mem_cons.1 hx with rfl | hx
      · exact ⟨hc', hfree.free⟩
      · obtain ⟨hxr, hx0⟩ := hnew x hx
        obtain ⟨hxd, hxc⟩ := hfree' x hx
        rw [table_extended hg hd hc' hxr.isCluster.2, if_neg hxd, if_neg hxc] at hx0
        exact ⟨hxr, hx0⟩
    · have hxc : x ≠ c' := fun h => hxn (h ▸ mem_cons_self)
      have hxd : x ≠ d := fun h => hxl (h ▸ hlast)
      rw [htable x hx (fun h => hxn (mem_cons_of_mem _ h))
        (by rw [hlast']; exact fun h => hxc (Option.some.inj h).symm),
        table_extended hg hd hc' hx, if_neg hxd, if_neg hxc]
    · rw [hdisk lba ht (forall_mem_cons.1 hcl).2,
        extended_disk hg hd hc' ht (hcl c' mem_cons_self)]
    · rcases mem_cons.1 hx with rfl | hx
      · rw [hdisk _ (cluster_not_inTable hg hc'.isCluster hi) fun y hy =>
          not_inCluster_of_ne hg hc'.isCluster (hnew y hy).1.isCluster
            (hfree' y hy).2.symm hi, extended_disk_new hg hd hc' hi]
      · exact hzero x hx i hi

theorem Grown.slots (h : Grown g k s l s' l') (hl : Chain g s c l)
    (hread : ∀ d ∈ l, g.Readable d) : ∃ cleared, chainSlots g s' l' = chainSlots g s l ++ cleared ∧
      ∀ p ∈ cleared, (p.slot = fun _ => 0) ∧ g.Readable p.cluster ∧ g.table s p.cluster = 0 := by
  obtain ⟨new, rfl, hnew, -, hdisk, hzero⟩ := h.effect hg hl hread
  refine ⟨chainSlots g s' new, ?_, fun p hp => ?_⟩
  · have hsame : chainSlots g s' l = chainSlots g s l := by
      refine chainSlots_congr fun d hd i hi => ?_
      have hdl := hl.mem_isCluster d hd
      refine hdisk _ (cluster_not_inTable hg hdl hi) fun x hx => ?_
      refine not_inCluster_of_ne hg hdl (hnew x hx).1.isCluster ?_ hi
      rintro rfl
      exact hl.taken d hd (hnew d hx).2
    rw [chainSlots_append, hsame]
  · obtain ⟨hpc, hi, -, o, -, -, hslot⟩ := mem_chainSlots hp
    refine ⟨?_, hnew _ hpc⟩
    rw [hslot, show u32 (g.startLBA + (g.clusterToSector p.cluster + p.index)) =
      g.lba (g.clusterToSector p.cluster + p.index) from rfl, hzero _ hpc _ hi]
    rfl

theorem exists_grown (k : Nat) (hs : s.Works) (hl : Chain g s c l)
    (hread : ∀ d ∈ l, g.Readable d)
    (hsearch : ∀ d, s.startSearchCluster ≤ d → d < g.totalClusters → g.Readable d) :
    ∃ s' l', Grown g k s l s' l' ∧ ((∃ pre run post, FirstRun k (chainSlots g s' l') pre run post) ∨
      NoRun k (chainSlots g s' l') ∧ g.Full s') := by
  -- every new cluster lies behind the last one, which is taken
  induction hm : 2 * (g.totalClusters - s.startSearchCluster) +
      (if g.table s s.startSearchCluster = 0 then 1 else 0) using Nat.strong_induction_on
    generalizing s l with
  | _ m ih =>
    subst hm
    rcases firstRun_or_noRun k (chainSlots g s l) with hrun | hno
    · exact ⟨s, l, .refl, .inl hrun⟩
    rcases g.firstFree_or_full hsearch with ⟨c', hfree⟩ | hfull
    · obtain ⟨d, hlast, -⟩ := hl.getLast
      have hd := hread d (mem_of_getLast? hlast)
      have hchain := hl.extended hg hd hlast hfree.read hfree.free
      have hstart : (g.extended d c' s).startSearchCluster = c' := extended_fields.1
      have hne : c' ≠ d := by
        rintro rfl
        exact hl.taken c' (mem_of_getLast? hlast) hfree.free
      have htable : g.table (g.extended d c' s) c' ≠ 0 := by
        rw [table_extended hg hd hfree.read hfree.read.isCluster.2, if_neg hne, if_pos rfl]
        have := lt_clusterEnd hg hfree.read.isCluster.2
        omega
      have hless : 2 * (g.totalClusters - (g.extended d c' s).startSearchCluster) +
          (if g.table (g.extended d c' s) (g.extended d c' s).startSearchCluster = 0
            then 1 else 0) < 2 * (g.totalClusters - s.startSearchCluster) +
          (if g.table s s.startSearchCluster = 0 then 1 else 0) := by
        have hle := hfree.start_le
        have hlt := hfree.lt_total
        rw [hstart, if_neg htable]
        rcases lt_or_ge s.startSearchCluster c' with h | h
        · omega
        · have heq : s.startSearchCluster = c' := by omega
          rw [heq, if_pos hfree.free]
          omega
      have hread' : ∀ x ∈ l ++ [c'], g.Readable x :=
        forall_mem_append.2 ⟨hread, forall_mem_singleton.2 hfree.read⟩
      obtain ⟨s', l', hgrown, hend⟩ := ih _ hless (extended_works hs) hchain hread'
        (fun x hx => hsearch x (le_trans hfree.start_le (hstart ▸ hx))) rfl
      exact ⟨s', l', .grow hno hlast hfree hgrown, hend⟩
    · exact ⟨s, l, .refl, .inr ⟨hno, hfull⟩⟩

theorem findEntryStartpointFrom_grown (hroot : g.fixedRoot root = false)
    (hk : 0 < k)
    (hend : ∀ {l0 l1 : List Nat} {c fuel sector : Nat} {acc : Nat × Startpoint}, l' = l0 ++ l1 →
      Chain g s' c l1 → l1.length < fuel →
      findSlots k (0, ⟨0, 0, 0⟩) (chainSlots g s' l0) = .ok (.inl acc) →
      findEntryStartpointFrom g k root fuel c sector acc s' = .ok (r, s2))
    (h : Grown g k s l s' l') (hs : s.Works)
    (hsplit : l = l0 ++ l1) (hl : Chain g s c0 l)
    (hread : ∀ d ∈ l, g.Readable d) (hl1 : Chain g s c1 l1)
    (hfuel : l1.length + l'.length < fuel + l.length)
    (hacc : findSlots k (0, ⟨0, 0, 0⟩) (chainSlots g s l0) = .ok (.inl acc)) :
    findEntryStartpointFrom g k root fuel c1 sector acc s = .ok (r, s2) := by
  induction h generalizing l0 l1 c1 fuel sector acc with
  | refl => exact hend hsplit hl1 (by omega) hacc
  | @grow s s' l l' d c' hno hlast hfree hrest ih =>
    have hd : g.Readable d := hread d (mem_of_getLast? hlast)
    have hc' := hfree.read
    have hs1 : (g.allocated c' s).Works := hs
    have hread' : ∀ x ∈ l ++ [c'], g.Readable x :=
      forall_mem_append.2 ⟨hread, forall_mem_singleton.2 hc'⟩
    have hchain := hl.extended hg hd hlast hc' hfree.free
    have hlen : l.length + 1 ≤ l'.length := by
      have := hrest.length_le
      rwa [length_append] at this
    obtain ⟨acc', hacc'⟩ := hno.findSlots_eq hk
    have hmore : findSlots k acc (chainSlots g s l1) = .ok (.inl acc') := by
      rw [hsplit, chainSlots_append, findSlots_append, hacc] at hacc'
      exact hacc'
    obtain ⟨d', hd', heq⟩ := (findEntryStartpointFrom_chain hg hs hroot hl1
      (fun x hx => hread x (hsplit ▸ mem_append_right _ hx))
      (show l1.length ≤ fuel by omega) sector acc).2 acc' hmore
    obtain rfl : d' = d := by
      have : l.getLast? = some d' := by rw [hsplit, getLast?_append, hd']; rfl
      rw [hlast] at this
      exact (Option.some.inj this).symm
    rw [heq, bind_eq (allocateCluster_eq hs hfree),
      bind_eq (clearCluster_eq hs1),
      bind_eq (writeTable_eq (clear_works hs1) hd)]
    refine ih hend (extended_works hs) rfl hchain hread'
      (hchain.suffix (show l ++ [c'] = l ++ c' :: [] from rfl)) ?_ ?_
    · rw [length_append, length_singleton]
      omega
    · rwa [chainSlots_extended hg hd hc' hl.mem_isCluster (fun hx => hl.taken c' hx hfree.free)]

section
variable (hs : s.Works) (hroot : g.fixedRoot root = false) (hl : Chain g s c l)
  (hread : ∀ d ∈ l, g.Readable d) (hk : 0 < k) (h : Grown g k s l s' l')
include hs hroot hl hread hk h

theorem findEntryStartpoint_grown (hrun : FirstRun k (chainSlots g s' l') pre run post) :
    findEntryStartpoint g c k root s = .ok (some (startpoint run), s') := by
  obtain ⟨hs', hl', hread'⟩ := h.chain hg hs hl hread
  have hfuel := hl'.length_lt_walkFuel hg
  refine findEntryStartpointFrom_grown hg hroot hk (fun {l0 l1 c fuel sector acc} hsplit hl1 hf
    hacc => ?_) h hs (show l = [] ++ l from rfl) hl hread hl (by omega) rfl
  refine (findEntryStartpointFrom_chain hg hs' hroot hl1
    (fun x hx => hread' x (hsplit ▸ mem_append_right _ hx)) (le_of_lt hf) sector acc).1 _ ?_
  have hfind := hrun.findSlots_eq hk
  rw [hsplit, chainSlots_append, findSlots_append, hacc] at hfind
  exact hfind

theorem findEntryStartpoint_full (hno : NoRun k (chainSlots g s' l'))
    (hfull : g.Full s') : ∃ s2, findEntryStartpoint g c k root s = .ok (none, s2) := by
  obtain ⟨hs', hl', hread'⟩ := h.chain hg hs hl hread
  obtain ⟨d, hlast, -⟩ := hl'.getLast
  have hfuel := hl'.length_lt_walkFuel hg
  refine ⟨g.setTable d 0 (g.clear 0 s'), findEntryStartpointFrom_grown hg hroot hk
    (fun {l0 l1 c fuel sector acc} hsplit hl1 hf hacc => ?_) h hs (show l = [] ++ l from rfl) hl hread hl
    (by omega) rfl⟩
  obtain ⟨acc', hacc'⟩ := hno.findSlots_eq hk
  have hmore : findSlots k acc (chainSlots g s' l1) = .ok (.inl acc') := by
    rw [hsplit, chainSlots_append, findSlots_append, hacc] at hacc'
    exact hacc'
  obtain ⟨d', hd', heq⟩ := (findEntryStartpointFrom_chain hg hs' hroot hl1
    (fun x hx => hread' x (hsplit ▸ mem_append_right _ hx)) (le_of_lt hf) sector acc).2
    acc' hmore
  obtain rfl : d' = d := by
    have : l'.getLast? = some d' := by rw [hsplit, getLast?_append, hd']; rfl
    rw [hlast] at this
    exact (Option.some.inj this).symm
  obtain ⟨fuel', hn⟩ : ∃ n, fuel - l1.length = n + 1 := ⟨fuel - l1.length - 1, by omega⟩
  rw [heq, bind_eq (allocateCluster_full hs' hfull),
    bind_eq (clearCluster_eq hs'),
    bind_eq (writeTable_eq (clear_works hs') (hread' _ (mem_of_getLast? hlast))), hn, findEntryStartpointFrom,
    if_neg (fun h => h.1 rfl)]
  rfl

end

end

end HeisenKernel
