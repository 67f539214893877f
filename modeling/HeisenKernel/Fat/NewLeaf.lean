import HeisenKernel.Fat.NewNode

/-!
# A sound volume with one node more

In a sound volume the nodes other than the parent lie in other sectors and other clusters than those
that the creation of a file changes (`NewNode.same`).
-/

namespace HeisenKernel

open Lib List Geometry

/-- The sector belongs to a directory of the tree. -/
def InDirectory (g : Geometry) (s : Fat) (lba : Nat) : Prop :=
  ∃ o slots, Node (Child g s) o ∧ (∀ p, o = some p → (s.slot g p).isDirectory = true) ∧
    NodeSlots g s o slots ∧ ∃ p ∈ slots, lba = g.lba p.sector

/-- The sector belongs to the file or directory of the entry at the place. -/
def InFile (g : Geometry) (s : Fat) (x : Place) (lba : Nat) : Prop :=
  ∃ l, NodeChain g s (some x) l ∧ ∃ d ∈ l, g.InCluster d lba

/-- Nothing but the table, the directories and the file at the place has changed. -/
def Frame (g : Geometry) (s s' : Fat) (x : Place) : Prop :=
  ∀ lba, s'.disk lba ≠ s.disk lba → g.InTable lba ∨ InDirectory g s' lba ∨ InFile g s' x lba

/-- The entries of the table that are not free are those of the clusters of the nodes. -/
def Exact (g : Geometry) (s : Fat) : Prop :=
  ∀ c, g.IsCluster c → (g.table s c ≠ 0 ↔ ∃ o l, Node (Child g s) o ∧ NodeChain g s o l ∧ c ∈ l)

theorem NodeSlots.not_inCluster (hg : g.WellFormed) (h : NodeSlots g s o slots) (hp : p ∈ slots)
    (hd : g.IsCluster d) (hnot : ∀ l, NodeChain g s o l → d ∉ l) : ¬g.InCluster d (g.lba p.sector) := by
  cases h with
  | fixed =>
    have hsector := (fixedSlots_slotsAt hg).sector p hp
    have := (mem_fixedSlots hg hp).2
    have := (clusterToSector_bounds hg hd).1
    rw [inCluster_iff hg hd hsector.2]
    omega
  | @chain _ l hl =>
    obtain ⟨hc, hindex, hsector⟩ := mem_chainSlots_sector hg hl.mem_isCluster hp
    rw [hsector]
    refine not_inCluster_of_ne hg (hl.mem_isCluster _ hc) hd ?_ hindex
    rintro rfl
    exact hnot l hl hc

theorem NodeSlots.not_inTable (hg : g.WellFormed) (h : NodeSlots g s o slots) (hp : p ∈ slots) :
    ¬g.InTable (g.lba p.sector) := by
  have hsector := (h.slotsAt hg).sector p hp
  exact Geometry.not_inTable hg hsector.1 hsector.2

theorem NodeChain.slots_eq (hg : g.WellFormed) (hl : NodeChain g s o l)
    (h : NodeSlots g s o slots) : slots = chainSlots g s l := h.unique hg (.chain hl)

namespace NewNode
variable (hg : g.WellFormed) (hsound : Sound g s) (ho : Node (Child g s) o)
  (hdir : ∀ p, o = some p → (s.slot g p).isDirectory = true) (h : NewNode g s s' o n new slots slots' q)

include h

theorem nodeSlots : NodeSlots g s o slots := by
  cases h.grown with
  | fixed ht => exact .fixed ht
  | chain hl => exact .chain hl

include hg hsound ho

theorem disk_other (ho' : Node (Child g s) o') (hne : o' ≠ o) (hslots : NodeSlots g s o' slots1)
    (hp : p ∈ slots1) : s'.disk (g.lba p.sector) = s.disk (g.lba p.sector) := by
  refine h.disk _ (hslots.not_inTable hg hp) (fun d hd => ?_) fun x hx => ?_
  · obtain ⟨hread, hfree⟩ := h.fresh d hd
    exact hslots.not_inCluster hg hp hread.isCluster fun l hl hd => hl.taken d hd hfree
  · rw [ne_eq, lba_inj hg.tabled ((hslots.slotsAt hg).sector p hp).2 ((h.nodeSlots.slotsAt hg).sector x hx).2]
    exact hslots.ne_sector hg hsound ho' ho hne h.nodeSlots hp hx

theorem slot_eq (ha : Node (Child g s) (some a)) : s'.slot g a = s.slot g a := by
  obtain ⟨o', ho', -, slots1, p, hslots, hp, rfl⟩ := ha.parent
  by_cases hne : o' = o
  · subst hne
    obtain rfl := hslots.unique hg h.nodeSlots
    have hfree : p.slot.isFree = false := by
      rw [Bool.eq_false_iff, ne_eq, isFree_iff]
      rintro (h0 | h5)
      · exact hp.short.first.1 h0
      · exact hp.short.first.2.1 h5
    have hkept := h.kept p hp.mem hfree
    rw [(hslots.slotsAt hg).slot_place hp.mem]
    have hslots' : SlotsAt g s' slots' := by
      cases h.grown with
      | fixed => exact fixedSlots_slotsAt hg
      | chain _ hl => exact chainSlots_slotsAt hg hl.mem_isCluster (hl.nodup hg)
    exact hslots'.slot_place hkept
  · show slotAt (s'.disk (g.lba p.sector)) p.offset = slotAt (s.disk (g.lba p.sector)) p.offset
    rw [h.disk_other hg hsound ho ho' hne hslots hp.mem]

theorem same (ho' : Node (Child g s) o') (hne : o' ≠ o) : Same g s s' o' where
  entry := by
    rintro p rfl
    rw [h.slot_eq hg hsound ho ho']
    exact ⟨rfl, rfl⟩
  table := by
    intro l hl c hc
    refine h.table c (hl.mem_isCluster c hc).2 (fun hmem => ?_) fun l' hl' hc' => ?_
    · exact hl.taken c hc (h.fresh c hmem).2
    · exact hsound.disjoint o' o l l' ho' ho hne hl hl' hc hc'
  disk := fun _ hslots _ hp => h.disk_other hg hsound ho ho' hne hslots hp

theorem nodeCluster_eq : nodeCluster g s' o = nodeCluster g s o := by
  cases o with
  | none => rfl
  | some p => exact congrArg Slot.cluster (h.slot_eq hg hsound ho ho)

theorem nodeChain (hl : NodeChain g s o l) : NodeChain g s' o (l ++ new) := by
  cases h.grown with
  | fixed ht => exact absurd hl.1 ht
  | chain hl0 hl' =>
    obtain rfl := hl.unique hg hl0
    rw [← h.nodeCluster_eq hg hsound ho] at hl'
    cases o with
    | none => exact ⟨hl.1, hl'⟩
    | some p => exact hl'

theorem nodeSlots_after : NodeSlots g s' o slots' := by
  have hchain := fun l hl => h.nodeChain hg hsound ho (l := l) hl
  cases h.grown with
  | fixed ht => exact .fixed ht
  | chain hl => exact .chain (hchain _ hl)

theorem slot_new : s'.slot g q.place = q.slot :=
  ((h.nodeSlots_after hg hsound ho).slotsAt hg).slot_place ((h.entries q).2 (.inr rfl)).mem

theorem chain_new : NodeChain g s' (some q.place) [n] := by
  show Chain g s' (s'.slot g q.place).cluster [n]
  rw [h.slot_new hg hsound ho, h.cluster]
  exact .last (h.fresh n mem_cons_self).1.isCluster h.last.ge

theorem not_child_new : ¬Child g s' (some q.place) a := by
  rintro ⟨-, slots1, p, hslots, hp, -⟩
  rw [(h.chain_new hg hsound ho).slots_eq hg hslots] at hp
  exact h.empty p hp

theorem nodeChain_old (ho' : Node (Child g s) o') (hl : NodeChain g s' o' l) :
    o' = o ∧ (∃ l0, NodeChain g s o l0 ∧ l = l0 ++ new) ∨ o' ≠ o ∧ NodeChain g s o' l := by
  by_cases hne : o' = o
  · subst hne
    have hchain := fun l hl => h.nodeChain hg hsound ho (l := l) hl
    cases h.grown with
    | fixed ht => exact absurd hl.1 ht
    | @chain _ l0 _ hl0 => exact .inl ⟨rfl, l0, hl0, hl.unique hg (hchain l0 hl0)⟩
  · exact .inr ⟨hne, ((h.same hg hsound ho ho' hne).chain_iff hg hsound ho').1 hl⟩

theorem cluster_ne (ha : Node (Child g s) (some a)) : (s'.slot g a).cluster ≠ n := by
  intro hcluster
  rw [h.slot_eq hg hsound ho ha] at hcluster
  have hn := h.fresh n mem_cons_self
  obtain ⟨l, hl⟩ := hsound.chain a ha (by have := hn.1.1; omega)
  rw [hcluster] at hl
  obtain ⟨t, rfl⟩ := hl.head
  exact hl.taken n mem_cons_self hn.2

theorem not_node : ¬Node (Child g s) (some q.place) := fun hq =>
  h.cluster_ne hg hsound ho hq (by rw [h.slot_new hg hsound ho, h.cluster])

theorem path (hs : s.Works) (hpath : Path g s names o) : Path g s' names o :=
  hpath.congr_of_ne hg hs h.works hsound fun _ ho' hne => h.same hg hsound ho ho' hne

include hdir

theorem child_iff (ho' : Node (Child g s) o') : Child g s' o' a ↔ Child g s o' a ∨ o' = o ∧ a = q.place := by
  by_cases hne : o' = o
  · subst hne
    have hdir' : ∀ p, o' = some p → (s'.slot g p).isDirectory = true := by
      rintro p rfl
      rw [h.slot_eq hg hsound ho' ho']
      exact hdir p rfl
    have hslots := h.nodeSlots
    have hslots' := h.nodeSlots_after hg hsound ho'
    constructor
    · rintro ⟨-, slots1, x, hs1, hx, rfl⟩
      rw [hs1.unique hg hslots', h.entries] at hx
      rcases hx with hx | rfl
      · exact .inl ⟨hdir, slots, x, hslots, hx, rfl⟩
      · exact .inr ⟨rfl, rfl⟩
    · rintro (⟨-, slots1, x, hs1, hx, rfl⟩ | ⟨-, rfl⟩)
      · rw [hs1.unique hg hslots] at hx
        exact ⟨hdir', slots', x, hslots', (h.entries x).2 (.inl hx), rfl⟩
      · exact ⟨hdir', slots', q, hslots', (h.entries q).2 (.inr rfl), rfl⟩
  · rw [(h.same hg hsound ho ho' hne).child_iff hg hsound ho']
    exact ⟨.inl, fun hc => hc.resolve_right fun hc => hne hc.1⟩

theorem node_iff : Node (Child g s') o' ↔ Node (Child g s) o' ∨ o' = some q.place :=
  node_insert ho (fun _ _ ho' => h.child_iff hg hsound ho hdir ho') fun _ =>
    h.not_child_new hg hsound ho

theorem place_eq (ha : Child g s' o a) (hcluster : (s'.slot g a).cluster = n) : a = q.place := by
  rcases (h.child_iff hg hsound ho hdir ho).1 ha with ha | ⟨-, heq⟩
  · exact absurd hcluster (h.cluster_ne hg hsound ho (ho.child ha))
  · exact heq

theorem mem_chain_cases (ho' : Node (Child g s') o') (hl : NodeChain g s' o' l)
    (hc : c ∈ l) : o' = some q.place ∧ c = n ∨ o' = o ∧ c ∈ new ∨
      Node (Child g s) o' ∧ ∃ l0, NodeChain g s o' l0 ∧ c ∈ l0 := by
  rcases (h.node_iff hg hsound ho hdir).1 ho' with hold | rfl
  · rcases h.nodeChain_old hg hsound ho hold hl with ⟨rfl, l0, hl0, rfl⟩ | ⟨-, hl0⟩
    · rcases mem_append.1 hc with hc | hc
      · exact .inr (.inr ⟨hold, l0, hl0, hc⟩)
      · exact .inr (.inl ⟨rfl, hc⟩)
    · exact .inr (.inr ⟨hold, l, hl0, hc⟩)
  · rw [hl.unique hg (h.chain_new hg hsound ho)] at hc
    exact .inl ⟨rfl, mem_singleton.1 hc⟩

theorem sound : Sound g s' where
  root := by
    intro ht
    obtain ⟨l, hl⟩ := hsound.root ht
    by_cases hne : none = o
    · subst hne
      exact ⟨_, (h.nodeChain hg hsound ho ⟨ht, hl⟩).2⟩
    · exact ⟨l, ((h.same hg hsound ho .root hne).chain ⟨ht, hl⟩).2⟩
  chain := by
    intro p hp hc
    rcases (h.node_iff hg hsound ho hdir).1 hp with hp | heq
    · rw [h.slot_eq hg hsound ho hp] at hc ⊢
      obtain ⟨l, hl⟩ := hsound.chain p hp hc
      by_cases hne : some p = o
      · have hl' := h.nodeChain hg hsound ho (l := l) (hne ▸ hl)
        rw [← hne, NodeChain, h.slot_eq hg hsound ho hp] at hl'
        exact ⟨_, hl'⟩
      · have hl' := (h.same hg hsound ho hp hne).chain hl
        rw [NodeChain, h.slot_eq hg hsound ho hp] at hl'
        exact ⟨l, hl'⟩
    · cases heq
      exact ⟨[n], h.chain_new hg hsound ho⟩
  disjoint := by
    intro o1 o2 l1 l2 ho1 ho2 hne hl1 hl2 c hc1 hc2
    have hold : ∀ {o' : Option Place} {l0 : List Nat}, NodeChain g s o' l0 → c ∈ l0 → c ∉ n :: new :=
      fun hl0 hc hmem => hl0.taken c hc (h.fresh c hmem).2
    have hnew := (nodup_cons.1 h.nodup).1
    rcases h.mem_chain_cases hg hsound ho hdir ho1 hl1 hc1 with
      ⟨rfl, rfl⟩ | ⟨rfl, hn1⟩ | ⟨hold1, l0, hl0, hc0⟩
    · rcases h.mem_chain_cases hg hsound ho hdir ho2 hl2 hc2 with
        ⟨rfl, -⟩ | ⟨-, hn2⟩ | ⟨-, l0, hl0, hc0⟩
      · exact hne rfl
      · exact hnew hn2
      · exact hold hl0 hc0 mem_cons_self
    · rcases h.mem_chain_cases hg hsound ho hdir ho2 hl2 hc2 with
        ⟨-, rfl⟩ | ⟨rfl, -⟩ | ⟨-, l0, hl0, hc0⟩
      · exact hnew hn1
      · exact hne rfl
      · exact hold hl0 hc0 (mem_cons_of_mem _ hn1)
    · rcases h.mem_chain_cases hg hsound ho hdir ho2 hl2 hc2 with
        ⟨-, rfl⟩ | ⟨-, hn2⟩ | ⟨hold2, l0', hl0', hc0'⟩
      · exact hold hl0 hc0 mem_cons_self
      · exact hold hl0 hc0 (mem_cons_of_mem _ hn2)
      · exact hsound.disjoint o1 o2 l0 l0' hold1 hold2 hne hl0 hl0' hc0 hc0'

theorem frame : Frame g s s' q.place := by
  have ho' := (h.node_iff hg hsound ho hdir).2 (.inl ho)
  have hdir' : ∀ p, o = some p → (s'.slot g p).isDirectory = true := by
    rintro p rfl
    rw [h.slot_eq hg hsound ho ho]
    exact hdir p rfl
  have hslots' := h.nodeSlots_after hg hsound ho
  intro lba hlba
  by_contra hout
  simp only [not_or] at hout
  obtain ⟨ht, hindir, hinfile⟩ := hout
  have hdirectory : ∀ p ∈ slots', lba ≠ g.lba p.sector := fun p hp heq =>
    hindir ⟨o, slots', ho', hdir', hslots', p, hp, heq⟩
  refine hlba (h.disk lba ht (fun d hd hin => ?_) fun p hp heq => ?_)
  · rcases mem_cons.1 hd with rfl | hd
    · exact hinfile ⟨[d], h.chain_new hg hsound ho, d, mem_singleton.2 rfl, hin⟩
    · obtain ⟨i, hi, rfl⟩ := hin
      cases h.grown with
      | fixed => cases hd
      | @chain _ l _ hl hl' =>
        have hmem : d ∈ l ++ new := mem_append_right _ hd
        obtain ⟨p, hp, -, hsector⟩ := exists_chainSlots hg hmem (hl'.mem_isCluster d hmem) hi
        exact hdirectory p hp (by rw [hsector])
  · cases h.grown with
    | fixed =>
      have hadd := tableEnd_add hg
      have hp' := mem_fixedSlots hg hp
      obtain ⟨p', hp', hsector⟩ := exists_fixedSlots hg (j := p.sector - g.tableEnd) (by omega)
      rw [rootStart_eq hg] at hsector
      exact hdirectory p' hp' (by rw [heq, hsector]; congr 1; omega)
    | @chain _ l _ hl hl' =>
      obtain ⟨hc, hindex, hsector⟩ := mem_chainSlots_sector hg hl.mem_isCluster hp
      have hmem := mem_append_left new hc
      obtain ⟨p', hp', -, hsector'⟩ := exists_chainSlots hg hmem (hl'.mem_isCluster _ hmem) hindex
      exact hdirectory p' hp' (by rw [heq, hsector, hsector'])

theorem exact (hexact : Exact g s) : Exact g s' := by
  have hnode : ∀ o', Node (Child g s') o' ↔ Node (Child g s) o' ∨ o' = some q.place :=
    fun _ => h.node_iff hg hsound ho hdir
  intro c hc
  constructor
  · intro htable
    by_cases hmem : c ∈ n :: new
    · rcases mem_cons.1 hmem with rfl | hmem
      · exact ⟨some q.place, [c], (hnode _).2 (.inr rfl), h.chain_new hg hsound ho, mem_singleton.2 rfl⟩
      · have hchain := fun l hl => h.nodeChain hg hsound ho (l := l) hl
        cases h.grown with
        | fixed => cases hmem
        | @chain _ l _ hl =>
          exact ⟨o, l ++ new, (hnode _).2 (.inl ho), hchain l hl, mem_append_right _ hmem⟩
    · by_cases hpar : ∃ l, NodeChain g s o l ∧ c ∈ l
      · obtain ⟨l, hl, hcl⟩ := hpar
        exact ⟨o, l ++ new, (hnode _).2 (.inl ho), h.nodeChain hg hsound ho hl, mem_append_left _ hcl⟩
      · rw [h.table c hc.2 hmem fun l hl hcl => hpar ⟨l, hl, hcl⟩] at htable
        obtain ⟨o', l, ho', hl, hcl⟩ := (hexact c hc).1 htable
        have hne : o' ≠ o := by
          rintro rfl
          exact hpar ⟨l, hl, hcl⟩
        exact ⟨o', l, (hnode _).2 (.inl ho'), (h.same hg hsound ho ho' hne).chain hl, hcl⟩
  · rintro ⟨o', l, -, hl, hcl⟩
    exact hl.taken c hcl

end NewNode

theorem Room.listed (hg : g.WellFormed) (hs : s.Works) (hfree : g.FirstFree s n)
    (h : Room g s o name n new s1 run) (hname : IsFileName name)
    (hattr : attr ≠ 0x08 ∧ attr ≠ 0x0F) (hlen : name.length ≤ 65) (hlist : Listed g s o childs)
    (htidy : ∀ slots, View g s o slots → Tidy slots)
    (hs' : s' = g.finished attr parent (newEntry s.rtc name attr n)
      (s1.putSlots g (run.zip (newSlots s.rtc name attr n))))
    (hcluster : nodeCluster g s' o = nodeCluster g s o) :
    ∃ a b info, childs = a ++ b ∧ Listed g s' o (a ++ info :: b) ∧ info.filename = name ∧
      info.entry = newEntry s.rtc name attr n := by
  have hn := hfree.read
  have hes := newSlots_length name s.rtc attr n
  cases h with
  | @chain l _ _ pre _ post hl hread hgrown hrun =>
    have hla := hl.chain.allocated hg hn hfree.free
    obtain ⟨hs1, -, -⟩ := hgrown.chain hg (allocated_works hs) hla hread
    have hworks : s'.Works := by
      rw [hs']
      exact finished_works ((putSlots_fields s1 _).2.1.trans hs1)
    obtain ⟨-, hchain, hread', hview⟩ := hgrown.finished hg hs hfree hl hread hrun hs'
    obtain ⟨cleared, hin⟩ := hgrown.runIn hg hl.fixedRoot (allocated_works hs) hla hread hrun
    rw [chainSlots_allocated hg hn hl.mem_isCluster] at hin
    have hdir := hl.chain.directory_of_readable hg hs hl.fixedRoot hread
    have hview0 : View g s o (chainSlots g s l) := ⟨hdir, fun hfixed => by simp [hl.fixedRoot] at hfixed⟩
    obtain ⟨a, b, info, rfl, hlisting, hinfo⟩ := (hin.listing_new hname hattr (htidy _ hview0)
      (hlist.listing_eq hs hdir) s.rtc n).1 hlen
    refine ⟨a, b, info, rfl, ⟨chainSlots g s' (l ++ new), ?_, ?_⟩, hinfo⟩
    · refine ⟨?_, fun hfixed => by simp [hl.fixedRoot] at hfixed⟩
      rw [hcluster]
      exact hchain.directory_of_readable hg hworks hl.fixedRoot hread'
    · rw [hview, ← hlisting]
      exact congrArg listing (hin.view_eq hg hes)
  | @fixed m pre _ post hroot hrun =>
    obtain ⟨rfl, ht⟩ := fixedRoot_isNone hroot
    have hrun' := hrun.allocated hg hn
    have hin : RunIn g true (g.allocated n s) (g.allocated n s) (fun t => rootSlots g t g.rootDirCluster m)
        (requiredLFNEntries name.length + 1) (rootSlots g s g.rootDirCluster m) [] pre run post := by
      refine ⟨rootSlots_follows hg hrun.windows, ?_, by simp, rootSlots_slotsAt hg hrun.windows,
        hrun'.isFirst, fun _ _ _ => rfl⟩
      rw [append_nil, hrun'.isFirst.split, hrun.isFirst.split]
    -- the cluster of the new file lies behind the root directory
    have hkeep : rootSlots g s' g.rootDirCluster m = rootSlots g ((g.allocated n s).putSlots g
        (run.zip (newSlots s.rtc name attr n))) g.rootDirCluster m := by
      refine flatMap_congr fun j hj => windowSlots_congr fun i hi => ?_
      have hinside := hrun.windows.inside
      have hj := mem_range.1 hj
      have hadd := tableEnd_add hg
      have hdata := (clusterToSector_bounds hg hn.isCluster).1
      have hend := hrun.windows.le_end hg hj
      rw [hs']
      refine finished_disk hg ?_
      rw [newEntry_cluster_eq hg hn, inCluster_iff hg hn.isCluster (by omega), rootStart_eq hg]
      omega
    have hput := hkeep.trans (hin.view_eq hg hes)
    obtain ⟨p, hp, h0⟩ := hrun.ended
    have hview : ∀ {t : Fat}, p ∈ rootSlots g t g.rootDirCluster m →
        View g t none (rootSlots g t g.rootDirCluster m) := fun hp =>
      ⟨hrun.directory hg hroot ⟨p, hp, h0⟩, fun _ => ⟨m, hrun.windows, rfl⟩⟩
    have hview0 := hview (by rw [hrun.isFirst.split]; exact mem_append_right _ hp)
    obtain ⟨a, b, info, rfl, hlisting, hinfo⟩ := (hin.listing_new hname hattr (htidy _ hview0)
      (hlist.listing_eq hs hview0.directory) s.rtc n).1 hlen
    refine ⟨a, b, info, rfl, ⟨_, hview (by rw [hput]; exact mem_append_right _ hp), ?_⟩, hinfo⟩
    rw [hput, hlisting]

end HeisenKernel
