import HeisenKernel.Fat.CreateEntry

/-!
# What CreateEntry leaves in a directory

The purpose of `CreateEntry` is stated by `Created`: the slots of the new file stand in slots of the
directory that were free, or in clusters that were free and are now linked to it, all other slots
are as they were, and a listing has exactly one entry more, with the new name.
-/

namespace HeisenKernel

open Lib List Nat

/-- Behind the slot that ends the directory there are only such slots, and every long name slot has
its entry behind it, with no free slot in between. -/
structure Tidy (slots : List DirSlot) : Prop where
  ended : slots.Pairwise fun p q => p.slot 0 = 0x00 → q.slot 0 = 0x00
  names : ∀ pre post, slots = pre ++ post → (∀ p ∈ post.head?, p.slot.isFree = true) →
    ∀ acc, listSlots ⟨[], []⟩ pre = .ok (.inl acc) → acc.lfnEntries = []

section
variable {slots run cleared : List DirSlot}

theorem isFree_iff {e : Slot} : e.isFree = true ↔ e 0 = 0x00 ∨ e 0 = 0xE5 := by
  simp [Slot.isFree]

theorem listSlots_end (h : ∀ p ∈ slots, p.slot 0 = 0x00) (acc : Listing) :
    ∃ r, listSlots acc slots = .ok r ∧ found r = acc.results := by
  cases slots with
  | nil => exact ⟨_, rfl, rfl⟩
  | cons p slots =>
    refine ⟨.inr acc.results, ?_, rfl⟩
    rw [listSlots_cons, listSlot, if_pos (h p mem_cons_self)]
    rfl

theorem listing_append_end (h : ∀ p ∈ cleared, p.slot 0 = 0x00) :
    listing (slots ++ cleared) = listing slots := by
  rw [listing, listing, listSlots_append]
  cases listSlots ⟨[], []⟩ slots with
  | error e => rfl
  | ok r =>
    cases r with
    | inr results => rfl
    | inl acc =>
      obtain ⟨r, hr, hfound⟩ := listSlots_end h acc
      show (listSlots acc cleared >>= fun r => .ok (found r)) = .ok acc.results
      rw [hr, ← hfound]
      rfl

theorem Tidy.append (h : Tidy slots) (hclear : ∀ p ∈ cleared, p.slot 0 = 0x00) : Tidy (slots ++ cleared) := by
  refine ⟨pairwise_append.2 ⟨h.ended, ?_, fun _ _ q hq _ => hclear q hq⟩, ?_⟩
  · exact pairwise_of_forall_mem_list fun _ _ q hq _ => hclear q hq
  · intro pre post hsplit hpost acc hacc
    rcases append_eq_append_iff.1 hsplit with ⟨c', rfl, hc'⟩ | ⟨s', rfl, rfl⟩
    · -- the listing would have ended at a cleared slot
      cases c' with
      | nil =>
        rw [append_nil] at hacc
        exact h.names slots [] (by simp) (by simp) acc hacc
      | cons p c' =>
        refine absurd hacc (listSlots_returns ⟨p, by simp, hclear p ?_⟩ _ _)
        rw [hc']
        simp
    · refine h.names pre s' rfl (fun p hp => ?_) acc hacc
      exact hpost p (by rw [head?_append, hp]; rfl)

theorem FirstRun.pre_ne_end (h : FirstRun k slots pre run post)
    (hended : slots.Pairwise fun p q => p.slot 0 = 0x00 → q.slot 0 = 0x00) : ∀ p ∈ pre, p.slot 0 ≠ 0x00 := by
  intro p hp h0
  obtain ⟨a, b, rfl⟩ := append_of_mem hp
  obtain ⟨q, hq, hqf⟩ := h.first a.length (by simp)
  have hdrop : (a ++ p :: b ++ run).drop a.length = p :: (b ++ run) := by simp
  rw [hdrop] at hq
  rw [h.split, show a ++ p :: b ++ run ++ post = a ++ (p :: (b ++ run ++ post)) by simp] at hended
  have hbehind := (pairwise_cons.1 (pairwise_append.1 hended).2.1).1
  have hq0 : q.slot 0 = 0x00 := by
    rcases mem_cons.1 (mem_of_mem_take hq) with rfl | hq
    · exact h0
    · exact hbehind q (mem_append_left _ hq) h0
  rw [isFree_iff.2 (.inl hq0)] at hqf
  cases hqf

theorem FirstRun.listSlots_pre (h : FirstRun k slots pre run post) (hk : 0 < k) (htidy : Tidy slots)
    (hold : listing slots = .ok old) : ∃ a, listSlots ⟨[], []⟩ pre = .ok (.inl ⟨a, []⟩) := by
  rw [h.split, listing, append_assoc, listSlots_append] at hold
  cases hpre : listSlots ⟨[], []⟩ pre with
  | error e =>
    rw [hpre] at hold
    cases hold
  | ok r =>
    cases r with
    | inr results =>
      obtain ⟨p, hp, h0⟩ := listSlots_ended hpre
      exact absurd h0 (h.pre_ne_end htidy.ended p hp)
    | inl acc =>
      refine ⟨acc.results, ?_⟩
      rw [← htidy.names pre (run ++ post) (by rw [h.split, append_assoc]) (fun p hp => ?_) acc hpre]
      refine h.free p ?_
      cases run with
      | nil => exact absurd h.length (by simp; omega)
      | cons q run =>
        cases hp
        exact mem_cons_self

theorem listSlots_free (hfree : ∀ p ∈ run, p.slot.isFree = true)
    (hended : (run ++ post).Pairwise fun p q => p.slot 0 = 0x00 → q.slot 0 = 0x00)
    {a : List FATEntryInfo} (hold : (listSlots ⟨a, []⟩ (run ++ post) >>= fun r =>
      .ok (found r)) = .ok old) :
    ∃ b, old = a ++ b ∧ ∀ a', (listSlots ⟨a', []⟩ post >>= fun r => .ok (found r)) = .ok (a' ++ b) := by
  induction run with
  | nil =>
    obtain ⟨r, hr, hfound⟩ := bind_eq_ok.1 hold
    rw [nil_append, ← append_nil a, listSlots_results] at hr
    obtain ⟨r0, hr0, hr⟩ := bind_eq_ok.1 hr
    cases hr
    cases hfound
    refine ⟨found r0, found_addResults .., fun a' => ?_⟩
    rw [← append_nil a', listSlots_results, hr0]
    show Except.ok (found (addResults a' r0)) = _
    rw [found_addResults, append_nil]
  | cons p run ih =>
    obtain ⟨hbehind, hrest⟩ := pairwise_cons.1 hended
    rw [cons_append] at hold
    rcases isFree_iff.1 (hfree p mem_cons_self) with h0 | hE5
    · rw [listSlots_cons, listSlot, if_pos h0] at hold
      cases hold
      refine ⟨[], by simp [found], fun a' => ?_⟩
      obtain ⟨r, hr, hfound⟩ := listSlots_end (fun q hq => hbehind q (mem_append_right _ hq) h0) ⟨a', []⟩
      rw [hr, append_nil, ← show found r = a' from hfound]
      rfl
    · rw [listSlots_unused (by rw [hE5]; decide) (.inl hE5)] at hold
      exact ih (forall_mem_cons.1 hfree).2 hrest hold

theorem FirstRun.listing_insert (h : FirstRun k slots pre run post) (hk : 0 < k)
    (htidy : Tidy slots) (hold : listing slots = .ok old)
    (hnew : ∀ results, listSlots ⟨results, []⟩ run' = .ok (.inl ⟨results ++ [info], []⟩)) :
    ∃ a b, old = a ++ b ∧ listing (pre ++ run' ++ post) = .ok (a ++ info :: b) := by
  obtain ⟨a, ha⟩ := h.listSlots_pre hk htidy hold
  have hended := htidy.ended
  rw [h.split, append_assoc] at hended
  rw [h.split, listing, append_assoc, listSlots_append, ha] at hold
  obtain ⟨b, rfl, hb⟩ := listSlots_free h.free (pairwise_append.1 hended).2.1 hold
  refine ⟨a, b, rfl, ?_⟩
  rw [listing, append_assoc, listSlots_append, ha]
  show (listSlots ⟨a, []⟩ (run' ++ post) >>= fun r => .ok (found r)) = _
  rw [listSlots_append, hnew]
  show (listSlots ⟨a ++ [info], []⟩ post >>= fun r => .ok (found r)) = _
  rw [hb, append_assoc]
  rfl

theorem FirstRun.listing_error (h : FirstRun k slots pre run post) (hk : 0 < k) (htidy : Tidy slots)
    (hold : listing slots = .ok old) (hnew : ∀ results, listSlots ⟨results, []⟩ run' = .error e) : listing
    (pre ++ run' ++ post) = .error e := by
  obtain ⟨a, ha⟩ := h.listSlots_pre hk htidy hold
  rw [listing, append_assoc, listSlots_append, ha]
  show (listSlots ⟨a, []⟩ (run' ++ post) >>= fun r => .ok (found r)) = _
  rw [listSlots_append, hnew]
  rfl

end

/-- `Created g s s' c root slots name entry`: in the volume `s'` the directory with the slots `slots`
of `s` has the new entry. -/
structure Created (g : Geometry) (s s' : Fat) (c : Nat) (root : Bool) (slots : List DirSlot)
    (name : List UInt8) (entry : Slot) : Prop where
  /-- The slots of the directory after the call, with the run of new ones among them. -/
  run : ∃ pre run post lfns, Directory g s' c root (pre ++ run ++ post) ∧
    run.map DirSlot.slot = lfns ++ [entry] ∧ lfns.length = requiredLFNEntries name.length ∧
    NameSlots name (checksum entry.fileName) (requiredLFNEntries name.length) lfns ∧
    -- the run stands in free slots of the directory, or in clusters that were free
    (∀ p ∈ run, (∃ q ∈ slots, q.SamePlace p ∧ q.slot.isFree = true) ∨
      g.fixedRoot root = false ∧ g.table s p.cluster = 0) ∧
    -- the directory has only grown by clusters that were free
    (∀ p ∈ pre ++ run ++ post, (∃ q ∈ slots, q.sector = p.sector) ∨
      g.fixedRoot root = false ∧ g.table s p.cluster = 0) ∧
    -- the other slots of the directory, and the sectors outside it and the table
    (∀ q ∈ slots, (∀ p ∈ run, ¬q.SamePlace p) → q ∈ pre ++ run ++ post) ∧
    ∀ lba, ¬g.InTable lba → (∀ p ∈ pre ++ run ++ post, lba ≠ g.lba p.sector) → s'.disk lba = s.disk lba
  /-- The listing has one entry more. -/
  listed : ∃ a b info, getDirectoryEntries g c root s = .ok (a ++ b, s) ∧ getDirectoryEntries g c
    root s' = .ok (a ++ info :: b, s') ∧ info.filename = name ∧ info.entry = entry

/-- `FAT::CreateEntry` does not write outside its buffer, and an entry that it returns is in the
directory as it should be. -/
def CreateEntryOk (g : Geometry) (s : Fat) (c : Nat) (root : Bool) (slots : List DirSlot)
    (name : List UInt8) (attr : UInt8) (target : Nat) : Prop :=
  ∃ r s', createEntry g c name attr root target s = .ok (r, s') ∧
    ∀ entry, r = some entry → Created g s s' c root slots name entry

variable {g : Geometry} {s s₁ : Fat} {c target : Nat} {root : Bool} {name : List UInt8} {attr : UInt8}
  {l l₁ : List Nat} {slots pre run post : List DirSlot} {old : List FATEntryInfo}

theorem map_slot_set (hlen : es.length = run.length) :
    (zipWith DirSlot.set run es).map DirSlot.slot = es := by
  induction run generalizing es with
  | nil =>
    rw [length_eq_zero_iff.1 hlen]
    rfl
  | cons p run ih =>
    cases es with
    | nil => cases hlen
    | cons e es =>
      rw [zipWith_cons_cons, map_cons, ih (by simpa using hlen)]
      rfl

theorem mem_zipWith_set (hp : p ∈ zipWith DirSlot.set run es) : ∃ q ∈ run, ∃ e ∈ es, p = q.set e := by
  induction run generalizing es with
  | nil => cases hp
  | cons q run ih =>
    cases es with
    | nil => cases hp
    | cons e es =>
      rcases mem_cons.1 hp with rfl | hp
      · exact ⟨q, mem_cons_self, e, mem_cons_self, rfl⟩
      · obtain ⟨q', hq', e', he', h⟩ := ih hp
        exact ⟨q', mem_cons_of_mem _ hq', e', mem_cons_of_mem _ he', h⟩

theorem zipWith_set_place (hlen : es.length = run.length)
    (hq : q ∈ run) : ∃ p ∈ zipWith DirSlot.set run es, q.SamePlace p := by
  induction run generalizing es with
  | nil => cases hq
  | cons q' run ih =>
    cases es with
    | nil => cases hlen
    | cons e es =>
      rcases mem_cons.1 hq with rfl | hq
      · exact ⟨q.set e, mem_cons_self, rfl, rfl⟩
      · obtain ⟨p, hp, h⟩ := ih (by simpa using hlen) hq
        exact ⟨p, mem_cons_of_mem _ hp, h⟩

theorem newSlots_named (hname : IsFileName name) (hattr : attr ≠ 0x08 ∧ attr ≠ 0x0F)
    (rtc : RealTimeClock) (target : Nat)
    (hlen : run.length = requiredLFNEntries name.length + 1) :
    ∃ lfns p, zipWith DirSlot.set run (newSlots rtc name attr target) = lfns ++ [p] ∧
      Named name lfns p ∧ p.slot = newEntry rtc name attr target := by
  obtain ⟨front, q, rfl⟩ := (eq_nil_or_concat' run).resolve_left (by rintro rfl; simp at hlen)
  simp only [length_append, length_singleton, add_right_cancel_iff] at hlen
  have heslen := createLFNEntriesFromName_length name (requiredLFNEntries name.length)
    (checksum (createShortFilename name))
  refine ⟨zipWith DirSlot.set front (createLFNEntriesFromName name
    (requiredLFNEntries name.length) (checksum (createShortFilename name))),
    q.set (newEntry rtc name attr target), ?_, ?_, rfl⟩
  · rw [newSlots, zipWith_append (by rw [heslen, hlen])]
    rfl
  · refine ⟨hname, ?_, ?_, newEntry_isShortEntry hname hattr⟩
    · rw [map_slot_set (by rw [heslen, hlen]), show (q.set (newEntry rtc name attr target)).slot =
        newEntry rtc name attr target from rfl, newEntry_fileName]
      exact createLFNEntriesFromName_nameSlots ..
    · rw [length_zipWith, heslen, hlen, min_self]

/-- The first run of `k` free slots in a directory that may have grown from `s` to `s₁` by the
slots `cleared`. `view` reads the slots of the directory from a volume. -/
structure RunIn (g : Geometry) (root : Bool) (s s₁ : Fat) (view : Fat → List DirSlot) (k : Nat)
    (slots cleared pre run post : List DirSlot) : Prop where
  follows : Follows g view
  grown : view s₁ = slots ++ cleared
  cleared : ∀ p ∈ cleared, (p.slot = fun _ => 0) ∧ g.fixedRoot root = false ∧ g.table s p.cluster = 0
  places : SlotsAt g s₁ (view s₁)
  first : FirstRun k (view s₁) pre run post
  disk : ∀ lba, ¬g.InTable lba → (∀ p ∈ view s₁, lba ≠ g.lba p.sector) → s₁.disk lba = s.disk lba

variable {view : Fat → List DirSlot} {cleared : List DirSlot}

section
variable (h : RunIn g root s s₁ view k slots cleared pre run post)
include h

theorem RunIn.view_eq (hg : g.WellFormed)
    (hes : es.length = k) : view (s₁.putSlots g (run.zip es)) =
      pre ++ zipWith DirSlot.set run es ++ post := by
  have hat := h.places
  rw [h.first.split] at hat
  exact (SlotsAt.putSlots hg h.follows (hes.trans h.first.length.symm) h.first.split hat).1

theorem RunIn.mem_slots
    (hq : q ∈ pre ++ run ++ post) : q ∈ slots ∨ g.fixedRoot root = false ∧ g.table s q.cluster = 0 := by
  rw [← h.first.split, h.grown] at hq
  exact (mem_append.1 hq).imp id fun hq => (h.cleared q hq).2

theorem RunIn.mem_of_ne (hes : es.length = k) (hq : q ∈ slots)
    (hne : ∀ p ∈ zipWith DirSlot.set run es, ¬q.SamePlace p) : q ∈ pre ++ zipWith
    DirSlot.set run es ++ post := by
  have hq' : q ∈ pre ++ run ++ post := by
    rw [← h.first.split, h.grown]
    exact mem_append_left _ hq
  have hnot : q ∉ run := by
    intro hqr
    obtain ⟨p, hp, hsame⟩ := zipWith_set_place (hes.trans h.first.length.symm) hqr
    exact hne p hp hsame
  simp only [mem_append, hnot, or_false] at hq' ⊢
  exact hq'.imp .inl id

theorem RunIn.disk_eq (hes : es.length = k) (ht : ¬g.InTable lba)
    (hlba : ∀ p ∈ pre ++ zipWith DirSlot.set run es ++ post, lba ≠ g.lba p.sector) :
    (s₁.putSlots g (run.zip es)).disk lba = s.disk lba := by
  have hsector : ∀ q ∈ run, lba ≠ g.lba q.sector := by
    intro q hq
    obtain ⟨p, hp, hsame⟩ := zipWith_set_place (hes.trans h.first.length.symm) hq
    rw [hsame.1]
    exact hlba p (by simp [hp])
  rw [putSlots_disk_ne fun x hx => hsector x.1 (of_mem_zip hx).1]
  refine h.disk lba ht fun q hq => ?_
  rw [h.first.split] at hq
  by_cases hqr : q ∈ run
  · exact hsector q hqr
  · simp only [mem_append, hqr, or_false] at hq
    refine hlba q ?_
    simp only [mem_append]
    exact hq.imp .inl id

end

section
variable (h : RunIn g root s s₁ view (requiredLFNEntries name.length + 1) slots cleared pre run post)
include h

theorem RunIn.listing_new
    (hname : IsFileName name) (hattr : attr ≠ 0x08 ∧ attr ≠ 0x0F) (htidy : Tidy slots)
    (hold : listing slots = .ok old) (rtc : RealTimeClock) (target : Nat) :
    (name.length ≤ 65 → ∃ a b info, old = a ++ b ∧ listing (pre ++ zipWith DirSlot.set run
      (newSlots rtc name attr target) ++ post) = .ok (a ++ info :: b) ∧ info.filename = name ∧
      info.entry = newEntry rtc name attr target) ∧
    (65 < name.length → listing (pre ++ zipWith DirSlot.set run
      (newSlots rtc name attr target) ++ post) = .error .memory) := by
  have hzero : ∀ p ∈ cleared, p.slot 0 = 0x00 := fun p hp => by rw [(h.cleared p hp).1]
  have htidy1 : Tidy (view s₁) := by
    rw [h.grown]
    exact htidy.append hzero
  have hold1 : listing (view s₁) = .ok old := by rw [h.grown, listing_append_end hzero, hold]
  obtain ⟨lfns, p, hsplit, hnamed, hslot⟩ := newSlots_named hname hattr rtc target h.first.length
  have h5 : p.slot 0 ≠ 0x05 := by
    rw [hslot]
    exact (newEntry_first hname).2.2.2
  rw [hsplit]
  refine ⟨fun hlen => ?_, fun hlong => ?_⟩
  · obtain ⟨a, b, rfl, hab⟩ := h.first.listing_insert (succ_pos _) htidy1 hold1
      (hnamed.listSlots_short h5 hlen)
    exact ⟨a, b, _, rfl, hab, rfl, hslot⟩
  · exact h.first.listing_error (succ_pos _) htidy1 hold1 (hnamed.listSlots_long h5 hlong)

theorem RunIn.created
    (hs : s.Works) (hs1 : s₁.Works) (hname : IsFileName name)
    (hattr : attr ≠ 0x08 ∧ attr ≠ 0x0F) (htidy : Tidy slots) (hold : listing slots = .ok old)
    {rtc : RealTimeClock} (hlen : name.length ≤ 65) (hdir : Directory g s c root slots)
    (hdir' : Directory g (s₁.putSlots g (run.zip (newSlots rtc name attr target))) c root
      (pre ++ zipWith DirSlot.set run (newSlots rtc name attr target) ++ post)) :
    Created g s (s₁.putSlots g (run.zip (newSlots rtc name attr target))) c root slots name
      (newEntry rtc name attr target) := by
  have hes := newSlots_length name rtc attr target
  have hworks : (s₁.putSlots g (run.zip (newSlots rtc name attr target))).Works :=
    (putSlots_fields s₁ _).2.1.trans hs1
  constructor
  · refine ⟨pre, _, post, createLFNEntriesFromName name (requiredLFNEntries name.length)
      (checksum (createShortFilename name)), hdir',
      map_slot_set (hes.trans h.first.length.symm), createLFNEntriesFromName_length .., ?_,
      fun p hp => ?_, fun p hp => ?_, fun q hq hne => h.mem_of_ne hes hq hne,
      fun lba ht hlba => h.disk_eq hes ht hlba⟩
    · rw [newEntry_fileName]
      exact createLFNEntriesFromName_nameSlots ..
    · obtain ⟨q, hq, e, -, rfl⟩ := mem_zipWith_set hp
      refine (h.mem_slots (mem_append_left _ (mem_append_right _ hq))).imp (fun hqs => ?_) id
      exact ⟨q, hqs, ⟨rfl, rfl⟩, h.first.free q hq⟩
    · have hold' : ∀ q ∈ pre ++ run ++ post, (∃ q' ∈ slots, q'.sector = q.sector) ∨
          g.fixedRoot root = false ∧ g.table s q.cluster = 0 := fun q hq =>
        (h.mem_slots hq).imp (fun hqs => ⟨q, hqs, rfl⟩) id
      rcases mem_append.1 hp with hp | hp
      · rcases mem_append.1 hp with hp | hp
        · exact hold' p (by simp [hp])
        · obtain ⟨q, hq, e, -, rfl⟩ := mem_zipWith_set hp
          exact hold' q (by simp [hq])
      · exact hold' p (by simp [hp])
  · obtain ⟨a, b, info, rfl, hab, hinfo⟩ :=
      (h.listing_new hname hattr htidy hold rtc target).1 hlen
    refine ⟨a, b, info, ?_, ?_, hinfo⟩
    · rw [getDirectoryEntries_eq hs hdir, hold, liftExec_ok]
    · rw [getDirectoryEntries_eq hworks hdir', hab, liftExec_ok]

end

section
variable (hg : g.WellFormed)
include hg

theorem exists_chainSlots (hd : d ∈ l) (hdc : g.IsCluster d) (hi : i < g.sectorsPerCluster) : ∃ p ∈
    chainSlots g s l, p.cluster = d ∧ p.sector = g.clusterToSector d + i := by
  refine ⟨_, mem_flatMap.2 ⟨d, hd, mem_flatMap.2 ⟨i, mem_range.2 hi,
    mem_map.2 ⟨0, mem_range.2 (slotsPerSector_eq hg).1, rfl⟩⟩⟩, rfl, ?_⟩
  exact u32_clusterSector hg hdc hi

theorem Grown.runIn (h : Grown g k s l s₁ l₁)
    (hroot : g.fixedRoot root = false) (hs : s.Works) (hl : Chain g s c l)
    (hread : ∀ d ∈ l, g.Readable d) (hrun : FirstRun k (chainSlots g s₁ l₁) pre run post) :
    ∃ cleared, RunIn g root s s₁ (fun s => chainSlots g s l₁) k (chainSlots g s l) cleared pre run post := by
  obtain ⟨-, hl₁, hread₁⟩ := h.chain hg hs hl hread
  obtain ⟨cleared, hslots, hclear⟩ := h.slots hg hl hread
  obtain ⟨new, rfl, hnew, -, hdisk, -⟩ := h.effect hg hl hread
  refine ⟨cleared, chainSlots_follows hg hl₁.mem_isCluster, hslots, fun p hp =>
    ⟨(hclear p hp).1, hroot, (hclear p hp).2.2⟩,
    chainSlots_slotsAt hg hl₁.mem_isCluster (hl₁.nodup hg), hrun, fun lba ht hlba => ?_⟩
  refine hdisk lba ht fun d hd => ?_
  rintro ⟨i, hi, rfl⟩
  obtain ⟨p, hp, -, hsector⟩ := exists_chainSlots hg (mem_append_right l hd) (hnew d hd).1.isCluster hi
  exact hlba p hp (by rw [hsector])

theorem Chain.directory_of_readable (hs : s.Works) (hroot : g.fixedRoot root = false) (hl : Chain g s c l)
    (hread : ∀ d ∈ l, g.Readable d) : Directory g s c root (chainSlots g s l) :=
  .chain hroot (hl.walk hg hs hread) (hl.length_lt_walkFuel hg)

theorem Chain.putSlots (hl : Chain g s c l) (hsplit : chainSlots g s l = pre ++ run ++ post)
    (es : List Slot) : Chain g (s.putSlots g (run.zip es)) c l := by
  refine hl.congr fun d hd => table_putSlots hg (fun x hx => ?_) (hl.mem_isCluster d hd).2
  refine (chainSlots_slotsAt (s := s) hg hl.mem_isCluster (hl.nodup hg)).sector x.1 ?_
  rw [hsplit]
  exact mem_append_left _ (mem_append_right _ (of_mem_zip hx).1)

theorem createEntryOk_chain (hs : s.Works) (hname : IsFileName name) (hattr : attr ≠ 0x08 ∧ attr ≠ 0x0F)
    (hroot : g.fixedRoot root = false) (hl : Chain g s c l) (hread : ∀ d ∈ l, g.Readable d)
    (htidy : Tidy (chainSlots g s l)) (hold : listing (chainSlots g s l) = .ok old)
    (hgrown : Grown g (requiredLFNEntries name.length + 1) s l s₁ l₁)
    (hrun : FirstRun (requiredLFNEntries name.length + 1) (chainSlots g s₁ l₁) pre run post) : CreateEntryOk
    g s c root (chainSlots g s l) name attr target ↔ name.length ≤ 65 ∧ Fits g name run := by
  obtain ⟨hs1, hl₁, hread₁⟩ := hgrown.chain hg hs hl hread
  obtain ⟨cleared, hin⟩ := hgrown.runIn hg hroot hs hl hread hrun
  by_cases hfit : Fits g name run
  · have hcreate := createEntry_chain hg hs hroot hl hread ⟨hname.1, hname.2.1⟩ hgrown attr target hrun hfit
    have hview := hin.view_eq hg (newSlots_length name s.rtc attr target)
    have hworks : (s₁.putSlots g (run.zip (newSlots s.rtc name attr target))).Works :=
      (putSlots_fields s₁ _).2.1.trans hs1
    have hdir' := (hl₁.putSlots hg hrun.split (newSlots s.rtc name attr target)
      ).directory_of_readable hg hworks hroot hread₁
    rw [hview] at hdir'
    refine ⟨fun ⟨r, s', hr, hcreated⟩ => ⟨?_, hfit⟩, fun ⟨hlen, _⟩ => ⟨_, _, hcreate, ?_⟩⟩
    · rw [hcreate] at hr
      cases hr
      by_contra hlong
      obtain ⟨a, b, info, -, hlist, -⟩ := (hcreated _ rfl).listed
      rw [getDirectoryEntries_eq hworks hdir', (hin.listing_new hname hattr htidy hold s.rtc
        target).2 (Nat.lt_of_not_le hlong)] at hlist
      cases hlist
    · rintro entry ⟨⟩
      exact hin.created hs hs1 hname hattr htidy hold hlen (hl.directory_of_readable hg hs hroot hread) hdir'
  · refine ⟨fun ⟨r, s', hr, _⟩ => ?_, fun h => absurd h.2 hfit⟩
    rw [createEntry_overrun hg hs hroot hl hread ⟨hname.1, hname.2.1⟩ hgrown hrun hfit] at hr
    cases hr

/-- The first run of free slots in a root directory at a fixed place begins in its first sector, and
the directory still ends behind it, within the sectors that are searched. -/
structure RootRun (g : Geometry) (s : Fat) (c : Nat) (name : List UInt8) (n : Nat)
    (pre run post : List DirSlot) : Prop where
  cluster : c ≠ 0 ∧ c < g.clusterEnd
  windows : RootWindows g n
  search : n ≤ 224 * 32 / g.bytesPerSector
  size : g.rootStart + 512 < 2 ^ 32
  isFirst : FirstRun (requiredLFNEntries name.length + 1) (rootSlots g s c n) pre run post
  first : ∀ p ∈ run.head?, p.sector = g.rootStart
  ended : ∃ p ∈ post, p.slot 0 = 0x00

theorem RootRun.directory (hroot : g.fixedRoot root = true) (h : RootRun g s c name n pre run post)
    (hend : ∃ p ∈ rootSlots g s₁ c n, p.slot 0 = 0x00) : Directory g s₁ c root (rootSlots g s₁ c n) := by
  have hn : n ≤ 14 :=
    calc n ≤ 224 * 32 / g.bytesPerSector := h.search
      _ ≤ 224 * 32 / 512 := div_le_div_left hg.bytes_bounds.1 (by decide)
      _ = 14 := by decide
  have hsize := h.size
  exact .fixed hroot h.cluster (by unfold walkFuel; omega) (by omega) hend

theorem createEntryOk_fixed (hs : s.Works) (hname : IsFileName name)
    (hattr : attr ≠ 0x08 ∧ attr ≠ 0x0F) (hroot : g.fixedRoot root = true)
    (htidy : Tidy (rootSlots g s c n)) (hold : listing (rootSlots g s c n) = .ok old)
    (h : RootRun g s c name n pre run post) (hlen : name.length ≤ 65) (hfit : Fits g name run) :
    CreateEntryOk g s c root (rootSlots g s c n) name attr target := by
  have hin : RunIn g root s s (fun s => rootSlots g s c n) (requiredLFNEntries name.length + 1)
      (rootSlots g s c n) [] pre run post :=
    ⟨rootSlots_follows hg h.windows, (append_nil _).symm, fun p hp => (nomatch hp),
      rootSlots_slotsAt hg h.windows, h.isFirst, fun _ _ _ => rfl⟩
  have hcreate := createEntry_fixed attr target hg hs hroot h.cluster h.search h.windows.single
    h.size ⟨hname.1, hname.2.1⟩ h.isFirst h.first hfit
  have hview := hin.view_eq hg (newSlots_length name s.rtc attr target)
  obtain ⟨p, hp, h0⟩ := h.ended
  have hend : ∃ p ∈ rootSlots g (s.putSlots g (run.zip (newSlots s.rtc name attr target))) c n,
      p.slot 0 = 0x00 := ⟨p, by rw [hview]; exact mem_append_right _ hp, h0⟩
  have hdir' := h.directory hg hroot hend
  rw [hview] at hdir'
  refine ⟨_, _, hcreate, ?_⟩
  rintro entry ⟨⟩
  refine hin.created hs hs hname hattr htidy hold hlen (h.directory hg hroot ⟨p, ?_, h0⟩) hdir'
  rw [h.isFirst.split]
  exact mem_append_right _ hp

end

/-- The slot of the name of a volume. -/
def labelSlot : Slot := fun k => if k.val = 11 then 0x08 else 0x20

theorem listSlots_labels (h : ∀ p ∈ slots, p.slot = labelSlot) (acc : Listing) :
    listSlots acc slots = .ok (.inl acc) := by
  induction slots with
  | nil => rfl
  | cons p slots ih =>
    obtain ⟨hp, h⟩ := forall_mem_cons.1 h
    rw [listSlots_unused (by rw [hp]; decide) (by rw [hp]; decide), ih h]

theorem tidy_labels (h : ∀ p ∈ slots, p.slot = labelSlot) : Tidy slots := by
  refine ⟨pairwise_of_forall_mem_list fun p hp q _ h0 => ?_, fun pre post hsplit _ acc hacc => ?_⟩
  · rw [h p hp] at h0
    exact absurd h0 (by decide)
  · rw [listSlots_labels fun p hp => h p (hsplit ▸ mem_append_left _ hp)] at hacc
    cases hacc
    rfl

theorem tidy_nil : Tidy [] := tidy_labels nofun

theorem smallVolume_nil_slots (hp : p ∈ chainSlots smallFat32 (smallVolume []) [2]) :
    p.slot = fun _ => 0 := by
  rw [smallVolume_slots] at hp
  obtain ⟨k, -, rfl⟩ := mem_map.1 hp
  rfl

/-- A root directory with one free slot. -/
def crowdedRoot : Fat := smallVolume (List.replicate 15 labelSlot)

/-- The call writes outside a buffer. -/
def isMemoryFault {α : Type} : Exec α → Bool
  | .error .memory => true
  | _ => false

end HeisenKernel
