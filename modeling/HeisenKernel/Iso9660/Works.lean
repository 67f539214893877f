import HeisenKernel.Iso9660.Directory
import Mathlib.Data.List.TakeWhile

/-!
# When the walks over an ISO 9660 directory work

The walks of `SearchInDirectory` and `DirectoryList` are right on an extent if and only if it `Fits`
(`directory_works_iff`).
-/

namespace HeisenKernel.Iso9660

open Lib List RecordPtr Bool

variable {fs : Iso9660} {ended : Nat → Bool} {ss : List Sector}

theorem listVisit_entry (he : r.isEntry = true) (h : getRecordName fuel r = .ok (some n)) :
    listVisit fuel acc r = .ok (.inl (acc ++ [vfsEntry r n])) := by
  rw [listVisit, if_pos (by simpa [isEntry] using he), bind_of_ok h]

theorem listVisit_dot (he : r.isEntry = false) : listVisit fuel acc r = .ok (.inl acc) := by
  rw [listVisit, if_neg (by simpa [isEntry] using he)]

theorem listVisit_returns {vs : List RecordPtr}
    (hnamed : ∀ r ∈ vs, r.isEntry = true → ∃ n, Named r n) :
    ∃ least, ∀ fuel ≥ least, ∀ acc, ∃ es,
      forReturn (listVisit fuel) acc vs = .ok (.inl (acc ++ es)) ∧
        List.Forall₂ Reports (vs.filter isEntry) es := by
  induction vs with
  | nil => exact ⟨0, fun fuel _ acc => ⟨[], by rw [append_nil]; rfl, .nil⟩⟩
  | cons r vs ih =>
    obtain ⟨least, ih⟩ := ih (forall_mem_cons.1 hnamed).2
    cases he : r.isEntry with
    | true =>
      obtain ⟨n, hn⟩ := hnamed r mem_cons_self he
      obtain ⟨least', hname⟩ := hn.returns he
      refine ⟨max least least', fun fuel hfuel acc => ?_⟩
      obtain ⟨es, hes, hreports⟩ := ih fuel (by omega) (acc ++ [vfsEntry r n])
      refine ⟨vfsEntry r n :: es, ?_, ?_⟩
      · rw [forReturn_cons, bind_of_ok (listVisit_entry he (hname fuel (by omega))), orElse, hes,
          append_assoc]
        rfl
      · rw [filter_cons_of_pos he]
        exact .cons ⟨n, hn, rfl⟩ hreports
    | false =>
      refine ⟨least, fun fuel hfuel acc => ?_⟩
      obtain ⟨es, hes, hreports⟩ := ih fuel hfuel acc
      refine ⟨es, ?_, ?_⟩
      · rw [forReturn_cons, bind_of_ok (listVisit_dot he), orElse, hes]
      · rwa [filter_cons_of_neg (by simp [he])]

theorem searchVisit_returns {vs : List RecordPtr}
    (hnamed : ∀ r ∈ vs, r.isEntry = true → ∃ n, Named r n)
    (hsize : ∀ r ∈ vs, r.nameLength < directoryRecordNameSize) :
    ∃ least, ∀ fuel ≥ least, ∀ name, ∃ res,
      forReturn (searchVisit fuel name) () vs = .ok res ∧
        (res.isRight = true ↔ ∃ r ∈ vs, HasName r name) := by
  induction vs with
  | nil => exact ⟨0, fun fuel _ name => ⟨.inl (), rfl, by simp⟩⟩
  | cons r vs ih =>
    obtain ⟨least, ih⟩ := ih (forall_mem_cons.1 hnamed).2
      (forall_mem_cons.1 hsize).2
    -- a record without the name is passed over
    have hpass : ∀ fuel ≥ least, ∀ name, ¬ HasName r name →
        searchVisit fuel name () r = .ok (.inl ()) → ∃ res,
          forReturn (searchVisit fuel name) () (r :: vs) = .ok res ∧
            (res.isRight = true ↔ ∃ x ∈ r :: vs, HasName x name) := by
      intro fuel hfuel name hnot hv
      obtain ⟨res, hres, hiff⟩ := ih fuel hfuel name
      refine ⟨res, ?_, ?_⟩
      · rw [forReturn_cons, bind_of_ok hv, orElse, hres]
      · rw [hiff, exists_mem_cons_iff]
        exact ⟨.inr, fun h => h.resolve_left hnot⟩
    cases he : r.isEntry with
    | true =>
      obtain ⟨n, hn⟩ := hnamed r mem_cons_self he
      obtain ⟨least', hname⟩ := hn.returns he
      refine ⟨max least least', fun fuel hfuel name => ?_⟩
      have hr := hname fuel (by omega)
      by_cases heq : CString.ofBuffer n = name
      · refine ⟨.inr { r.copy with name := r.copy.name.set r.nameLength 0 }, ?_, ?_⟩
        · rw [forReturn_cons, searchVisit, bind_of_ok hr]
          dsimp only
          rw [if_pos heq, if_pos (hsize r mem_cons_self)]
          rfl
        · exact ⟨fun _ => ⟨r, mem_cons_self, he, n, hn, heq⟩, fun _ => rfl⟩
      · refine hpass fuel (by omega) name ?_ ?_
        · rintro ⟨-, m, hm, rfl⟩
          exact heq (hn.unique he hm ▸ rfl)
        · rw [searchVisit, bind_of_ok hr]
          dsimp only
          rw [if_neg heq]
    | false =>
      refine ⟨least, fun fuel hfuel name => hpass fuel hfuel name ?_ ?_⟩
      · rintro ⟨htrue, -⟩
        rw [he] at htrue
        cases htrue
      · rw [searchVisit, bind_of_ok (getRecordName_of_not_isEntry he)]

theorem recordsOf_cons (s : Sector) (ss : List Sector) : fs.recordsOf (s :: ss) =
    (s.offsets.map fun o : Nat => ⟨fs.buffered s.bytes, o⟩) ++ fs.recordsOf ss := rfl

theorem recordsOf_append (l r : List Sector) :
    fs.recordsOf (l ++ r) = fs.recordsOf l ++ fs.recordsOf r := flatMap_append

theorem visited_sublist (ss : List Sector) : (fs.visited ended ss).Sublist (fs.recordsOf ss) := by
  induction ss with
  | nil => exact .slnil
  | cons s ss ih =>
    refine ((takeWhile_sublist _).map _).append ?_
    split
    · exact ih
    · exact nil_sublist _

theorem visited_cons_of_not_ended (h : ∀ o ∈ s.offsets, ended o = false) :
    fs.visited ended (s :: ss) = fs.recordsOf [s] ++
      if ended s.stop = true then fs.visited ended ss else [] := by
  have htake : (s.offsets.takeWhile fun o => !ended o) = s.offsets :=
    takeWhile_eq_self_iff.2 fun o ho => by simp [h o ho]
  have hany : (s.offsets ++ [s.stop]).any ended = ended s.stop := by
    rw [any_append, any_eq_false.2 fun o ho => by simp [h o ho]]
    simp
  rw [visited, htake, hany, recordsOf_cons]
  simp [recordsOf]

theorem beyond_cons_of_not_ended (h : ∀ o ∈ s.offsets, ended o = false) :
    beyond ended (s :: ss) = if ended s.stop = true then beyond ended ss else false := by
  have hany : (s.offsets ++ [s.stop]).any ended = ended s.stop := by
    rw [any_append, any_eq_false.2 fun o ho => by simp [h o ho]]
    simp
  rw [beyond, hany]

theorem visited_eq (hstart : ∀ s ∈ ss, ∀ o ∈ s.offsets, ended o = false)
    (hcont : ∀ l s r, ss = l ++ s :: r → r ≠ [] → ended s.stop = true) :
    fs.visited ended ss = fs.recordsOf ss := by
  induction ss with
  | nil => rfl
  | cons s ss ih =>
    rw [visited_cons_of_not_ended (hstart s mem_cons_self), recordsOf_cons, recordsOf_cons]
    congr 1
    · simp [recordsOf]
    · by_cases hss : ss = []
      · subst hss
        simp [visited, recordsOf]
      · rw [if_pos (hcont [] s ss rfl hss)]
        exact ih (forall_mem_cons.1 hstart).2
          fun l t r hl => hcont (s :: l) t r (by rw [hl]; rfl)

theorem beyond_eq_false (hne : ss ≠ []) (hstart : ∀ s ∈ ss, ∀ o ∈ s.offsets, ended o = false)
    (hlast : ∀ l s, ss = l ++ [s] → ended s.stop = false) : beyond ended ss = false := by
  induction ss with
  | nil => exact absurd rfl hne
  | cons s ss ih =>
    rw [beyond_cons_of_not_ended (hstart s mem_cons_self)]
    by_cases hss : ss = []
    · subst hss
      rw [hlast [] s rfl]
      rfl
    · split
      · exact ih hss (forall_mem_cons.1 hstart).2
          fun l t hl => hlast (s :: l) t (by rw [hl]; rfl)
      · rfl

theorem ended_last_of_beyond (hstart : ∀ s ∈ ss, ∀ o ∈ s.offsets, ended o = false)
    (hcont : ∀ l s r, ss = l ++ s :: r → r ≠ [] → ended s.stop = true)
    (h : beyond ended ss = false) : ∀ l s, ss = l ++ [s] → ended s.stop = false := by
  rintro l s rfl
  induction l with
  | nil =>
    rw [nil_append, beyond_cons_of_not_ended (hstart s (by simp))] at h
    cases hs : ended s.stop with
    | false => rfl
    | true =>
      rw [hs] at h
      cases h
  | cons t l ih =>
    rw [cons_append, beyond_cons_of_not_ended (hstart t (by simp)),
      if_pos (hcont [] t (l ++ [s]) rfl (by simp))] at h
    exact ih (forall_mem_cons.1 hstart).2
      (fun l' u r hl => hcont (t :: l') u r (by rw [cons_append, hl]; rfl)) h

theorem not_ended_of_countP {os : List Nat}
    (hentry : ∀ o ∈ os, ended o = true → (f o).isEntry = true)
    (h : ((os.takeWhile fun o => !ended o).map f).countP isEntry =
      (os.map f).countP isEntry) : ∀ o ∈ os, ended o = false := by
  induction os with
  | nil => exact nofun
  | cons o os ih =>
    cases ho : ended o with
    | true =>
      rw [takeWhile_cons_of_neg (by simp [ho]), map_cons, countP_cons_of_pos (hentry o mem_cons_self ho)] at h
      cases h
    | false =>
      rw [takeWhile_cons_of_pos (by simp [ho]), map_cons, map_cons, countP_cons, countP_cons] at h
      have hos := ih (forall_mem_cons.1 hentry).2 (by omega)
      exact forall_mem_cons.2 ⟨ho, hos⟩

theorem not_ended_of_count
    (hentry : ∀ s ∈ ss, ∀ o ∈ s.offsets, ended o = true → isEntry ⟨fs.buffered s.bytes, (o : Int)⟩ = true)
    (htail : ∀ s ∈ ss.tail, ∃ o ∈ s.offsets, isEntry ⟨fs.buffered s.bytes, (o : Int)⟩ = true)
    (hcount : (fs.visited ended ss).countP isEntry = (fs.recordsOf ss).countP isEntry) :
    (∀ s ∈ ss, ∀ o ∈ s.offsets, ended o = false) ∧
      ∀ l s r, ss = l ++ s :: r → r ≠ [] → ended s.stop = true := by
  induction ss with
  | nil => exact ⟨nofun, fun l s r h => by simp at h⟩
  | cons s ss ih =>
    rw [visited, recordsOf_cons, countP_append, countP_append] at hcount
    have hle1 : ((s.offsets.takeWhile fun o => !ended o).map
        fun o : Nat => (⟨fs.buffered s.bytes, o⟩ : RecordPtr)).countP isEntry ≤
        (s.offsets.map fun o : Nat => (⟨fs.buffered s.bytes, o⟩ : RecordPtr)).countP
          isEntry := ((takeWhile_sublist _).map _).countP_le
    have hle2 : (fs.visited ended ss).countP isEntry ≤
        (fs.recordsOf ss).countP isEntry := (visited_sublist ss).countP_le
    -- an entry of the next sector has to be visited
    have hany : ss ≠ [] → (s.offsets ++ [s.stop]).any ended = true := by
      intro hss
      by_contra hnot
      rw [if_neg hnot, countP_nil] at hcount
      obtain ⟨t, ts, rfl⟩ := exists_cons_of_ne_nil hss
      obtain ⟨o, ho, he⟩ := htail t (by simp)
      have hpos : 0 < (fs.recordsOf (t :: ts)).countP isEntry := by
        refine countP_pos_iff.2 ⟨⟨fs.buffered t.bytes, o⟩, ?_, he⟩
        exact mem_append_left _ (mem_map_of_mem ho)
      omega
    have hvisited : (if (s.offsets ++ [s.stop]).any ended = true then fs.visited ended ss
        else []).countP isEntry = (fs.visited ended ss).countP isEntry := by
      by_cases hss : ss = []
      · subst hss
        simp [visited]
      · rw [if_pos (hany hss)]
    have hs := not_ended_of_countP (hentry s mem_cons_self) (show _ = _ by omega)
    obtain ⟨hstart, hcont⟩ := ih (forall_mem_cons.1 hentry).2
      (fun t ht => htail t (mem_of_mem_tail ht)) (by omega)
    refine ⟨forall_mem_cons.2 ⟨hs, hstart⟩, fun l t r hl hr => ?_⟩
    · cases l with
      | nil =>
        obtain ⟨rfl, rfl⟩ := cons.inj hl
        have := hany hr
        rw [any_append, any_eq_false.2 fun o ho => by simp [hs o ho]] at this
        simpa using this
      | cons u l =>
        obtain ⟨rfl, rfl⟩ := cons.inj hl
        exact hcont l t r rfl hr

theorem visited_cases (hstart : ∀ s ∈ ss, ∀ o ∈ s.offsets, ended o = false) :
    fs.visited ended ss = fs.recordsOf ss ∨ ∃ l s r, ss = l ++ s :: r ∧ ended s.stop = false ∧
      fs.visited ended ss = fs.recordsOf (l ++ [s]) := by
  induction ss with
  | nil => exact .inl rfl
  | cons s ss ih =>
    rw [visited_cons_of_not_ended (hstart s mem_cons_self)]
    cases hs : ended s.stop with
    | false => exact .inr ⟨[], s, ss, rfl, hs, by simp⟩
    | true =>
      rw [if_pos rfl]
      have hcons : ∀ l, fs.recordsOf [s] ++ fs.recordsOf l = fs.recordsOf (s :: l) := fun l =>
        (recordsOf_append [s] l).symm
      obtain hall | ⟨l, t, r, rfl, ht, hl⟩ := ih (forall_mem_cons.1 hstart).2
      · exact .inl (by rw [hall, hcons])
      · exact .inr ⟨s :: l, t, r, rfl, ht, by rw [hl, hcons]; rfl⟩

theorem visited_subset_of_stop (hstart : ∀ t ∈ l ++ s :: r, ∀ o ∈ t.offsets, ended o = false)
    (hs : ended s.stop = false) : ∀ x ∈ fs.visited ended (l ++ s :: r), x ∈ fs.recordsOf (l ++ [s]) := by
  induction l with
  | nil =>
    intro x hx
    rw [nil_append, visited_cons_of_not_ended (hstart s (by simp)), hs] at hx
    simpa using hx
  | cons t l ih =>
    intro x hx
    rw [cons_append, visited_cons_of_not_ended (hstart t (by simp)), mem_append] at hx
    rw [cons_append, ← singleton_append, recordsOf_append, mem_append]
    refine hx.imp id fun hx => ?_
    split at hx
    · exact ih (forall_mem_cons.1 hstart).2 x hx
    · cases hx

theorem names_visited_iff (hstart : ∀ s ∈ ss, ∀ o ∈ s.offsets, ended o = false) :
    (∀ name, (∃ x ∈ fs.recordsOf ss, HasName x name) → ∃ x ∈ fs.visited ended ss, HasName x name) ↔
      ∀ l s r, ss = l ++ s :: r → ended s.stop = false → ∀ name,
        (∃ x ∈ fs.recordsOf r, HasName x name) → ∃ x ∈ fs.recordsOf (l ++ [s]), HasName x name := by
  constructor
  · rintro h l s r rfl hs name ⟨x, hx, hn⟩
    obtain ⟨y, hy, hyn⟩ := h name ⟨x, by
      rw [recordsOf_append, recordsOf_cons]
      exact mem_append_right _ (mem_append_right _ hx), hn⟩
    exact ⟨y, visited_subset_of_stop hstart hs y hy, hyn⟩
  · rintro h name ⟨x, hx, hn⟩
    obtain hall | ⟨l, s, r, rfl, hs, hl⟩ := @visited_cases fs ended _ hstart
    · exact ⟨x, hall ▸ hx, hn⟩
    · rw [hl]
      rw [← singleton_append, ← append_assoc, recordsOf_append, mem_append] at hx
      rcases hx with hx | hx
      · exact ⟨x, hx, hn⟩
      · exact h l s r rfl hs name ⟨x, hx, hn⟩

theorem listEnded_iff : listEnded o = true ↔ 1794 ≤ o := by
  rw [listEnded, decide_eq_true_iff]
  simp only [directoryRecordSize, cdromSectorSize]
  omega

theorem searchEnded_iff (h : o ≤ cdromSectorSize) : searchEnded o = true ↔ 2016 ≤ o := by
  rw [searchEnded, sub32_eq (by decide) h, decide_eq_true_iff]
  simp only [directoryRecordSize, directoryRecordNameSize, cdromSectorSize] at h ⊢
  omega

variable {place : Place} {first : Sector}

/-- The offsets of the first sector that a walk comes to: in the root directory it starts behind the
first record. -/
def walkOffsets (place : Place) (first : Sector) : List Nat :=
  match place with
  | .root => first.offsets.tail
  | .found _ => first.offsets

theorem Extent.records (hx : fs.Extent place first rest) :
    Records first.bytes (fs.startOffset place) (walkOffsets place first) first.stop := by
  have hrec := (hx.wellFormed first mem_cons_self).records
  cases place with
  | found r => exact hrec
  | root =>
    obtain ⟨os, hos, -⟩ := hx.dots
    rw [walkOffsets, startOffset, hx.root rfl]
    rw [hos] at hrec ⊢
    cases hrec with
    | cons _ _ _ hrec =>
      rw [zero_add] at hrec
      exact hrec

theorem mem_of_mem_walkOffsets (h : o ∈ walkOffsets place first) : o ∈ first.offsets := by
  cases place with
  | found r => exact h
  | root => exact mem_of_mem_tail h

theorem Extent.mem_walkOffsets (hx : fs.Extent place first rest)
    (h : o ∈ first.offsets) : o = 0 ∨ o ∈ walkOffsets place first := by
  cases place with
  | found r => exact .inr h
  | root =>
    obtain ⟨os, hos, -⟩ := hx.dots
    rw [walkOffsets]
    rw [hos] at h ⊢
    exact mem_cons.1 h

/-- The first sector as a walk sees it. -/
def walkFirst (place : Place) (first : Sector) : Sector :=
  { first with offsets := walkOffsets place first }

theorem isEntry_eq (b : Buffer) (h : o + 33 < cdromSectorSize) :
    isEntry ⟨fs.buffered b, o⟩ = true ↔ b (o + 33) ≠ 0 ∧ b (o + 33) ≠ 1 := by
  rw [isEntry, recordName_eq b h]
  simp

theorem Sector.WellFormed.lt {s : Sector} (hs : s.WellFormed) {o : Nat} (ho : o ∈ s.offsets) :
    o + 33 < cdromSectorSize := by
  have := (hs.records.bounds o ho).1
  have := hs.stop_le
  omega

theorem mem_recordsOf :
    x ∈ fs.recordsOf ss ↔ ∃ s ∈ ss, ∃ o ∈ s.offsets, (⟨fs.buffered s.bytes, (o : Nat)⟩ : RecordPtr) = x := by
  simp [recordsOf]

section
variable (hx : fs.Extent place first rest)
include hx

theorem Extent.nameLength_lt {x : RecordPtr}
    (h : x ∈ fs.recordsOf (first :: rest)) : x.nameLength < directoryRecordNameSize := by
  obtain ⟨s, hs, o, ho, rfl⟩ := mem_recordsOf.1 h
  have hw := hx.wellFormed s hs
  obtain ⟨-, hlen, heven⟩ := hw.records.bounds o ho
  have hlt := (s.bytes o).toNat_lt
  rw [recordNameLength_eq s.bytes (by have := hw.lt ho; omega)]
  simp only [directoryRecordNameSize]
  omega

theorem Extent.isEntry_mem_iff {x : RecordPtr} (l : List Sector) (he : x.isEntry = true) : x ∈
    fs.recordsOf (walkFirst place first :: l) ↔ x ∈ fs.recordsOf (first :: l) := by
  rw [recordsOf_cons, recordsOf_cons, mem_append, mem_append]
  refine or_congr_left ?_
  rw [mem_map, mem_map]
  constructor
  · rintro ⟨o, ho, rfl⟩
    exact ⟨o, mem_of_mem_walkOffsets ho, rfl⟩
  · rintro ⟨o, ho, rfl⟩
    refine ⟨o, ?_, rfl⟩
    cases place with
    | found r => exact ho
    | root =>
      have hlt := (hx.wellFormed first mem_cons_self).lt ho
      obtain ⟨os, hos, hself, -⟩ := hx.dots
      rw [isEntry_eq first.bytes hlt] at he
      change o ∈ first.offsets.tail
      rw [hos] at ho ⊢
      refine (mem_cons.1 ho).resolve_left ?_
      rintro rfl
      exact he.1 hself

theorem Extent.filter_eq :
    (fs.recordsOf (walkFirst place first :: rest)).filter isEntry =
      (fs.recordsOf (first :: rest)).filter isEntry := by
  cases place with
  | found r => rfl
  | root =>
    obtain ⟨os, hos, hself, -⟩ := hx.dots
    have hnot : isEntry ⟨fs.buffered first.bytes, ((0 : Nat) : Int)⟩ = false := by
      rw [← not_eq_true, isEntry_eq first.bytes (by decide)]
      exact fun h => h.1 hself
    have hcons : fs.recordsOf (first :: rest) = ⟨fs.buffered first.bytes, ((0 : Nat) : Int)⟩ ::
        fs.recordsOf (walkFirst .root first :: rest) := by
      rw [recordsOf_cons, recordsOf_cons, walkFirst, walkOffsets, hos]
      rfl
    rw [hcons, filter_cons_of_neg (by rw [hnot]; decide)]

theorem Extent.within
    (h : ∀ x ∈ reads, (fs.record place).extentLocation ≤ x ∧
      x < (fs.record place).extentLocation + (rest.length + 1)) : fs.Within place reads := by
  rw [Within, hx.dataLength, Nat.mul_div_cancel _ (by decide)]
  exact h

theorem Extent.not_within
    (h : u32 ((fs.record place).extentLocation + (rest.length + 1)) ∈ reads) : ¬ fs.Within place reads := by
  intro hw
  have hx' := hw _ h
  have hlen := hx.dataLength_lt
  rw [hx.dataLength, Nat.mul_div_cancel _ (by decide)] at hx'
  rw [hx.dataLength] at hlen
  simp only [cdromSectorSize] at hlen
  simp only [u32] at hx'
  omega

theorem Extent.list_ends
    (hnamed : ∀ r ∈ fs.recordsOf (first :: rest), r.isEntry = true → ∃ n, Named r n) :
    ∃ least, ∀ fuel ≥ least, ∃ es, List.Forall₂ Reports
        ((fs.visited listEnded (walkFirst place first :: rest)).filter isEntry) es ∧
      WalkEnds fs listEnded (listVisit fuel) (fs.record place).extentLocation (rest.length + 1)
        (beyond listEnded (walkFirst place first :: rest)) (.inl es)
        (fs.walkFrom listEnded (listVisit fuel) (fs.record place).extentLocation
          (fs.startOffset place) fuel []) := by
  obtain ⟨least, hvisit⟩ := @listVisit_returns (fs.visited listEnded (walkFirst place first :: rest))
    fun r hr he => hnamed r ((hx.isEntry_mem_iff rest he).1 ((visited_sublist _).subset hr)) he
  refine ⟨max least ((walkOffsets place first).length + (fs.recordsOf rest).length + 1), fun fuel hfuel => ?_⟩
  obtain ⟨es, hes, hreports⟩ := hvisit fuel (by omega) []
  refine ⟨es, hreports, ?_⟩
  exact walkFrom_ends (by decide) (by decide) (hx.wellFormed first mem_cons_self)
    (forall_mem_cons.1 hx.wellFormed).2 hx.disk hx.range hx.records (by omega) hes

theorem Extent.search_ends
    (hnamed : ∀ r ∈ fs.recordsOf (first :: rest), r.isEntry = true → ∃ n, Named r n) :
    ∃ least, ∀ fuel ≥ least, ∀ name, ∃ res : Unit ⊕ DirectoryRecord, (res.isRight = true ↔
        ∃ r ∈ fs.visited searchEnded (walkFirst place first :: rest), HasName r name) ∧
      WalkEnds fs searchEnded (searchVisit fuel name) (fs.record place).extentLocation
        (rest.length + 1) (beyond searchEnded (walkFirst place first :: rest)) res
        (fs.walkFrom searchEnded (searchVisit fuel name) (fs.record place).extentLocation
          (fs.startOffset place) fuel ()) := by
  have hmem : ∀ r ∈ fs.recordsOf (walkFirst place first :: rest), r ∈ fs.recordsOf (first :: rest) := by
    intro r hr
    obtain ⟨s, hs, o, ho, rfl⟩ := mem_recordsOf.1 hr
    rcases mem_cons.1 hs with rfl | hs
    · exact mem_recordsOf.2 ⟨first, mem_cons_self, o, mem_of_mem_walkOffsets ho, rfl⟩
    · exact mem_recordsOf.2 ⟨s, mem_cons_of_mem first hs, o, ho, rfl⟩
  obtain ⟨least, hvisit⟩ := @searchVisit_returns (fs.visited searchEnded (walkFirst place first :: rest))
    (fun r hr he => hnamed r (hmem r ((visited_sublist _).subset hr)) he) fun r hr => hx.nameLength_lt
    (hmem r ((visited_sublist _).subset hr))
  refine ⟨max least ((walkOffsets place first).length + (fs.recordsOf rest).length + 1),
    fun fuel hfuel name => ?_⟩
  obtain ⟨res, hres, hiff⟩ := hvisit fuel (by omega) name
  refine ⟨res, hiff, ?_⟩
  exact walkFrom_ends (by decide) (by decide) (hx.wellFormed first mem_cons_self)
    (forall_mem_cons.1 hx.wellFormed).2 hx.disk hx.range hx.records (by omega) hres

theorem Extent.searchInDirectory_eq {name : List UInt8} {fuel : Nat}
    (h : WalkEnds fs searchEnded (searchVisit fuel name) (fs.record place).extentLocation
      (rest.length + 1) false res (fs.walkFrom searchEnded (searchVisit fuel name)
        (fs.record place).extentLocation (fs.startOffset place) fuel ())) :
    ∃ result reads, fs.searchInDirectory place name fuel = .ok (result, reads) ∧
      fs.Within place reads ∧ (result.isSome = true ↔ res.isRight = true) := by
  obtain ⟨reads, hreads, ⟨b, rfl, hw⟩ | ⟨s, rfl, -, hw⟩ | ⟨_, _, _, _, hfalse, _⟩⟩ := h
  · refine ⟨some b, reads, ?_, hx.within hreads, Iff.rfl⟩
    rw [searchInDirectory, bind_of_ok hw]
  · refine ⟨none, reads, ?_, hx.within hreads, Iff.rfl⟩
    rw [searchInDirectory, bind_of_ok hw]
  · cases hfalse

theorem Extent.listDirectory_eq
    (h : WalkEnds fs listEnded (listVisit fuel) (fs.record place).extentLocation (rest.length + 1)
      false (.inl es) (fs.walkFrom listEnded (listVisit fuel) (fs.record place).extentLocation
        (fs.startOffset place) fuel [])) :
    ∃ reads, fs.listDirectory place fuel = .ok (es, reads) ∧ fs.Within place reads := by
  obtain ⟨reads, hreads, ⟨b, hb, -⟩ | ⟨s, hs, -, hw⟩ | ⟨_, _, _, _, hfalse, _⟩⟩ := h
  · cases hb
  · cases hs
    refine ⟨reads, ?_, hx.within hreads⟩
    rw [listDirectory, bind_of_ok hw]
  · cases hfalse

theorem Extent.listDirectory_beyond {fuel : Nat}
    {es entries : List VFSEntry} {reads : List Nat}
    (h : WalkEnds fs listEnded (listVisit fuel) (fs.record place).extentLocation (rest.length + 1)
      true (.inl es) (fs.walkFrom listEnded (listVisit fuel) (fs.record place).extentLocation
        (fs.startOffset place) fuel []))
    (hl : fs.listDirectory place fuel = .ok (entries, reads)) : ¬ fs.Within place reads := by
  obtain ⟨-, -, ⟨b, hb, -⟩ | ⟨_, _, hfalse, _⟩ | ⟨s, fuel', c, -, -, hc, hlast, hw⟩⟩ := h
  · cases hb
  · cases hfalse
  · rw [listDirectory, bind_eq_ok] at hl
    obtain ⟨⟨x, reads'⟩, hx', hl⟩ := hl
    have hreads : reads' = reads := by
      cases x with
      | inl a =>
        cases hl
        rfl
      | inr a => exact a.elim
    rw [hw] at hx'
    have hmem := walk_beyond hc (by decide) hx'
    rw [hlast, hreads] at hmem
    exact hx.not_within hmem

end

theorem decompose_congr (hstop : a.stop = b.stop)
    (hmem : ∀ l x, x.isEntry = true → (x ∈ fs.recordsOf (a :: l) ↔ x ∈ fs.recordsOf (b :: l)))
    (h : a :: rest = l ++ s :: r) :
    ∃ l' s', b :: rest = l' ++ s' :: r ∧ s'.stop = s.stop ∧ ∀ x, x.isEntry = true →
      (x ∈ fs.recordsOf (l ++ [s]) ↔ x ∈ fs.recordsOf (l' ++ [s'])) := by
  cases l with
  | nil =>
    obtain ⟨rfl, rfl⟩ := cons.inj h
    exact ⟨[], b, rfl, hstop.symm, hmem []⟩
  | cons t l =>
    obtain ⟨rfl, rfl⟩ := cons.inj h
    exact ⟨b :: l, s, rfl, rfl, hmem (l ++ [s])⟩

theorem Extent.stop_le (hx : fs.Extent place first rest)
    (h : first :: rest = l ++ s :: r) : s.stop ≤ cdromSectorSize :=
  (hx.wellFormed s (by rw [h]; simp)).stop_le

theorem listEnded_eq_false (h : o ≤ 1793) : listEnded o = false := by
  rw [← not_eq_true, listEnded_iff]
  omega

theorem searchEnded_eq_false (h : o ≤ 1793) : searchEnded o = false := by
  rw [← not_eq_true, searchEnded_iff (by simp only [cdromSectorSize]; omega)]
  omega

theorem Extent.works_of_fits (hx : fs.Extent place first rest) (hf : fs.Fits (first :: rest)) :
    fs.Works place (first :: rest) := by
  have hback : ∀ {l s r}, walkFirst place first :: rest = l ++ s :: r →
      ∃ l' s', first :: rest = l' ++ s' :: r ∧ s'.stop = s.stop ∧ ∀ x, x.isEntry = true →
        (x ∈ fs.recordsOf (l ++ [s]) ↔ x ∈ fs.recordsOf (l' ++ [s'])) := fun h =>
    decompose_congr (show (walkFirst place first).stop = first.stop from rfl)
      (fun l _ he => hx.isEntry_mem_iff l he) h
  have hstart : ∀ s ∈ walkFirst place first :: rest, ∀ o ∈ s.offsets, o ≤ 1793 :=
    forall_mem_cons.2 ⟨fun o ho => hf.starts first mem_cons_self o (mem_of_mem_walkOffsets ho),
      (forall_mem_cons.1 hf.starts).2⟩
  have hlast : ∀ l s, walkFirst place first :: rest = l ++ [s] → s.stop ≤ 1793 := by
    intro l s h
    obtain ⟨l', s', h', hstop, -⟩ := hback h
    exact hstop ▸ hf.last l' s' h'
  have hvisited : fs.visited listEnded (walkFirst place first :: rest) =
      fs.recordsOf (walkFirst place first :: rest) := by
    refine visited_eq (fun s hs o ho => listEnded_eq_false (hstart s hs o ho)) fun l s r h hr => ?_
    obtain ⟨l', s', h', hstop, -⟩ := hback h
    rw [listEnded_iff, ← hstop]
    exact (hf.continued l' s' r h' hr).1
  have hnames := (@names_visited_iff fs searchEnded (walkFirst place first :: rest)
    fun s hs o ho => searchEnded_eq_false (hstart s hs o ho)).2 (by
      rintro l s r h hs name ⟨x, hxr, hn⟩
      obtain ⟨l', s', h', hstop, hiff⟩ := hback h
      have hr : r ≠ [] := by
        rintro rfl
        cases hxr
      rw [← not_eq_true, ← hstop, searchEnded_iff (hx.stop_le h')] at hs
      obtain ⟨y, hy, hyn⟩ := (hf.continued l' s' r h' hr).2 (by omega) name ⟨x, hxr, hn⟩
      exact ⟨y, (hiff y hyn.1).2 hy, hyn⟩)
  obtain ⟨leastL, hlist⟩ := hx.list_ends hf.named
  obtain ⟨leastS, hsearch⟩ := hx.search_ends hf.named
  rw [beyond_eq_false (by simp) (fun s hs o ho => listEnded_eq_false (hstart s hs o ho))
    fun l s h => listEnded_eq_false (hlast l s h)] at hlist
  rw [beyond_eq_false (by simp) (fun s hs o ho => searchEnded_eq_false (hstart s hs o ho))
    fun l s h => searchEnded_eq_false (hlast l s h)] at hsearch
  refine ⟨max leastL leastS, fun fuel hfuel => ⟨fun name => ?_, ?_⟩⟩
  · obtain ⟨res, hres, hends⟩ := hsearch fuel (by omega) name
    obtain ⟨result, reads, heq, hwithin, hsome⟩ := hx.searchInDirectory_eq hends
    refine ⟨result, reads, heq, hwithin, hsome.trans (hres.trans ⟨?_, ?_⟩)⟩
    · rintro ⟨r, hr, hn⟩
      exact ⟨r, (hx.isEntry_mem_iff rest hn.1).1 ((visited_sublist _).subset hr), hn⟩
    · rintro ⟨r, hr, hn⟩
      exact hnames name ⟨r, (hx.isEntry_mem_iff rest hn.1).2 hr, hn⟩
  · obtain ⟨es, hes, hends⟩ := hlist fuel (by omega)
    obtain ⟨reads, heq, hwithin⟩ := hx.listDirectory_eq hends
    rw [hvisited, hx.filter_eq] at hes
    exact ⟨es, reads, heq, hwithin, hes⟩

theorem named_of_reports (h : List.Forall₂ Reports rs es) : ∀ r ∈ rs, ∃ n, Named r n := by
  induction h with
  | nil => exact nofun
  | cons hr _ ih =>
    obtain ⟨n, hn, -⟩ := hr
    exact forall_mem_cons.2 ⟨⟨n, hn⟩, ih⟩

theorem Extent.isEntry_of_listEnded (hx : fs.Extent place first rest) :
    ∀ s ∈ walkFirst place first :: rest, ∀ o ∈ s.offsets, listEnded o = true →
      isEntry ⟨fs.buffered s.bytes, (o : Int)⟩ = true := by
  intro s hs o ho hend
  rw [listEnded_iff] at hend
  rcases mem_cons.1 hs with rfl | hs
  · have ho : o ∈ first.offsets := mem_of_mem_walkOffsets ho
    have hlt := (hx.wellFormed first mem_cons_self).lt ho
    obtain ⟨os, hos, -, -, hentries⟩ := hx.dots
    have hbyte := (first.bytes 0).toNat_lt
    refine (isEntry_eq first.bytes hlt).2 (hentries o ?_)
    rw [hos, mem_cons, mem_cons] at ho
    rcases ho with rfl | rfl | ho
    · omega
    · omega
    · exact ho
  · have hlt := (hx.wellFormed s (mem_cons_of_mem first hs)).lt ho
    exact (isEntry_eq s.bytes hlt).2 ((hx.entries s hs).2 o ho)

theorem Extent.fits_of_works (hx : fs.Extent place first rest)
    (hworks : fs.Works place (first :: rest)) : fs.Fits (first :: rest) := by
  obtain ⟨least, hworks⟩ := hworks
  have hnamed : ∀ r ∈ fs.recordsOf (first :: rest), r.isEntry = true → ∃ n, Named r n := by
    intro r hr he
    obtain ⟨-, entries, -, -, -, hreports⟩ := hworks least (le_refl _)
    exact named_of_reports hreports r (mem_filter.2 ⟨hr, he⟩)
  obtain ⟨leastL, hlist⟩ := hx.list_ends hnamed
  obtain ⟨leastS, hsearch⟩ := hx.search_ends hnamed
  obtain ⟨hfind, entries, reads, hl, hwithin, hreports⟩ := hworks (max least (max leastL leastS)) (by omega)
  obtain ⟨es, hes, hends⟩ := hlist (max least (max leastL leastS)) (by omega)
  have hbeyond : beyond listEnded (walkFirst place first :: rest) = false := by
    cases hb : beyond listEnded (walkFirst place first :: rest) with
    | false => rfl
    | true =>
      rw [hb] at hends
      exact absurd hwithin (hx.listDirectory_beyond hends hl)
  rw [hbeyond] at hends
  obtain ⟨reads', heq, -⟩ := hx.listDirectory_eq hends
  obtain rfl : entries = es := by
    rw [hl] at heq
    cases heq
    rfl
  have hcount : (fs.visited listEnded (walkFirst place first :: rest)).countP isEntry =
      (fs.recordsOf (walkFirst place first :: rest)).countP isEntry := by
    rw [countP_eq_length_filter, countP_eq_length_filter, hx.filter_eq, hes.length_eq, hreports.length_eq]
  obtain ⟨hstart, hcont⟩ := not_ended_of_count hx.isEntry_of_listEnded (fun s hs => by
    obtain ⟨hne, hentries⟩ := hx.entries s hs
    obtain ⟨o, os, hos⟩ := exists_cons_of_ne_nil hne
    have ho : o ∈ s.offsets := by simp [hos]
    exact ⟨o, ho, (isEntry_eq s.bytes ((hx.wellFormed s (mem_cons_of_mem first hs)).lt ho)).2
      (hentries o ho)⟩) hcount
  have hforth : ∀ {l s r}, first :: rest = l ++ s :: r →
      ∃ l' s', walkFirst place first :: rest = l' ++ s' :: r ∧ s'.stop = s.stop ∧
        ∀ x, x.isEntry = true → (x ∈ fs.recordsOf (l ++ [s]) ↔ x ∈ fs.recordsOf (l' ++ [s'])) :=
    fun h => decompose_congr (show first.stop = (walkFirst place first).stop from rfl)
      (fun l _ he => (hx.isEntry_mem_iff l he).symm) h
  have hstart' : ∀ s ∈ walkFirst place first :: rest, ∀ o ∈ s.offsets, o ≤ 1793 := by
    intro s hs o ho
    have := hstart s hs o ho
    rw [← not_eq_true, listEnded_iff] at this
    omega
  have hlast : ∀ l s, walkFirst place first :: rest = l ++ [s] → s.stop ≤ 1793 := by
    intro l s h
    have := ended_last_of_beyond hstart hcont hbeyond l s h
    rw [← not_eq_true, listEnded_iff] at this
    omega
  rw [beyond_eq_false (by simp) (fun s hs o ho => searchEnded_eq_false (hstart' s hs o ho))
    fun l s h => searchEnded_eq_false (hlast l s h)] at hsearch
  have hnames : ∀ name, (∃ x ∈ fs.recordsOf (walkFirst place first :: rest), HasName x name) →
      ∃ x ∈ fs.visited searchEnded (walkFirst place first :: rest), HasName x name := by
    rintro name ⟨x, hxs, hn⟩
    obtain ⟨result, reads, hf, -, hsome⟩ := hfind name
    obtain ⟨res, hres, hends⟩ := hsearch (max least (max leastL leastS)) (by omega) name
    obtain ⟨result', reads', heq, -, hsome'⟩ := hx.searchInDirectory_eq hends
    obtain rfl : result = result' := by
      rw [hf] at heq
      cases heq
      rfl
    exact hres.1 (hsome'.1 (hsome.2 ⟨x, (hx.isEntry_mem_iff rest hn.1).1 hxs, hn⟩))
  refine ⟨hnamed, fun s hs o ho => ?_, fun l s r h hr => ?_, fun l s h => ?_⟩
  · rcases mem_cons.1 hs with rfl | hs
    · rcases hx.mem_walkOffsets ho with rfl | ho
      · decide
      · exact hstart' _ mem_cons_self o ho
    · exact hstart' s (mem_cons_of_mem _ hs) o ho
  · obtain ⟨l', s', h', hs', hiff⟩ := hforth h
    have hend := hcont l' s' r h' hr
    rw [listEnded_iff, hs'] at hend
    refine ⟨hend, fun hstop name hnew => ?_⟩
    obtain ⟨y, hy, hyn⟩ := (names_visited_iff fun s hs o ho => searchEnded_eq_false (hstart' s hs o ho)).1
      hnames l' s' r h' (by
        rw [← not_eq_true, hs', searchEnded_iff (hx.stop_le h)]
        omega) name hnew
    exact ⟨y, (hiff y hyn.1).2 hy, hyn⟩
  · obtain ⟨l', s', h', hs', -⟩ := hforth h
    exact hs' ▸ hlast l' s' h'

/-- On a well-formed extent `SearchInDirectory` finds exactly the names of its records,
`DirectoryList` reports every entry once and neither asks for a sector behind the extent, if and only
if the extent fits. -/
theorem directory_works_iff (fs : Iso9660) (place : Place) (first : Sector) (rest : List Sector)
    (hx : fs.Extent place first rest) : fs.Works place (first :: rest) ↔ fs.Fits (first :: rest) :=
  ⟨hx.fits_of_works, hx.works_of_fits⟩

/-- A sector with the records `.` and `..`. -/
def dotsBytes : Buffer := fun i =>
  if i = 0 ∨ i = 34 then 34 else if i = 32 ∨ i = 66 ∨ i = 67 then 1 else 0

/-- A sector with the records `.` and `..` and one of a file `A`, with the identifier `A;1`. -/
def fileBytes : Buffer := fun i =>
  if i = 68 then 36 else if i = 100 then 3 else if i = 101 then 65 else if i = 102 then 59
  else if i = 103 then 49 else dotsBytes i

/-- A sector with one record of a file `A`. -/
def nextBytes : Buffer := fun i =>
  if i = 0 then 36 else if i = 32 then 3 else if i = 33 then 65 else if i = 34 then 59
  else if i = 35 then 49 else 0

/-- A root directory in one sector, with one file. -/
def oneSector : Iso9660 where
  disk := fun s => if s = 20 then some fileBytes else none
  memory := fun _ => 0
  rootDirectory := ⟨34, 20, 2048, 2, 1, [0]⟩

/-- A root directory in two sectors, with one file in the second one. -/
def twoSectors : Iso9660 where
  disk := fun s => if s = 20 then some dotsBytes else if s = 21 then some nextBytes else none
  memory := fun _ => 0
  rootDirectory := ⟨34, 20, 4096, 2, 1, [0]⟩

theorem extent_oneSector : oneSector.Extent .root ⟨fileBytes, [0, 34, 68], 104⟩ [] where
  wellFormed := by
    intro s hs
    obtain rfl := mem_singleton.1 hs
    refine ⟨.cons (by decide) (by decide) (by decide) (.cons (by decide) (by decide) (by decide)
      (.cons (by decide) (by decide) (by decide) (.nil _))), by decide, fun p hp hlt => ?_⟩
    have hp : 104 ≤ p := hp
    have h : p ≠ 0 ∧ p ≠ 34 ∧ p ≠ 32 ∧ p ≠ 66 ∧ p ≠ 67 ∧ p ≠ 68 ∧ p ≠ 100 ∧ p ≠ 101 ∧ p ≠ 102 ∧
      p ≠ 103 := by omega
    simp [fileBytes, dotsBytes, h]
  disk := by
    intro i s h
    cases i with
    | zero =>
      cases h
      rfl
    | succ i => simp at h
  dataLength := rfl
  dataLength_lt := by decide
  range := by decide
  dots := ⟨[68], rfl, rfl, rfl, by decide⟩
  entries := nofun
  root := fun _ => rfl

/-- The walks work on a directory in one sector with one file. -/
theorem directory_works_oneSector : oneSector.Works .root [⟨fileBytes, [0, 34, 68], 104⟩] := by
  refine (directory_works_iff oneSector .root _ _ extent_oneSector).2 ⟨?_, ?_, ?_, ?_⟩
  · intro r hr he
    obtain ⟨s, hs, o, ho, rfl⟩ := mem_recordsOf.1 hr
    obtain rfl := mem_singleton.1 hs
    have ho : o = 0 ∨ o = 34 ∨ o = 68 := by simpa using ho
    rcases ho with rfl | rfl | rfl
    · exact absurd he (by decide)
    · exact absurd he (by decide)
    · exact ⟨_, .short (.inl (by decide)) rfl⟩
  · decide
  · intro l s r h hr
    cases l with
    | nil => exact absurd (cons.inj h).2.symm hr
    | cons t l => simp at h
  · intro l s h
    cases l with
    | nil =>
      obtain ⟨rfl, -⟩ := cons.inj h
      decide
    | cons t l => simp at h

theorem extent_twoSectors :
    twoSectors.Extent .root ⟨dotsBytes, [0, 34], 68⟩ [⟨nextBytes, [0], 36⟩] where
  wellFormed := by
    refine forall_mem_cons.2 ⟨⟨.cons (by decide) (by decide) (by decide)
      (.cons (by decide) (by decide) (by decide) (.nil _)), by decide, fun p hp hlt => ?_⟩,
      forall_mem_singleton.2 ⟨.cons (by decide) (by decide) (by decide) (.nil _), by decide,
        fun p hp hlt => ?_⟩⟩
    · have hp : 68 ≤ p := hp
      have h : p ≠ 0 ∧ p ≠ 34 ∧ p ≠ 32 ∧ p ≠ 66 ∧ p ≠ 67 := by omega
      simp [dotsBytes, h]
    · have hp : 36 ≤ p := hp
      have h : p ≠ 0 ∧ p ≠ 32 ∧ p ≠ 33 ∧ p ≠ 34 ∧ p ≠ 35 := by omega
      simp [nextBytes, h]
  disk := by
    intro i s h
    rcases i with - | - | i
    · cases h
      rfl
    · cases h
      rfl
    · simp at h
  dataLength := rfl
  dataLength_lt := by decide
  range := by decide
  dots := ⟨[], rfl, rfl, rfl, nofun⟩
  entries := forall_mem_singleton.2 ⟨by decide, by decide⟩
  root := fun _ => rfl

/-- The file in the second sector is neither found nor listed: both walks stop at the end of the
records of the first sector. -/
theorem directory_twoSectors : twoSectors.Extent .root ⟨dotsBytes, [0, 34], 68⟩ [⟨nextBytes, [0], 36⟩] ∧
    (∃ r ∈ twoSectors.recordsOf [⟨dotsBytes, [0, 34], 68⟩, ⟨nextBytes, [0], 36⟩], HasName r [65]) ∧
    twoSectors.searchInDirectory .root [65] 5 = .ok (none, [20]) ∧ twoSectors.listDirectory .root 5 = .ok
    ([], [20]) ∧ ¬ twoSectors.Works .root [⟨dotsBytes, [0, 34], 68⟩, ⟨nextBytes, [0], 36⟩] := by
  refine ⟨extent_twoSectors, ⟨⟨twoSectors.buffered nextBytes, (0 : Nat)⟩, by simp [recordsOf], by decide,
    _, .short (.inl (by decide)) rfl, by decide⟩, rfl, rfl, fun hworks => ?_⟩
  have hcont := (extent_twoSectors.fits_of_works hworks).continued [] _ _ rfl (by simp)
  exact absurd hcont.1 (by decide)

end HeisenKernel.Iso9660
