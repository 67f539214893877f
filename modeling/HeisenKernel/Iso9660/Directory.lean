import HeisenKernel.Iso9660
import Mathlib.Data.List.Forall2

/-!
# What the walks over an ISO 9660 directory see

A well-formed extent is a list of sectors with records that do not cross their boundaries.
-/

namespace HeisenKernel.Iso9660

open Lib List Bool

/-- What the entries behind a name, from `offset` on, give: each is followed by the length in its
third byte, up to the first `NM` entry or a zero. -/
inductive RockRidge (r : RecordPtr) : Int → Option (List UInt8) → Prop
  | found {o : Int} : r.name o = 78 → r.name (o + 1) = 77 → 5 ≤ signedChar (r.name (o + 2)) →
      RockRidge r o (some (r.copyName (o + 5) (signedChar (r.name (o + 2)) - 5).toNat))
  | none {o : Int} : r.name o = 0 → RockRidge r o none
  | next {o : Int} {x : Option (List UInt8)} : ¬ (r.name o = 78 ∧ r.name (o + 1) = 77) →
      r.name o ≠ 0 → RockRidge r (o + signedChar (r.name (o + 2))) x → RockRidge r o x

/-- The record is neither `.` nor `..`. -/
def RecordPtr.isEntry (r : RecordPtr) : Bool := r.name 0 ≠ 0 && r.name 0 ≠ 1

/-- The name of a record: that of its `NM` entry, or else its identifier without the version. -/
inductive Named (r : RecordPtr) : List UInt8 → Prop
  | extension {n : List UInt8} : r.name (r.nameLength + 1) ≠ 0 →
      RockRidge r (rockRidgeStart r) (some n) → Named r n
  | short {n : List UInt8} : r.name (r.nameLength + 1) = 0 ∨ RockRidge r (rockRidgeStart r) none →
      shortName r = .ok n → Named r n

theorem RockRidge.returns (h : RockRidge r o x) : ∃ least, ∀ fuel ≥ least, rockRidge r fuel o = .ok x := by
  induction h with
  | @found o h1 h2 h3 =>
    refine ⟨1, fun fuel hfuel => ?_⟩
    obtain ⟨fuel, rfl⟩ := Nat.exists_eq_add_of_le' hfuel
    rw [rockRidge, if_pos ⟨h1, h2⟩, if_neg (by omega)]
  | @none o h =>
    refine ⟨1, fun fuel hfuel => ?_⟩
    obtain ⟨fuel, rfl⟩ := Nat.exists_eq_add_of_le' hfuel
    rw [rockRidge, if_neg (by simp [h]), if_pos h]
  | next h1 h2 _ ih =>
    obtain ⟨least, ih⟩ := ih
    refine ⟨least + 1, fun fuel hfuel => ?_⟩
    obtain ⟨fuel, rfl⟩ := Nat.exists_eq_add_of_le' (Nat.le_of_add_left_le hfuel)
    rw [rockRidge, if_neg h1, if_neg h2]
    exact ih fuel (by omega)

theorem Named.returns (he : r.isEntry = true) (h : Named r n) :
    ∃ least, ∀ fuel ≥ least, getRecordName fuel r = .ok (some n) := by
  have hdot : ¬ (r.name 0 = 0 ∨ r.name 0 = 1) := by simpa [RecordPtr.isEntry] using he
  cases h with
  | extension hlast hrr =>
    obtain ⟨least, hl⟩ := hrr.returns
    refine ⟨least, fun fuel hfuel => ?_⟩
    have hext : extensionName fuel r = .ok (some n) := by
      rw [extensionName, if_pos hlast, hl fuel hfuel]
    rw [getRecordName, if_neg hdot, bind_of_ok hext]
  | short hrr hshort =>
    obtain ⟨least, hl⟩ : ∃ least, ∀ fuel ≥ least, extensionName fuel r = .ok none := by
      by_cases hlast : r.name (r.nameLength + 1) = 0
      · exact ⟨0, fun fuel _ => if_neg (not_not.2 hlast)⟩
      · obtain ⟨least, hl⟩ := (hrr.resolve_left hlast).returns
        exact ⟨least, fun fuel hfuel => by rw [extensionName, if_pos hlast, hl fuel hfuel]⟩
    refine ⟨least, fun fuel hfuel => ?_⟩
    rw [getRecordName, if_neg hdot, bind_of_ok (hl fuel hfuel)]
    exact bind_of_ok hshort

theorem getRecordName_of_not_isEntry (he : r.isEntry = false) : getRecordName fuel r = .ok none := by
  rw [getRecordName, if_pos]
  by_contra h
  simp [RecordPtr.isEntry] at he h
  exact h.2 (he h.1)

theorem Named.unique (he : r.isEntry = true) (hn : Named r n) (hm : Named r m) : n = m := by
  obtain ⟨a, ha⟩ := hn.returns he
  obtain ⟨b, hb⟩ := hm.returns he
  have := (ha (max a b) (Nat.le_max_left ..)).symm.trans (hb _ (Nat.le_max_right ..))
  exact Option.some.inj (Except.ok.inj this)

/-- The record is an entry of the directory with the name `name`. -/
def HasName (r : RecordPtr) (name : List UInt8) : Prop :=
  r.isEntry = true ∧ ∃ n, Named r n ∧ CString.ofBuffer n = name

/-- The entry that is to be reported for a record. -/
def Reports (r : RecordPtr) (e : VFSEntry) : Prop := ∃ n, Named r n ∧ e = vfsEntry r n

/-- The records of a sector from an offset on, one behind the other: where they start and where the
last one ends. A record has a name and room for it, and its length is even. -/
inductive Records (bytes : Buffer) : Nat → List Nat → Nat → Prop
  | nil (o : Nat) : Records bytes o [] o
  | cons {o e : Nat} {os : List Nat} : 0 < (bytes (o + 32)).toNat →
      33 + (bytes (o + 32)).toNat ≤ (bytes o).toNat → (bytes o).toNat % 2 = 0 →
      Records bytes (o + (bytes o).toNat) os e → Records bytes o (o :: os) e

/-- A sector of a directory: its bytes, the offsets of the records and the end of the last one. -/
structure Sector where
  bytes : Buffer
  offsets : List Nat
  stop : Nat

/-- The records do not cross the end of the sector, and what is behind them is zero. -/
structure Sector.WellFormed (s : Sector) : Prop where
  records : Records s.bytes 0 s.offsets s.stop
  stop_le : s.stop ≤ cdromSectorSize
  zero : ∀ p, s.stop ≤ p → p < cdromSectorSize → s.bytes p = 0

section
variable (fs : Iso9660)

/-- The records of a list of sectors, as they are met in the buffer. -/
def recordsOf (ss : List Sector) : List RecordPtr :=
  ss.flatMap fun s => s.offsets.map fun o : Nat => ⟨fs.buffered s.bytes, o⟩

/-- The extent of a directory: `first` starts with the records `.` and `..`, every other record is an
entry, and every further sector has at least one record. -/
structure Extent (place : Place) (first : Sector) (rest : List Sector) : Prop where
  wellFormed : ∀ s ∈ first :: rest, s.WellFormed
  disk : ∀ i s, (first :: rest)[i]? = some s → fs.disk ((fs.record place).extentLocation + i) = some s.bytes
  dataLength : (fs.record place).dataLength = (rest.length + 1) * cdromSectorSize
  dataLength_lt : (fs.record place).dataLength < 2 ^ 32
  range : (fs.record place).extentLocation + (rest.length + 1) ≤ 2 ^ 32
  dots : ∃ os, first.offsets = 0 :: (first.bytes 0).toNat :: os ∧ first.bytes 33 = 0 ∧
    first.bytes ((first.bytes 0).toNat + 33) = 1 ∧
    ∀ o ∈ os, first.bytes (o + 33) ≠ 0 ∧ first.bytes (o + 33) ≠ 1
  entries : ∀ s ∈ rest, s.offsets ≠ [] ∧ ∀ o ∈ s.offsets, s.bytes (o + 33) ≠ 0 ∧ s.bytes (o + 33) ≠ 1
  root : place = .root → fs.rootDirectory.length = (first.bytes 0).toNat

/-- Only sectors of the extent, as long as its `data_length` says, are asked for. -/
def Within (place : Place) (reads : List Nat) : Prop :=
  ∀ x ∈ reads, (fs.record place).extentLocation ≤ x ∧
    x < (fs.record place).extentLocation + (fs.record place).dataLength / cdromSectorSize

/-- What is asked of the two walks: `SearchInDirectory` finds the names of the records and no others,
`DirectoryList` reports every entry once, and neither asks for a sector behind the extent. -/
def Works (place : Place) (ss : List Sector) : Prop :=
  ∃ least, ∀ fuel ≥ least,
    (∀ name, ∃ result reads, fs.searchInDirectory place name fuel = .ok (result, reads) ∧
      fs.Within place reads ∧ (result.isSome ↔ ∃ r ∈ fs.recordsOf ss, HasName r name)) ∧
    ∃ entries reads, fs.listDirectory place fuel = .ok (entries, reads) ∧ fs.Within place reads ∧
      List.Forall₂ Reports ((fs.recordsOf ss).filter RecordPtr.isEntry) entries

/-- The extents on which the walks work: every entry has a name, no record starts behind 1793, the
records of every sector but the last one end behind 1793, and behind 2015 unless the further sectors
have no new names, and those of the last one end at 1793 at the latest. -/
structure Fits (ss : List Sector) : Prop where
  named : ∀ r ∈ fs.recordsOf ss, r.isEntry = true → ∃ n, Named r n
  starts : ∀ s ∈ ss, ∀ o ∈ s.offsets, o ≤ 1793
  continued : ∀ l s r, ss = l ++ s :: r → r ≠ [] → 1794 ≤ s.stop ∧ (s.stop ≤ 2015 →
    ∀ name, (∃ x ∈ fs.recordsOf r, HasName x name) → ∃ x ∈ fs.recordsOf (l ++ [s]), HasName x name)
  last : ∀ l s, ss = l ++ [s] → s.stop ≤ 1793

/-- The records that a walk visits. -/
def visited (ended : Nat → Bool) : List Sector → List RecordPtr
  | [] => []
  | s :: ss =>
    ((s.offsets.takeWhile fun o => !ended o).map fun o : Nat => ⟨fs.buffered s.bytes, o⟩) ++
      if (s.offsets ++ [s.stop]).any ended then visited ended ss else []

end

/-- Whether a walk goes on behind the last sector. -/
def beyond (ended : Nat → Bool) : List Sector → Bool
  | [] => true
  | s :: ss => if (s.offsets ++ [s.stop]).any ended then beyond ended ss else false

variable {fs : Iso9660}

theorem Records.le (h : Records bytes o os e) : o ≤ e := by
  induction h with
  | nil => exact Nat.le_refl _
  | cons _ _ _ _ ih => omega

theorem Records.bounds (h : Records bytes o os e) :
    ∀ a ∈ os, a + 33 < e ∧ 33 + (bytes (a + 32)).toNat ≤ (bytes a).toNat ∧ (bytes a).toNat % 2 = 0 := by
  induction h with
  | nil => exact nofun
  | @cons o e os hname hlen heven hrec ih =>
    intro a ha
    rcases mem_cons.1 ha with rfl | ha
    · have := hrec.le
      exact ⟨by omega, hlen, heven⟩
    · exact ih a ha

theorem buffered_of_lt (b : Buffer) (h : i < cdromSectorSize) : fs.buffered b i = b i := by
  unfold buffered
  rw [if_pos ⟨Int.natCast_nonneg i, by exact_mod_cast h⟩, Int.toNat_natCast]

theorem recordBytes_eq (b : Buffer) (h : o + i < cdromSectorSize) :
    RecordPtr.bytes ⟨fs.buffered b, o⟩ i = b (o + i) := by
  rw [RecordPtr.bytes, ← Int.natCast_add]
  dsimp only
  rw [buffered_of_lt b h]

theorem recordLength_eq (b : Buffer) (h : o < cdromSectorSize) :
    RecordPtr.length ⟨fs.buffered b, o⟩ = (b o).toNat := by
  rw [RecordPtr.length, recordBytes_eq b (by omega), add_zero]

theorem recordNameLength_eq (b : Buffer) (h : o + 32 < cdromSectorSize) :
    RecordPtr.nameLength ⟨fs.buffered b, o⟩ = (b (o + 32)).toNat := by
  rw [RecordPtr.nameLength, recordBytes_eq b h]

theorem recordName_eq (b : Buffer) (h : o + 33 < cdromSectorSize) :
    RecordPtr.name ⟨fs.buffered b, o⟩ 0 = b (o + 33) := by
  have hbyte : RecordPtr.bytes ⟨fs.buffered b, o⟩ 33 = b (o + 33) := recordBytes_eq b h
  exact hbyte

variable {σ β : Type} {ended : Nat → Bool} {visit : σ → RecordPtr → Exec (σ ⊕ β)} {loc : Nat} {c : Cursor}
  {s : σ} {fuel : Nat}

theorem walk_nextSector (h0 : ended 0 = false) (hc : ended c.offset = true)
    (hdisk : fs.disk (u32 (loc + c.sectorOffset)) = some bytes) :
    fs.walk ended visit loc fuel c s = fs.walk ended visit loc fuel
      ⟨0, c.sectorOffset + 1, fs.buffered bytes, c.reads ++ [u32 (loc + c.sectorOffset)]⟩ s := by
  cases fuel with
  | zero => rfl
  | succ fuel =>
    have hnext : fs.nextSector loc c = (⟨0, c.sectorOffset + 1, fs.buffered bytes,
        c.reads ++ [u32 (loc + c.sectorOffset)]⟩, true) := by
      rw [nextSector, hdisk]
    rw [walk, walk, if_pos hc, hnext]
    simp only [h0, false_eq_true, if_false]

theorem walk_succ (hc : ended c.offset = false) : fs.walk ended visit loc (fuel + 1) c s =
    if c.record.length = 0 then .ok (.inl s, c.reads)
    else visit s c.record >>= fun
      | .inr b => .ok (.inr b, c.reads)
      | .inl s => fs.walk ended visit loc fuel { c with offset := c.offset + c.record.length } s := by
  rw [walk]
  simp only [hc, false_eq_true, if_false, true_eq_false] <;> rfl

/-- How a walk ends whose visits give `res`: with the value that a visit returned; in front of a
record of length 0; or, when it `goesOn`, at the end of the last sector, from where it asks for the
sector `last` of the extent. -/
def WalkEnds (fs : Iso9660) (ended : Nat → Bool) (visit : σ → RecordPtr → Exec (σ ⊕ β))
    (loc last : Nat) (goesOn : Bool) (res : σ ⊕ β) (w : Exec ((σ ⊕ β) × List Nat)) : Prop :=
  ∃ reads, (∀ x ∈ reads, loc ≤ x ∧ x < loc + last) ∧
    ((∃ b, res = .inr b ∧ w = .ok (.inr b, reads)) ∨
      (∃ s, res = .inl s ∧ goesOn = false ∧ w = .ok (.inl s, reads)) ∨
      ∃ s fuel c, res = .inl s ∧ goesOn = true ∧ ended c.offset = true ∧
        c.sectorOffset = last ∧ w = fs.walk ended visit loc (fuel + 1) c s)

theorem walk_ends_sector (hfull : ended cdromSectorSize = true) (hrec : Records bytes o os e)
    (hstop : e ≤ cdromSectorSize) (hzero : ∀ p, e ≤ p → p < cdromSectorSize → bytes p = 0)
    (hreads : ∀ x ∈ reads, loc ≤ x ∧ x < loc + last)
    (hnext : ∀ a fuel s, ended a = true → (fs.recordsOf ss).length < fuel →
      forReturn visit s (fs.visited ended ss) = .ok res →
      WalkEnds fs ended visit loc last (beyond ended ss) res
        (fs.walk ended visit loc fuel ⟨a, k, fs.buffered bytes, reads⟩ s))
    (hfuel : os.length + (fs.recordsOf ss).length < fuel)
    (hres : forReturn visit s (fs.visited ended (⟨bytes, os, e⟩ :: ss)) = .ok res) :
    WalkEnds fs ended visit loc last (beyond ended (⟨bytes, os, e⟩ :: ss)) res
      (fs.walk ended visit loc fuel ⟨o, k, fs.buffered bytes, reads⟩ s) := by
  induction hrec generalizing s fuel with
  | nil o =>
    rw [length_nil, zero_add] at hfuel
    cases hend : ended o with
    | true =>
      simp only [visited, beyond, takeWhile_nil, map_nil, nil_append, any_cons,
        any_nil, hend, Bool.or_false, if_true] at hres ⊢
      exact hnext o fuel s hend hfuel hres
    | false =>
      simp only [visited, beyond, takeWhile_nil, map_nil, nil_append, any_cons,
        any_nil, hend, Bool.or_false, Bool.false_eq_true, if_false, forReturn] at hres ⊢
      have hlt : o < cdromSectorSize := by
        refine Nat.lt_of_le_of_ne hstop ?_
        rintro rfl
        rw [hend] at hfull
        cases hfull
      obtain _ | fuel := fuel
      · omega
      cases hres
      refine ⟨reads, hreads, .inr (.inl ⟨s, rfl, rfl, ?_⟩)⟩
      rw [walk_succ hend, if_pos]
      rw [Cursor.record, recordLength_eq bytes hlt, hzero o (Nat.le_refl o) hlt]
      rfl
  | @cons o e os hname hlen heven hrec ih =>
    cases hend : ended o with
    | true =>
      simp only [visited, beyond, takeWhile_cons, hend, Bool.not_true, Bool.false_eq_true,
        if_false, map_nil, nil_append, cons_append, any_cons, Bool.true_or,
        if_true] at hres ⊢
      exact hnext o fuel s hend (by omega) hres
    | false =>
      have hlt : o < cdromSectorSize := by
        have := hrec.le
        omega
      have hlength : RecordPtr.length ⟨fs.buffered bytes, o⟩ = (bytes o).toNat := recordLength_eq bytes hlt
      have hvisited : fs.visited ended (⟨bytes, o :: os, e⟩ :: ss) =
          ⟨fs.buffered bytes, o⟩ :: fs.visited ended (⟨bytes, os, e⟩ :: ss) := by
        simp [visited, hend]
      have hbeyond : beyond ended (⟨bytes, o :: os, e⟩ :: ss) = beyond ended (⟨bytes, os, e⟩ :: ss) := by
        simp [beyond, hend]
      rw [hbeyond]
      rw [hvisited, forReturn_cons, bind_eq_ok] at hres
      obtain ⟨x, hx, hres⟩ := hres
      have hx : visit s (Cursor.record ⟨o, k, fs.buffered bytes, reads⟩) = .ok x := hx
      obtain _ | fuel := fuel
      · omega
      have hne : (Cursor.record ⟨o, k, fs.buffered bytes, reads⟩).length ≠ 0 := by
        rw [Cursor.record, hlength]
        omega
      cases x with
      | inr b =>
        cases hres
        exact ⟨reads, hreads, .inl ⟨b, rfl, by rw [walk_succ hend, if_neg hne, bind_of_ok hx]⟩⟩
      | inl s' =>
        rw [walk_succ hend, if_neg hne, bind_of_ok hx]
        have hlen' : (Cursor.record ⟨o, k, fs.buffered bytes, reads⟩).length = (bytes o).toNat := hlength
        rw [hlen']
        refine ih hstop hzero ?_ hres
        rw [length_cons] at hfuel
        omega

theorem walk_ends_next (h0 : ended 0 = false) (hfull : ended cdromSectorSize = true)
    (hss : ∀ s ∈ ss, s.WellFormed)
    (hdisk : ∀ i s, ss[i]? = some s → fs.disk (loc + (k + i)) = some s.bytes)
    (hlast : last = k + ss.length) (hrange : loc + last ≤ 2 ^ 32)
    (hreads : ∀ x ∈ reads, loc ≤ x ∧ x < loc + last) (ho : ended o = true)
    (hfuel : (fs.recordsOf ss).length < fuel)
    (hres : forReturn visit s (fs.visited ended ss) = .ok res) :
    WalkEnds fs ended visit loc last (beyond ended ss) res
      (fs.walk ended visit loc fuel ⟨o, k, buffer, reads⟩ s) := by
  induction ss generalizing o k buffer reads s fuel with
  | nil =>
    obtain _ | fuel := fuel
    · omega
    cases hres
    exact ⟨reads, hreads, .inr (.inr ⟨s, fuel, ⟨o, k, buffer, reads⟩, rfl, rfl, ho, hlast.symm, rfl⟩)⟩
  | cons sec ss ih =>
    rw [length_cons] at hlast
    have hd : fs.disk (u32 (loc + k)) = some sec.bytes := by
      rw [u32_eq (by omega)]
      exact hdisk 0 sec rfl
    rw [walk_nextSector h0 ho hd]
    dsimp only
    have hw := hss sec mem_cons_self
    have hreads' : ∀ x ∈ reads ++ [u32 (loc + k)], loc ≤ x ∧ x < loc + last := by
      rw [forall_mem_append, forall_mem_singleton, u32_eq (by omega)]
      exact ⟨hreads, by omega, by omega⟩
    refine walk_ends_sector hfull hw.records hw.stop_le hw.zero hreads' ?_ ?_ hres
    · intro a fuel s ha hfuel hres
      exact ih (forall_mem_cons.1 hss).2
        (fun i s hi => by rw [add_assoc, add_comm 1]; exact hdisk (i + 1) s hi)
        (by omega) hreads' ha hfuel hres
    · simpa [recordsOf] using hfuel

theorem walkFrom_ends (h0 : ended 0 = false) (hfull : ended cdromSectorSize = true)
    (hfirst : first.WellFormed) (hss : ∀ s ∈ ss, s.WellFormed)
    (hdisk : ∀ i s, (first :: ss)[i]? = some s → fs.disk (loc + i) = some s.bytes)
    (hrange : loc + (ss.length + 1) ≤ 2 ^ 32) (hrec : Records first.bytes o os first.stop)
    (hfuel : os.length + (fs.recordsOf ss).length < fuel)
    (hres : forReturn visit s (fs.visited ended ({ first with offsets := os } :: ss)) = .ok res) :
    WalkEnds fs ended visit loc (ss.length + 1) (beyond ended ({ first with offsets := os } :: ss)) res
      (fs.walkFrom ended visit loc o fuel s) := by
  have hd : fs.disk loc = some first.bytes := hdisk 0 first rfl
  have hreads : ∀ x ∈ [loc], loc ≤ x ∧ x < loc + (ss.length + 1) := by
    intro x hx
    rw [mem_singleton.1 hx]
    omega
  rw [walkFrom, hd]
  refine walk_ends_sector hfull hrec hfirst.stop_le hfirst.zero hreads ?_ hfuel hres
  intro a fuel s ha hfuel hres
  exact walk_ends_next h0 hfull hss (fun i s hi => by rw [add_comm 1]; exact hdisk (i + 1) s hi)
    (add_comm ..) hrange hreads ha hfuel hres

theorem walk_reads (h : fs.walk ended visit loc fuel c s = .ok (x, reads)) : ∀ y ∈ c.reads, y ∈ reads := by
  induction fuel generalizing c s with
  | zero => cases h
  | succ fuel ih =>
    have hmono : ∀ y ∈ c.reads,
        y ∈ (if ended c.offset = true then fs.nextSector loc c else (c, true)).1.reads := by
      intro y hy
      split
      · unfold nextSector
        dsimp only
        split
        · exact mem_append_left _ hy
        · exact mem_append_left _ hy
      · exact hy
    rw [walk] at h
    generalize (if ended c.offset = true then fs.nextSector loc c else (c, true)) = next at h hmono
    intro y hy
    split at h
    · cases h
      exact hmono y hy
    · split at h
      · cases h
        exact hmono y hy
      · obtain ⟨v, -, h⟩ := bind_eq_ok.1 h
        cases v with
        | inr b =>
          cases h
          exact hmono y hy
        | inl s' => exact ih h y (hmono y hy)

theorem walk_beyond (hc : ended c.offset = true) (h0 : ended 0 = false)
    (h : fs.walk ended visit loc (fuel + 1) c s = .ok (x, reads)) : u32 (loc + c.sectorOffset) ∈ reads := by
  cases hd : fs.disk (u32 (loc + c.sectorOffset)) with
  | none =>
    have hnext : fs.nextSector loc c =
        ({ c with offset := 0, reads := c.reads ++ [u32 (loc + c.sectorOffset)] }, false) := by
      rw [nextSector, hd]
    rw [walk, if_pos hc, hnext] at h
    cases h
    simp
  | some bytes =>
    rw [walk_nextSector h0 hc hd] at h
    exact walk_reads h _ (by simp)

end HeisenKernel.Iso9660
