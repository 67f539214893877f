import HeisenKernel.Vmm.Translation

/-!
# Address spaces

`create_address_space` copies the kernel directory and each of its tables.
-/

namespace HeisenKernel.Vmm

open Lib BitVec

variable {s s' : Paging} {d : Word}

theorem settled_of_zero (ha : Aligned d) (hout : ∀ b < maxBlocks, d ≠ blockAddr b)
    (hzero : ∀ i < pagedirSize, s.word d i = 0) : s.Settled d where
  aligned := ha
  table_ne := fun i hi hne => absurd (hzero i hi) hne
  not_free := by
    rintro p (rfl | ⟨i, hi, hne, -⟩) ⟨b, hb, -, heq⟩
    · exact hout b hb heq
    · exact hne (hzero i hi)

theorem identityMap_changes (left : Nat) : ∀ (addr : Word) {s : Paging}, s.Settled d →
    Changes s (identityMap d left addr s).2 d := by
  induction left with
  | zero => exact fun _ _ hd => .refl hd
  | succ left ih =>
    intro addr s hd
    have hflags : (pagePresent ||| pageRw).toNat < pageSize := by decide
    have hmap := vmmMapPhys_changes addr addr hd hflags
    rw [identityMap]
    split
    · exact hmap.trans (ih _ hmap.settled)
    · exact hmap

theorem vmmInit_settled (ha : Aligned d) (hout : ∀ b < maxBlocks, d ≠ blockAddr b)
    (hzero : ∀ i < pagedirSize, s.word d i = 0) : (vmmInit d s).Settled d := by
  rw [vmmInit, mapKernel]
  set t : Paging := { s with
    memory := fun a => if d.toNat ≤ a ∧ a < d.toNat + pagedirSize then 0 else s.memory a
    bitmap := fun i => if i < 4 then 0 else s.bitmap i }
  have hzero' : ∀ i < pagedirSize, t.word d i = 0 := by
    intro i hi
    show (if _ then 0 else s.word d i) = 0
    split
    · rfl
    · exact hzero i hi
  have hid := (identityMap_changes 1024 0 (settled_of_zero ha hout hzero')).settled
  split
  · rcases vmmCreatePageTable_cases returnAddr (pagePresent ||| pageRw ||| pageUser) ha
      (hid.not_free d (.inl rfl)) with
      ⟨heq, -⟩ | ⟨b, s', heq, hnew⟩
    · rw [heq]
      exact hid
    · rw [heq]
      have hd' := hnew.settled hid (by decide)
      exact (setWord_changes hd' dirIndex_lt hnew.entry_ne_zero tableIndex_lt _).settled
  · exact hid

theorem vmmInit_empty : (vmmInit 0x100000 .empty).Settled 0x100000 := by
  refine vmmInit_settled (by decide) (fun b hb heq => ?_) fun _ _ => rfl
  have haddr : 0x100000 = pageSize * b + pageStart := (congrArg BitVec.toNat heq).trans (toNat_blockAddr hb)
  unfold pageStart at haddr
  omega

variable {k : Word} {i : Nat}

theorem copyPage_changes (hd : s.Settled d) (hi : i < pagedirSize) (hne : s.word d i ≠ 0) (q : Word) :
    Changes s (s.copyPage (s.table d i) q) d := by
  refine changes_of_table hd hi hne (fun p hp hpt j hj => ?_) fun _ hf => hf
  rw [word_copyPage aligned_table hp hj, if_neg hpt]

theorem dirIndex_kernelSpaceEnd (hi : i < pagedirSize) :
    dirIndex (BitVec.ofNat 32 (i * kernelSpaceEnd.toNat)) = i := by
  have hend : kernelSpaceEnd.toNat = 0x401000 := rfl
  unfold pagedirSize at hi
  rw [dirIndex_eq, toNat_ofNat, hend, Nat.mod_eq_of_lt (by omega)]
  omega

theorem flags_lt (w : Word) : (w <<< 20 >>> 20).toNat < pageSize := by
  rw [toNat_ushiftRight, toNat_shiftLeft, Nat.shiftLeft_eq, Nat.shiftRight_eq_div_pow, pageSize]
  omega

/-- One pass for an entry that is present. -/
def cloneEntry (k d : Word) (i : Nat) (s : Paging) : Bool × Paging :=
  let r := vmmCreatePageTable d (BitVec.ofNat 32 (i * kernelSpaceEnd.toNat)) (s.word k i <<< 20 >>> 20) s
  if r.1 then
    (true, r.2.copyPage (r.2.word d i >>> 12 <<< 12) (r.2.word k i >>> 12 <<< 12))
  else (false, r.2)

theorem cloneFrom_succ : cloneFrom k d (left + 1) i (BitVec.ofNat 32 (i * kernelSpaceEnd.toNat)) s =
    if s.word k i &&& pagePresent ≠ 0 then
      if (cloneEntry k d i s).1 then
        cloneFrom k d left (i + 1) (BitVec.ofNat 32 ((i + 1) * kernelSpaceEnd.toNat)) (cloneEntry k d i s).2
      else (false, (cloneEntry k d i s).2)
    else cloneFrom k d left (i + 1) (BitVec.ofNat 32 ((i + 1) * kernelSpaceEnd.toNat)) s := by
  have haddr : BitVec.ofNat 32 (i * kernelSpaceEnd.toNat) + kernelSpaceEnd =
      BitVec.ofNat 32 ((i + 1) * kernelSpaceEnd.toNat) := by
    rw [Nat.add_one_mul, ofNat_add, ofNat_toNat, setWidth_eq]
  rw [cloneFrom, haddr, cloneEntry]
  obtain ⟨ok, t⟩ := vmmCreatePageTable d (BitVec.ofNat 32 (i * kernelSpaceEnd.toNat))
    (s.word k i <<< 20 >>> 20) s
  cases ok <;> rfl

theorem cloneEntry_cases (hd : s.Settled d) (hi : i < pagedirSize) :
    (cloneEntry k d i s = (false, s)) ∨
    ∃ b s', NewTable s s' d i b (s.word k i <<< 20 >>> 20) ∧
      cloneEntry k d i s = (true, s'.copyPage (s'.table d i) (s'.table k i)) := by
  rcases vmmCreatePageTable_cases (BitVec.ofNat 32 (i * kernelSpaceEnd.toNat))
    (s.word k i <<< 20 >>> 20) hd.aligned (hd.not_free d (.inl rfl)) with
    ⟨heq, -⟩ | ⟨b, s', heq, hnew⟩
  · left
    rw [cloneEntry, heq]
    rfl
  · right
    rw [dirIndex_kernelSpaceEnd hi] at hnew
    refine ⟨b, s', hnew, ?_⟩
    rw [cloneEntry, heq, shift_eq_and_flagMask, shift_eq_and_flagMask]
    rfl

theorem cloneEntry_changes (hd : s.Settled d) (hi : i < pagedirSize) :
    Changes s (cloneEntry k d i s).2 d := by
  rcases cloneEntry_cases hd hi with heq | ⟨b, s', hnew, heq⟩
  · rw [heq]
    exact .refl hd
  · rw [heq]
    have hchange := hnew.changes hd (flags_lt _)
    exact hchange.trans (copyPage_changes hchange.settled hi hnew.entry_ne_zero _)

theorem cloneFrom_changes : ∀ {i : Nat} {s : Paging}, s.Settled d → i + left = pagedirSize →
    Changes s (cloneFrom k d left i (BitVec.ofNat 32 (i * kernelSpaceEnd.toNat)) s).2 d := by
  induction left with
  | zero => exact fun hd _ => .refl hd
  | succ left ih =>
    intro i s hd hlen
    rw [cloneFrom_succ]
    have hentry := cloneEntry_changes (k := k) hd (i := i) (by omega)
    split
    · split
      · exact hentry.trans (ih hentry.settled (by omega))
      · exact hentry
    · exact ih hd (by omega)

/-- The entry `j` of the directory is a copy: it has the flags, and a table with the same words. -/
structure Copied (s₀ s : Paging) (k d : Word) (j : Nat) : Prop where
  zero_iff : s.word d j = 0 ↔ s₀.word k j = 0
  flags : s.word d j &&& 0xFFF#32 = s₀.word k j &&& 0xFFF#32
  table : s₀.word k j ≠ 0 → ∀ l < pagedirSize, s.word (s.table d j) l = s₀.word (s₀.table k j) l

/-- The state at the head of the loop: the kernel directory is as it was, and the entries before `i` are
copied. -/
structure Cloned (s₀ s : Paging) (k d : Word) (i : Nat) : Prop where
  kept : Kept s₀ s k
  settled : s.Settled d
  apart : s.Apart d k
  done : ∀ j < i, Copied s₀ s k d j
  todo : ∀ j, i ≤ j → j < pagedirSize → s.word d j = 0

variable {s₀ : Paging}

theorem Kept.trans (hd : s1.Settled d) (h1 : Kept s1 s2 d) (h2 : Kept s2 s3 d) :
    Kept s1 s3 d where
  word := fun p hp ha j hj => by
    rw [h2.word p ((h1.holds_iff hd).2 hp) ha j hj, h1.word p hp ha j hj]
  free := fun p hp => h1.free p (h2.free p hp)

theorem or_flags_and {p w : Word} (hp : Aligned p) :
    (p ||| w <<< 20 >>> 20) &&& 0xFFF#32 = w &&& 0xFFF#32 := by
  refine eq_of_getLsbD_eq fun i hi => ?_
  rw [getLsbD_and, getLsbD_and, getLsbD_or, getLsbD_ushiftRight, getLsbD_shiftLeft, getLsbD_flagMask hi]
  rcases lt_or_ge i 12 with hlow | hhigh
  · rw [getLsbD_of_aligned hp hlow]
    simp [hlow, show 20 + i < 32 by omega]
  · simp [Nat.not_lt.2 hhigh]

theorem Cloned.skip (h : Cloned s₀ s k d i) (hi : i < pagedirSize) (hzero : s₀.word k i = 0) :
    Cloned s₀ s k d (i + 1) where
  kept := h.kept
  settled := h.settled
  apart := h.apart
  done := by
    intro j hj
    rcases Nat.lt_succ_iff_lt_or_eq.1 hj with hj | rfl
    · exact h.done j hj
    · have hd0 := h.todo j (le_refl j) hi
      exact ⟨⟨fun _ => hzero, fun _ => hd0⟩, by rw [hzero, hd0], fun hne => absurd hzero hne⟩
  todo := fun j hj hj' => h.todo j (by omega) hj'

theorem Cloned.copy (h : Cloned s₀ s k d i) (hk : s₀.Settled k) (hi : i < pagedirSize) (hne : s₀.word k i ≠ 0)
    (hok : (cloneEntry k d i s).1 = true) : Cloned s₀ (cloneEntry k d i s).2 k d (i + 1) := by
  have hk' := h.kept.settled hk
  have hchange := cloneEntry_changes (k := k) h.settled hi
  have hkept := hchange.kept hk' h.apart
  rcases cloneEntry_cases h.settled hi with heq | ⟨b, s', hnew, heq⟩
  · rw [heq] at hok
    cases hok
  · rw [heq] at hchange hkept ⊢
    have hd := h.settled
    have hdb : d ≠ blockAddr b := fun heq => hd.not_free d (.inl rfl) (heq ▸ hnew.isFree)
    have htable := hnew.table_eq (flags_lt _)
    have hkept' : Kept s s' k := (hnew.changes hd (flags_lt _)).kept hk' h.apart
    -- what the copy leaves: every page but the new table
    have hother : ∀ p, Aligned p → p ≠ blockAddr b → ∀ l < pagedirSize,
        (s'.copyPage (s'.table d i) (s'.table k i)).word p l = s'.word p l := by
      intro p hp hpb l hl
      rw [word_copyPage aligned_table hp hl, htable, if_neg hpb]
    have hdir : ∀ j < pagedirSize, j ≠ i →
        (s'.copyPage (s'.table d i) (s'.table k i)).word d j = s.word d j := by
      intro j hj hji
      rw [hother d hd.aligned hdb j hj, hnew.word d hd.aligned hdb j hj fun _ => hji]
    have hki : s.word k i = s₀.word k i := h.kept.dir_eq hk hi
    refine ⟨h.kept.trans hk hkept, hchange.settled, hchange.apart hk' h.apart, ?_, ?_⟩
    · intro j hj
      rcases Nat.lt_succ_iff_lt_or_eq.1 hj with hj | rfl
      · have hdj := hdir j (by omega) (by omega)
        have hdone := h.done j hj
        have htj : (s'.copyPage (s'.table d i) (s'.table k i)).table d j = s.table d j :=
          congrArg (· &&& ~~~0xFFF#32) hdj
        refine ⟨by rw [hdj]; exact hdone.zero_iff, by rw [hdj]; exact hdone.flags, ?_⟩
        intro hkj l hl
        have hheld : s.Holds d (s.table d j) := .inr ⟨j, by omega, fun h0 => hkj (hdone.zero_iff.1 h0), rfl⟩
        have htb : s.table d j ≠ blockAddr b := fun heq =>
          hd.not_free _ hheld (heq ▸ hnew.isFree)
        rw [htj, hother _ aligned_table htb l hl, hnew.word _ aligned_table htb l hl fun heq =>
          absurd heq (hd.table_ne j (by omega) fun h0 => hkj (hdone.zero_iff.1 h0)),
          hdone.table hkj l hl]
      · have hentry : (s'.copyPage (s'.table d j) (s'.table k j)).word d j =
            blockAddr b ||| s.word k j <<< 20 >>> 20 := by
          rw [hother d hd.aligned hdb j hi, hnew.entry]
        have htj : (s'.copyPage (s'.table d j) (s'.table k j)).table d j = s'.table d j := by
          rw [Paging.table, hentry, ← hnew.entry]
          rfl
        refine ⟨⟨fun h0 => ?_, fun h0 => absurd h0 hne⟩, ?_, fun _ l hl => ?_⟩
        · rw [hentry] at h0
          exact absurd h0 (or_ne_zero (blockAddr_ne_zero hnew.block))
        · rw [hentry, or_flags_and (aligned_blockAddr hnew.block), hki]
        · rw [htj, word_copyPage aligned_table aligned_table hl, if_pos rfl,
            hkept'.tableWord_eq hk' hi (hki ▸ hne) hl, h.kept.tableWord_eq hk hi hne hl]
    · intro j hj hj'
      rw [hdir j hj' (by omega)]
      exact h.todo j (by omega) hj'

theorem cloneFrom_cloned (hk : s₀.Settled k)
    (hpresent : ∀ i < pagedirSize, s₀.word k i ≠ 0 → s₀.word k i &&& pagePresent ≠ 0) :
    ∀ {i : Nat} {s : Paging}, Cloned s₀ s k d i → i + left = pagedirSize →
    (cloneFrom k d left i (BitVec.ofNat 32 (i * kernelSpaceEnd.toNat)) s).1 = true →
    Cloned s₀ (cloneFrom k d left i (BitVec.ofNat 32 (i * kernelSpaceEnd.toNat)) s).2 k d pagedirSize := by
  induction left with
  | zero =>
    intro i s h hlen _
    exact hlen ▸ h
  | succ left ih =>
    intro i s h hlen
    have hi : i < pagedirSize := by omega
    rw [cloneFrom_succ, h.kept.dir_eq hk hi]
    split
    · next hp =>
      have hne : s₀.word k i ≠ 0 := by
        intro h0
        rw [h0] at hp
        exact hp rfl
      split
      · next hok => exact ih (h.copy hk hi hne hok) (by omega)
      · intro hfail
        cases hfail
    · next hp =>
      have hzero : s₀.word k i = 0 := by
        by_contra hne
        exact hp (hpresent i hi hne)
      exact ih (h.skip hi hzero) (by omega)

/-- The state behind a call. -/
def Call.run (s : Paging) : Call → Paging
  | .pageTableMalloc => (Vmm.pageTableMalloc s).2
  | .mapPhys pdir virt phys flags => (vmmMapPhys pdir virt phys flags s).2
  | .unmapPhys pdir virt => vmmUnmapPhys pdir virt s

/-- The call is a mapping or an unmapping in the directory. -/
def Call.On (d : Word) : Call → Prop
  | .pageTableMalloc => False
  | .mapPhys pdir _ _ flags => pdir = d ∧ flags.toNat < pageSize
  | .unmapPhys pdir _ => pdir = d

/-- A mapping or an unmapping in one of two directories. -/
def OnEither (k d : Word) (s : Paging) (call : Call) (s' : Paging) : Prop :=
  (call.On k ∨ call.On d) ∧ s' = call.run s

/-- Two directories that do not depend on one another. -/
structure Separate (s : Paging) (k d : Word) : Prop where
  left : s.Settled k
  right : s.Settled d
  apart : s.Apart d k

variable {call : Call}

theorem Call.On.changes (h : call.On d) (hd : s.Settled d) : Changes s (call.run s) d := by
  cases call with
  | pageTableMalloc => exact h.elim
  | mapPhys pdir virt phys flags =>
    obtain ⟨rfl, hflags⟩ := h
    exact vmmMapPhys_changes virt phys hd hflags
  | unmapPhys pdir virt =>
    obtain rfl : pdir = d := h
    exact vmmUnmapPhys_changes hd

theorem Separate.symm (h : Separate s k d) : Separate s d k := ⟨h.right, h.left, h.apart.symm⟩

theorem Separate.kept (h : Separate s k d) (hcall : call.On d) : Kept s (call.run s) k :=
  (hcall.changes h.right).kept h.left h.apart

theorem Separate.run (h : Separate s k d) (hcall : call.On d) : Separate (call.run s) k d where
  left := (h.kept hcall).settled h.left
  right := (hcall.changes h.right).settled
  apart := (hcall.changes h.right).apart h.left h.apart

theorem Separate.step (h : Separate s k d) (hstep : OnEither k d s call s') : Separate s' k d := by
  obtain ⟨hk | hd, rfl⟩ := hstep
  · exact (h.symm.run hk).symm
  · exact h.run hd

theorem createAddressSpace_cloned (hk : s.Settled k)
    (hpresent : ∀ i < pagedirSize, s.word k i ≠ 0 → s.word k i &&& pagePresent ≠ 0)
    (h : createAddressSpace k s = (some d, s')) : Cloned s s' k d pagedirSize := by
  rw [createAddressSpace] at h
  rcases hmalloc : pageTableMalloc s with ⟨_ | d1, t⟩
  · rw [hmalloc] at h
    cases h
  · rw [hmalloc] at h
    have hnew := pageTableMalloc_newPage hmalloc
    have hstart : Cloned s t k d1 0 := ⟨hnew.kept hk, hnew.settled, hnew.apart hk,
      fun j hj => absurd hj (Nat.not_lt_zero j), fun j _ hj => hnew.zero j hj⟩
    have hloop := cloneFrom_cloned hk hpresent hstart (zero_add pagedirSize)
    dsimp only at h
    split at h
    · next hok =>
      obtain ⟨rfl, rfl⟩ := h
      exact hloop hok
    · cases h

theorem Cloned.separate (h : Cloned s s' k d pagedirSize) (hk : s.Settled k) : Separate s' k d :=
  ⟨h.kept.settled hk, h.settled, h.apart⟩

theorem Cloned.getPhysAddr_eq (h : Cloned s s' k d pagedirSize) (virt : Word) :
    getPhysAddr s' d virt = getPhysAddr s k virt := by
  have hcopy := h.done _ (@dirIndex_lt virt)
  rw [getPhysAddr, getPhysAddr]
  by_cases hzero : s.word k (dirIndex virt) = 0
  · rw [if_pos (hcopy.zero_iff.2 hzero), if_pos hzero]
  · rw [if_neg fun h0 => hzero (hcopy.zero_iff.1 h0), if_neg hzero, hcopy.table hzero _ tableIndex_lt]

/-- When `create_address_space` succeeds, for a kernel directory that is settled and whose entries are
present, the new directory translates every address as the kernel directory does, its entries have the same
flags, and so do those of its tables; none of the tables is shared; and whatever is mapped or unmapped in
the two directories later, a call on one never changes a translation of the other. -/
theorem createAddressSpace_spec (hk : s.Settled k)
    (hpresent : ∀ i < pagedirSize, s.word k i ≠ 0 → s.word k i &&& pagePresent ≠ 0)
    (h : createAddressSpace k s = (some d, s')) :
    (∀ virt, getPhysAddr s' d virt = getPhysAddr s' k virt) ∧
    (∀ virt, getPhysAddr s' k virt = getPhysAddr s k virt) ∧
    (∀ i < pagedirSize, s'.word d i &&& 0xFFF#32 = s'.word k i &&& 0xFFF#32 ∧
      (s'.word k i ≠ 0 → ∀ j < pagedirSize,
        s'.word (s'.table d i) j = s'.word (s'.table k i) j)) ∧
    (∀ i < pagedirSize, ∀ j < pagedirSize, s'.word d i ≠ 0 → s'.word k j ≠ 0 → s'.table d i ≠ s'.table k j) ∧
    ∀ calls t, Run (OnEither k d) s' calls t → ∀ call : Call,
      (call.On d → ∀ virt, getPhysAddr (call.run t) k virt = getPhysAddr t k virt) ∧
      (call.On k → ∀ virt, getPhysAddr (call.run t) d virt = getPhysAddr t d virt) := by
  have hclone := createAddressSpace_cloned hk hpresent h
  have hkernel := fun virt => hclone.kept.getPhysAddr_eq hk virt
  refine ⟨fun virt => (hclone.getPhysAddr_eq virt).trans (hkernel virt).symm, hkernel, ?_, ?_, ?_⟩
  · intro i hi
    have hcopy := hclone.done i hi
    rw [hclone.kept.dir_eq hk hi]
    refine ⟨hcopy.flags, fun hne j hj => ?_⟩
    rw [hcopy.table hne j hj, hclone.kept.tableWord_eq hk hi hne hj]
  · intro i hi j hj hdi hkj heq
    exact hclone.apart _ (.inr ⟨i, hi, hdi, rfl⟩) (.inr ⟨j, hj, hkj, heq⟩)
  · intro calls t hrun call
    have hsep : Separate t k d := hrun.invariant (I := fun t => Separate t k d)
      (hclone.separate hk) fun _ _ _ h hs => h.step hs
    exact ⟨fun hd virt => (hsep.kept hd).getPhysAddr_eq hsep.left virt,
      fun hk' virt => (hsep.symm.kept hk').getPhysAddr_eq hsep.right virt⟩

/-- A kernel directory with one table, from an empty memory. -/
theorem createAddressSpace_spec_one :
    getPhysAddr (createAddressSpace 0x100000 (vmmMapPhys 0x100000 0x3000 0x5000 3 .empty).2).2
      0x201000 0x3008 = 0x5000 := by
  have hempty : Paging.empty.Settled 0x100000 := by
    refine settled_of_zero (by decide) (fun b hb heq => ?_) fun _ _ => rfl
    have haddr : 0x100000 = pageSize * b + pageStart := (congrArg BitVec.toNat heq).trans (toNat_blockAddr hb)
    unfold pageStart at haddr
    omega
  have hk := (vmmMapPhys_changes 0x3000 0x5000 hempty (show (3 : Word).toNat < pageSize by decide)).settled
  obtain ⟨s, hs⟩ : ∃ s, s = (vmmMapPhys 0x100000 0x3000 0x5000 3 .empty).2 := ⟨_, rfl⟩
  rw [← hs] at hk ⊢
  have hcreate : (createAddressSpace 0x100000 s).1 = some 0x201000 := by
    rw [hs]
    decide +kernel
  have hpresent : ∀ i < pagedirSize, s.word 0x100000 i ≠ 0 → s.word 0x100000 i &&& pagePresent ≠ 0 := by
    rw [hs]
    decide +kernel
  have hpair : createAddressSpace 0x100000 s = (some 0x201000, (createAddressSpace 0x100000 s).2) :=
    Prod.ext hcreate rfl
  obtain ⟨hcopy, hkernel, -⟩ := createAddressSpace_spec hk hpresent hpair
  rw [hcopy, hkernel, hs]
  decide

end HeisenKernel.Vmm
