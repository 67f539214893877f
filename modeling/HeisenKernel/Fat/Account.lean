import HeisenKernel.Fat.Calls

/-!
# Accounting for the clusters

On an exact volume the entries of the table that are not free are those of the clusters of the tree
(`Exact`). The creation of files and directories keeps a volume exact.
-/

namespace HeisenKernel

open Lib Nat List

/-- The call is safe and writes no content. -/
def FatCall.Sparing (g : Geometry) (s : Fat) (call : FatCall) : Prop :=
  call.Safe g s ∧
    match call with
    | createFile _ | createDirectory _ => True
    | writeFile path _ len create => len = 0 ∨ NoFile g s path create

/-- The chain of the file with the path has as many clusters as `len` bytes take. -/
def ChainFits (g : Geometry) (s : Fat) (path : List UInt8) (len : Nat) : Prop :=
  ∃ e l, getEntryByPath g path s = .ok (some e, s) ∧ NodeChain g s (some e.place) l ∧
    l.length = (len + g.clusterSize - 1) / g.clusterSize

/-- The call returns and the volume is exact; if content was written, the chain of the file is as long
as it takes. -/
def AccountOk (g : Geometry) (s : Fat) (call : FatCall) : Prop :=
  ∃ r s', call.exec g s = .ok (r, s') ∧ Exact g s' ∧
    match call with
    | .createFile _ | .createDirectory _ => True
    | .writeFile path _ len _ => r = 0 → 0 < len → ChainFits g s' path len

variable {g : Geometry} {s s' : Fat}

theorem requiredClusters_eq (hg : g.WellFormed) (len : Nat) :
    requiredClusters g len = (len + g.clusterSize - 1) / g.clusterSize := by
  have hpos : 0 < g.clusterSize := by
    rw [clusterSize_eq hg]
    exact mul_pos (by have := hg.bytes_bounds; omega) hg.sectorsPerCluster.1
  have hdiv := div_add_mod len g.clusterSize
  unfold requiredClusters
  split
  · next hmod =>
    symm
    rw [Nat.div_eq_iff hpos]
    have := mod_lt len hpos
    rw [add_mul, one_mul, mul_comm]
    omega
  · next hmod =>
    symm
    rw [Nat.div_eq_iff hpos, mul_comm]
    omega

theorem SafeCreate.exact (attr : UInt8) (hg : g.WellFormed) (hs : s.Works) (hsound : Sound g s)
    (hexact : Exact g s) (h : SafeCreate g s path) (hattr : attr ≠ 0x08 ∧ attr ≠ 0x0F) :
    ∃ r s', createNewDirFileEntry g path attr s = .ok (r, s') ∧ Exact g s' := by
  rcases h.createNewDirFileEntry_cases hg hs hsound hattr with
    hexec | ⟨s', o, n, new, slots, slots', q, hexec, ho, hdir, hnew⟩
  · exact ⟨-1, s, hexec, hexact⟩
  · exact ⟨0, s', hexec, hnew.exact hg hsound ho hdir hexact⟩

theorem Overwritten.exact (hg : g.WellFormed) (hsound : Sound g s) (hexact : Exact g s)
    (hx : Node (Child g s) (some x)) (h : Overwritten g s s' x []) : Exact g s' := by
  obtain ⟨t, e, ht, hm⟩ := h
  cases ht with
  | empty => exact hm.exact hg hsound hx hexact
  | content _ hne _ => exact absurd rfl hne

theorem Overwritten.not_chainFits {e e' : FATEntryInfo} {new : List Nat} (hg : g.WellFormed)
    (hsound : Sound g s) (hx : Node (Child g s) (some e.place))
    (h : Overwritten g s s' e.place new) (hnew : new.length = requiredClusters g len)
    (hlen : 0 < len) (hentry : getEntryByPath g path s' = .ok (some e', s'))
    (hplace : e'.place = e.place) : ¬ChainFits g s' path len := by
  rintro ⟨e'', l, hentry', hl, hlength⟩
  rw [hentry] at hentry'
  cases hentry'
  have hpos : 0 < requiredClusters g len := by
    unfold requiredClusters
    split
    · exact succ_pos _
    · next hmod =>
      have hmod : len % g.clusterSize = 0 := by simpa using hmod
      have hdiv := div_add_mod len g.clusterSize
      refine pos_of_ne_zero fun hzero => ?_
      rw [hzero, hmod] at hdiv
      omega
  have hne : new ≠ [] := ne_nil_of_length_pos (by omega)
  rw [hplace] at hl
  rw [hl.unique hg (h.nodeChain_content hg hsound hx hne), length_cons, hnew,
    ← requiredClusters_eq hg] at hlength
  omega

theorem SafeWrite.account_iff (hg : g.WellFormed) (hs : s.Works) (hsound : Sound g s)
    (hexact : Exact g s) (h : SafeWrite g s len path create) (buffer : Buffer) :
    AccountOk g s (.writeFile path buffer len create) ↔ len = 0 ∨ NoFile g s path create := by
  rcases h.found hg hs hsound buffer with h | ⟨s1, names, name, o, childs, e, new, heq, hfound, hok,
    hexact1, -⟩
  · refine iff_of_true ⟨-1, s, h.writeFile_eq hs buffer len, hexact, ?_⟩ (.inr h)
    intro hr
    cases hr
  · obtain ⟨s', hexec, -, ⟨e', hentry, hplace⟩, hx, hover⟩ := hok.writeFile_ok hg hfound buffer
    have hexec' := heq.trans hexec
    constructor
    · rintro ⟨r, s'', hr, -, hfits⟩
      rw [show FatCall.exec g (.writeFile path buffer len create) s = .ok (0, s') from hexec'] at hr
      cases hr
      refine .inl (Nat.eq_zero_of_not_pos fun hpos => ?_)
      exact hover.not_chainFits hg hfound.sound hx hok.length hpos hentry hplace (hfits rfl hpos)
    · rintro (rfl | hno)
      · have hnew : new = [] := length_eq_zero_iff.1 (by rw [hok.length]; simp [requiredClusters])
        subst hnew
        exact ⟨0, s', hexec', hover.exact hg hfound.sound (hexact1 hexact) hx, fun _ h0 =>
          absurd h0 (lt_irrefl 0)⟩
      · rw [hno.writeFile_eq hs] at hexec'
        cases hexec'

theorem FatCall.Safe.account_iff (hg : g.WellFormed) (hsound : Sound g s)
    (hexact : Exact g s) (h : call.Safe g s) : AccountOk g s call ↔ call.Sparing g s := by
  have hs := h.1
  cases call with
  | createFile path =>
    obtain ⟨r, s', hexec, hexact'⟩ := h.2.exact 0 hg hs hsound hexact (by decide)
    exact iff_of_true ⟨r, s', hexec, hexact', trivial⟩ ⟨h, trivial⟩
  | createDirectory path =>
    obtain ⟨r, s', hexec, hexact'⟩ := h.2.exact 0x10 hg hs hsound hexact (by decide)
    exact iff_of_true ⟨r, s', hexec, hexact', trivial⟩ ⟨h, trivial⟩
  | writeFile path buffer len create =>
    rw [h.2.account_iff hg hs hsound hexact buffer]
    exact ⟨fun hno => ⟨h, hno⟩, fun hno => hno.2⟩

/-- In every run of sparing calls the entries of the table that are not free stay those of the clusters
of the tree; and in every state of such a run a safe call keeps the account exactly when it is
sparing. -/
theorem calls_exact_iff_sparing (hg : g.WellFormed) {s₀ : Fat} (hsound : Sound g s₀) (hexact : Exact g s₀)
    {calls : List FatCall} (hrun : Run (guarded (FatCall.Sparing g) (FatCall.Step g)) s₀ calls s) : Exact g
    s ∧ ∀ call, FatCall.Safe g s call → (AccountOk g s call ↔ call.Sparing g s) := by
  have hinv : Sound g s ∧ Exact g s := by
    refine hrun.invariant (I := fun s => Sound g s ∧ Exact g s) ⟨hsound, hexact⟩ ?_
    rintro s call s' ⟨hsound, hexact⟩ ⟨hsparing, r, hstep⟩
    obtain ⟨r₁, t₁, hexec₁, -, hsound', -⟩ := hsparing.1.stepOk hg hsound
    obtain ⟨r₂, t₂, hexec₂, hexact', -⟩ := (hsparing.1.account_iff hg hsound hexact).2 hsparing
    rw [hstep] at hexec₁ hexec₂
    cases hexec₁
    cases hexec₂
    exact ⟨hsound', hexact'⟩
  exact ⟨hinv.2, fun call hsafe => hsafe.account_iff hg hinv.1 hinv.2⟩

theorem emptyTable_exact : Exact smallFat32 (rootVolume emptyTable []) := by
  intro c hc
  constructor
  · intro htable
    refine ⟨none, [2], .root, rootVolume_nodeChain (by decide), ?_⟩
    rw [rootVolume_table c hc.2, emptyTable] at htable
    by_contra hne
    rw [if_neg (by simpa using hne)] at htable
    exact htable rfl
  · rintro ⟨o, l, -, hl, hcl⟩
    exact hl.taken c hcl

theorem emptyTable_supply : Supply smallFat32 (rootVolume emptyTable []) [3, 4] := by
  have hmem : ∀ {d : Nat}, d ∈ [3, 4] → d = 3 ∨ d = 4 := by simp
  refine ⟨by simp, by simp [rootVolume], by simp [smallFat32], ?_, ?_⟩
  · rintro c hc ⟨d, hd, hle⟩
    have := hmem hd
    have hc : 2 ≤ c := hc
    rw [rootVolume_table c (by omega), emptyTable]
    split
    · simp_all
    · simp only [zero_mod, true_iff, mem_cons, not_mem_nil, or_false]
      omega
  · rintro c hc ⟨d, hd, hle⟩
    have := hmem hd
    exact Geometry.readable_of_ne_fat12 smallFat32_wellFormed (by decide) hc (show c ≤ 65525 by omega)

/-- A run in which a file is created in the empty root directory. -/
theorem calls_exact_iff_sparing_createFile : ∃ s, Exact smallFat32 s ∧
    ∀ call, FatCall.Safe smallFat32 s call → (AccountOk smallFat32 s call ↔ call.Sparing smallFat32 s) := by
  obtain ⟨hsound, hsafe⟩ := emptyTable_safe
  obtain ⟨r, s, hexec, -⟩ := hsafe.stepOk smallFat32_wellFormed hsound
  have hrun : Run (guarded (FatCall.Sparing smallFat32) (FatCall.Step smallFat32))
      (rootVolume emptyTable []) [.createFile letterName] s :=
    Run.nil.snoc ⟨⟨hsafe, trivial⟩, r, hexec⟩
  exact ⟨s, calls_exact_iff_sparing smallFat32_wellFormed hsound emptyTable_exact hrun⟩

/-- A file with one byte of content is created: its chain has two clusters. -/
theorem writeFile_wastes_cluster : Sound smallFat32 (rootVolume emptyTable []) ∧
    Exact smallFat32 (rootVolume emptyTable []) ∧
    ∃ s, writeFile smallFat32 letterName (fun _ => 0) 1 true (rootVolume emptyTable []) =
      .ok (0, s) ∧ ¬ChainFits smallFat32 s letterName 1 := by
  have hg := smallFat32_wellFormed
  obtain ⟨s', childs, info, hwrite, hfound, hnew, hsup, -⟩ :=
    rootVolume_writeFile (by decide) (by decide) emptyTable_supply
  have hok : Overwritable smallFat32 s' info.entry 1 [4] := hnew.overwritable hsup (by decide)
  obtain ⟨s'', hexec, -, ⟨e', hentry, hplace⟩, hx, hover⟩ := hok.writeFile_ok hg hfound fun _ => 0
  exact ⟨rootVolume_sound (by decide), emptyTable_exact, s'', (hwrite _ _).trans hexec,
    hover.not_chainFits hg hfound.sound hx hok.length one_pos hentry hplace⟩

end HeisenKernel
