import HeisenKernel.Imaging.Zlib
import HeisenKernel.Lib.CanonicalCode
import Mathlib.Data.List.Infix

/-!
# Code trees hold canonical codes

`BitListToTree` gives every symbol of the alphabet the word of the canonical code for the lengths it
is called with (`bitListToTree_leaf`), if the lengths satisfy the inequality of Kraft and are not
all zero.
-/

namespace HeisenKernel.Imaging

open HeisenKernel.Lib Function List Canonical

namespace HuffmanNode

/-- The node at the end of a way through the tree; a set bit goes right. -/
def walk : HuffmanNode → List Bool → HuffmanNode
  | t, [] => t
  | null, _ :: _ => null
  | node _ left right, b :: bs => if b then walk right bs else walk left bs

/-- The node with another symbol. -/
def withSymbol (symbol : Nat) : HuffmanNode → HuffmanNode
  | null => null
  | node _ left right => node symbol left right

/-- A node without children. -/
abbrev leaf (symbol : Nat) : HuffmanNode := node symbol null null

@[simp] theorem walk_null (bs : List Bool) : walk null bs = null := by
  cases bs with
  | nil => rfl
  | cons b bs => rfl

theorem walk_orNew {t : HuffmanNode} {w : List Bool} (hw : w ≠ []) : t.orNew.walk w = t.walk w := by
  cases t with
  | node s l r => rfl
  | null =>
    cases w with
    | nil => exact absurd rfl hw
    | cons b bs => cases b <;> simp [orNew, new, walk]

theorem orNew_ne_null (t : HuffmanNode) : t.orNew ≠ null := by
  cases t <;> simp [orNew, new]

theorem walk_insert_self (c symbol n : Nat) {t : HuffmanNode} (ht : t ≠ null) :
    (t.insert c symbol n).walk (bigEndian n c) = withSymbol symbol (t.walk (bigEndian n c)).orNew := by
  induction n generalizing t with
  | zero =>
    cases t with
    | null => exact absurd rfl ht
    | node s l r => rfl
  | succ n ih =>
    cases t with
    | null => exact absurd rfl ht
    | node s l r =>
      have horNew (u : HuffmanNode) :
          (u.orNew.walk (bigEndian n c)).orNew = (u.walk (bigEndian n c)).orNew := by
        rcases eq_or_ne (bigEndian n c) [] with h | h
        · rw [h]
          cases u <;> rfl
        · rw [walk_orNew h]
      rw [insert, bigEndian]
      cases hb : c.testBit n with
      | true => simp only [if_true, walk, ih (orNew_ne_null r), horNew]
      | false => simp only [Bool.false_eq_true, if_false, walk, ih (orNew_ne_null l), horNew]

theorem walk_insert_of_not_isPrefix (ht : t ≠ null)
    {w : List Bool} (hw : ¬ w <+: bigEndian n c) : (t.insert c symbol n).walk w = t.walk w := by
  induction n generalizing t w with
  | zero =>
    cases t with
    | null => exact absurd rfl ht
    | node s l r =>
      cases w with
      | nil => exact absurd nil_prefix hw
      | cons b bs => rfl
  | succ n ih =>
    cases t with
    | null => exact absurd rfl ht
    | node s l r =>
      obtain _ | ⟨b, bs⟩ := w
      · exact absurd nil_prefix hw
      rw [insert]
      rw [bigEndian, cons_prefix_cons] at hw
      cases hb : c.testBit n <;> cases b <;> simp only [if_true, Bool.false_eq_true, if_false, walk]
      · have hbs : ¬ bs <+: bigEndian n c := fun h => hw ⟨hb.symm, h⟩
        rw [ih (orNew_ne_null l) hbs, walk_orNew]
        rintro rfl
        exact hbs nil_prefix
      · have hbs : ¬ bs <+: bigEndian n c := fun h => hw ⟨hb.symm, h⟩
        rw [ih (orNew_ne_null r) hbs, walk_orNew]
        rintro rfl
        exact hbs nil_prefix

theorem insert_ne_null (ht : t ≠ null) : t.insert c symbol n ≠ null := by
  cases t with
  | null => exact absurd rfl ht
  | node s l r =>
    cases n with
    | zero => simp [insert]
    | succ n =>
      rw [insert]
      split <;> simp

end HuffmanNode

open HuffmanNode

variable {ls : List Nat} {m : Nat}

/-- The tree holds the words of the used symbols below `n`, and nothing else. -/
structure Holds (ls : List Nat) (n : Nat) (t : HuffmanNode) : Prop where
  ne_null : t ≠ null
  leaf : ∀ i < n, ls.getD i 0 ≠ 0 → t.walk (codeword ls i) = leaf i
  ways : ∀ w, t.walk w ≠ null → w = [] ∨ ∃ i < n, ls.getD i 0 ≠ 0 ∧ w <+: codeword ls i

theorem holds_new : Holds ls 0 HuffmanNode.new := by
  refine ⟨by simp [new], by simp, fun w hw => .inl ?_⟩
  cases w with
  | nil => rfl
  | cons b bs => cases b <;> simp [new, walk] at hw

theorem Holds.skip (h : Holds ls n t) (hn : ls.getD n 0 = 0) : Holds ls (n + 1) t := by
  refine ⟨h.ne_null, fun i hi hu => ?_, fun w hw => ?_⟩
  · rcases Nat.lt_succ_iff_lt_or_eq.1 hi with hlt | rfl
    · exact h.leaf i hlt hu
    · exact absurd hn hu
  · rcases h.ways w hw with rfl | ⟨i, hi, hu, hpre⟩
    · exact .inl rfl
    · exact .inr ⟨i, Nat.lt_succ_of_lt hi, hu, hpre⟩

theorem Holds.insert (hk : Canonical.Kraft ls m) {n : Nat} {t : HuffmanNode} (h : Holds ls n t)
    (hn : ls.getD n 0 ≠ 0) : Holds ls (n + 1) (t.insert (code ls n) n (ls.getD n 0)) := by
  have hfree : t.walk (codeword ls n) = null := by
    by_contra hne
    rcases h.ways _ hne with hnil | ⟨i, hi, hu, hpre⟩
    · have := length_codeword ls n
      rw [hnil] at this
      exact hn this.symm
    · exact hk.not_isPrefix_codeword hn hu (Nat.ne_of_gt hi) hpre
  refine ⟨insert_ne_null h.ne_null, fun i hi hu => ?_, fun w hw => ?_⟩
  · rcases Nat.lt_succ_iff_lt_or_eq.1 hi with hlt | rfl
    · rw [walk_insert_of_not_isPrefix h.ne_null (hk.not_isPrefix_codeword hu hn (ne_of_lt hlt))]
      exact h.leaf i hlt hu
    · rw [codeword, walk_insert_self _ _ _ h.ne_null, ← codeword, hfree]
      rfl
  · by_cases hpre : w <+: codeword ls n
    · exact .inr ⟨n, Nat.lt_succ_self n, hn, hpre⟩
    · rw [walk_insert_of_not_isPrefix h.ne_null hpre] at hw
      rcases h.ways w hw with rfl | ⟨i, hi, hu, hpre'⟩
      · exact .inl rfl
      · exact .inr ⟨i, Nat.lt_succ_of_lt hi, hu, hpre'⟩

theorem nextCodes_eq (n : Nat) :
    nextCodes (blCount ls) n = firstCode ls n := by
  induction n using nextCodes.induct with
  | case1 => rfl
  | case2 => rfl
  | case3 bits ih =>
    have hcount : blCount ls (bits + 1) = ls.count (bits + 1) := by
      rw [blCount, count_eq_countP]
      refine countP_congr fun item _ => ?_
      simp only [decide_eq_true_eq, beq_iff_eq]
      omega
    rw [nextCodes, ih, hcount, Nat.shiftLeft_eq, Nat.pow_one, mul_comm]
    exact (congrArg (2 * ·) (congrArg _ (used_succ bits))).symm

theorem count_take_succ (n l : Nat) (hl : l ≠ 0) :
    (ls.take (n + 1)).count l = (ls.take n).count l + if ls.getD n 0 = l then 1 else 0 := by
  rw [take_add_one, count_append, getD_eq_getElem?_getD]
  cases ls[n]? with
  | none => simp [hl.symm]
  | some a => simp [count_singleton]

theorem le_foldl_max (ls : List Nat) (init : Nat) :
    init ≤ ls.foldl (fun maxBits d => if d > maxBits then d else maxBits) init := by
  induction ls generalizing init with
  | nil => exact le_refl init
  | cons d ls ih =>
    rw [foldl_cons]
    refine le_trans ?_ (ih _)
    split <;> omega

theorem le_foldl_max_of_mem (hl : l ∈ ls) (init : Nat) :
    l ≤ ls.foldl (fun maxBits d => if d > maxBits then d else maxBits) init := by
  induction ls generalizing init with
  | nil => exact absurd hl not_mem_nil
  | cons d ls ih =>
    rw [foldl_cons]
    rcases mem_cons.1 hl with rfl | hl
    · refine le_trans ?_ (le_foldl_max ls _)
      split <;> omega
    · exact ih hl _

theorem maxBits_ne_zero (hl : l ∈ ls) (h0 : l ≠ 0) : maxBits ls ≠ 0 := by
  have hle : l ≤ maxBits ls := le_foldl_max_of_mem hl 0
  omega

/-- The tree holds the symbols below `n`, and the next codes are those behind them. -/
structure Inserted (ls : List Nat) (n : Nat) (s : HuffmanNode × (Nat → Nat)) : Prop where
  holds : Holds ls n s.1
  next : ∀ l, l ≠ 0 → s.2 l = firstCode ls l + (ls.take n).count l

theorem Inserted.insertSymbol (hk : Canonical.Kraft ls m)
    (h : Inserted ls n s) : Inserted ls (n + 1) (insertSymbol ls s n) := by
  unfold Imaging.insertSymbol
  dsimp only
  split
  · next hn =>
    refine ⟨h.holds.skip hn, fun l hl => ?_⟩
    rw [h.next l hl, count_take_succ n l hl, if_neg (by rw [hn]; exact hl.symm), add_zero]
  · next hn =>
    refine ⟨?_, fun l hl => ?_⟩
    · rw [h.next _ hn]
      exact h.holds.insert hk hn
    · rw [count_take_succ n l hl]
      dsimp only
      rcases eq_or_ne l (ls.getD n 0) with rfl | hnl
      · rw [update_self, h.next _ hn, if_pos rfl, add_assoc]
      · rw [Function.update_of_ne hnl, h.next l hl, if_neg hnl.symm, add_zero]

theorem inserted (hk : Canonical.Kraft ls m) (n : Nat) :
    Inserted ls n ((List.range n).foldl (insertSymbol ls) (HuffmanNode.new, nextCodes (blCount ls))) := by
  induction n with
  | zero => exact ⟨holds_new, fun l _ => nextCodes_eq l⟩
  | succ n ih =>
    rw [range_succ, foldl_append]
    exact ih.insertSymbol hk

theorem bitListToTree_leaf (hk : Canonical.Kraft ls m) (hl : l ∈ ls) (h0 : l ≠ 0)
    (alphabetSize : Nat) :
    ∃ t, bitListToTree ls alphabetSize = .ok t ∧
      ∀ i < alphabetSize, ls.getD i 0 ≠ 0 → t.walk (codeword ls i) = leaf i :=
  ⟨_, if_neg (maxBits_ne_zero hl h0), (inserted hk alphabetSize).holds.leaf⟩

end HeisenKernel.Imaging
