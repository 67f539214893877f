import HeisenKernel.Imaging.Inflate

/-!
# The canonical code in machine words

`BitListToTree` keeps the codes in words of 32 bits, so that it builds the tree of `bitListToTree` as long as no code
is longer than that (`bitListToTree32_eq`).
-/

namespace HeisenKernel.Imaging

open Lib.Canonical Function List HuffmanNode

/-- `HuffmanTree::Insert` (`pngformat.h:83`) from a node on. The processor shifts by the low five bits of `i`. -/
def HuffmanNode.insert32 (node : HuffmanNode) (codeWord symbol n : Nat) : HuffmanNode :=
  match node, n with
  | null, _ => null
  | .node _ left right, 0 => .node symbol left right
  | .node s left right, n + 1 =>
    if codeWord.testBit (n % 32) then .node s left (insert32 right.orNew codeWord symbol n)
    else .node s (insert32 left.orNew codeWord symbol n) right

/-- `nextCode` of `BitListToTree` (`pngformat.cpp:418`) before the codes are given out. -/
def nextCodes32 (blCount : Nat → Nat) : Nat → Nat
  | 0 => 0
  | 1 => 0
  | bits + 2 => u32 ((nextCodes32 blCount (bits + 1) + blCount (bits + 1)) <<< 1)

/-- One pass of the loop of `BitListToTree` over the alphabet (`pngformat.cpp:427`). -/
def insertSymbol32 (bitList : List Nat) (s : HuffmanNode × (Nat → Nat)) (i : Nat) : HuffmanNode × (Nat → Nat) :=
  let bitLen := bitList.getD i 0
  if bitLen = 0 then s
  else (s.1.insert32 (s.2 bitLen) i bitLen, update s.2 bitLen (u32 (s.2 bitLen + 1)))

/-- `ZLIBDecompressor::BitListToTree` (`pngformat.cpp:402`) for lengths of any size. -/
def bitListToTree32 (bitList : List Nat) (alphabetSize : Nat) : Exec HuffmanNode :=
  if maxBits bitList = 0 then .error .memory
  else .ok ((List.range alphabetSize).foldl (insertSymbol32 bitList)
    (HuffmanNode.new, nextCodes32 (blCount bitList))).1

/-- `DecodeSymbol` (`pngformat.cpp:358`), called `n` times. -/
def decodeSymbols (t : HuffmanNode) : Nat → BitReader → Exec (List Nat × BitReader)
  | 0, reader => .ok ([], reader)
  | n + 1, reader => do
    let (symbol, reader) ← decodeSymbol t reader
    let (symbols, reader) ← decodeSymbols t n reader
    return (symbol :: symbols, reader)

variable {ls : List Nat} {m : Nat}

theorem HuffmanNode.insert32_eq (t : HuffmanNode) (hn : n ≤ 32) :
    t.insert32 codeWord symbol n = t.insert codeWord symbol n := by
  induction n generalizing t with
  | zero => cases t <;> rfl
  | succ n ih =>
    cases t with
    | null => rfl
    | node s left right =>
      rw [insert32, insert, Nat.mod_eq_of_lt (by omega), ih _ (by omega), ih _ (by omega)]

theorem nextCodes32_eq (count : Nat → Nat) (l : Nat) : nextCodes32 count l = u32 (nextCodes count l) := by
  induction l using nextCodes.induct with
  | case1 => rfl
  | case2 => rfl
  | case3 bits ih =>
    rw [nextCodes32, nextCodes, ih, Nat.shiftLeft_eq, Nat.shiftLeft_eq]
    unfold u32
    omega

theorem insertSymbol32_eq (hk : Kraft ls m) (hle : ∀ l ∈ ls, l ≤ 32)
    (h : Inserted ls n s) : insertSymbol32 ls (s.1, fun l => u32 (s.2 l)) n =
      ((insertSymbol ls s n).1, fun l => u32 ((insertSymbol ls s n).2 l)) := by
  rw [insertSymbol32, insertSymbol]
  dsimp only
  split
  · rfl
  · next hn =>
    have hlen : ls.getD n 0 ≤ 32 := by
      rw [getD_eq_getElem _ _ (lt_length_of_getD hn)]
      exact hle _ (getElem_mem _)
    have hcode : s.2 (ls.getD n 0) < 2 ^ 32 := by
      rw [h.next _ hn]
      exact (hk.code_lt_two_pow hn).trans_le (Nat.pow_le_pow_right (by decide) hlen)
    rw [u32_eq hcode, insert32_eq _ hlen]
    refine congrArg _ (funext fun l => ?_)
    dsimp only
    rcases eq_or_ne l (ls.getD n 0) with rfl | hl
    · rw [update_self, update_self]
    · rw [update_of_ne hl, update_of_ne hl]

theorem bitListToTree32_eq (hk : Kraft ls m) (hle : ∀ l ∈ ls, l ≤ 32) (size : Nat) :
    bitListToTree32 ls size = bitListToTree ls size := by
  have hfold : ∀ n, (range n).foldl (insertSymbol32 ls) (new, nextCodes32 (blCount ls)) =
      (((range n).foldl (insertSymbol ls) (new, nextCodes (blCount ls))).1,
        fun l => u32 (((range n).foldl (insertSymbol ls) (new, nextCodes (blCount ls))).2 l)) := by
    intro n
    induction n with
    | zero => exact congrArg (Prod.mk _) (funext fun l => nextCodes32_eq _ l)
    | succ n ih =>
      rw [range_succ, foldl_append, foldl_append, ih]
      exact insertSymbol32_eq hk hle (inserted hk n)
  rw [bitListToTree32, bitListToTree, hfold]

/-- The tree decodes every sequence of symbols from their canonical words, as long as no word is longer than 32. -/
theorem decodeSymbols_codewords (hk : Kraft ls m) (hle : ∀ l ∈ ls, l ≤ 32) (hmax : 1 ≤ maxBits ls) (size : Nat) :
    ∃ t, bitListToTree32 ls size = .ok t ∧ ∀ symbols rest reader, (∀ i ∈ symbols, i < size ∧ ls.getD i 0 ≠ 0) →
      Ready reader (symbols.flatMap (codeword ls) ++ rest) →
      ∃ reader', decodeSymbols t symbols.length reader = .ok (symbols, reader') ∧ Ready reader' rest := by
  rw [bitListToTree32_eq hk hle]
  refine ⟨_, if_neg (Nat.ne_of_gt hmax), fun symbols => ?_⟩
  induction symbols with
  | nil => exact fun rest reader _ h => ⟨reader, rfl, h⟩
  | cons i symbols ih =>
    intro rest reader hsymbols h
    obtain ⟨hi, hsymbols⟩ := forall_mem_cons.1 hsymbols
    rw [flatMap_cons, append_assoc] at h
    obtain ⟨reader1, hdec, hr⟩ := decodeSymbol_walk ((inserted hk size).holds.leaf i hi.1 hi.2) h
    obtain ⟨reader', hrest, hr'⟩ := ih rest reader1 hsymbols hr
    refine ⟨reader', ?_, hr'⟩
    rw [length_cons, decodeSymbols, bind_of_ok hdec]
    dsimp only
    rw [bind_of_ok hrest]
    rfl

/-- Two words of one bit. -/
theorem decodeSymbols_codewords_pair : ∃ t, bitListToTree32 [1, 1] 2 = .ok t ∧
    ∃ reader', decodeSymbols t 3 (BitReader.new [5]) = .ok ([1, 0, 1], reader') ∧
      Ready reader' [false, false, false, false, false] := by
  obtain ⟨t, ht, hdec⟩ := @decodeSymbols_codewords [1, 1] 1 ⟨by decide, by decide⟩ (by decide) (by decide) 2
  exact ⟨t, ht, hdec [1, 0, 1] _ _ (by decide) ⟨by decide, by decide, by decide⟩⟩

/-- Words of up to 33 bits: that of symbol 32 begins with 1, but is put below the word 0 of symbol 0. -/
theorem bitListToTree32_wraps : ∃ t, bitListToTree32 (List.range' 1 33 ++ [33]) 34 = .ok t ∧
    decodeSymbol t (BitReader.new [0]) = .error .memory := by
  refine ⟨_, rfl, ?_⟩
  decide +kernel

end HeisenKernel.Imaging
