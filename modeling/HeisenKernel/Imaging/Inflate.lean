import HeisenKernel.Imaging.Deflate
import HeisenKernel.Imaging.Huffman
import HeisenKernel.Lib.Loop

/-!
# The decompressor inflates DEFLATE streams

`BitReader` and the functions of `ZLIBDecompressor` follow the relations of the DEFLATE format:
whenever the bits that are still to be read stand for something, the function that reads it returns
this and leaves the bits behind it.
-/

namespace HeisenKernel.Imaging

open HeisenKernel.Lib Deflate Canonical Function List Nat HuffmanNode

/-- The bits that a reader has not used yet. -/
def BitReader.bits (reader : BitReader) : List Bool :=
  (List.range reader.numBits).map reader.byte.toNat.testBit ++ bitsOf (reader.data.drop reader.pos)

/-- The reader stands in front of the bits `bs`. -/
structure Ready (reader : BitReader) (bs : List Bool) : Prop where
  numBits : reader.numBits < 8
  bits : reader.bits = bs
  length : bs.length ≤ 8 * reader.data.length

@[simp] theorem length_byteBits (b : UInt8) : (byteBits b).length = 8 := rfl

@[simp] theorem length_bitsOf (l : List UInt8) : (bitsOf l).length = 8 * l.length := by
  induction l with
  | nil => rfl
  | cons b l ih =>
    rw [bitsOf, flatMap_cons, length_append, ← bitsOf, ih, length_byteBits, length_cons]
    omega

theorem bitsOf_cons (b : UInt8) (l : List UInt8) : bitsOf (b :: l) = byteBits b ++ bitsOf l :=
  flatMap_cons ..

theorem bitsOf_append (l m : List UInt8) : bitsOf (l ++ m) = bitsOf l ++ bitsOf m :=
  flatMap_append ..

theorem range_map_testBit (n m : Nat) :
    (range (n + 1)).map m.testBit = m.testBit 0 :: (range n).map (m / 2).testBit := by
  rw [range_succ_eq_map, map_cons, map_map]
  congr 1
  refine map_congr_left fun k _ => ?_
  rw [comp_apply, testBit_succ]

variable {reader : BitReader} {rest : List Bool}

theorem Ready.length_mod (h : Ready reader bs) : bs.length % 8 = reader.numBits := by
  have := h.numBits
  rw [← h.bits, BitReader.bits, length_append, length_map, length_range, length_bitsOf]
  omega

theorem Ready.drop (h : Ready reader bs) :
    bs.drop (bs.length % 8) = bitsOf (reader.data.drop reader.pos) := by
  rw [h.length_mod, ← h.bits, BitReader.bits, drop_left' (by simp)]

theorem readByte_eq
    (hl : reader.data.drop reader.pos = b :: l) :
    ∃ reader', reader.readByte = .ok (b, reader') ∧ reader'.data = reader.data ∧
      reader'.data.drop reader'.pos = l ∧ reader'.numBits = 0 ∧ Ready reader' (bitsOf l) := by
  have hb : reader.data[reader.pos]? = some b := by
    rw [← head?_drop, hl, head?_cons]
  have hdrop : reader.data.drop (reader.pos + 1) = l := by
    rw [← drop_drop, hl, drop_one, tail_cons]
  refine ⟨{ reader with numBits := 0, pos := reader.pos + 1 }, ?_, rfl, hdrop, rfl, ?_, ?_, ?_⟩
  · rw [BitReader.readByte, bind_of_ok (readAt_eq hb)]
    rfl
  · exact zero_lt_succ 7
  · exact congrArg bitsOf hdrop
  · have hlen := congrArg length hl
    rw [length_drop, length_cons] at hlen
    rw [length_bitsOf]
    show 8 * l.length ≤ 8 * reader.data.length
    omega

theorem toNat_and_one (b : UInt8) : (b &&& 1).toNat = (b.toNat.testBit 0).toNat := by
  rcases mod_two_eq_zero_or_one b.toNat with h | h <;> simp [h]

theorem toNat_shiftRight_one (b : UInt8) : (b >>> 1).toNat = b.toNat / 2 := by
  show b.toNat >>> 1 = _
  rw [shiftRight_one]

theorem readBit_of_pos (reader : BitReader) (hn : reader.numBits = n + 1) (hlt : n < 8)
    (hlen : bs.length < 8 * reader.data.length) (h : reader.bits = b :: bs) :
    ∃ reader', reader.readBit = .ok (b.toNat, reader') ∧ Ready reader' bs := by
  rw [BitReader.bits, hn, range_map_testBit, cons_append, cons.injEq] at h
  obtain ⟨hb, hbs⟩ := h
  refine ⟨{ reader with numBits := n, byte := reader.byte >>> 1 }, ?_, hlt, ?_, hlen.le⟩
  · rw [BitReader.readBit, if_neg (by rw [hn]; exact succ_ne_zero n)]
    show Except.ok ((reader.byte &&& 1).toNat, _) = _
    rw [toNat_and_one, hb, hn]
    rfl
  · rw [← hbs, ← toNat_shiftRight_one]
    rfl

theorem Ready.readBit (h : Ready reader (b :: bs)) :
    ∃ reader', reader.readBit = .ok (b.toNat, reader') ∧ Ready reader' bs := by
  cases hn : reader.numBits with
  | succ n =>
    have hlt := h.numBits
    exact readBit_of_pos reader hn (by omega) h.length h.bits
  | zero =>
    -- the next byte is loaded first, and has all its bits
    have hbits := h.bits
    rw [BitReader.bits, hn, range_zero, map_nil, nil_append] at hbits
    cases hdata : reader.data.drop reader.pos with
    | nil =>
      rw [hdata] at hbits
      cases hbits
    | cons c l =>
      obtain ⟨reader', hread, hsame, hl, -, -⟩ := readByte_eq hdata
      rw [hdata] at hbits
      have hlen : bs.length < 8 * reader'.data.length := by
        rw [hsame]
        exact h.length
      have hbits' : ({ reader' with byte := c, numBits := 8 } : BitReader).bits = b :: bs :=
        (congrArg (byteBits c ++ bitsOf ·) hl).trans hbits
      obtain ⟨reader'', hbit, hready⟩ := readBit_of_pos { reader' with byte := c, numBits := 8 }
        rfl (lt_succ_self 7) hlen hbits'
      refine ⟨reader'', ?_, hready⟩
      rw [← hbit, BitReader.readBit, if_pos hn, hread, BitReader.readBit,
        if_neg (show 8 ≠ 0 by decide)]
      rfl

theorem or_shiftLeft (d : Nat) (ha : a < 2 ^ k) : a ||| d <<< k = a + 2 ^ k * d := by
  rw [Nat.or_comm, ← Nat.shiftLeft_add_eq_or_of_lt ha, Nat.shiftLeft_eq, add_comm, mul_comm]

theorem number_take_succ {digits : List Bool} (hi : i < digits.length) :
    number (digits.take (i + 1)) = number (digits.take i) ||| digits[i].toNat <<< i := by
  have hlt := number_lt (digits.take i)
  rw [length_take_of_le hi.le] at hlt
  rw [or_shiftLeft _ hlt, take_add_one, getElem?_eq_getElem hi, number_append, length_take_of_le hi.le]
  simp [number]

theorem Ready.readBits (h : Ready reader bs) (hv : Number n bs v rest) :
    ∃ reader', reader.readBits n = .ok (v, reader') ∧ Ready reader' rest := by
  cases hv with
  | @intro digits _ hlen =>
  subst hlen
  obtain ⟨⟨v, reader'⟩, hloop, hv, hready⟩ := foldlM_range
    (f := BitReader.addBit)
    (I := fun i s => s.1 = number (digits.take i) ∧ Ready s.2 (digits.drop i ++ rest))
    (fun i hi s hs => by
      obtain ⟨hv, hr⟩ := hs
      rw [drop_eq_getElem_cons hi, cons_append] at hr
      obtain ⟨reader', hbit, hr'⟩ := hr.readBit
      refine ⟨(number (digits.take (i + 1)), reader'), ?_, rfl, hr'⟩
      rw [BitReader.addBit, bind_of_ok hbit, number_take_succ hi, hv]
      rfl)
    (s := (0, reader)) ⟨rfl, h⟩
  rw [take_length] at hv
  rw [drop_length, nil_append] at hready
  exact ⟨reader', hv ▸ hloop, hready⟩

theorem bitsOf_eq_append {digits rest : List Bool}
    (hlen : digits.length = 8 * n) (h : bitsOf l = digits ++ rest) :
    digits = bitsOf (l.take n) ∧ rest = bitsOf (l.drop n) ∧ n ≤ l.length := by
  have hn : n ≤ l.length := by
    have := congrArg length h
    rw [length_bitsOf, length_append] at this
    omega
  rw [← take_append_drop n l, bitsOf_append] at h
  obtain ⟨hd, hr⟩ := append_inj h.symm (by rw [hlen, length_bitsOf, length_take_of_le hn])
  exact ⟨hd, hr, hn⟩

theorem number_range_testBit (n m : Nat) : number ((range n).map m.testBit) = m % 2 ^ n := by
  induction n generalizing m with
  | zero => rw [pow_zero, mod_one]; rfl
  | succ n ih =>
    rw [range_map_testBit, number, ih, testBit_zero, pow_succ', mod_mul]
    rcases mod_two_eq_zero_or_one m with h | h <;> simp [h]

theorem number_byteBits (b : UInt8) : number (byteBits b) = b.toNat := by
  rw [byteBits, number_range_testBit]
  exact mod_eq_of_lt b.toNat_lt

theorem number_bitsOf_take_succ {l : List UInt8} {i : Nat} (hi : i < l.length) :
    number (bitsOf (l.take (i + 1))) = number (bitsOf (l.take i)) ||| l[i].toNat <<< (i * 8) := by
  have hlt := number_lt (bitsOf (l.take i))
  rw [length_bitsOf, length_take_of_le hi.le, mul_comm] at hlt
  rw [or_shiftLeft _ hlt, take_add_one, getElem?_eq_getElem hi, bitsOf_append,
    number_append, length_bitsOf, length_take_of_le hi.le, mul_comm 8 i, Option.toList_some,
    bitsOf_cons, number_append, number_byteBits]
  simp [bitsOf, number]

theorem Ready.readBytes (h : Ready reader bs) (hn : n ≠ 0)
    (hv : Number (8 * n) (bs.drop (bs.length % 8)) v rest) :
    ∃ reader', reader.readBytes n = .ok (v, reader') ∧ Ready reader' rest ∧ rest.length % 8 = 0 := by
  generalize hbits : bs.drop (bs.length % 8) = next at hv
  cases hv with
  | @intro digits _ hlen =>
  rw [h.drop] at hbits
  obtain ⟨rfl, rfl, hle⟩ := bitsOf_eq_append hlen hbits
  generalize hl : reader.data.drop reader.pos = l at hle
  obtain ⟨⟨v, reader'⟩, hloop, hv, -, hready⟩ := foldlM_range
    (f := BitReader.addByte)
    (I := fun i s => s.1 = number (bitsOf (l.take i)) ∧ s.2.data.drop s.2.pos = l.drop i ∧
      (i ≠ 0 → Ready s.2 (bitsOf (l.drop i))))
    (fun i hi s hs => by
      obtain ⟨hv, hdrop, -⟩ := hs
      have hil : i < l.length := hi.trans_le hle
      rw [drop_eq_getElem_cons hil] at hdrop
      obtain ⟨reader', hread, -, hdrop', -, hr⟩ := readByte_eq hdrop
      refine ⟨(number (bitsOf (l.take (i + 1))), reader'), ?_, rfl, hdrop', fun _ => hr⟩
      rw [BitReader.addByte, bind_of_ok hread, number_bitsOf_take_succ hil, hv]
      rfl)
    (s := (0, reader)) ⟨rfl, hl, fun h0 => absurd rfl h0⟩
  refine ⟨reader', hv ▸ hloop, hready hn, ?_⟩
  rw [length_bitsOf, mul_mod_right]

/-- The tree has a leaf for each symbol below `size` at the end of its word. -/
def Decodes (t : HuffmanNode) (lengths : List Nat) (size : Nat) : Prop :=
  ∀ i < size, lengths.getD i 0 ≠ 0 → t.walk (codeword lengths i) = HuffmanNode.leaf i

theorem decodeSymbol_walk (ht : t.walk word = leaf symbol) (h : Ready reader (word ++ rest)) : ∃
    reader', decodeSymbol t reader = .ok (symbol, reader') ∧ Ready reader' rest := by
  induction word generalizing t reader with
  | nil =>
    rw [walk] at ht
    exact ⟨reader, by rw [ht]; rfl, h⟩
  | cons b word ih =>
    cases t with
    | null => cases ht
    | node s left right =>
      have hinner : ¬ (left = .null ∧ right = .null) := by
        rintro ⟨rfl, rfl⟩
        rw [walk] at ht
        cases b <;> simp at ht
      obtain ⟨reader1, hbit, hr1⟩ := h.readBit
      have hstep : decodeSymbol (.node s left right) reader =
          if b then decodeSymbol right reader1 else decodeSymbol left reader1 := by
        rw [decodeSymbol.eq_3 _ _ _ _ (fun hl hr => hinner ⟨hl, hr⟩), bind_of_ok hbit]
        cases b <;> rfl
      rw [hstep]
      cases b with
      | true => exact ih ht hr1
      | false => exact ih ht hr1

theorem Decodes.decodeSymbol {size symbol : Nat} (ht : Decodes t lengths size)
    (hs : Symbol lengths bs symbol rest) (hlt : symbol < size) (h : Ready reader bs) : ∃ reader',
    decodeSymbol t reader = .ok (symbol, reader') ∧ Ready reader' rest := by
  cases hs with
  | intro hcoded => exact decodeSymbol_walk (ht symbol hlt hcoded) h

theorem bitListToTree_decodes (hk : Kraft lengths m) (hne : ∃ l ∈ lengths, l ≠ 0) (size : Nat) : ∃ t,
    bitListToTree lengths size = .ok t ∧ Decodes t lengths size := by
  obtain ⟨l, hl, h0⟩ := hne
  exact bitListToTree_leaf hk hl h0 size

theorem getElem?_append_referenced (hd : 0 < distance)
    (hle : distance ≤ out.length) (i : Nat) :
    (out ++ referenced out distance i)[out.length - distance + i]? =
      some (out.getD (out.length - distance + i % distance) 0) := by
  rcases lt_or_ge i distance with hi | hi
  · rw [getElem?_append_left (by omega), mod_eq_of_lt hi,
      getElem?_eq_getElem (by omega), getD_eq_getElem _ _ (by omega)]
  · have hindex : out.length - distance + i - out.length = i - distance := by omega
    rw [getElem?_append_right (by omega), hindex, referenced, getElem?_map, getElem?_range (by omega)]
    show some (out.getD (out.length - distance + (i - distance) % distance) 0) = _
    rw [← mod_eq_sub_mod hi]

theorem referenced_succ (out : List UInt8) (distance i : Nat) :
    referenced out distance (i + 1) =
      referenced out distance i ++ [out.getD (out.length - distance + i % distance) 0] := by
  rw [referenced, range_succ, map_append, ← referenced]
  rfl

theorem copyBack_eq (hd : 0 < distance) (hle : distance ≤ out.length) (length : Nat) : copyBack out length
    distance = .ok (out ++ referenced out distance length) := by
  rw [copyBack, if_pos hle]
  obtain ⟨t, hloop, rfl⟩ := foldlM_range
    (f := fun t i => do
      let b ← readAt t (out.length - distance + i)
      return t ++ [b])
    (I := fun i t => t = out ++ referenced out distance i)
    (fun i _ t ht => by
      refine ⟨_, ?_, rfl⟩
      rw [ht, bind_of_ok (readAt_eq (getElem?_append_referenced hd hle i)), referenced_succ, ← append_assoc]
      rfl)
    (append_nil out).symm
  exact hloop

theorem lengthTables : ∀ k < 29, lengthExtraBits[k]? = some (lengthExtra k) ∧
    lengthBase[k]? = some (lengthStart k) := by
  decide

theorem distanceTables : ∀ d < 30, distanceExtraBits[d]? = some (distanceExtra d) ∧
    distanceBase[d]? = some (distanceStart d) ∧ 0 < distanceStart d := by
  decide

theorem inflateBlockData_eq {lit dist : List Nat}
    (hlit : Decodes litTree lit 286) (hdist : Decodes distTree dist 30)
    (hdata : Data lit dist bs out rest out') (hfuel : bs.length ≤ fuel)
    (h : Ready reader bs) :
    ∃ reader', inflateBlockData litTree distTree fuel reader out = .ok (out', reader') ∧
      Ready reader' rest := by
  induction hdata generalizing reader fuel with
  | endOfBlock hsym =>
    obtain ⟨reader', hdec, hr⟩ := hlit.decodeSymbol hsym (by decide) h
    have := hsym.length_lt
    obtain _ | fuel := fuel
    · omega
    refine ⟨reader', ?_, hr⟩
    rw [inflateBlockData, bind_of_ok hdec]
    rfl
  | literal hsym hbyte _ ih =>
    obtain ⟨reader1, hdec, hr1⟩ := hlit.decodeSymbol hsym (by omega) h
    have := hsym.length_lt
    obtain _ | fuel := fuel
    · omega
    obtain ⟨reader', htail, hr⟩ := @ih reader1 fuel (by omega) hr1
    refine ⟨reader', ?_, hr⟩
    rw [inflateBlockData, bind_of_ok hdec]
    exact (if_pos (le_of_lt_succ hbyte)).trans htail
  | @copy _ _ _ _ _ _ out _ k extra d extra' hsym hk hextra hdsym hd hextra' hwithin _ ih =>
    obtain ⟨reader1, hdec, hr1⟩ := hlit.decodeSymbol hsym (by omega) h
    obtain ⟨reader2, hbits, hr2⟩ := hr1.readBits hextra
    obtain ⟨reader3, hdec', hr3⟩ := hdist.decodeSymbol hdsym hd hr2
    obtain ⟨reader4, hbits', hr4⟩ := hr3.readBits hextra'
    have hlt := hsym.length_lt
    have hlt' := hdsym.length_lt
    have hle := hextra.length_le
    have hle' := hextra'.length_le
    obtain _ | fuel := fuel
    · omega
    obtain ⟨reader', htail, hr⟩ := @ih reader4 fuel (by omega) hr4
    refine ⟨reader', ?_, hr⟩
    obtain ⟨hle, hlb⟩ := lengthTables k hk
    obtain ⟨hde, hdb, hpos⟩ := distanceTables d hd
    have hcopy := copyBack_eq (Nat.add_pos_left hpos extra') hwithin (lengthStart k + extra)
    rw [inflateBlockData, bind_of_ok hdec]
    show (if 257 + k ≤ 255 then _ else if 257 + k = 256 then _ else _) = _
    rw [if_neg (by omega), if_neg (by omega), Nat.add_sub_cancel_left]
    rw [bind_of_ok (readAt_eq hle), bind_of_ok hbits]
    dsimp only
    rw [bind_of_ok (readAt_eq hlb), bind_of_ok hdec']
    rw [bind_of_ok (readAt_eq hde), bind_of_ok hbits']
    rw [bind_of_ok (readAt_eq hdb), add_comm extra, add_comm extra', bind_of_ok hcopy]
    exact htail

theorem readCodeLengths_eq {code : List Nat} (htree : Decodes tree code 19)
    (hls : Lengths code total bs ls rest ls') {fuel : Nat}
    (hfuel : total ≤ ls.length + fuel) (h : Ready reader bs) :
    ∃ reader', readCodeLengths tree total fuel reader ls = .ok (ls', reader') ∧ Ready reader' rest := by
  induction hls generalizing reader fuel with
  | done hall =>
    refine ⟨reader, ?_, h⟩
    cases fuel with
    | zero => rw [readCodeLengths, if_neg (by omega)]
    | succ fuel => rw [readCodeLengths, if_neg (by omega)]
  | length hsym hl htail ih =>
    have hle := htail.length_le
    rw [length_append, length_singleton] at hle
    obtain _ | fuel := fuel
    · omega
    obtain ⟨reader1, hdec, hr1⟩ := htree.decodeSymbol hsym (by omega) h
    obtain ⟨reader', hrest, hr⟩ := @ih reader1 fuel (by simp; omega) hr1
    refine ⟨reader', ?_, hr⟩
    rw [readCodeLengths, if_pos (by omega), bind_of_ok hdec]
    exact (if_pos hl).trans hrest
  | previous hsym hlast hextra htail ih =>
    have hle := htail.length_le
    rw [length_append, length_replicate] at hle
    obtain _ | fuel := fuel
    · omega
    obtain ⟨reader1, hdec, hr1⟩ := htree.decodeSymbol hsym (by decide) h
    obtain ⟨reader2, hbits, hr2⟩ := hr1.readBits hextra
    obtain ⟨reader', hrest, hr⟩ := @ih reader2 fuel (by simp; omega) hr2
    refine ⟨reader', ?_, hr⟩
    rw [getLast?_eq_getElem?] at hlast
    rw [readCodeLengths, if_pos (by omega), bind_of_ok hdec]
    dsimp only
    rw [if_neg (by decide), if_pos rfl, if_neg (by rintro h0; simp [h0] at hlast),
      bind_of_ok (readAt_eq hlast), bind_of_ok hbits]
    exact hrest
  | zeros hsym hextra htail ih =>
    have hle := htail.length_le
    rw [length_append, length_replicate] at hle
    obtain _ | fuel := fuel
    · omega
    obtain ⟨reader1, hdec, hr1⟩ := htree.decodeSymbol hsym (by decide) h
    obtain ⟨reader2, hbits, hr2⟩ := hr1.readBits hextra
    obtain ⟨reader', hrest, hr⟩ := @ih reader2 fuel (by simp; omega) hr2
    refine ⟨reader', ?_, hr⟩
    rw [readCodeLengths, if_pos (by omega), bind_of_ok hdec]
    dsimp only
    rw [if_neg (by decide), if_neg (by decide), if_pos rfl, bind_of_ok hbits]
    exact hrest
  | manyZeros hsym hextra htail ih =>
    have hle := htail.length_le
    rw [length_append, length_replicate] at hle
    obtain _ | fuel := fuel
    · omega
    obtain ⟨reader1, hdec, hr1⟩ := htree.decodeSymbol hsym (by decide) h
    obtain ⟨reader2, hbits, hr2⟩ := hr1.readBits hextra
    obtain ⟨reader', hrest, hr⟩ := @ih reader2 fuel (by simp; omega) hr2
    refine ⟨reader', ?_, hr⟩
    rw [readCodeLengths, if_pos (by omega), bind_of_ok hdec]
    dsimp only
    rw [if_neg (by decide), if_neg (by decide), if_neg (by decide), if_pos rfl, bind_of_ok hbits]
    exact hrest

theorem mem_codeLengthOrder : ∀ i, i ∈ codeLengthOrder ↔ i < 19 := by
  intro i
  constructor
  · have hbound : ∀ s ∈ codeLengthOrder, s < 19 := by decide
    exact hbound i
  · have hall : ∀ s < 19, s ∈ codeLengthOrder := by decide
    exact hall i

theorem getD_idxOf_concat (v : Nat) (hlt : given.length < codeLengthOrder.length)
    (hi : i < 19) :
    (given ++ [v]).getD (codeLengthOrder.idxOf i) 0 =
      if codeLengthOrder[given.length] = i then v
      else given.getD (codeLengthOrder.idxOf i) 0 := by
  have hnodup : codeLengthOrder.Nodup := by decide
  split
  · next h =>
    rw [← h, hnodup.idxOf_getElem, getD_eq_getElem?_getD, getElem?_append_right (by omega), Nat.sub_self]
    rfl
  · next h =>
    have hidx : codeLengthOrder.idxOf i < codeLengthOrder.length :=
      idxOf_lt_length_iff.2 ((mem_codeLengthOrder i).2 hi)
    have hne : codeLengthOrder.idxOf i ≠ given.length := by
      intro heq
      have hget := getElem_idxOf hidx
      simp only [heq] at hget
      exact h hget
    rw [getD_eq_getElem?_getD, getD_eq_getElem?_getD]
    rcases lt_or_gt_of_ne hne with hlt | hgt
    · rw [getElem?_append_left hlt]
    · rw [getElem?_eq_none (by rw [length_append, length_singleton]; omega), getElem?_eq_none (by omega)]

theorem writeAt_codeLengthLengths (given : List Nat) (v : Nat) (h : given.length < 19) :
    ∃ symbol, codeLengthCodesOrder[given.length]? = some symbol ∧
      writeAt (codeLengthLengths given) symbol v = .ok (codeLengthLengths (given ++ [v])) := by
  have hlt : given.length < codeLengthOrder.length := h
  refine ⟨codeLengthOrder[given.length], getElem?_eq_getElem hlt, ?_⟩
  have hs : codeLengthOrder[given.length] < 19 := (mem_codeLengthOrder _).1 (getElem_mem hlt)
  rw [writeAt_eq _ (by simpa [codeLengthLengths] using hs)]
  refine congrArg Except.ok (ext_getElem? fun i => ?_)
  rcases lt_or_ge i 19 with hi | hi
  · simp only [codeLengthLengths, getElem?_set, length_map, length_range,
      getElem?_map, getElem?_range hi, Option.map_some, getD_idxOf_concat v hlt hi]
    split <;> simp
  · rw [getElem?_eq_none (by simpa [codeLengthLengths] using hi),
      getElem?_eq_none (by simpa [codeLengthLengths] using hi)]

theorem readCodeLength_loop (given : List Nat) (hvs : Numbers 3 k bs vs rest)
    (hk : given.length + k ≤ 19) (h : Ready reader bs) :
    ∃ reader', (range' given.length k).foldlM readCodeLength (codeLengthLengths given, reader) =
      .ok (codeLengthLengths (given ++ vs), reader') ∧ Ready reader' rest := by
  induction hvs generalizing given reader with
  | nil => exact ⟨reader, by rw [append_nil]; rfl, h⟩
  | @cons _ v vs _ _ _ hhead _ ih =>
    obtain ⟨reader1, hbits, hr1⟩ := h.readBits hhead
    obtain ⟨symbol, horder, hwrite⟩ := writeAt_codeLengthLengths given v (by omega)
    have hstep : readCodeLength (codeLengthLengths given, reader) given.length =
        .ok (codeLengthLengths (given ++ [v]), reader1) := by
      rw [readCodeLength, bind_of_ok hbits]
      dsimp only
      rw [bind_of_ok (readAt_eq horder), bind_of_ok hwrite]
      rfl
    obtain ⟨reader', hloop, hr⟩ := @ih reader1 (given ++ [v]) (by simp; omega) hr1
    refine ⟨reader', ?_, hr⟩
    rw [range'_succ, foldlM_cons, bind_of_ok hstep]
    simpa using hloop

theorem decodeTrees_eq {lit dist : List Nat} (htables : Tables bs lit dist rest)
    (hlit : ∃ l ∈ lit, l ≠ 0) (h : Ready reader bs) :
    ∃ litTree distTree reader', decodeTrees reader = .ok (litTree, distTree, reader') ∧
      Decodes litTree lit 286 ∧ Decodes distTree dist 30 ∧ Ready reader' rest := by
  cases htables with
  | @intro _ _ _ _ _ hlitN hdistN hclen given ls hl _ hd hc hlengths hk hcoded hkl hkd hsome =>
  obtain ⟨reader1, hbits1, hr1⟩ := h.readBits hl
  obtain ⟨reader2, hbits2, hr2⟩ := hr1.readBits hd
  obtain ⟨reader3, hbits3, hr3⟩ := hr2.readBits hc
  have hclen_lt := hc.lt
  obtain ⟨reader4, hloop, hr4⟩ := readCodeLength_loop [] hlengths (by simp; omega) hr3
  rw [length_nil, nil_append] at hloop
  obtain ⟨codeTree, hcodeTree, hcode⟩ := bitListToTree_decodes hk (hcoded.exists_ne_zero (by simp)) 19
  obtain ⟨reader', hread, hr⟩ := readCodeLengths_eq hcode hcoded
    (le_add_left (hlitN + 257 + (hdistN + 1)) _) hr4
  obtain ⟨litTree, hlitTree, hlitDec⟩ := bitListToTree_decodes hkl hlit 286
  obtain ⟨distTree, hdistTree, hdistDec⟩ := bitListToTree_decodes hkd hsome 30
  refine ⟨litTree, distTree, reader', ?_, hlitDec, hdistDec, hr⟩
  rw [decodeTrees, bind_of_ok hbits1]
  dsimp only
  rw [bind_of_ok hbits2]
  rw [bind_of_ok hbits3]
  rw [range_eq_range', show replicate 19 0 = codeLengthLengths [] from rfl, bind_of_ok hloop]
  rw [bind_of_ok hcodeTree, bind_of_ok hread]
  dsimp only
  rw [bind_of_ok hlitTree, bind_of_ok hdistTree]
  rfl

theorem byteBits_inj (h : byteBits b = byteBits c) : b = c := by
  have := congrArg number h
  rw [number_byteBits, number_byteBits] at this
  exact UInt8.toNat_inj.1 this

theorem Ready.readByte (h : Ready reader (byteBits b ++ bs)) (hbs : bs.length % 8 = 0) :
    ∃ reader', reader.readByte = .ok (b, reader') ∧ Ready reader' bs := by
  have hdrop := h.drop
  have hmod : (byteBits b ++ bs).length % 8 = 0 := by
    rw [length_append, length_byteBits]
    omega
  rw [hmod, drop_zero] at hdrop
  cases hdata : reader.data.drop reader.pos with
  | nil =>
    rw [hdata] at hdrop
    cases hdrop
  | cons c l =>
    rw [hdata, bitsOf_cons] at hdrop
    obtain ⟨hb, rfl⟩ := append_inj hdrop rfl
    obtain ⟨reader', hread, -, -, -, hr⟩ := readByte_eq hdata
    exact ⟨reader', byteBits_inj hb ▸ hread, hr⟩

theorem storedBytes_loop (haligned : rest.length % 8 = 0) {indices : List Nat}
    (hlen : indices.length = bytes.length) (target : List UInt8)
    (h : Ready reader (bitsOf bytes ++ rest)) :
    ∃ reader', indices.foldlM pushByte (target, reader) = .ok (target ++ bytes, reader') ∧
      Ready reader' rest := by
  induction bytes generalizing reader target indices with
  | nil =>
    obtain rfl := eq_nil_of_length_eq_zero hlen
    exact ⟨reader, by rw [append_nil]; rfl, h⟩
  | cons b bytes ih =>
    obtain _ | ⟨i, indices⟩ := indices
    · cases hlen
    rw [bitsOf_cons, append_assoc] at h
    obtain ⟨reader1, hread, hr1⟩ := h.readByte (by rw [length_append, length_bitsOf]; omega)
    obtain ⟨reader', hloop, hr⟩ := ih (succ.inj hlen) (target ++ [b]) hr1
    have hstep : pushByte (target, reader) i = .ok (target ++ [b], reader1) := bind_of_ok hread
    refine ⟨reader', ?_, hr⟩
    rw [foldlM_cons, bind_of_ok hstep, hloop, ← append_cons]

theorem inflateBlockNoCompression_eq {rest1 rest2 : List Bool}
    (hlen : Number 16 (bs.drop (bs.length % 8)) bytes.length rest1) (hnlen : Number 16 rest1 nlen rest2)
    (hbytes : rest2 = bitsOf bytes ++ rest) (h : Ready reader bs) (out : List UInt8) : ∃ reader',
    inflateBlockNoCompression reader out = .ok (out ++ bytes, reader') ∧ Ready reader' rest := by
  obtain ⟨reader1, hread1, hr1, hmod1⟩ := h.readBytes (n := 2) (by decide) hlen
  obtain ⟨reader2, hread2, hr2, hmod2⟩ := hr1.readBytes (n := 2) (by decide) (by rw [hmod1]; exact hnlen)
  subst hbytes
  rw [length_append, length_bitsOf] at hmod2
  obtain ⟨reader', hloop, hr⟩ := storedBytes_loop (by omega) length_range out hr2
  refine ⟨reader', ?_, hr⟩
  rw [inflateBlockNoCompression, bind_of_ok hread1]
  dsimp only
  rw [bind_of_ok hread2]
  exact hloop

theorem kraft_fixedLit : Kraft fixedLit 9 := by
  refine ⟨fun l hl => ?_, ?_⟩
  · simp only [fixedLit, mem_append, mem_replicate] at hl
    omega
  · simp only [fixedLit, map_append, map_replicate, List.sum_append, sum_replicate]
    decide

theorem kraft_staticDist : Kraft (replicate 30 5) 5 := by
  refine ⟨?_, ?_⟩
  · simp
  · simp

theorem codeword_fixedDist : ∀ d < 30, codeword (replicate 30 5) d = codeword fixedDist d := by
  decide

theorem inflateBlockStatic_eq (hdata : Data fixedLit fixedDist bs out rest out')
    (hfuel : bs.length ≤ fuel) (h : Ready reader bs) :
    ∃ reader', inflateBlockStatic fuel reader out = .ok (out', reader') ∧ Ready reader' rest := by
  obtain ⟨litTree, hlitTree, hlit⟩ := bitListToTree_decodes kraft_fixedLit hdata.exists_ne_zero 286
  obtain ⟨distTree, hdistTree, hdist⟩ := bitListToTree_decodes kraft_staticDist ⟨5, by simp, by decide⟩ 30
  have hdist' : Decodes distTree fixedDist 30 := by
    intro d hd _
    rw [← codeword_fixedDist d hd]
    refine hdist d hd ?_
    rw [getD_eq_getElem?_getD, getElem?_replicate_of_lt hd]
    decide
  obtain ⟨reader', hblock, hr⟩ := inflateBlockData_eq hlit hdist' hdata hfuel h
  refine ⟨reader', ?_, hr⟩
  rw [inflateBlockStatic, show staticLiteralLengths = fixedLit from rfl, bind_of_ok hlitTree,
    bind_of_ok hdistTree]
  exact hblock

theorem inflateBlockDynamic_eq {lit dist : List Nat} (htables : Tables bs lit dist rest1)
    (hdata : Data lit dist rest1 out rest out') (hfuel : bs.length ≤ fuel) (h : Ready reader bs) : ∃
    reader', inflateBlockDynamic fuel reader out = .ok (out', reader') ∧ Ready reader' rest := by
  obtain ⟨litTree, distTree, reader1, htrees, hlit, hdist, hr1⟩ :=
    decodeTrees_eq htables hdata.exists_ne_zero h
  obtain ⟨reader', hblock, hr⟩ := inflateBlockData_eq hlit hdist hdata (htables.length_le.trans hfuel) hr1
  refine ⟨reader', ?_, hr⟩
  rw [inflateBlockDynamic, bind_of_ok htrees]
  exact hblock

theorem inflateBlock_eq
    (hblock : Deflate.Block bs out rest out') (htype : Number 2 bs type rest1) (h : Ready reader rest1) :
    type ≠ 3 ∧ ∃ reader', inflateBlock type reader out = .ok (out', reader') ∧ Ready reader' rest := by
  have hfuel : rest1.length ≤ 8 * reader.data.length + 1 := le_succ_of_le h.length
  cases hblock with
  | stored htype' hlen hnlen _ hbytes =>
    obtain ⟨rfl, rfl⟩ := htype.unique htype'
    exact ⟨by decide, inflateBlockNoCompression_eq hlen hnlen hbytes h out⟩
  | fixed htype' hdata =>
    obtain ⟨rfl, rfl⟩ := htype.unique htype'
    exact ⟨by decide, inflateBlockStatic_eq hdata hfuel h⟩
  | dynamic htype' htables hdata =>
    obtain ⟨rfl, rfl⟩ := htype.unique htype'
    exact ⟨by decide, inflateBlockDynamic_eq htables hdata hfuel h⟩

theorem inflateBlocks_block (hblock : Deflate.Block bs out rest out')
    (h : Ready reader (b :: bs)) (fuel : Nat) :
    ∃ reader', inflateBlocks (fuel + 1) reader out =
      (if b then .ok (some out', reader') else inflateBlocks fuel reader' out') ∧ Ready reader' rest := by
  obtain ⟨reader1, hbit, hr1⟩ := h.readBit
  obtain ⟨type, rest1, htype⟩ := hblock.type
  obtain ⟨reader2, hbits, hr2⟩ := hr1.readBits htype
  obtain ⟨hne, reader', hread, hr⟩ := inflateBlock_eq hblock htype hr2
  refine ⟨reader', ?_, hr⟩
  rw [inflateBlocks, bind_of_ok hbit]
  dsimp only
  rw [bind_of_ok hbits]
  rw [if_neg hne, bind_of_ok hread]
  cases b <;> rfl

theorem inflateBlocks_eq (hstream : Stream bs out rest out') (hfuel : bs.length ≤ fuel) (h : Ready reader bs)
    : ∃ reader', inflateBlocks fuel reader out = .ok (some out', reader') ∧ Ready reader' rest := by
  induction hstream generalizing reader fuel with
  | last hblock =>
    obtain _ | fuel := fuel
    · cases hfuel
    exact inflateBlocks_block hblock h fuel
  | more hblock _ ih =>
    obtain _ | fuel := fuel
    · cases hfuel
    obtain ⟨reader1, hstep, hr1⟩ := inflateBlocks_block hblock h fuel
    have hle := hblock.length_le
    rw [length_cons] at hfuel
    obtain ⟨reader', htail, hr⟩ := @ih reader1 fuel (by omega) hr1
    exact ⟨reader', hstep.trans htail, hr⟩

variable {cmf flg : UInt8}

theorem method_eq (h : cmf.toNat % 16 = 8) : cmf &&& 0xF = 8 := by
  refine UInt8.toNat_inj.1 ?_
  show cmf.toNat &&& (2 ^ 4 - 1) = 8
  rw [and_two_pow_sub_one_eq_mod]
  exact h

theorem window_le (h : cmf.toNat / 16 ≤ 7) : ¬ (cmf >>> 4) &&& 0xF > 7 := by
  show ¬ 7 < (cmf.toNat >>> 4) &&& (2 ^ 4 - 1)
  rw [and_two_pow_sub_one_eq_mod, shiftRight_eq_div_pow]
  omega

theorem fdict_iff : (flg >>> 5) &&& 1 ≠ 0 ↔ flg.toNat.testBit 5 = true := by
  rw [ne_eq, ← UInt8.toNat_inj, UInt8.toNat_and, UInt8.toNat_shiftRight]
  rw [Nat.testBit, Nat.and_comm]
  simp

theorem ready_new (data : List UInt8) : Ready (BitReader.new data) (bitsOf data) :=
  ⟨Nat.zero_lt_succ 7, by simp [BitReader.bits, BitReader.new], (length_bitsOf data).le⟩

theorem decompress_header (hmethod : cmf.toNat % 16 = 8)
    (hwindow : cmf.toNat / 16 ≤ 7) (hcheck : (cmf.toNat * 256 + flg.toNat) % 31 = 0)
    (hfdict : flg.toNat.testBit 5 = false) (body : List UInt8) :
    ∃ reader, Ready reader (bitsOf body) ∧ decompress (cmf :: flg :: body) = do
      let (result, reader) ← inflate reader
      let _ ← reader.readBytes 4
      return result := by
  have hnew := ready_new (cmf :: flg :: body)
  rw [bitsOf_cons] at hnew
  obtain ⟨reader1, hread1, hr1⟩ := hnew.readByte (by rw [length_bitsOf]; omega)
  rw [bitsOf_cons] at hr1
  obtain ⟨reader2, hread2, hr2⟩ := hr1.readByte (by rw [length_bitsOf]; omega)
  refine ⟨reader2, hr2, ?_⟩
  rw [decompress, bind_of_ok hread1]
  dsimp only
  rw [if_neg (not_not.2 (method_eq hmethod)), if_neg (window_le hwindow), bind_of_ok hread2]
  rw [if_neg (not_not.2 hcheck), if_neg (by rw [fdict_iff, hfdict]; exact Bool.false_ne_true)]

theorem number_32 (h : 32 ≤ bs.length) : Number 32 bs (number (bs.take 32)) (bs.drop 32) := by
  have hnumber := @Number.intro 32 (bs.take 32) (bs.drop 32) (length_take_of_le h)
  rwa [take_append_drop] at hnumber

theorem decompress_stream (hmethod : cmf.toNat % 16 = 8) (hwindow : cmf.toNat / 16 ≤ 7)
    (hcheck : (cmf.toNat * 256 + flg.toNat) % 31 = 0) (hfdict : flg.toNat.testBit 5 = false)
    (hstream : Stream (bitsOf body) [] rest out) (hsum : 32 ≤ (rest.drop (rest.length % 8)).length) :
    decompress (cmf :: flg :: body) = .ok (some out) := by
  obtain ⟨reader, hr, heq⟩ := decompress_header hmethod hwindow hcheck hfdict body
  obtain ⟨reader1, hinflate, hr1⟩ := inflateBlocks_eq hstream (le_succ_of_le hr.length) hr
  obtain ⟨reader2, hread, -, -⟩ := hr1.readBytes (n := 4) (by decide) (number_32 hsum)
  rw [heq, inflate, bind_of_ok hinflate]
  dsimp only
  rw [bind_of_ok hread]
  rfl

theorem decompress_of_zlib (h : Zlib false data out) : decompress data = .ok (some out) := by
  cases h with
  | intro hmethod hwindow hcheck hfdict hdict hstream hsum =>
    obtain rfl := eq_nil_of_length_eq_zero hdict
    exact decompress_stream hmethod hwindow hcheck hfdict hstream hsum

theorem number_bitsOf_two (b c : UInt8) : number (bitsOf [b, c]) = b.toNat + 256 * c.toNat := by
  rw [bitsOf_cons, number_append, number_byteBits, bitsOf_cons, number_append, number_byteBits]
  simp [bitsOf, number]

theorem stream_stored {bytes : List UInt8} {len : UInt8} (hlen : bytes.length = len.toNat) (l : List UInt8)
    : Stream (bitsOf ([1, len, 0, 255 - len, 255] ++ (bytes ++ l))) [] (bitsOf l) bytes := by
  have hbits : bitsOf ([1, len, 0, 255 - len, 255] ++ (bytes ++ l)) = true :: ([false, false] ++
      (replicate 5 false ++ (bitsOf [len, 0] ++ (bitsOf [255 - len, 255] ++
        (bitsOf bytes ++ bitsOf l))))) := by
    rw [← bitsOf_append bytes l]
    exact bitsOf_append ..
  generalize hnext : replicate 5 false ++ (bitsOf [len, 0] ++ (bitsOf [255 - len, 255] ++
    (bitsOf bytes ++ bitsOf l))) = next at hbits
  have hdrop : next.drop (next.length % 8) =
      bitsOf [len, 0] ++ (bitsOf [255 - len, 255] ++ (bitsOf bytes ++ bitsOf l)) := by
    have hmod : next.length % 8 = 5 := by
      simp only [← hnext, length_append, length_replicate, length_bitsOf]
      omega
    rw [hmod, ← hnext, drop_left' (length_replicate ..)]
  have hnumber : Number 16 (next.drop (next.length % 8)) bytes.length
      (bitsOf [255 - len, 255] ++ (bitsOf bytes ++ bitsOf l)) := by
    rw [hdrop, hlen, show len.toNat = number (bitsOf [len, 0]) from (number_bitsOf_two len 0).symm]
    exact Number.intro rfl
  have hcomplement : Number 16 (bitsOf [255 - len, 255] ++ (bitsOf bytes ++ bitsOf l))
      (number (bitsOf [255 - len, 255])) (bitsOf bytes ++ bitsOf l) := Number.intro rfl
  have hagree : bytes.length + number (bitsOf [255 - len, 255]) = 65535 := by
    have hlt := len.toNat_lt
    have hsub : (255 - len).toNat = 255 - len.toNat :=
      UInt8.toNat_sub_of_le _ _ (UInt8.le_iff_toNat_le.2 (Nat.le_of_lt_succ hlt))
    rw [number_bitsOf_two, hsub, hlen]
    show len.toNat + (255 - len.toNat + 256 * 255) = 65535
    omega
  rw [hbits]
  exact Stream.last (@Deflate.Block.stored _ _ _ _ _ [] bytes _ (@Number.intro 2 [false, false] _ rfl)
    hnumber hcomplement hagree rfl)

end HeisenKernel.Imaging
