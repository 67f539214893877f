import HeisenKernel.Lib.CanonicalCode

/-!
# DEFLATE

The compressed data format of RFC 1951 and the wrapper of RFC 1950, as relations between the bits of
a stream and the bytes that they stand for.
-/

namespace HeisenKernel.Deflate

open HeisenKernel.Lib Canonical List

/-- The bits of a byte. -/
def byteBits (b : UInt8) : List Bool := (List.range 8).map b.toNat.testBit

/-- The bits of a sequence of bytes. -/
def bitsOf (data : List UInt8) : List Bool := data.flatMap byteBits

/-- The number that bits stand for, the lowest one first. -/
def number : List Bool → Nat
  | [] => 0
  | b :: bs => b.toNat + 2 * number bs

/-- A number of `n` bits. -/
inductive Number (n : Nat) : List Bool → Nat → List Bool → Prop
  | intro {bs rest : List Bool} (length : bs.length = n) : Number n (bs ++ rest) (number bs) rest

/-- `k` numbers of `n` bits each. -/
inductive Numbers (n : Nat) : Nat → List Bool → List Nat → List Bool → Prop
  | nil {bits : List Bool} : Numbers n 0 bits [] bits
  | cons {k v : Nat} {vs : List Nat} {bits rest₁ rest : List Bool} (head : Number n bits v rest₁)
      (tail : Numbers n k rest₁ vs rest) : Numbers n (k + 1) bits (v :: vs) rest

/-- A symbol of the canonical code with the given lengths. -/
inductive Symbol (lengths : List Nat) : List Bool → Nat → List Bool → Prop
  | intro {symbol : Nat} {rest : List Bool} (coded : lengths.getD symbol 0 ≠ 0) :
      Symbol lengths (codeword lengths symbol ++ rest) symbol rest

theorem number_append (l m : List Bool) : number (l ++ m) = number l + 2 ^ l.length * number m := by
  induction l with
  | nil => simp [number]
  | cons b l ih =>
    rw [cons_append, number, ih, number, length_cons, pow_succ]
    ring

theorem number_lt (l : List Bool) : number l < 2 ^ l.length := by
  induction l with
  | nil => exact Nat.one_pos
  | cons b l ih =>
    have hb : b.toNat ≤ 1 := Bool.toNat_le b
    rw [number, length_cons, pow_succ]
    omega

theorem Symbol.length_lt (h : Symbol lengths bs symbol rest) : rest.length < bs.length := by
  cases h with
  | intro hcoded =>
    rw [length_append, length_codeword]
    omega

theorem Number.lt (h : Number n bs v rest) : v < 2 ^ n := by
  cases h with
  | @intro digits _ hlen =>
    rw [← hlen]
    exact number_lt digits

theorem Number.unique (h : Number n bs v rest) (h' : Number n bs v' rest') : v = v' ∧ rest = rest' := by
  generalize hbits : bs = bits at h'
  cases h with
  | intro hlen =>
    cases h' with
    | intro hlen' =>
      obtain ⟨rfl, rfl⟩ := append_inj hbits (hlen.trans hlen'.symm)
      exact ⟨rfl, rfl⟩

theorem Number.length_le (h : Number n bs v rest) : rest.length ≤ bs.length := by
  cases h with
  | intro hlen =>
    rw [length_append]
    omega

theorem Symbol.exists_ne_zero (h : Symbol lengths bs symbol rest) : ∃ l ∈ lengths, l ≠ 0 := by
  cases h with
  | intro hcoded =>
    refine ⟨_, ?_, hcoded⟩
    rw [getD_eq_getElem _ _ (lt_length_of_getD hcoded)]
    exact getElem_mem _

theorem Numbers.rest_length_le (h : Numbers n k bs vs rest) : rest.length ≤ bs.length := by
  induction h with
  | nil => exact le_refl _
  | cons hhead _ ih => exact ih.trans hhead.length_le

/-- Extra bits of the length code `257 + k`. -/
def lengthExtra (k : Nat) : Nat := if k < 8 ∨ k = 28 then 0 else k / 4 - 1

/-- The smallest length of the length code `257 + k`. -/
def lengthStart (k : Nat) : Nat :=
  if k < 8 then 3 + k else if k = 28 then 258 else 3 + (4 + k % 4) * 2 ^ lengthExtra k

/-- Extra bits of the distance code `d`. -/
def distanceExtra (d : Nat) : Nat := if d < 4 then 0 else d / 2 - 1

/-- The smallest distance of the distance code `d`. -/
def distanceStart (d : Nat) : Nat :=
  if d < 4 then 1 + d else 1 + (2 + d % 2) * 2 ^ distanceExtra d

/-- The string of a back-reference: it starts `distance` bytes before the end and repeats what lies
there when it runs into itself. -/
def referenced (out : List UInt8) (distance length : Nat) : List UInt8 :=
  (List.range length).map fun i => out.getD (out.length - distance + i % distance) 0

/-- The data of a block under a code for literals and lengths and a code for distances, with the
bytes in front of and behind it. -/
inductive Data (lit dist : List Nat) : List Bool → List UInt8 → List Bool → List UInt8 → Prop
  | endOfBlock {bits rest : List Bool} {out : List UInt8} (symbol : Symbol lit bits 256 rest) :
      Data lit dist bits out rest out
  | literal {bits rest₁ rest : List Bool} {out out' : List UInt8} {sym : Nat}
      (symbol : Symbol lit bits sym rest₁) (isByte : sym < 256)
      (tail : Data lit dist rest₁ (out ++ [UInt8.ofNat sym]) rest out') : Data lit dist bits out rest out'
  | copy {bits rest₁ rest₂ rest₃ rest₄ rest : List Bool} {out out' : List UInt8}
      {k extra d extra' : Nat} (symbol : Symbol lit bits (257 + k) rest₁) (isLength : k < 29)
      (extraLength : Number (lengthExtra k) rest₁ extra rest₂)
      (distance : Symbol dist rest₂ d rest₃) (isDistance : d < 30)
      (extraDistance : Number (distanceExtra d) rest₃ extra' rest₄)
      (within : distanceStart d + extra' ≤ out.length)
      (tail : Data lit dist rest₄
        (out ++ referenced out (distanceStart d + extra') (lengthStart k + extra)) rest out') :
      Data lit dist bits out rest out'

theorem Data.length_le {lit dist : List Nat}
    (h : Data lit dist bs out rest out') : rest.length ≤ bs.length := by
  induction h with
  | endOfBlock hsym => exact hsym.length_lt.le
  | literal hsym _ _ ih => exact ih.trans hsym.length_lt.le
  | copy hsym _ hextra hdist _ hextra' _ _ ih =>
    have := hsym.length_lt
    have := hextra.length_le
    have := hdist.length_lt
    have := hextra'.length_le
    omega

theorem Data.exists_ne_zero {lit dist : List Nat}
    (h : Data lit dist bs out rest out') : ∃ l ∈ lit, l ≠ 0 := by
  cases h with
  | endOfBlock hsym => exact hsym.exists_ne_zero
  | literal hsym => exact hsym.exists_ne_zero
  | copy hsym => exact hsym.exists_ne_zero

/-- The order in which the lengths of the code for code lengths are given. -/
def codeLengthOrder : List Nat :=
  [16, 17, 18, 0, 8, 7, 9, 6, 10, 5, 11, 4, 12, 3, 13, 2, 14, 1, 15]

/-- The lengths of the code for code lengths, from those given. -/
def codeLengthLengths (given : List Nat) : List Nat :=
  (List.range 19).map fun symbol => given.getD (codeLengthOrder.idxOf symbol) 0

/-- A run-length coded sequence of `total` code lengths, of which some are known. -/
inductive Lengths (code : List Nat) (total : Nat) :
    List Bool → List Nat → List Bool → List Nat → Prop
  | done {bits : List Bool} {ls : List Nat} (all : ls.length = total) : Lengths code total bits ls bits ls
  | length {bits rest₁ rest : List Bool} {ls ls' : List Nat} {l : Nat}
      (symbol : Symbol code bits l rest₁) (isLength : l ≤ 15)
      (tail : Lengths code total rest₁ (ls ++ [l]) rest ls') : Lengths code total bits ls rest ls'
  | previous {bits rest₁ rest₂ rest : List Bool} {ls ls' : List Nat} {l n : Nat}
      (symbol : Symbol code bits 16 rest₁) (last : ls.getLast? = some l) (extra : Number 2 rest₁ n rest₂)
      (tail : Lengths code total rest₂ (ls ++ List.replicate (n + 3) l) rest ls') : Lengths code total bits
      ls rest ls'
  | zeros {bits rest₁ rest₂ rest : List Bool} {ls ls' : List Nat} {n : Nat}
      (symbol : Symbol code bits 17 rest₁) (extra : Number 3 rest₁ n rest₂)
      (tail : Lengths code total rest₂ (ls ++ List.replicate (n + 3) 0) rest ls') :
      Lengths code total bits ls rest ls'
  | manyZeros {bits rest₁ rest₂ rest : List Bool} {ls ls' : List Nat} {n : Nat}
      (symbol : Symbol code bits 18 rest₁) (extra : Number 7 rest₁ n rest₂)
      (tail : Lengths code total rest₂ (ls ++ List.replicate (n + 11) 0) rest ls') :
      Lengths code total bits ls rest ls'

theorem Lengths.length_le {code : List Nat} {bs rest : List Bool}
    (h : Lengths code total bs ls rest ls') : ls.length ≤ total := by
  induction h with
  | done hall => exact hall.le
  | length _ _ _ ih => simp at ih; omega
  | previous _ _ _ _ ih => simp at ih; omega
  | zeros _ _ _ ih => simp at ih; omega
  | manyZeros _ _ _ ih => simp at ih; omega

theorem Lengths.rest_length_le {code : List Nat} {bs rest : List Bool}
    (h : Lengths code total bs ls rest ls') : rest.length ≤ bs.length := by
  induction h with
  | done => exact le_refl _
  | length hsym _ _ ih => exact ih.trans hsym.length_lt.le
  | previous hsym _ hextra _ ih => exact ih.trans (hextra.length_le.trans hsym.length_lt.le)
  | zeros hsym hextra _ ih => exact ih.trans (hextra.length_le.trans hsym.length_lt.le)
  | manyZeros hsym hextra _ ih => exact ih.trans (hextra.length_le.trans hsym.length_lt.le)

theorem Lengths.exists_ne_zero {code : List Nat} {bs rest : List Bool}
    (h : Lengths code total bs ls rest ls') (hlt : ls.length < total) : ∃ l ∈ code, l ≠ 0 := by
  cases h with
  | done hall => exact absurd hall (ne_of_lt hlt)
  | length hsym => exact hsym.exists_ne_zero
  | previous hsym => exact hsym.exists_ne_zero
  | zeros hsym => exact hsym.exists_ne_zero
  | manyZeros hsym => exact hsym.exists_ne_zero

/-- The code tables of a dynamic block, with at least one distance code. -/
inductive Tables : List Bool → List Nat → List Nat → List Bool → Prop
  | intro {bits rest₁ rest₂ rest₃ rest₄ rest : List Bool} {hlit hdist hclen : Nat}
      {given ls : List Nat} (literals : Number 5 bits hlit rest₁) (hlit_le : hlit ≤ 29)
      (distances : Number 5 rest₁ hdist rest₂) (codeLengths : Number 4 rest₂ hclen rest₃)
      (lengths : Numbers 3 (hclen + 4) rest₃ given rest₄) (kraft : Kraft (codeLengthLengths given) 7)
      (coded : Lengths (codeLengthLengths given) (hlit + 257 + (hdist + 1)) rest₄ [] rest ls)
      (kraft_lit : Kraft (ls.take (hlit + 257)) 15) (kraft_dist : Kraft (ls.drop (hlit + 257)) 15)
      (some_dist : ∃ l ∈ ls.drop (hlit + 257), l ≠ 0) :
      Tables bits (ls.take (hlit + 257)) (ls.drop (hlit + 257)) rest

theorem Tables.length_le {bs rest : List Bool} {lit dist : List Nat} (h : Tables bs lit dist rest) :
    rest.length ≤ bs.length := by
  cases h with
  | intro hlit _ hdist hclen hlengths _ hcoded =>
    have := hlit.length_le
    have := hdist.length_le
    have := hclen.length_le
    have := hlengths.rest_length_le
    have := hcoded.rest_length_le
    omega

/-- The lengths of the fixed code for literals and lengths. -/
def fixedLit : List Nat :=
  List.replicate 144 8 ++ List.replicate 112 9 ++ List.replicate 24 7 ++ List.replicate 8 8

/-- The lengths of the fixed code for distances. -/
def fixedDist : List Nat := List.replicate 32 5

/-- A block behind its first bit. -/
inductive Block : List Bool → List UInt8 → List Bool → List UInt8 → Prop
  | stored {bits rest₁ rest₂ rest₃ rest : List Bool} {out bytes : List UInt8} {nlen : Nat}
      (type : Number 2 bits 0 rest₁) (len : Number 16 (rest₁.drop (rest₁.length % 8)) bytes.length rest₂)
      (complement : Number 16 rest₂ nlen rest₃) (agree : bytes.length + nlen = 65535)
      (literal : rest₃ = bitsOf bytes ++ rest) : Block bits out rest (out ++ bytes)
  | fixed {bits rest₁ rest : List Bool} {out out' : List UInt8} (type : Number 2 bits 1 rest₁)
      (data : Data fixedLit fixedDist rest₁ out rest out') : Block bits out rest out'
  | dynamic {bits rest₁ rest₂ rest : List Bool} {out out' : List UInt8} {lit dist : List Nat}
      (type : Number 2 bits 2 rest₁) (tables : Tables rest₁ lit dist rest₂)
      (data : Data lit dist rest₂ out rest out') : Block bits out rest out'

theorem Block.length_le (h : Block bs out rest out') : rest.length ≤ bs.length := by
  cases h with
  | stored htype hlen hnlen _ hbytes =>
    have := htype.length_le
    have := hlen.length_le
    have := hnlen.length_le
    have := congrArg length hbytes
    rw [length_append] at this
    rw [length_drop] at *
    omega
  | fixed htype hdata => exact hdata.length_le.trans htype.length_le
  | dynamic htype htables hdata =>
    exact hdata.length_le.trans (htables.length_le.trans htype.length_le)

theorem Block.type (h : Block bs out rest out') : ∃ type rest₁, Number 2 bs type rest₁ := by
  cases h with
  | stored htype => exact ⟨_, _, htype⟩
  | fixed htype => exact ⟨_, _, htype⟩
  | dynamic htype => exact ⟨_, _, htype⟩

/-- A sequence of blocks, of which the last one is marked. -/
inductive Stream : List Bool → List UInt8 → List Bool → List UInt8 → Prop
  | last {bits rest : List Bool} {out out' : List UInt8} (block : Block bits out rest out') :
      Stream (true :: bits) out rest out'
  | more {bits rest₁ rest : List Bool} {out out₁ out' : List UInt8} (block : Block bits out rest₁ out₁)
      (tail : Stream rest₁ out₁ rest out') : Stream (false :: bits) out rest out'

/-- A ZLIB stream (RFC 1950) for the bytes `out`, with or without a preset dictionary: two bytes of
header, the identifier of the dictionary if there is one, the compressed data, and behind its last
byte a checksum of four bytes. -/
inductive Zlib (dictionary : Bool) : List UInt8 → List UInt8 → Prop
  | intro {cmf flg : UInt8} {dictId body out : List UInt8} {rest : List Bool} (method : cmf.toNat % 16 = 8)
      (window : cmf.toNat / 16 ≤ 7) (check : (cmf.toNat * 256 + flg.toNat) % 31 = 0)
      (fdict : flg.toNat.testBit 5 = dictionary) (dictId_length : dictId.length = if dictionary then 4 else 0)
      (stream : Stream (bitsOf body) [] rest out) (checksum : 32 ≤ (rest.drop (rest.length % 8)).length) :
      Zlib dictionary (cmf :: flg :: (dictId ++ body)) out

end HeisenKernel.Deflate
