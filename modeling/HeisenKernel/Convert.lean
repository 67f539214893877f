import HeisenKernel.Base
import Mathlib.Data.List.Basic

/-!
# Numbers in texts

`Convert::StringToInt` (`common/convert.cpp:102`) reads spaces, a sign and digits, and stops at the
first byte that is no digit.
-/

namespace HeisenKernel

open List Nat UInt8

namespace Convert

/-- `IsSpace` (`convert.cpp:6`). -/
def isSpace (c : UInt8) : Bool := c = 32 ∨ c = 9 ∨ c = 10 ∨ c = 11 ∨ c = 12 ∨ c = 13

/-- The difference to `'0'` is at most 9 as an `unsigned int`. -/
def isDigit (c : UInt8) : Bool := 48 ≤ c ∧ c ≤ 57

/-- The value of a digit. -/
def digit (c : UInt8) : Nat := c.toNat - 48

/-- The loop over the spaces. -/
def skipSpaces : List UInt8 → Exec (List UInt8)
  | [] => .error .memory
  | c :: text => if isSpace c then skipSpaces text else .ok (c :: text)

/-- The loop over the digits. -/
def readDigits : List UInt8 → Int → Exec Int
  | [], _ => .error .memory
  | c :: text, result =>
    if isDigit c then readDigits text (int32 (10 * result + digit c)) else .ok result

/-- The sign and the digits. -/
def readSigned : List UInt8 → Exec Int
  | [] => .error .memory
  | c :: text =>
    if c = 45 then do
      let result ← readDigits text 0
      return int32 (-result)
    else if c = 43 then readDigits text 0
    else readDigits (c :: text) 0

/-- `Convert::StringToInt` (`convert.cpp:102`). -/
def stringToInt (text : List UInt8) : Exec Int := do
  let text ← skipSpaces text
  readSigned text

/-- The number with these decimal digits. -/
def valueOf (digits : List UInt8) : Nat := digits.foldl (fun n c => 10 * n + digit c) 0

/-- A sign, which may be missing. -/
inductive Sign where
  | none
  | plus
  | minus
deriving Repr, DecidableEq

namespace Sign

def text : Sign → List UInt8
  | none => []
  | plus => [43]
  | minus => [45]

def apply (n : Int) : Sign → Int
  | minus => -n
  | _ => n

end Sign

/-- The text is read as `v`: it consists of spaces, a sign and digits, with a byte behind them that ends
the number, and `v` is what is left of the number in 32 bits. -/
structure Spelling (text : List UInt8) (v : Int) (spaces : List UInt8) (sign : Sign) (digits : List UInt8)
    (last : UInt8) (rest : List UInt8) : Prop where
  text_eq : text = spaces ++ (sign.text ++ (digits ++ last :: rest))
  allSpaces : ∀ c ∈ spaces, isSpace c
  allDigits : ∀ c ∈ digits, isDigit c
  ends : ¬isDigit last
  /-- A number without a sign and without digits ends where it could not begin. -/
  first : sign = .none → digits = [] → ¬isSpace last ∧ last ≠ 45 ∧ last ≠ 43
  value : v = int32 (sign.apply (valueOf digits))

def Spells (text : List UInt8) (v : Int) : Prop :=
  ∃ spaces sign digits last rest, Spelling text v spaces sign digits last rest

variable {digits : List UInt8}

theorem skipSpaces_append (h : ∀ c ∈ spaces, isSpace c) (hc : ¬isSpace c) :
    skipSpaces (spaces ++ c :: rest) = .ok (c :: rest) := by
  induction spaces with
  | nil => rw [nil_append, skipSpaces, if_neg hc]
  | cons x spaces ih =>
    rw [cons_append, skipSpaces, if_pos (h x mem_cons_self)]
    exact ih (forall_mem_cons.1 h).2

theorem skipSpaces_eq_ok (h : skipSpaces text = .ok rest) :
    ∃ spaces c tail, text = spaces ++ c :: tail ∧ rest = c :: tail ∧ (∀ c ∈ spaces, isSpace c) ∧
      ¬isSpace c := by
  induction text with
  | nil => cases h
  | cons c text ih =>
    rw [skipSpaces] at h
    split at h
    · next hc =>
      obtain ⟨spaces, d, tail, htext, hrest, hspaces, hd⟩ := ih h
      refine ⟨c :: spaces, d, tail, congrArg (c :: ·) htext, hrest, ?_, hd⟩
      exact forall_mem_cons.2 ⟨hc, hspaces⟩
    · next hc => exact ⟨[], c, text, rfl, (Except.ok.inj h).symm, fun _ hx => (nomatch hx), hc⟩

theorem readDigits_append (h : ∀ c ∈ digits, isDigit c) (hlast : ¬isDigit last) (n : Nat) :
    readDigits (digits ++ last :: rest) (int32 n) =
      .ok (int32 (digits.foldl (fun n c => 10 * n + digit c) n : Nat)) := by
  induction digits generalizing n with
  | nil => rw [nil_append, readDigits, if_neg hlast, foldl_nil]
  | cons c digits ih =>
    have hwrap : int32 (10 * int32 n + digit c) = int32 (10 * n + digit c : Nat) := by
      unfold int32
      omega
    rw [cons_append, readDigits, if_pos (h c mem_cons_self), hwrap,
      ih (forall_mem_cons.1 h).2, foldl_cons]

theorem digits_of_readDigits (h : readDigits text n = .ok v) : ∃ digits last rest,
    text = digits ++ last :: rest ∧ (∀ c ∈ digits, isDigit c) ∧ ¬isDigit last := by
  induction text generalizing n with
  | nil => cases h
  | cons c text ih =>
    rw [readDigits] at h
    split at h
    · next hc =>
      obtain ⟨digits, last, rest, htext, hdigits, hlast⟩ := ih h
      refine ⟨c :: digits, last, rest, congrArg (c :: ·) htext, ?_, hlast⟩
      exact forall_mem_cons.2 ⟨hc, hdigits⟩
    · next hc => exact ⟨[], c, text, rfl, fun _ hx => (nomatch hx), hc⟩

theorem readDigits_zero (h : ∀ c ∈ digits, isDigit c) (hlast : ¬isDigit last) :
    readDigits (digits ++ last :: rest) 0 = .ok (int32 (valueOf digits)) :=
  readDigits_append h hlast 0

theorem not_isSpace_of_isDigit (h : isDigit c) : ¬isSpace c ∧ c ≠ 45 ∧ c ≠ 43 := by
  simp only [isDigit, decide_eq_true_eq] at h
  refine ⟨fun hs => ?_, ?_, ?_⟩
  · simp only [isSpace, decide_eq_true_eq] at hs
    rcases hs with rfl | rfl | rfl | rfl | rfl | rfl <;> exact absurd h (by decide)
  · rintro rfl
    exact absurd h (by decide)
  · rintro rfl
    exact absurd h (by decide)

theorem Spelling.stringToInt_eq (h : Spelling text v spaces sign digits last rest) :
    stringToInt text = .ok v := by
  rw [h.text_eq, h.value, stringToInt]
  cases sign with
  | none =>
    obtain ⟨c, tail, htail, hspace, hminus, hplus⟩ : ∃ c tail, digits ++ last :: rest = c :: tail ∧
        ¬isSpace c ∧ c ≠ 45 ∧ c ≠ 43 := by
      cases hd : digits with
      | nil => exact ⟨last, rest, rfl, h.first rfl hd⟩
      | cons c digits' =>
        exact ⟨c, _, rfl, not_isSpace_of_isDigit (h.allDigits c (hd ▸ mem_cons_self))⟩
    rw [Sign.text, nil_append, htail, bind_of_ok (skipSpaces_append h.allSpaces hspace), readSigned,
      if_neg hminus, if_neg hplus, ← htail, readDigits_zero h.allDigits h.ends]
    rfl
  | plus =>
    have hskip : skipSpaces (spaces ++ 43 :: (digits ++ last :: rest)) = _ :=
      skipSpaces_append h.allSpaces (by decide)
    rw [Sign.text, singleton_append, bind_of_ok hskip, readSigned, if_neg (by decide), if_pos rfl,
      readDigits_zero h.allDigits h.ends]
    rfl
  | minus =>
    have hskip : skipSpaces (spaces ++ 45 :: (digits ++ last :: rest)) = _ :=
      skipSpaces_append h.allSpaces (by decide)
    have hwrap : int32 (-int32 (valueOf digits)) = int32 (-(valueOf digits : Int)) := by
      unfold int32
      omega
    rw [Sign.text, singleton_append, bind_of_ok hskip, readSigned, if_pos rfl,
      bind_of_ok (readDigits_zero h.allDigits h.ends), hwrap]
    rfl

theorem spells_of_stringToInt (h : stringToInt text = .ok v) : Spells text v := by
  obtain ⟨t, hskip, hread⟩ := bind_eq_ok.1 h
  obtain ⟨spaces, c, tail, rfl, rfl, hspaces, hc⟩ := skipSpaces_eq_ok hskip
  -- the value is that of the decomposition, by the lemma above
  suffices hparts : ∃ (sign : Sign) (digits : List UInt8) (last : UInt8) (rest : List UInt8), c ::
      tail = sign.text ++ (digits ++ last :: rest) ∧ (∀ c ∈ digits, isDigit c) ∧ ¬isDigit last ∧
      (sign = .none → digits = [] → ¬isSpace last ∧ last ≠ 45 ∧ last ≠ 43) by
    obtain ⟨sign, digits, last, rest, htext, hdigits, hlast, hfirst⟩ := hparts
    have hspelling : Spelling (spaces ++ c :: tail) (int32 (sign.apply (valueOf digits))) spaces sign digits
        last rest := ⟨by rw [htext], hspaces, hdigits, hlast, hfirst, rfl⟩
    have hv := hspelling.stringToInt_eq
    rw [h] at hv
    rw [Except.ok.inj hv]
    exact ⟨_, _, _, _, _, hspelling⟩
  rw [readSigned] at hread
  split at hread
  · next hminus =>
    obtain ⟨r, hr, -⟩ := bind_eq_ok.1 hread
    obtain ⟨digits, last, rest, rfl, hdigits, hlast⟩ := digits_of_readDigits hr
    exact ⟨.minus, digits, last, rest, by rw [hminus]; rfl, hdigits, hlast, fun hs => (nomatch hs)⟩
  · next hminus =>
    split at hread
    · next hplus =>
      obtain ⟨digits, last, rest, rfl, hdigits, hlast⟩ := digits_of_readDigits hread
      exact ⟨.plus, digits, last, rest, by rw [hplus]; rfl, hdigits, hlast, fun hs => (nomatch hs)⟩
    · next hplus =>
      obtain ⟨digits, last, rest, htext, hdigits, hlast⟩ := digits_of_readDigits hread
      refine ⟨.none, digits, last, rest, htext, hdigits, hlast, ?_⟩
      rintro - rfl
      obtain ⟨rfl, rfl⟩ := List.cons.inj htext
      exact ⟨hc, hminus, hplus⟩

theorem stringToInt_eq_ok_iff : stringToInt text = .ok v ↔ Spells text v := by
  refine ⟨spells_of_stringToInt, ?_⟩
  rintro ⟨spaces, sign, digits, last, rest, h⟩
  exact h.stringToInt_eq

/-- A byte is stored in a static buffer. -/
def store (ret : List UInt8) (i : Int) (c : UInt8) : Exec (List UInt8) :=
  if 0 ≤ i ∧ i < ret.length then .ok (ret.set i.toNat c) else .error .memory

theorem natAbs_tdiv_ten (n : Int) : (n.tdiv 10).natAbs = n.natAbs / 10 := Int.natAbs_tdiv n 10

theorem tdiv_ten_eq_zero {n : Int} : n.tdiv 10 = 0 ↔ n.natAbs < 10 := by
  rw [← Int.natAbs_eq_zero, natAbs_tdiv_ten]
  omega

theorem tdiv_ten_lt {n : Int} (h : ¬n.tdiv 10 = 0) : (n.tdiv 10).natAbs < n.natAbs := by
  rw [tdiv_ten_eq_zero] at h
  rw [natAbs_tdiv_ten]
  omega

/-- The loop that counts the digits. -/
def countDigits (temp : Int) : Nat :=
  if temp.tdiv 10 = 0 then 1 else countDigits (temp.tdiv 10) + 1
termination_by temp.natAbs
decreasing_by exact tdiv_ten_lt ‹_›

/-- The byte `n % 10 + '0'`. -/
def digitByte (n : Int) : UInt8 := UInt8.ofNat (n.tmod 10 + 48).toNat

/-- The loop that stores the digits, from the position `i` down. -/
def writeDigits (n i : Int) (ret : List UInt8) : Exec (List UInt8) := do
  let ret ← store ret i (digitByte n)
  if n.tdiv 10 = 0 then .ok ret else writeDigits (n.tdiv 10) (i - 1) ret
termination_by n.natAbs
decreasing_by exact tdiv_ten_lt ‹_›

/-- `Convert::IntToString` (`convert.cpp:11`); `ret` is the static buffer with what the last call left. -/
def intToString (ret : List UInt8) (n : Int) : Exec (List UInt8) := do
  let isNegative := n < 0
  let n := if isNegative then int32 (-n) else n
  let numChars := countDigits n + if isNegative then 1 else 0
  let ret ← store ret numChars 0
  let ret ← (if isNegative then store ret 0 45 else .ok ret)
  writeDigits n (numChars - 1) ret

/-- `Convert::IntToString32` (`convert.cpp:43`): the digits are counted as those of an `int`. -/
def intToString32 (ret : List UInt8) (n : Nat) : Exec (List UInt8) := do
  let numChars := countDigits (int32 n)
  let ret ← store ret numChars 0
  writeDigits n (numChars - 1) ret

/-- The decimal text of a number. -/
def decimal (n : Nat) : List UInt8 := (Nat.toDigits 10 n).map fun c => UInt8.ofNat c.toNat

/-- What the loop stores. -/
def digitBytes (n : Int) : List UInt8 :=
  if n.tdiv 10 = 0 then [digitByte n] else digitBytes (n.tdiv 10) ++ [digitByte n]
termination_by n.natAbs
decreasing_by exact tdiv_ten_lt ‹_›

variable {ret : List UInt8} {n : Nat}

theorem store_eq (front rest : List UInt8) (c d : UInt8) :
    store (front ++ d :: rest) front.length c = .ok (front ++ c :: rest) := by
  have hlt : (front.length : Int) < (front ++ d :: rest).length := by
    rw [length_append, length_cons]
    omega
  rw [store, if_pos ⟨Int.natCast_nonneg _, hlt⟩]
  simp

theorem countDigits_pos (n : Int) : 0 < countDigits n := by
  rw [countDigits]
  split <;> omega

theorem countDigits_le_iff {k : Nat} (n : Int) : countDigits n ≤ k + 1 ↔ n.natAbs < 10 ^ (k + 1) := by
  induction k generalizing n with
  | zero =>
    have hpos := countDigits_pos (n.tdiv 10)
    have hten := @tdiv_ten_eq_zero n
    rw [countDigits]
    split <;> omega
  | succ k ih =>
    have hrest := ih (n.tdiv 10)
    have hten := @tdiv_ten_eq_zero n
    have hpow := Nat.pow_pos (n := k) (show 0 < 10 by decide)
    rw [natAbs_tdiv_ten] at hrest
    rw [countDigits, pow_succ]
    split <;> omega

theorem writeDigits_eq (front : List UInt8) (n : Int) (rest : List UInt8)
    (hold : old.length = countDigits n) :
    writeDigits n (front.length + countDigits n - 1) (front ++ (old ++ rest)) =
      .ok (front ++ (digitBytes n ++ rest)) := by
  induction hk : countDigits n generalizing n old rest with
  | zero => exact absurd hk (Nat.ne_of_gt (countDigits_pos n))
  | succ k ih =>
    rw [hk] at hold
    rcases eq_nil_or_concat' old with rfl | ⟨old, d, rfl⟩
    · cases hold
    have hlen : old.length = k := by simpa using hold
    have hindex : (front.length : Int) + (k + 1 : Nat) - 1 = (front ++ old).length := by
      rw [length_append, hlen]
      omega
    have hstore := store_eq (front ++ old) rest (digitByte n) d
    rw [append_assoc, ← hindex] at hstore
    rw [writeDigits, append_assoc, singleton_append, bind_of_ok hstore]
    rw [countDigits] at hk
    rw [digitBytes]
    split
    · next h =>
      rw [if_pos h] at hk
      obtain rfl : k = 0 := by omega
      obtain rfl := eq_nil_of_length_eq_zero hlen
      rw [append_nil, singleton_append]
    · next h =>
      rw [if_neg h] at hk
      obtain rfl : countDigits (n.tdiv 10) = k := by omega
      have := ih (n.tdiv 10) (digitByte n :: rest) hlen rfl
      rw [append_assoc, append_assoc, singleton_append, ← this]
      congr 1
      omega

theorem countDigits_le_of_writeDigits (n : Int)
    (h : writeDigits n i ret = .ok text) : countDigits n ≤ i + 1 := by
  induction hk : countDigits n generalizing n i ret with
  | zero => exact absurd hk (Nat.ne_of_gt (countDigits_pos n))
  | succ k ih =>
    rw [writeDigits] at h
    obtain ⟨ret', hstore, h⟩ := bind_eq_ok.1 h
    have hi : 0 ≤ i := by
      by_contra hneg
      rw [store, if_neg fun hin => hneg hin.1] at hstore
      cases hstore
    rw [countDigits] at hk
    split at h
    · next hn =>
      rw [if_pos hn] at hk
      omega
    · next hn =>
      rw [if_neg hn] at hk
      have := ih _ h (by omega)
      omega

theorem decimal_spec (n : Nat) :
    digitBytes n = decimal n ∧ (∀ c ∈ decimal n, isDigit c) ∧ valueOf (decimal n) = n := by
  have hbyte : ∀ m < 10, ofNat (digitChar m).toNat = ofNat (m + 48) ∧
      isDigit (ofNat (m + 48)) = true ∧ digit (ofNat (m + 48)) = m := by decide
  induction n using Nat.strongRecOn with
  | _ n ih =>
    obtain ⟨hchar, hdigit, hvalue⟩ := hbyte (n % 10) (mod_lt _ (by decide))
    have hdiv : (n : Int).tdiv 10 = (n / 10 : Nat) := rfl
    have hlast : digitByte n = ofNat (n % 10 + 48) := rfl
    rw [digitBytes, hdiv, hlast, decimal]
    rcases Nat.lt_or_ge n 10 with h | h
    · rw [if_pos (by omega), toDigits_of_lt_base h, ← mod_eq_of_lt h, map_singleton, hchar]
      refine ⟨by rw [mod_mod], forall_mem_singleton.2 hdigit, ?_⟩
      rw [valueOf, foldl_cons, foldl_nil, hvalue, Nat.mul_zero, Nat.zero_add]
    · obtain ⟨hbytes, hdigits, hfront⟩ := ih (n / 10) (by omega)
      rw [if_neg (by omega), hbytes, toDigits_of_base_le (by decide) h, map_append, map_singleton, hchar]
      refine ⟨rfl, forall_mem_append.2 ⟨hdigits, forall_mem_singleton.2 hdigit⟩, ?_⟩
      rw [valueOf, foldl_append]
      rw [valueOf, decimal] at hfront
      rw [hfront, foldl_cons, foldl_nil, hvalue]
      omega

theorem exists_terminated (h : k < ret.length) :
    ∃ old rest, old.length = k ∧ store ret k 0 = .ok (old ++ 0 :: rest) := by
  refine ⟨ret.take k, ret.drop (k + 1), length_take_of_le (Nat.le_of_lt h), ?_⟩
  rw [store, if_pos ⟨Int.natCast_nonneg _, Int.ofNat_lt.2 h⟩, Int.toNat_natCast, set_eq_take_append_cons_drop,
    if_pos h]

theorem intToString_nonneg {n : Int} (hn : 0 ≤ n) (hlen : countDigits n < ret.length) :
    ∃ rest, intToString ret n = .ok (digitBytes n ++ 0 :: rest) := by
  obtain ⟨old, rest, hold, hstore⟩ := exists_terminated hlen
  have hwrite := writeDigits_eq [] n (0 :: rest) hold
  rw [length_nil, Int.ofNat_zero, Int.zero_add] at hwrite
  refine ⟨rest, ?_⟩
  have hn := Int.not_lt.2 hn
  simp only [intToString, if_neg hn, add_zero, bind_of_ok hstore]
  exact hwrite

theorem intToString_neg {n : Int} (hn : n < 0) (hlen : countDigits (int32 (-n)) + 1 < ret.length) :
    ∃ rest, intToString ret n = .ok (45 :: (digitBytes (int32 (-n)) ++ 0 :: rest)) := by
  obtain ⟨old, rest, hold, hstore⟩ := exists_terminated hlen
  obtain ⟨d, old, rfl⟩ := exists_cons_of_length_eq_add_one hold
  have hsign : store (d :: (old ++ 0 :: rest)) 0 45 = _ := store_eq [] (old ++ 0 :: rest) 45 d
  have hwrite := writeDigits_eq [45] _ (0 :: rest) (succ.inj hold)
  refine ⟨rest, ?_⟩
  simp only [intToString, if_pos hn, bind_of_ok hstore, cons_append, bind_of_ok hsign]
  have hindex : ((countDigits (int32 (-n)) + 1 : Nat) : Int) - 1 =
      ([45] : List UInt8).length + countDigits (int32 (-n)) - 1 := by
    rw [length_singleton]
    omega
  rw [hindex]
  exact hwrite

theorem intToString32_eq (h : countDigits (int32 n) = countDigits n) (hlen : countDigits n < ret.length) :
    ∃ rest, intToString32 ret n = .ok (decimal n ++ 0 :: rest) := by
  rw [← h] at hlen
  obtain ⟨old, rest, hold, hstore⟩ := exists_terminated hlen
  have hwrite := writeDigits_eq [] n (0 :: rest) (hold.trans h)
  rw [length_nil, Int.ofNat_zero, Int.zero_add, (decimal_spec n).1] at hwrite
  refine ⟨rest, ?_⟩
  rw [intToString32, bind_of_ok hstore, h]
  exact hwrite

theorem countDigits_le {n : Int} (h : -2 ^ 31 ≤ n) (h' : n < 2 ^ 32) : countDigits n ≤ 10 :=
  (countDigits_le_iff n).2 (by omega)

/-- The least `int` is its own negative, and the bytes of its digits lie below `'0'`. -/
theorem intToString_least (hlen : ret.length = 24) : ∃ rest,
    intToString ret (-2 ^ 31) = .ok (45 :: 46 :: rest) := by
  have hwrap : int32 (- -2 ^ 31) = -2 ^ 31 := by decide
  have hbytes : digitBytes (-2 ^ 31) = [46, 47, 44, 41, 44, 40, 45, 42, 44, 40] := by decide +kernel
  have hcount := countDigits_le (show -2 ^ 31 ≤ (-2 ^ 31 : Int) by decide) (by decide)
  obtain ⟨rest, h⟩ := @intToString_neg ret (-2 ^ 31) (by decide) (by rw [hwrap]; omega)
  rw [hwrap, hbytes] at h
  exact ⟨_, h⟩

theorem Spelling.decimal (sign : Sign) (n : Nat) (rest : List UInt8) :
    Spelling (sign.text ++ (decimal n ++ 0 :: rest)) (int32 (sign.apply n)) [] sign (decimal n) 0 rest := by
  obtain ⟨-, hdigits, hvalue⟩ := decimal_spec n
  exact ⟨rfl, forall_mem_nil _, hdigits, by decide, fun _ _ => by decide, by rw [hvalue]⟩

/-- Texts of numbers are read back, and numbers without a sign are shown in full, but for the least `int` and for
numbers of more digits than the `int` of the same bits. -/
theorem convert_iff (ret : { l : List UInt8 // l.length = 24 }) (v : Int32)
    (ret32 : { l : List UInt8 // l.length = 32 }) (n : UInt32) :
    ((∃ text, intToString ret.1 v.toInt = .ok text ∧ stringToInt text = .ok v.toInt) ↔ v.toInt ≠ -2 ^ 31) ∧
    ((∃ rest, intToString32 ret32.1 n.toNat = .ok (decimal n.toNat ++ 0 :: rest)) ↔
      n.toNat ≤ 3294967296) := by
  have hv := v.le_toInt
  have hv' := v.toInt_lt
  have hn := n.toNat_lt
  have hlen := ret.2
  have hlen32 := ret32.2
  have hwrap : 2 ^ 31 ≤ n.toNat → int32 n.toNat = n.toNat - 2 ^ 32 := by
    unfold int32
    omega
  have hnine := fun m => @countDigits_le_iff 8 m
  refine ⟨⟨?_, fun hmin => ?_⟩, ⟨?_, fun hle => ?_⟩⟩
  · rintro ⟨text, htext, hread⟩ hmin
    obtain ⟨rest, hleast⟩ := intToString_least hlen
    rw [hmin, hleast] at htext
    cases htext
    rw [hmin] at hread
    cases hread
  · rcases Int.lt_or_le v.toInt 0 with hneg | hpos
    · have hneg' : int32 (-v.toInt) = v.toInt.natAbs := by rw [int32_eq] <;> omega
      have hcount := @countDigits_le (int32 (-v.toInt)) (by omega) (by omega)
      obtain ⟨rest, htext⟩ := @intToString_neg ret.1 v.toInt hneg (by omega)
      rw [hneg', (decimal_spec _).1] at htext
      refine ⟨_, htext, (Spelling.decimal .minus _ rest).stringToInt_eq.trans (congrArg _ ?_)⟩
      show int32 (-(v.toInt.natAbs : Int)) = _
      rw [int32_eq] <;> omega
    · have hcount := @countDigits_le v.toInt (by omega) (by omega)
      obtain ⟨rest, htext⟩ := @intToString_nonneg ret.1 v.toInt hpos (by omega)
      have hbytes : digitBytes v.toInt = decimal v.toInt.natAbs := by
        rw [← (decimal_spec _).1, Int.natAbs_of_nonneg hpos]
      rw [hbytes] at htext
      refine ⟨_, htext, (Spelling.decimal .none _ rest).stringToInt_eq.trans (congrArg _ ?_)⟩
      show int32 (v.toInt.natAbs : Int) = _
      rw [int32_eq] <;> omega
  · rintro ⟨rest, htext⟩
    by_contra hbig
    obtain ⟨_, -, hwrite⟩ := bind_eq_ok.1 htext
    have hle := countDigits_le_of_writeDigits _ hwrite
    have hmany := hnine n.toNat
    have hfew := hnine (int32 n.toNat)
    rw [hwrap (by omega)] at hfew hle
    omega
  · have hcount := @countDigits_le n.toNat (by omega) (by omega)
    refine intToString32_eq ?_ (by omega)
    rcases Nat.lt_or_ge n.toNat (2 ^ 31) with hlt | hge
    · rw [int32_eq] <;> omega
    · have hmany := hnine n.toNat
      have hmany' := hnine (int32 n.toNat)
      have hcount' := @countDigits_le (int32 n.toNat) (by omega) (by omega)
      rw [hwrap hge] at *
      omega

/-- The text of the least `int` is read as 0, and for the largest `uint32_t`, whose bits are those of the `int`
-1, nine digits are stored in front of the buffer. -/
theorem convert_fails :
    (intToString (List.replicate 24 0) (-2 ^ 31) >>= stringToInt) = .ok 0 ∧
      intToString32 (List.replicate 32 0) 4294967295 = .error .memory := by
  exact ⟨by decide +kernel, by decide +kernel⟩

end Convert

end HeisenKernel
