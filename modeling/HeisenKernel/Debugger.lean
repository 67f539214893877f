import HeisenKernel.Base
import Mathlib.Data.List.Basic
import Mathlib.Order.Nat

/-!
# The symbols of the debugger

`SymbolDebugger::FindSymbol` (`system/debugger.cpp`) looks up the symbol that an address belongs to.
-/

namespace HeisenKernel.SymbolDebugger

open List Nat

/-- `GenericSymbol_t`, without the type. -/
structure GenericSymbol where
  name : List UInt8
  address : Nat
deriving Repr, DecidableEq

/-- The loop of `FindSymbol`, with the name and the offset that it returns. -/
def findFrom (address : Nat) : (prevItem : GenericSymbol) → List GenericSymbol → Option (List UInt8 × Nat)
  | _, [] => none
  | prevItem, item :: rest =>
    if address ≥ prevItem.address ∧ address ≤ item.address then some (prevItem.name, address - prevItem.address)
    else findFrom address item rest

/-- `SymbolDebugger::FindSymbol` (`debugger.cpp:141`). -/
def findSymbol (symbolTable : List GenericSymbol) (address : Nat) : Exec (Option (List UInt8 × Nat)) :=
  match symbolTable with
  | [] => .error .memory
  | first :: rest => .ok (findFrom address first (first :: rest))

/-- The last symbol that is not behind an address, in a table of `first` and `rest`. -/
def symbolAt (first : GenericSymbol) (rest : List GenericSymbol) (address : Nat) : GenericSymbol :=
  (rest.filter (·.address ≤ address)).getLastD first

variable {first : GenericSymbol} {rest : List GenericSymbol} {a : Nat}

theorem symbolAt_mem : symbolAt first rest a = first ∨
    symbolAt first rest a ∈ rest ∧ (symbolAt first rest a).address ≤ a := by
  rw [symbolAt]
  rcases eq_nil_or_concat' (rest.filter (·.address ≤ a)) with h | ⟨front, s, h⟩
  · rw [h]
    exact .inl rfl
  · have hs : s ∈ rest.filter (·.address ≤ a) := by simp [h]
    rw [h, getLastD_concat]
    exact .inr (by simpa using hs)

theorem symbolAt_cons (h : item.address ≤ a) : symbolAt first (item :: rest) a = symbolAt item rest a := by
  rw [symbolAt, filter_cons_of_pos (by simpa using h), getLastD_cons, symbolAt]

theorem findFrom_iff (hsorted : (first :: rest).Pairwise (·.address ≤ ·.address)) (h : first.address < a) :
    findFrom a first rest = some ((symbolAt first rest a).name, a - (symbolAt first rest a).address) ↔
      (symbolAt first rest a).address < a ∧ ∃ s ∈ rest, a < s.address := by
  induction rest generalizing first with
  | nil => simp [findFrom]
  | cons item rest ih =>
    obtain ⟨hfirst, hsorted⟩ := pairwise_cons.1 hsorted
    have hitem := (pairwise_cons.1 hsorted).1
    rw [findFrom]
    rcases lt_trichotomy a item.address with hlt | heq | hgt
    · have hnone : (item :: rest).filter (·.address ≤ a) = [] := by
        refine filter_eq_nil_iff.2 (forall_mem_cons.2 ⟨by simpa using hlt, fun s hs => ?_⟩)
        simpa using hlt.trans_le (hitem s hs)
      rw [if_pos ⟨h.le, hlt.le⟩, symbolAt, hnone]
      exact iff_of_true rfl ⟨h, item, mem_cons_self, hlt⟩
    · -- the symbol at the address itself is passed over
      have hs : (symbolAt item rest a).address = a := by
        rcases @symbolAt_mem item rest a with hs | ⟨hs, hle⟩
        · rw [hs, heq]
        · exact le_antisymm hle (heq.le.trans (hitem _ hs))
      rw [if_pos ⟨h.le, heq.le⟩, symbolAt_cons heq.ge, hs]
      refine iff_of_false (fun he => ?_) fun hr => absurd hr.1 (lt_irrefl a)
      have := congrArg Prod.snd (Option.some.inj he)
      dsimp only at this
      omega
    · rw [if_neg (by omega), symbolAt_cons hgt.le, ih hsorted hgt]
      simp [not_lt.2 hgt.le]

/-- The symbol of an address is found between two symbols, and at the first one. At the address of any other
symbol the symbol in front of it is returned, and none behind the last symbol. -/
theorem findSymbol_iff (first : GenericSymbol) (rest : List GenericSymbol) (address : Nat)
    (hsorted : (first :: rest).Pairwise (·.address ≤ ·.address)) (h : first.address ≤ address) :
    findSymbol (first :: rest) address = .ok (some ((symbolAt first rest address).name,
        address - (symbolAt first rest address).address)) ↔
      if address = first.address then (symbolAt first rest address).name = first.name
      else (symbolAt first rest address).address ≠ address ∧ ∃ s ∈ rest, address < s.address := by
  have hle : (symbolAt first rest address).address ≤ address := by
    rcases @symbolAt_mem first rest address with hs | ⟨-, hs⟩
    · rwa [hs]
    · exact hs
  rw [findSymbol, Except.ok.injEq, findFrom]
  rcases eq_or_lt_of_le h with heq | hlt
  · have hge : first.address ≤ (symbolAt first rest address).address := by
      rcases @symbolAt_mem first rest address with hs | ⟨hs, -⟩
      · exact (congrArg _ hs).ge
      · exact (pairwise_cons.1 hsorted).1 _ hs
    rw [if_pos ⟨h, heq.ge⟩, if_pos heq.symm, Option.some.injEq, Prod.mk.injEq, eq_comm]
    exact and_iff_left (by omega)
  · rw [if_neg (by omega), if_neg hlt.ne', findFrom_iff hsorted hlt, lt_iff_le_and_ne]
    exact and_congr_left fun _ => and_iff_right hle

theorem findSymbol_iff_between : findSymbol [⟨[97], 16⟩, ⟨[98], 32⟩] 20 = .ok (some ([97], 4)) :=
  (findSymbol_iff ⟨[97], 16⟩ [⟨[98], 32⟩] 20 (by decide) (by decide)).2 (by decide)

/-- At its own address a symbol is taken for the one in front of it, and behind the last one nothing is found. -/
theorem findSymbol_fails : findSymbol [⟨[97], 16⟩, ⟨[98], 32⟩] 32 = .ok (some ([97], 16)) ∧
    findSymbol [⟨[97], 16⟩, ⟨[98], 32⟩] 40 = .ok none := ⟨rfl, rfl⟩

end HeisenKernel.SymbolDebugger
