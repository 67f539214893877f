import HeisenKernel.Base
import HeisenKernel.Lib.Loop

/-!
# The text of the terminal (`libcx/apps/terminal/terminalcontrol.cpp`)

Every read and write of `textBuffer` is checked, so that a call returns exactly when all of them are inside the
buffer. The column may be `TERM_WIDTH`, until the next character arrives.
-/

namespace HeisenKernel

open Lib List

def termWidth : Nat := 74

def termHeigh : Nat := 26

def termSize : Nat := termWidth * termHeigh

structure TerminalControl where
  textBuffer : Nat → UInt8
  x : Nat
  y : Nat
  cursor : Bool

namespace TerminalControl

def readText (t : TerminalControl) (i : Nat) : Exec UInt8 :=
  if i < termSize then .ok (t.textBuffer i) else .error .memory

def writeText (t : TerminalControl) (i : Nat) (c : UInt8) : Exec TerminalControl :=
  if i < termSize then .ok { t with textBuffer := Function.update t.textBuffer i c }
  else .error .memory

/-- `memcpy` of one row onto another one. -/
def copyRow (t : TerminalControl) (target source : Nat) : Exec TerminalControl :=
  (List.range termWidth).foldlM (fun t j => do
    let c ← t.readText (source * termWidth + j)
    t.writeText (target * termWidth + j) c) t

/-- `ScrollLine` (`terminalcontrol.cpp:76`). -/
def scrollLine (t : TerminalControl) : Exec TerminalControl := do
  let t ← (List.range termHeigh).foldlM (fun t i => t.copyRow i (i + 1)) t
  (List.range termWidth).foldlM (fun t i => t.writeText ((termHeigh - 1) * termWidth + i) 0) t

/-- The start of the next line, for a newline and behind the last column. -/
def nextLine (t : TerminalControl) : Exec TerminalControl :=
  if t.y = termHeigh - 1 then { t with x := 0 }.scrollLine else .ok { t with x := 0, y := t.y + 1 }

def index (t : TerminalControl) : Nat := t.y * termWidth + t.x

def writeDefault (c : UInt8) (t : TerminalControl) : Exec TerminalControl := do
  let t ← (if t.x = termWidth then t.nextLine else .ok t)
  let t ← t.writeText t.index c
  .ok { t with x := t.x + 1 }

/-- The blanks of a tab. -/
def writeBlanks : Nat → TerminalControl → Exec TerminalControl
  | 0, t => .ok t
  | n + 1, t => do
    let t ← t.writeDefault 0x20
    writeBlanks n t

def backspace (t : TerminalControl) : Exec TerminalControl := do
  let t ← t.writeText t.index 0
  if 1 ≤ t.x then
    let t := { t with x := t.x - 1 }
    t.writeText t.index 0
  else if 1 ≤ t.y then
    -- one line up
    let t := { t with y := t.y - 1, x := termWidth - 1 }
    t.writeText t.index 0
  else .ok t

/-- `Write` of a character (`terminalcontrol.cpp:22`). -/
def write (t : TerminalControl) (c : UInt8) : Exec TerminalControl :=
  if c = 0 then .ok t
  else if c = 0x0A then t.nextLine
  else if c = 0x09 then writeBlanks 4 t
  else if c = 0x08 then t.backspace
  else t.writeDefault c

/-- `ToggleCursor` (`terminalcontrol.cpp:90`); `>` is `0x3E`. -/
def toggleCursor (t : TerminalControl) : Exec TerminalControl :=
  { t with cursor := !t.cursor }.writeText t.index (if !t.cursor then 0x3E else 0)

/-- The calls of the terminal; `writeString` is `Write` of a string with the bytes and a zero behind them. -/
inductive Call where
  | write (c : UInt8)
  | writeString (str : List UInt8)
  | toggleCursor
  | clear
deriving DecidableEq

def call (t : TerminalControl) : Call → Exec TerminalControl
  | .write c => t.write c
  | .writeString str => (str.takeWhile (· ≠ 0)).foldlM write t
  | .toggleCursor => t.toggleCursor
  | .clear => .ok { t with textBuffer := fun _ => 0, x := 0, y := 0 }

/-- The terminal after its constructor. -/
def new : TerminalControl := ⟨fun _ => 0, 0, 0, false⟩

/-- The cursor is on the screen or behind a row. -/
def Inside (t : TerminalControl) : Prop := t.x ≤ termWidth ∧ t.y < termHeigh

/-- A newline has a row below it, and any other character has its cells before the end of the buffer. -/
def Fits (t : TerminalControl) (c : UInt8) : Prop :=
  c = 0 ∨ if c = 0x0A then t.y + 1 < termHeigh
    else t.index + (if c = 0x09 then 4 else 1) ≤ termSize

/-- The states in which a call stays inside the buffer. -/
def FitsCall (t : TerminalControl) : Call → Prop
  | .write c => t.Fits c
  | .writeString str => Allows write Fits (str.takeWhile (· ≠ 0)) t
  | .toggleCursor => t.index < termSize
  | .clear => True

variable {t t' : TerminalControl} {c : UInt8}

theorem writeText_eq_ok : t.writeText i c = .ok t' ↔
    i < termSize ∧ { t with textBuffer := Function.update t.textBuffer i c } = t' := by
  unfold writeText
  split
  · next h => simp [h]
  · next h => simp [h]

theorem Inside.index_le (ht : t.Inside) : t.index ≤ termSize := by
  unfold Inside index termSize termWidth termHeigh at *
  omega

theorem inside_new : new.Inside := ⟨by decide, by decide⟩

/-- The last row is copied from behind the buffer. -/
theorem scrollLine_ne_ok (t t' : TerminalControl) : t.scrollLine ≠ .ok t' := by
  intro h
  obtain ⟨t₁, hrows, -⟩ := bind_eq_ok.1 h
  rw [termHeigh, range_succ, foldlM_append] at hrows
  obtain ⟨t₂, -, hlast⟩ := bind_eq_ok.1 hrows
  have hcopy : t₂.copyRow 25 26 = .error .memory := by
    rw [copyRow, termWidth, range_succ_eq_map]
    rfl
  rw [foldlM_cons, hcopy] at hlast
  cases hlast

theorem nextLine_eq_ok : t.nextLine = .ok t' ↔ t.y ≠ 25 ∧ { t with x := 0, y := t.y + 1 } = t' := by
  unfold nextLine
  split
  · next h => exact ⟨fun h' => absurd h' (scrollLine_ne_ok _ _), fun h' => absurd h h'.1⟩
  · next h => exact ⟨fun h' => ⟨h, Except.ok.inj h'⟩, fun h' => congrArg _ h'.2⟩

theorem writeDefault_iff (ht : t.Inside) (c : UInt8) :
    ReturnsIff (fun t' => Inside t' ∧ t'.index = t.index + 1) (t.writeDefault c) (t.index < termSize) := by
  refine ⟨fun hlt => ?_, fun t' h => ?_⟩
  · obtain ⟨t₁, hline, hlt⟩ : ∃ t₁, (if t.x = termWidth then t.nextLine else .ok t) = .ok t₁ ∧
        t₁.index < termSize := by
      split
      · next hx =>
        unfold Inside index termSize termWidth termHeigh at *
        refine ⟨_, nextLine_eq_ok.2 ⟨by omega, rfl⟩, ?_⟩
        dsimp only
        omega
      · exact ⟨t, rfl, hlt⟩
    rw [writeDefault, bind_of_ok hline, bind_of_ok (writeText_eq_ok.2 ⟨hlt, rfl⟩)]
    exact ⟨_, rfl⟩
  · obtain ⟨t₁, hline, h⟩ := bind_eq_ok.1 h
    obtain ⟨t₂, hwrite, h⟩ := bind_eq_ok.1 h
    obtain ⟨hlt, rfl⟩ := writeText_eq_ok.1 hwrite
    cases h
    unfold Inside index termSize termWidth termHeigh at *
    split at hline
    · obtain ⟨hy, rfl⟩ := nextLine_eq_ok.1 hline
      dsimp only at hlt ⊢
      omega
    · cases hline
      dsimp only
      omega

theorem writeBlanks_iff (ht : t.Inside) (n : Nat) :
    ReturnsIff Inside (writeBlanks n t) (t.index + n ≤ termSize) := by
  induction n generalizing t with
  | zero => exact ⟨fun _ => ⟨t, rfl⟩, fun t' h => by cases h; exact ⟨ht.index_le, ht⟩⟩
  | succ n ih =>
    have hfirst := writeDefault_iff ht 0x20
    refine ⟨fun hle => ?_, fun t' h => ?_⟩
    · obtain ⟨t₁, h₁⟩ := hfirst.returns (by omega)
      obtain ⟨-, ht₁, hindex⟩ := hfirst.keeps t₁ h₁
      rw [writeBlanks, bind_of_ok h₁]
      exact (ih ht₁).returns (by omega)
    · obtain ⟨t₁, h₁, h⟩ := bind_eq_ok.1 h
      obtain ⟨-, ht₁, hindex⟩ := hfirst.keeps t₁ h₁
      obtain ⟨hle, ht'⟩ := (ih ht₁).keeps t' h
      exact ⟨by omega, ht'⟩

theorem backspace_iff (ht : t.Inside) : ReturnsIff Inside t.backspace (t.index + 1 ≤ termSize) := by
  refine ⟨fun hlt => ?_, fun t' h => ?_⟩
  · rw [backspace, bind_of_ok (writeText_eq_ok.2 ⟨hlt, rfl⟩)]
    unfold Inside index termSize termWidth termHeigh at *
    dsimp only
    split
    · exact ⟨_, writeText_eq_ok.2 ⟨by unfold termSize termWidth termHeigh; omega, rfl⟩⟩
    · split
      · exact ⟨_, writeText_eq_ok.2 ⟨by unfold termSize termWidth termHeigh; omega, rfl⟩⟩
      · exact ⟨_, rfl⟩
  · obtain ⟨t₁, hwrite, h⟩ := bind_eq_ok.1 h
    obtain ⟨hlt, rfl⟩ := writeText_eq_ok.1 hwrite
    refine ⟨hlt, ?_⟩
    unfold Inside termWidth termHeigh at *
    split at h
    · obtain ⟨-, rfl⟩ := writeText_eq_ok.1 h
      dsimp only
      omega
    · split at h
      · obtain ⟨-, rfl⟩ := writeText_eq_ok.1 h
        dsimp only [termWidth]
        omega
      · cases h
        exact ht

theorem write_iff (ht : t.Inside) (c : UInt8) : ReturnsIff Inside (t.write c) (t.Fits c) := by
  unfold write Fits
  split
  · next h => exact ⟨fun _ => ⟨t, rfl⟩, fun t' h' => ⟨.inl h, by cases h'; exact ht⟩⟩
  next hzero =>
  simp only [hzero, false_or]
  split
  · refine ⟨fun h => ⟨_, nextLine_eq_ok.2 ⟨by unfold termHeigh at h; omega, rfl⟩⟩, fun t' h => ?_⟩
    obtain ⟨hy, rfl⟩ := nextLine_eq_ok.1 h
    unfold Inside termWidth termHeigh at *
    dsimp only
    omega
  split
  · exact writeBlanks_iff ht 4
  split
  · exact backspace_iff ht
  · have h := writeDefault_iff ht c
    exact ⟨h.returns, fun t' h' => (h.keeps t' h').imp_right And.left⟩

theorem call_iff (ht : t.Inside) (c : Call) : ReturnsIff Inside (t.call c) (t.FitsCall c) := by
  cases c with
  | write c => exact write_iff ht c
  | writeString str => exact foldlM_returnsIff (fun _ c ht => write_iff ht c) _ ht
  | toggleCursor =>
    refine ⟨fun h => ⟨_, writeText_eq_ok.2 ⟨h, rfl⟩⟩, fun t' h => ?_⟩
    obtain ⟨hlt, rfl⟩ := writeText_eq_ok.1 h
    exact ⟨hlt, ht⟩
  | clear => exact ⟨fun _ => ⟨_, rfl⟩, fun t' h => ⟨trivial, by cases h; exact inside_new⟩⟩

/-- Every access of a sequence of calls is inside the buffer exactly when each call finds a state in which it
fits. -/
theorem calls_inside_iff (calls : List Call) : (∃ t, calls.foldlM call new = .ok t) ↔
    Allows call FitsCall calls new := by
  have h := foldlM_returnsIff (fun _ c ht => call_iff ht c) calls inside_new
  exact ⟨fun ⟨t, ht⟩ => (h.keeps t ht).1, h.returns⟩

/-- The 26th newline scrolls, and the row behind the buffer is read. -/
theorem calls_outside : ¬∃ t, (List.replicate 26 (Call.write 0x0A)).foldlM call new = .ok t := by
  rintro ⟨t, h⟩
  have hlast : (replicate 25 (Call.write 0x0A)).foldlM call new = .ok { new with y := 25 } := rfl
  rw [replicate_succ', foldlM_append, bind_of_ok hlast] at h
  obtain ⟨t', hscroll, -⟩ := bind_eq_ok.1 h
  exact scrollLine_ne_ok _ _ hscroll

end TerminalControl

end HeisenKernel
