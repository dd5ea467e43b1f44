import Offside.Cursor

/-!
The margin of a line: the blank and comment lines in front of it and its own indentation. Only the
indentation of the next line that holds code gives the width; the end of input has width zero.
-/

namespace Offside

structure Margin where
  width : Nat
  passed : Nat
  deriving DecidableEq, Repr

namespace Margin

def tabWidth : Nat := 3

/-- Widths saturate here, so that they fit a signed 16-bit field. -/
def maxWidth : Nat := 0x7FFF

def widen (width columns : Nat) : Nat := min maxWidth (width + columns)

/-- Measures on from a width and a count; inside a comment all passes but the line feed. -/
def measureFrom (comment : Bool) (width passed : Nat) : Text → Margin
  | [] => ⟨0, passed⟩
  | u :: rest =>
    if u = .lineFeed then measureFrom false 0 (passed + 1) rest
    else if comment then measureFrom true width (passed + 1) rest
    else if u = .carriageReturn then measureFrom false width (passed + 1) rest
    else if u = .space then measureFrom false (widen width 1) (passed + 1) rest
    else if u = .tab then measureFrom false (widen width tabWidth) (passed + 1) rest
    else if u = .hash then measureFrom true width (passed + 1) rest
    else ⟨width, passed⟩

def ofText (t : Text) : Margin := measureFrom false 0 0 t

end Margin

namespace Cursor

def atBreak (c : Cursor) : Bool :=
  match c.lookahead with
  | none => true
  | some u => u == .lineFeed || u == .carriageReturn

def skipComment (c : Cursor) : Cursor := c.skipWhile (· != .lineFeed)

/-- Passes a line break and the margin after it, and gives the margin's width; none if there is no
line break ahead. Only the first line feed belongs to the token. The end of input counts as a line
break of width zero. -/
def measureBreak (c : Cursor) : Option Nat × Cursor :=
  let c := c.skipWhile (· == .carriageReturn)
  match c.lookahead with
  | none => (some 0, c.markEnd)
  | some u =>
    if u = .lineFeed then
      let c := c.advance.markEnd
      let margin := Margin.ofText c.ahead
      (some margin.width, c.skipBy margin.passed)
    else (none, c)

theorem continues_measureBreak (c : Cursor) : c.Continues c.measureBreak.2 := by
  have hskip := (Continues.refl c).skipBy (c.ahead.takeWhile (· == .carriageReturn)).length
  simp only [measureBreak]
  split
  · exact hskip.markEnd
  · split
    · exact ((hskip.advanceBy 1).markEnd).skipBy _
    · exact hskip

theorem mark_measureBreak {c c' : Cursor} {width : Nat} (h : c.measureBreak = (some width, c')) :
    ∃ m, c'.mark = some m ∧ c.offset ≤ m ∧ m ≤ c.offset + c.remaining ∧
      (m = c.offset → width = 0 ∧ c'.atEnd = true) := by
  simp only [measureBreak] at h
  split at h
  · rename_i hl
    simp only [Prod.mk.injEq, Option.some.injEq] at h
    obtain ⟨rfl, rfl⟩ := h
    refine ⟨_, rfl, by simp [skipWhile], ?_, fun _ => ⟨rfl, ?_⟩⟩
    · simp only [skipWhile, offset_skipBy]
      omega
    · exact (atEnd_iff _).2 ((lookahead_eq_none_iff _).1 hl)
  · rename_i u hl
    have hpos := remaining_pos_of_lookahead hl
    split at h
    · simp only [Prod.mk.injEq, Option.some.injEq] at h
      obtain ⟨rfl, rfl⟩ := h
      refine ⟨_, rfl, ?_, ?_, ?_⟩ <;> simp [advance, skipWhile, remaining] at hpos ⊢ <;> omega
    · simp at h

end Cursor

end Offside
