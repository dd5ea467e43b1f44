import Offside.Text.Basic

/-!
A cursor over a source text. A token is begun, grown by advancing, preceded or followed by skipped
units, and then either accepted, which resumes at its end, or rewound.
-/

namespace Offside

structure Span where
  start : Nat
  stop : Nat
  deriving DecidableEq, Repr

structure Cursor where
  source : Text
  offset : Nat
  start : Nat
  /-- Where the token was begun, and where rewinding returns. -/
  origin : Nat
  mark : Option Nat
  included : Bool
  deriving DecidableEq, Repr

namespace Cursor

def ofText (source : Text) : Cursor := ⟨source, 0, 0, 0, none, false⟩

def ahead (c : Cursor) : Text := c.source.drop c.offset

def lookahead (c : Cursor) : Option CodeUnit := c.source[c.offset]?

def remaining (c : Cursor) : Nat := c.source.length - c.offset

def atEnd (c : Cursor) : Bool := c.source.length ≤ c.offset

def begin (c : Cursor) : Cursor :=
  { c with start := c.offset, origin := c.offset, mark := none, included := false }

def advanceBy (n : Nat) (c : Cursor) : Cursor :=
  { c with
    offset := c.offset + min n c.remaining
    included := c.included || min n c.remaining != 0 }

/-- Passes up to `n` units; as long as the token is empty, it starts after them. -/
def skipBy (n : Nat) (c : Cursor) : Cursor :=
  { c with
    offset := c.offset + min n c.remaining
    start :=
      if c.included || min n c.remaining == 0 then c.start
      else c.offset + min n c.remaining }

def advance (c : Cursor) : Cursor := c.advanceBy 1

def skip (c : Cursor) : Cursor := c.skipBy 1

def advanceWhile (p : CodeUnit → Bool) (c : Cursor) : Cursor :=
  c.advanceBy (c.ahead.takeWhile p).length

def skipWhile (p : CodeUnit → Bool) (c : Cursor) : Cursor :=
  c.skipBy (c.ahead.takeWhile p).length

def markEnd (c : Cursor) : Cursor := { c with mark := some c.offset }

def span (c : Cursor) : Span :=
  let stop := c.mark.getD c.offset
  ⟨min c.start stop, stop⟩

/-- Resumes at the end of the token; what was read past the mark is handed back. -/
def accept (c : Cursor) : Cursor := { c with offset := c.mark.getD c.offset }

def rewind (c : Cursor) : Cursor :=
  { c with offset := c.origin, start := c.origin, mark := none, included := false }

def text (c : Cursor) : Text := c.source.slice c.span.start c.span.stop

@[simp] theorem source_begin (c : Cursor) : c.begin.source = c.source := rfl
@[simp] theorem offset_begin (c : Cursor) : c.begin.offset = c.offset := rfl
@[simp] theorem origin_begin (c : Cursor) : c.begin.origin = c.offset := rfl
@[simp] theorem mark_begin (c : Cursor) : c.begin.mark = none := rfl

@[simp] theorem source_advanceBy (n : Nat) (c : Cursor) : (c.advanceBy n).source = c.source := rfl
@[simp] theorem origin_advanceBy (n : Nat) (c : Cursor) : (c.advanceBy n).origin = c.origin := rfl
@[simp] theorem mark_advanceBy (n : Nat) (c : Cursor) : (c.advanceBy n).mark = c.mark := rfl
@[simp] theorem offset_advanceBy (n : Nat) (c : Cursor) :
    (c.advanceBy n).offset = c.offset + min n c.remaining := rfl

@[simp] theorem source_skipBy (n : Nat) (c : Cursor) : (c.skipBy n).source = c.source := rfl
@[simp] theorem origin_skipBy (n : Nat) (c : Cursor) : (c.skipBy n).origin = c.origin := rfl
@[simp] theorem mark_skipBy (n : Nat) (c : Cursor) : (c.skipBy n).mark = c.mark := rfl
@[simp] theorem offset_skipBy (n : Nat) (c : Cursor) :
    (c.skipBy n).offset = c.offset + min n c.remaining := rfl

@[simp] theorem source_markEnd (c : Cursor) : c.markEnd.source = c.source := rfl
@[simp] theorem offset_markEnd (c : Cursor) : c.markEnd.offset = c.offset := rfl
@[simp] theorem origin_markEnd (c : Cursor) : c.markEnd.origin = c.origin := rfl
@[simp] theorem mark_markEnd (c : Cursor) : c.markEnd.mark = some c.offset := rfl

@[simp] theorem source_accept (c : Cursor) : c.accept.source = c.source := rfl
@[simp] theorem offset_accept (c : Cursor) : c.accept.offset = c.mark.getD c.offset := rfl

@[simp] theorem source_rewind (c : Cursor) : c.rewind.source = c.source := rfl
@[simp] theorem offset_rewind (c : Cursor) : c.rewind.offset = c.origin := rfl

/-- From one cursor to a later one of the same token. -/
structure Continues (c c' : Cursor) : Prop where
  source : c'.source = c.source
  origin : c'.origin = c.origin

namespace Continues

variable {c c' : Cursor}

theorem refl (c : Cursor) : c.Continues c := ⟨rfl, rfl⟩

theorem advanceBy (h : c.Continues c') (n : Nat) : c.Continues (c'.advanceBy n) := ⟨h.1, h.2⟩

theorem skipBy (h : c.Continues c') (n : Nat) : c.Continues (c'.skipBy n) := ⟨h.1, h.2⟩

theorem markEnd (h : c.Continues c') : c.Continues c'.markEnd := ⟨h.1, h.2⟩

end Continues

theorem head?_ahead (c : Cursor) : c.ahead.head? = c.lookahead := by
  simp [ahead, lookahead, List.head?_drop]

@[simp] theorem length_ahead (c : Cursor) : c.ahead.length = c.remaining := by
  simp [ahead, remaining]

theorem atEnd_iff (c : Cursor) : c.atEnd = true ↔ c.remaining = 0 := by
  simp [atEnd, remaining]; omega

theorem lookahead_eq_none_iff (c : Cursor) : c.lookahead = none ↔ c.remaining = 0 := by
  simp [lookahead, remaining]; omega

theorem remaining_pos_of_lookahead {c : Cursor} {u : CodeUnit} (h : c.lookahead = some u) :
    0 < c.remaining := by
  have : c.remaining ≠ 0 := fun h0 => by simp [(lookahead_eq_none_iff c).2 h0] at h
  omega

theorem advanceBy_succ (n : Nat) (c : Cursor) : c.advanceBy (n + 1) = c.advance.advanceBy n := by
  simp only [advance, advanceBy, remaining, Cursor.mk.injEq, true_and]
  refine ⟨by omega, ?_⟩
  grind

@[simp] theorem skipBy_zero (c : Cursor) : c.skipBy 0 = c := by
  simp [skipBy]

theorem length_takeWhile_pos {p : CodeUnit → Bool} {c : Cursor} {u : CodeUnit}
    (h : c.lookahead = some u) (hp : p u = true) : 0 < (c.ahead.takeWhile p).length := by
  rw [← head?_ahead] at h
  obtain ⟨rest, hrest⟩ := List.head?_eq_some_iff.1 h
  simp [hrest, hp]

theorem offset_lt_offset_advanceWhile {p : CodeUnit → Bool} {c : Cursor} {u : CodeUnit}
    (h : c.lookahead = some u) (hp : p u = true) : c.offset < (c.advanceWhile p).offset := by
  have hr := remaining_pos_of_lookahead h
  have ht := length_takeWhile_pos h hp
  simp only [advanceWhile, offset_advanceBy]
  omega

theorem offset_lt_offset_skipWhile {p : CodeUnit → Bool} {c : Cursor} {u : CodeUnit}
    (h : c.lookahead = some u) (hp : p u = true) : c.offset < (c.skipWhile p).offset := by
  have hr := remaining_pos_of_lookahead h
  have ht := length_takeWhile_pos h hp
  simp only [skipWhile, offset_skipBy]
  omega

theorem offset_le_offset_skipWhile (p : CodeUnit → Bool) (c : Cursor) :
    c.offset ≤ (c.skipWhile p).offset := by
  simp [skipWhile]

theorem skipWhile_of_lookahead {p : CodeUnit → Bool} {c : Cursor} {u : CodeUnit}
    (h : c.lookahead = some u) (hp : p u = false) : c.skipWhile p = c := by
  rw [← head?_ahead] at h
  obtain ⟨rest, hrest⟩ := List.head?_eq_some_iff.1 h
  simp [skipWhile, hrest, hp]

end Cursor

end Offside
