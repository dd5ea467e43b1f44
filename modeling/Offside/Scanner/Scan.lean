import Offside.Margin
import Offside.Trace

/-!
One scan: at most one token at a cursor, of a kind that the caller accepts. Instruction text is
looked for first and never touches the blocks; then a deferred dedent is settled; then a line break
is measured.
-/

namespace Offside

namespace Cursor

def atTextEnd (c : Cursor) : Bool :=
  match c.lookahead with
  | none => true
  | some u => u == .lineFeed || u == .openBrace

def textSegment (c : Cursor) : Cursor :=
  (c.advanceWhile fun u => u != .lineFeed && u != .openBrace).markEnd

/-- At an open brace: the start of an interpolation if a bang follows; otherwise the brace is the
first unit of a text segment, if those are accepted. -/
def interpolation (accepted : List Kind) (c : Cursor) : Option Kind × Cursor :=
  let c := c.advance
  if c.lookahead = some .bang then (some .interpolationStart, c.advance.markEnd)
  else if .textSegment ∈ accepted then (some .textSegment, c.textSegment)
  else (none, c)

end Cursor

structure Outcome where
  kind : Option Kind
  scanner : Scanner
  cursor : Cursor
  events : List Event
  deriving DecidableEq, Repr

namespace Scanner

/-- One dedent toward the deferred width. The width is kept while dedents are not accepted, and
dropped once it no longer lies below the current block. -/
def settle (s : Scanner) (accepted : List Kind) : Option Kind × Scanner :=
  match s.deferred with
  | none => (none, s)
  | some target =>
    if .dedent ∈ accepted then
      if target < s.blocks.current ∧ 1 < s.blocks.depth then
        let blocks := s.blocks.pop
        (some .dedent,
          { s with blocks, deferred := if blocks.current ≤ target then none else some target })
      else (none, { s with deferred := none })
    else (none, s)

/-- The decision at a line break of a given width: indent, dedent or newline, in that order. There
is no newline at the end of input, where it would repeat forever. -/
def decideBreak (s : Scanner) (accepted : List Kind) (width : Nat) (c : Cursor) : Outcome :=
  let current := s.blocks.current
  let measured := Event.boundary width current
  if .indent ∈ accepted ∧ current < width then
    match s.blocks.push? width with
    | some blocks => ⟨some .indent, { s with blocks, deferred := none }, c, [measured]⟩
    | none =>
      ⟨some .indent, { s with deferred := none }, c,
        [measured, .notice (.depthLimit s.blocks.capacity width)]⟩
  else if .dedent ∈ accepted ∧ width < current then
    let blocks := s.blocks.pop
    let deferred := if width < blocks.current then some (width : Int) else s.deferred
    ⟨some .dedent, { s with blocks, deferred }, c, [measured]⟩
  else
    let kind := if .newline ∈ accepted ∧ ¬c.atEnd then some Kind.newline else none
    if width < current then
      ⟨kind, { s with deferred := some (width : Int) }, c, [measured, .deferred width]⟩
    else ⟨kind, s, c, [measured]⟩

def lineBreak (s : Scanner) (accepted : List Kind) (c : Cursor) : Outcome :=
  match c.measureBreak with
  | (none, c) => ⟨none, s, c, []⟩
  | (some width, c) => s.decideBreak accepted width c

def pick (s : Scanner) (accepted : List Kind) (c : Cursor) : Outcome :=
  if .interpolationStart ∈ accepted ∧ c.lookahead = some .openBrace then
    let (kind, c) := c.interpolation accepted
    ⟨kind, s, c, []⟩
  else if .textSegment ∈ accepted ∧ ¬c.atTextEnd then
    ⟨some .textSegment, s, c.textSegment, []⟩
  else
    match s.settle accepted with
    | (some kind, s) => ⟨some kind, s, c, []⟩
    | (none, s) => if c.atBreak then s.lineBreak accepted c else ⟨none, s, c, []⟩

def scan (s : Scanner) (accepted : List Kind) (c : Cursor) : Outcome :=
  let o := s.pick accepted c
  { o with events :=
      .opened c.lookahead accepted s :: o.events ++ [.closed o.kind o.scanner] }

end Scanner

end Offside
