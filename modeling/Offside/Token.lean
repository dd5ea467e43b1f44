import Offside.Cursor
import Offside.Kind
import Offside.Lines

/-!
Tokens. A lexeme is what reading settles; a token also knows its line and column.
-/

namespace Offside

/-- A kind and a span. The payload of an indent is the width of the block it opens, that of a dedent
the width of the block it returns to; every other payload is zero. -/
structure Lexeme where
  kind : Kind
  span : Span
  payload : Nat
  deriving DecidableEq, Repr

structure Token extends Lexeme where
  position : Position
  deriving DecidableEq, Repr

namespace Lexeme

def locate (x : Lexeme) (lines : Lines) : Token :=
  { x with position := lines.locate x.span.start }

def text (x : Lexeme) (source : Text) : Text := source.slice x.span.start x.span.stop

end Lexeme

/-- A token of unknown origin: its numbers may be any, and need not fit a source. -/
structure Row where
  kind : Kind
  start : Number
  stop : Number
  line : Number
  column : Number
  payload : Number
  deriving DecidableEq, Repr

namespace Row

def text (r : Row) (source : Text) : Text :=
  source.slice (r.start.clamp source.length) (r.stop.clamp source.length)

end Row

end Offside
