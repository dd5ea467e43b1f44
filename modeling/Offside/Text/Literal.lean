import Offside.Text.Basic

/-!
Literals: a text between quotes of the kind that leaves the fewest quotes inside to be escaped.
Control units and halves of surrogate pairs are written by number. A long text is written as the sum
of its lines.
-/

namespace Offside.Text

def splitLines : Text → List Text
  | [] => []
  | u :: rest =>
    if u = .lineFeed then [u] :: splitLines rest
    else
      match splitLines rest with
      | [] => [[u]]
      | line :: more => (u :: line) :: more

namespace Literal

abbrev apostrophe : CodeUnit := 0x27
abbrev backquote : CodeUnit := 0x60
abbrev dollar : CodeUnit := 0x24

def hasOpening (t : Text) : Bool := (t.zip t.tail).contains (dollar, .openBrace)

def quoteFor (t : Text) : CodeUnit :=
  if !t.contains apostrophe then apostrophe
  else if !t.contains .quote then .quote
  else if !t.contains backquote && !hasOpening t then backquote
  else apostrophe

def hex (width value : Nat) : Text :=
  (Text.hex width value).map fun u => if u ≤ .nine then u else u - 0x20

def isControl (u : CodeUnit) : Bool := u < 0x20 || (0x7F ≤ u && u < 0xA0)

def escapeUnit (around u : CodeUnit) : Text :=
  if u = apostrophe ∧ around = apostrophe then ofString "\\'"
  else if u = .backslash then ofString "\\\\"
  else if u = 0x08 then ofString "\\b"
  else if u = .tab then ofString "\\t"
  else if u = .lineFeed then ofString "\\n"
  else if u = 0x0C then ofString "\\f"
  else if u = .carriageReturn then ofString "\\r"
  else if isControl u then ofString "\\x" ++ hex 2 u.toNat
  else [u]

def escape (around : CodeUnit) : Glyph → Text
  | .plain u => escapeUnit around u
  | .pair high low => [high, low]
  | .lone u => ofString "\\u" ++ hex 4 u.toNat

def line (t : Text) : Text :=
  let around := quoteFor t
  around :: t.glyphs.flatMap (escape around) ++ [around]

def maxLine : Nat := 124

def maxShown : Nat := 128

end Literal

def literal (t : Text) : Text :=
  if t.length ≤ Literal.maxLine then Literal.line t
  else join (ofString " +\n  ") (t.splitLines.map Literal.line)

def shortLiteral (t : Text) : Text :=
  let written := t.literal
  if written.length ≤ Literal.maxShown then written
  else written.take Literal.maxShown ++ ofString "..."

end Offside.Text
