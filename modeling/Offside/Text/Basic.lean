/-!
Text as a sequence of 16-bit code units. Every offset, column and length of the library counts
units, so a character outside the basic plane counts as two.
-/

namespace Offside

abbrev CodeUnit := UInt16

abbrev Text := List CodeUnit

namespace CodeUnit

abbrev tab : CodeUnit := 0x09
abbrev lineFeed : CodeUnit := 0x0A
abbrev carriageReturn : CodeUnit := 0x0D
abbrev space : CodeUnit := 0x20
abbrev bang : CodeUnit := 0x21
abbrev quote : CodeUnit := 0x22
abbrev hash : CodeUnit := 0x23
abbrev slash : CodeUnit := 0x2F
abbrev zero : CodeUnit := 0x30
abbrev nine : CodeUnit := 0x39
abbrev backslash : CodeUnit := 0x5C
abbrev openBrace : CodeUnit := 0x7B
abbrev bar : CodeUnit := 0x7C
abbrev closeBrace : CodeUnit := 0x7D
abbrev replacement : CodeUnit := 0xFFFD

def isDigit (u : CodeUnit) : Bool := zero ≤ u && u ≤ nine

def isWord (u : CodeUnit) : Bool :=
  u.isDigit || (0x41 ≤ u && u ≤ 0x5A) || (0x61 ≤ u && u ≤ 0x7A) || u == 0x5F

def isHigh (u : CodeUnit) : Bool := 0xD800 ≤ u && u < 0xDC00

def isLow (u : CodeUnit) : Bool := 0xDC00 ≤ u && u < 0xE000

end CodeUnit

inductive Glyph where
  | plain (unit : CodeUnit)
  | pair (high low : CodeUnit)
  | lone (half : CodeUnit)
  deriving DecidableEq, Repr

namespace Glyph

def units : Glyph → List CodeUnit
  | .plain u => [u]
  | .pair high low => [high, low]
  | .lone u => [u]

def char? : Glyph → Option Char
  | .plain u => some (Char.ofNat u.toNat)
  | .pair high low =>
    some (Char.ofNat (0x10000 + (high.toNat - 0xD800) * 0x400 + (low.toNat - 0xDC00)))
  | .lone _ => none

end Glyph

namespace Text

def ofScalar (n : Nat) : Text :=
  if n < 0x10000 then [n.toUInt16]
  else [(0xD800 + (n - 0x10000) / 0x400).toUInt16, (0xDC00 + (n - 0x10000) % 0x400).toUInt16]

def ofChars (cs : List Char) : Text := cs.flatMap fun c => ofScalar c.toNat

def ofString (s : String) : Text := ofChars s.toList

def ofNat (n : Nat) : Text := ofChars (Nat.toDigits 10 n)

def ofInt : Int → Text
  | .ofNat n => ofNat n
  | .negSucc n => ofString "-" ++ ofNat (n + 1)

def hexDigit (n : Nat) : CodeUnit :=
  if n < 10 then (0x30 + n).toUInt16 else (0x57 + n).toUInt16

def hex : (width value : Nat) → Text
  | 0, _ => []
  | width + 1, n => hex width (n / 16) ++ [hexDigit (n % 16)]

def slice (t : Text) (start stop : Nat) : Text := (t.drop start).take (stop - start)

def join (separator : Text) (ts : List Text) : Text := separator.intercalate ts

def glyphs : Text → List Glyph
  | [] => []
  | [u] => if u.isHigh || u.isLow then [.lone u] else [.plain u]
  | u :: v :: rest =>
    if u.isHigh && v.isLow then .pair u v :: glyphs rest
    else if u.isHigh || u.isLow then .lone u :: glyphs (v :: rest)
    else .plain u :: glyphs (v :: rest)

def toString? (t : Text) : Option String :=
  (t.glyphs.mapM Glyph.char?).map String.ofList

def toDisplay (t : Text) : String :=
  String.ofList (t.glyphs.map fun g => g.char?.getD (Char.ofNat CodeUnit.replacement.toNat))

end Text

end Offside
