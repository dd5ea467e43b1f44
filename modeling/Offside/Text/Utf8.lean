import Offside.Text.Basic

/-!
UTF-8: the size of a text in bytes, and reading. Bytes that cannot continue a character are never an
error: the longest beginning of a character that they cut short becomes one replacement unit, and
reading goes on with the byte at fault. A byte order mark is a character like any other.
-/

namespace Offside

def Glyph.utf8Size : Glyph → Nat
  | .plain u => if u < 0x80 then 1 else if u < 0x800 then 2 else 3
  | .pair .. => 4
  | .lone _ => 3

def Text.utf8Size (t : Text) : Nat := t.glyphs.foldl (fun n g => n + g.utf8Size) 0

namespace Text.Utf8

/-- A character whose first bytes were read: `needed` more are due, the next from `low` to `high`.
-/
structure Unfinished where
  needed : Nat
  low : Nat
  high : Nat
  value : Nat
  deriving DecidableEq, Repr

abbrev Step := Text × Option Unfinished

def lead (b : Nat) : Step :=
  if b < 0x80 then (ofScalar b, none)
  else if 0xC2 ≤ b ∧ b < 0xE0 then ([], some ⟨1, 0x80, 0xBF, b - 0xC0⟩)
  else if b = 0xE0 then ([], some ⟨2, 0xA0, 0xBF, 0⟩)
  else if b = 0xED then ([], some ⟨2, 0x80, 0x9F, 0xD⟩)
  else if 0xE0 < b ∧ b < 0xF0 then ([], some ⟨2, 0x80, 0xBF, b - 0xE0⟩)
  else if b = 0xF0 then ([], some ⟨3, 0x90, 0xBF, 0⟩)
  else if b = 0xF4 then ([], some ⟨3, 0x80, 0x8F, 4⟩)
  else if 0xF0 < b ∧ b < 0xF4 then ([], some ⟨3, 0x80, 0xBF, b - 0xF0⟩)
  else ([.replacement], none)

def step : Option Unfinished → Nat → Step
  | none, b => lead b
  | some p, b =>
    if p.low ≤ b ∧ b ≤ p.high then
      let value := p.value * 64 + (b - 0x80)
      if p.needed ≤ 1 then (ofScalar value, none)
      else ([], some ⟨p.needed - 1, 0x80, 0xBF, value⟩)
    else
      let (units, next) := lead b
      (.replacement :: units, next)

def decodeFrom : Option Unfinished → List UInt8 → Text
  | none, [] => []
  | some _, [] => [.replacement]
  | state, b :: rest =>
    let (units, next) := step state b.toNat
    units ++ decodeFrom next rest

def decode (bytes : List UInt8) : Text := decodeFrom none bytes

end Text.Utf8

end Offside
