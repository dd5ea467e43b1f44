import Offside.Text.Basic

/-!
Quoted text: between double quotes, with a backslash in front of whatever could be misread. Quotes,
backslashes, control units and halves of surrogate pairs are escaped, all else stands as it is.
-/

namespace Offside.Text

def numericEscape (u : CodeUnit) : Text := ofString "\\u" ++ hex 4 u.toNat

def escapeUnit (u : CodeUnit) : Text :=
  if u = .quote then ofString "\\\""
  else if u = .backslash then ofString "\\\\"
  else if u = 0x08 then ofString "\\b"
  else if u = 0x0C then ofString "\\f"
  else if u = .lineFeed then ofString "\\n"
  else if u = .carriageReturn then ofString "\\r"
  else if u = .tab then ofString "\\t"
  else if u < 0x20 then numericEscape u
  else [u]

def escape : Glyph → Text
  | .plain u => escapeUnit u
  | .pair high low => [high, low]
  | .lone u => numericEscape u

def quoted (t : Text) : Text := .quote :: t.glyphs.flatMap escape ++ [.quote]

end Offside.Text
