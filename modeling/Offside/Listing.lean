import Offside.Number.Decimal
import Offside.Text.Quoted
import Offside.Token

/-!
Printed forms: one line per token, and snapshots as hexadecimal bytes.
-/

namespace Offside

namespace Kind

def describe (kind : Kind) (payload text : Text) : Text :=
  match kind with
  | .indent | .dedent => kind.text ++ Text.ofString "(" ++ payload ++ Text.ofString ")"
  | .newline | .endOfInput => kind.text
  | .interpolationStart | .textSegment | .content => kind.text ++ Text.ofString " " ++ text.quoted

def listed (kind : Kind) (line start stop payload text : Text) : Text :=
  Text.ofString "Line " ++ line.leftpad 4 .space ++ Text.ofString ": " ++
    kind.describe payload text ++ Text.ofString " @ " ++ start ++ Text.ofString ".." ++ stop

end Kind

def Token.render (t : Token) (source : Text) : Text :=
  t.kind.listed (Text.ofNat t.position.line) (Text.ofNat t.span.start) (Text.ofNat t.span.stop)
    (Text.ofNat t.payload) (t.text source)

def Row.render (r : Row) (source : Text) : Text :=
  r.kind.listed r.line.text r.start.text r.stop.text r.payload.text (r.text source)

def renderBytes (bytes : List UInt8) : Text :=
  Text.join (Text.ofString " ") (bytes.map fun b => Text.hex 2 b.toNat)

end Offside
