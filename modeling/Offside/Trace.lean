import Offside.Diagnostic.Catalog
import Offside.Kind
import Offside.Scanner.Basic
import Offside.Text.Quoted

/-!
What a scanner reports while it works. Decisions are logged line by line; a notice says that the
scanner did less than it was asked to, and is a diagnostic of the catalog.
-/

namespace Offside

/-- A place where the scanner degrades instead of failing. -/
inductive Notice where
  | depthLimit (capacity width : Nat)
  | truncated (depth written : Nat)
  | malformed (declared recovered : Nat)
  | unknownVersion (version : Nat)
  deriving DecidableEq, Repr

namespace Notice

def code : Notice → Code
  | .depthLimit .. => .depthLimit
  | .truncated .. => .truncated
  | .malformed .. => .malformed
  | .unknownVersion .. => .unknownVersion

def fields : Notice → List (String × Nat)
  | .depthLimit capacity width => [("depth", capacity), ("width", width)]
  | .truncated depth written => [("depth", depth), ("written", written)]
  | .malformed declared recovered => [("declared", declared), ("recovered", recovered)]
  | .unknownVersion version => [("version", version)]

def diagnostic (n : Notice) : Diagnostic :=
  ⟨n.code, some (n.fields.map fun (name, value) => (Text.ofString name, Value.ofNat value))⟩

end Notice

/-- One report of a scanner. A scan opens and closes with the scanner as it then stands. -/
inductive Event where
  | opened (lookahead : Option CodeUnit) (accepted : List Kind) (scanner : Scanner)
  | boundary (width current : Nat)
  | deferred (width : Nat)
  | closed (kind : Option Kind) (scanner : Scanner)
  | notice (n : Notice)
  deriving DecidableEq, Repr

namespace Event

def message? : Event → Option Text
  | .opened lookahead accepted scanner => some <|
    Text.ofString "scan: lookahead=" ++
      (match lookahead with
       | none => Text.ofString "EOF"
       | some u => Text.quoted [u]) ++
      Text.ofString " valid=[" ++ Text.join (Text.ofString ",") (accepted.map Kind.text) ++
      Text.ofString "] " ++ scanner.describe
  | .boundary width current => some <|
    Text.ofString "  line boundary: width=" ++ Number.wholeText width ++
      Text.ofString " current=" ++ Number.wholeText current
  | .deferred width => some (Text.ofString "  deferred dedent to " ++ Number.wholeText width)
  | .closed none _ => some (Text.ofString "  => no token")
  | .closed (some kind) scanner => some <|
    Text.ofString "  => " ++ kind.text ++ Text.ofString " " ++ scanner.describe
  | .notice _ => none

def notice? : Event → Option Notice
  | .notice n => some n
  | _ => none

end Event

end Offside
