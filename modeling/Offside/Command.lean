import Offside.Command.Failure
import Offside.Command.Line
import Offside.Command.Report
import Offside.Listing
import Offside.Text.Utf8
import Offside.Tokenize

/-!
The command that lists the tokens of a file, whole or around one line, with the scanner's reports
in front and its snapshot behind if they are asked for.
-/

namespace Offside

structure Request where
  path : Text
  instructions : Bool := false
  trace : Bool := false
  snapshot : Bool := false
  line : Option Text := none
  deriving DecidableEq, Repr

namespace Request

def target (r : Request) : Except Text (Option Nat) :=
  match r.line with
  | none => .ok none
  | some text =>
    match Line.parse? text with
    | some n => .ok (some n)
    | none => .error text

def options (r : Request) : Options := { instructions := r.instructions, trace := r.trace }

def shown (target : Option Nat) (tokens : List Token) : List Token :=
  tokens.filter fun t => Line.isShown t.position.line (target.map Int.ofNat)

def snapshotEntries (r : Request) (s : Scanner) : List Entry :=
  match s.snapshot with
  | .ok (bytes, notices) =>
    (if r.trace then notices.flatMap fun n => Entry.ofEvent (.notice n) else []) ++
      [.line (Text.ofString "snapshot: " ++ renderBytes bytes)]
  | .error _ => []

def list (r : Request) (target : Option Nat) (source : Text) : List Entry :=
  let result := tokenize source r.options
  result.events.flatMap Entry.ofEvent ++
    (shown target result.tokens.toList).map (fun t => .line (t.render source)) ++
    (if r.snapshot then r.snapshotEntries result.scanner else [])

def run (r : Request) (read : Text → Except Failure Bytes) : Report :=
  match r.target with
  | .error text => .failed (Line.complaint text)
  | .ok target =>
    match read r.path with
    | .error failure => .failed (failure.readReport r.path)
    | .ok bytes => ⟨0, r.list target (Text.Utf8.decode bytes)⟩

end Request

end Offside
