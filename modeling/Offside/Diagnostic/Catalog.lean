import Offside.Diagnostic.Template

/-!
The catalog of diagnostics: a code, a severity, a message template, a description, and for most
codes a suggestion.
-/

namespace Offside

inductive Severity where
  | error
  | warning
  | note
  deriving DecidableEq, Repr

namespace Severity

def rank : Severity → Nat
  | .error => 0
  | .warning => 1
  | .note => 2

def ofRank : Nat → Severity
  | 0 => .error
  | 1 => .warning
  | _ => .note

def title : Severity → String
  | .error => "Error"
  | .warning => "Warning"
  | .note => "Note"

def label : Severity → String
  | .error => "error"
  | .warning => "warning"
  | .note => "note"

@[simp] theorem ofRank_rank (s : Severity) : ofRank s.rank = s := by cases s <;> rfl

end Severity

inductive Code where
  | depthLimit
  | truncated
  | malformed
  | unknownVersion
  | missingFile
  | unreadableFile
  | invalidLine
  | failedScan
  deriving DecidableEq, Repr

namespace Code

def ofScanner : List Code := [.depthLimit, .truncated, .malformed, .unknownVersion]

def ofCommand : List Code := [.missingFile, .unreadableFile, .invalidLine, .failedScan]

def all : List Code := ofScanner ++ ofCommand

def name : Code → String
  | .depthLimit => "BSSCAN001"
  | .truncated => "BSSCAN002"
  | .malformed => "BSSCAN003"
  | .unknownVersion => "BSSCAN004"
  | .missingFile => "BSCLI001"
  | .unreadableFile => "BSCLI002"
  | .invalidLine => "BSCLI003"
  | .failedScan => "BSCLI004"

def severity : Code → Severity
  | .depthLimit | .truncated => .warning
  | .malformed | .unknownVersion => .note
  | .missingFile | .unreadableFile | .invalidLine | .failedScan => .error

def template : Code → String
  | .depthLimit => "indent depth limit of \x7bdepth\x7d reached; width \x7bwidth\x7d is not tracked"
  | .truncated => "snapshot truncated: wrote \x7bwritten\x7d of \x7bdepth\x7d indent levels"
  | .malformed =>
    "malformed snapshot: recovered \x7brecovered\x7d of \x7bdeclared\x7d indent levels"
  | .unknownVersion => "unknown snapshot format version \x7bversion\x7d; state reset"
  | .missingFile => "file not found: \x7bpath\x7d"
  | .unreadableFile => "cannot read file: \x7breason\x7d"
  | .invalidLine => "invalid line number \"\x7bvalue\x7d\""
  | .failedScan => "tokenization failed: \x7breason\x7d"

def description : Code → String
  | .depthLimit =>
    "The block is nested deeper than the scanner tracks. " ++
      "Later dedents may close the wrong enclosing block."
  | .truncated => "The snapshot buffer is too small for the whole indent stack."
  | .malformed =>
    "The restored snapshot did not hold a complete, strictly increasing indent stack."
  | .unknownVersion => "The snapshot was written by an incompatible format version."
  | .missingFile => "blockscan couldn't find a file at this path."
  | .unreadableFile => "The file exists but blockscan can't open it."
  | .invalidLine => "`--line` takes a 1-based line number."
  | .failedScan => "Something unexpected went wrong while scanning. This is a bug."

def suggestion? : Code → Option String
  | .depthLimit => some "Flatten the nesting, or raise `maxDepth` (up to 255)."
  | .truncated => some "Raise `bufferSize` so that 4 + 2 * depth bytes fit."
  | .malformed | .unknownVersion => none
  | .missingFile => some "Double-check the path and make sure the file exists."
  | .unreadableFile => some "Check that you have read permission for this file."
  | .invalidLine => some "Pass a positive whole number, for example `--line 12`."
  | .failedScan => some "Re-run with `--trace` and include the output when reporting it."

def ofName? (name : Text) : Option Code := all.find? fun c => Text.ofString c.name = name

/-- Whether the catalog answers a name, be it only with what every table answers. -/
def isKnown (name : Text) : Bool := (ofName? name).isSome || (Arguments.builtIn? name).isSome

def message (c : Code) (arguments : Option Arguments) : Text :=
  Template.apply (Text.ofString c.template) arguments

def report (c : Code) (arguments : Arguments) : Text :=
  Text.ofString "[" ++ Text.ofString c.name ++ Text.ofString "] " ++ c.message (some arguments)

end Code

structure Diagnostic where
  code : Code
  arguments : Option Arguments
  deriving DecidableEq, Repr

namespace Diagnostic

def message (d : Diagnostic) : Text := d.code.message d.arguments

def render (d : Diagnostic) : Text :=
  Text.ofString d.code.severity.label ++ Text.ofString "[" ++ Text.ofString d.code.name ++
    Text.ofString "] " ++ d.message

end Diagnostic

end Offside
