import Offside.Kind

/-!
What a reader expects next: ordinary lines, instruction text after a bar, or the inside of an
interpolation up to its closing brace.
-/

namespace Offside

inductive Mode where
  | lines
  | text
  | interpolation
  deriving DecidableEq, Repr

namespace Mode

def all : List Mode := [.lines, .text, .interpolation]

def name : Mode → String
  | .lines => "structure"
  | .text => "text"
  | .interpolation => "interpolation"

def ofName? (name : String) : Option Mode := all.find? (·.name = name)

def accepted : Mode → List Kind
  | .text => [.newline, .indent, .dedent, .interpolationStart, .textSegment]
  | .lines | .interpolation => [.newline, .indent, .dedent]

def afterToken (mode : Mode) : Kind → Mode
  | .interpolationStart => .interpolation
  | .newline | .indent | .dedent => .lines
  | _ => mode

def afterContent (mode : Mode) (text : Text) (instructions : Bool) : Mode :=
  match mode with
  | .lines => if instructions ∧ text = [.bar] then .text else .lines
  | .interpolation => if text = [.closeBrace] then .text else .interpolation
  | .text => .text

end Mode

end Offside
