import Offside.Text.Basic

/-!
The kinds of token. The first five come from the scanner, in the order in which a grammar declares
them; the last two come from the reader that drives it.
-/

namespace Offside

inductive Kind where
  | newline
  | indent
  | dedent
  | interpolationStart
  | textSegment
  | content
  | endOfInput
  deriving DecidableEq, Repr

namespace Kind

def all : List Kind :=
  [.newline, .indent, .dedent, .interpolationStart, .textSegment, .content, .endOfInput]

def name : Kind → String
  | .newline => "NEWLINE"
  | .indent => "INDENT"
  | .dedent => "DEDENT"
  | .interpolationStart => "INTERPOLATION_START"
  | .textSegment => "INSTRUCTION_TEXT_SEGMENT"
  | .content => "CONTENT"
  | .endOfInput => "EOF"

def title : Kind → String
  | .newline => "Newline"
  | .indent => "Indent"
  | .dedent => "Dedent"
  | .interpolationStart => "InterpolationStart"
  | .textSegment => "InstructionTextSegment"
  | .content => "Content"
  | .endOfInput => "Eof"

def code : Kind → Nat
  | .newline => 0
  | .indent => 1
  | .dedent => 2
  | .interpolationStart => 3
  | .textSegment => 4
  | .content => 100
  | .endOfInput => 255

def ofCode? (n : Nat) : Option Kind := all.find? (·.code = n)

@[simp] theorem mem_all (k : Kind) : k ∈ all := by cases k <;> decide

@[simp] theorem ofCode?_code (k : Kind) : ofCode? k.code = some k := by cases k <;> rfl

def text (k : Kind) : Text := Text.ofString k.name

theorem text_injective : Function.Injective text := by
  intro kind kind' h
  cases kind <;> cases kind' <;> first | rfl | exact absurd h (by decide)

end Kind

def accepting (kinds : List Kind) : List Kind := kinds.eraseDups

end Offside
