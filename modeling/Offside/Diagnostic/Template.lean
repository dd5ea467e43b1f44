import Offside.Number.Decimal

/-!
Message templates. A slot is a name between braces; filling a template replaces every slot whose
name has a value, in one pass from the left, and leaves the other slots as they are written.
-/

namespace Offside

inductive Value where
  | text (t : Text)
  | number (n : Number)
  | truth (b : Bool)
  | absent
  deriving DecidableEq, Repr

namespace Value

def ofNat (n : Nat) : Value := .number (.ofNat n)

def render : Value → Text
  | .text t => t
  | .number n => n.text
  | .truth b => Text.ofString (if b then "true" else "false")
  | .absent => Text.ofString "null"

end Value

abbrev Arguments := List (Text × Value)

namespace Arguments

def operations : List String :=
  ["hasOwnProperty", "isPrototypeOf", "propertyIsEnumerable", "toLocaleString", "toString",
   "valueOf", "__defineGetter__", "__defineSetter__", "__lookupGetter__", "__lookupSetter__"]

def operationText (name : Text) : Text :=
  Text.ofString "function " ++ name ++ Text.ofString "() \x7b [native code] \x7d"

/-- What a table answers for the names that it knows without having been given them. -/
def builtIn? (name : Text) : Option Text :=
  if name = Text.ofString "constructor" then some (operationText (Text.ofString "Object"))
  else if name = Text.ofString "__proto__" then some (Text.ofString "[object Object]")
  else if (operations.map Text.ofString).contains name then some (operationText name)
  else none

def find? (arguments : Arguments) (name : Text) : Option Text :=
  match List.lookup name arguments with
  | some value => some value.render
  | none => builtIn? name

end Arguments

namespace Template

def slot (name : Text) : Text := .openBrace :: name ++ [.closeBrace]

def slot? : Text → Option (Text × Text)
  | [] => none
  | u :: rest =>
    let name := rest.takeWhile CodeUnit.isWord
    let after := rest.dropWhile CodeUnit.isWord
    if u = .openBrace ∧ name ≠ [] ∧ after.head? = some .closeBrace then some (name, after.tail)
    else none

theorem length_lt_of_slot? {t name rest : Text} (h : slot? t = some (name, rest)) :
    rest.length < t.length := by
  cases t with
  | nil => simp [slot?] at h
  | cons u t =>
    simp only [slot?] at h
    split at h
    · simp only [Option.some.injEq, Prod.mk.injEq] at h
      have : (t.dropWhile CodeUnit.isWord).length ≤ t.length :=
        (List.dropWhile_sublist _).length_le
      simp [← h.2]
      omega
    · simp at h

/-- Fills the slots of a text. What is put in is not read again. -/
def fill (value? : Text → Option Text) : Text → Text
  | [] => []
  | u :: rest =>
    match h : slot? (u :: rest) with
    | some (name, after) =>
      have := length_lt_of_slot? h
      (value? name).getD (slot name) ++ fill value? after
    | none => u :: fill value? rest
termination_by t => t.length
decreasing_by
  · exact this
  · exact Nat.lt_succ_self _

def apply (template : Text) : Option Arguments → Text
  | none => template
  | some arguments => fill arguments.find? template

end Template

end Offside
