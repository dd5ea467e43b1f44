import Offside.Diagnostic.Catalog

/-!
The line that a listing is limited to: a number counted from one, and a window around it.
-/

namespace Offside.Line

def value (t : Text) : Nat := t.foldl (fun n u => 10 * n + (u.toNat - CodeUnit.zero.toNat)) 0

def parse? (t : Text) : Option Nat :=
  if t ≠ [] ∧ t.all CodeUnit.isDigit ∧ value t ≠ 0 then some (value t) else none

def complaint (t : Text) : Text := Code.invalidLine.report [(Text.ofString "value", .text t)]

def window : Nat := 5

def isShown (line : Int) : Option Int → Bool
  | none => true
  | some target => target - window ≤ line && line ≤ target + window

/-- Whether a number lies in the window around another one; the ends of the window are rounded. -/
def isNear (line : Number) : Option Number → Bool
  | none => true
  | some target => (target.addInt (-(window : Int))).le line && line.le (target.addInt window)

end Offside.Line
