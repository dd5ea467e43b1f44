import Offside.Trace

/-!
What a command writes, entry by entry, and the code it ends with.
-/

namespace Offside

inductive Entry where
  | line (text : Text)
  | info (text : Text)
  | warning (text : Text)
  | error (text : Text)
  /-- A complaint about the arguments. -/
  | refusal (text : Text)
  | exception (text : Text)
  deriving DecidableEq, Repr

namespace Entry

def isError : Entry → Bool
  | .error _ | .refusal _ | .exception _ => true
  | .line _ | .info _ | .warning _ => false

def text : Entry → Text
  | .line t => t
  | .info t => Text.ofString "[ info ] " ++ t
  | .warning t => Text.ofString "[ warn ] " ++ t
  | .error t => Text.ofString "[ error ] " ++ t
  | .refusal t => Text.ofString "  ERROR   " ++ t
  | .exception t => t

def lines (ts : List String) : List Entry := ts.map fun t => .line (Text.ofString t)

def ofEvent (e : Event) : List Entry :=
  match e with
  | .notice n => [.warning n.diagnostic.render]
  | _ => e.message?.toList.map .info

end Entry

structure Report where
  exit : Nat
  entries : List Entry
  deriving DecidableEq, Repr

namespace Report

def failed (text : Text) : Report := ⟨1, [.error text]⟩

end Report

end Offside
