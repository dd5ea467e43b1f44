import Offside.Blocks
import Offside.Number.Decimal

/-!
The scanner's state: the open blocks, the width that a deferred dedent still leads to, and the
budget for snapshots.
-/

namespace Offside

inductive Budget where
  | bytes (n : Nat)
  /-- A size that is no number: there is no room, and nothing is found missing. -/
  | unspecified
  | unavailable (asked : Number)
  deriving DecidableEq, Repr

namespace Budget

def headerSize : Nat := 4

def defaultSize : Nat := 1024

def ofNumber (n : Number) : Budget :=
  match n.floor? with
  | some size =>
    if size.toNat ≤ Number.maxExact then .bytes (max headerSize size.toNat) else .unavailable n
  | none =>
    match n with
    | .infinite true => .bytes headerSize
    | .infinite false => .unavailable n
    | _ => .unspecified

def toNumber : Budget → Number
  | .bytes n => .ofNat n
  | .unspecified => .nan
  | .unavailable asked => asked

end Budget

namespace Blocks

def capacityOf (n : Number) : Nat :=
  match n.floor? with
  | some size => min maxCapacity (max 1 size.toNat)
  | none => defaultCapacity

end Blocks

structure Settings where
  capacity : Nat := Blocks.defaultCapacity
  budget : Budget := .bytes Budget.defaultSize
  deriving DecidableEq, Repr

namespace Settings

def ofNumbers (maxDepth bufferSize : Option Number) : Settings :=
  { capacity := (maxDepth.map Blocks.capacityOf).getD Blocks.defaultCapacity
    budget := (bufferSize.map Budget.ofNumber).getD (.bytes Budget.defaultSize) }

end Settings

structure Scanner where
  blocks : Blocks
  /-- The width that later dedents still lead to. -/
  deferred : Option Int
  budget : Budget
  deriving DecidableEq, Repr

namespace Scanner

def create (settings : Settings) : Scanner :=
  ⟨.base settings.capacity, none, settings.budget⟩

def reset (s : Scanner) : Scanner := { s with blocks := s.blocks.reset, deferred := none }

def blocksText (s : Scanner) : Text :=
  Text.join (Text.ofString ",") (s.blocks.entries.map fun (width : Nat) => Number.wholeText width)

def deferredText (s : Scanner) : Text :=
  match s.deferred with
  | none => Text.ofString "-"
  | some width => Number.wholeText width

def describe (s : Scanner) : Text :=
  Text.ofString "stack=[" ++ s.blocksText ++ Text.ofString "] pending=" ++ s.deferredText

end Scanner

end Offside
