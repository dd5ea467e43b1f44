import Offside.Number
import Offside.Text.Basic

/-!
Where an offset lies in a text. The offsets at which lines start are collected once, and an offset
is then located by bisection.
-/

namespace Offside

/-- A line and a column, both counted from one. An offset before the text has a column below one. -/
structure Position where
  line : Nat
  column : Int
  deriving DecidableEq, Repr

structure Lines where
  starts : Array Nat
  deriving DecidableEq, Repr

namespace Lines

def startsAfter (offset : Nat) : Text → List Nat
  | [] => []
  | u :: rest =>
    if u = .lineFeed then (offset + 1) :: startsAfter (offset + 1) rest
    else startsAfter (offset + 1) rest

def ofText (t : Text) : Lines := ⟨(0 :: startsAfter 0 t).toArray⟩

def start (lines : Lines) (i : Nat) : Nat := lines.starts.getD i 0

def search (lines : Lines) (offset : Int) (low high : Nat) : Nat :=
  if low < high then
    let mid := (low + high + 1) / 2
    if (lines.start mid : Int) ≤ offset then lines.search offset mid high
    else lines.search offset low (mid - 1)
  else low
termination_by high - low

def lineAt (lines : Lines) (offset : Int) : Nat := lines.search offset 0 (lines.starts.size - 1)

def locate (lines : Lines) (offset : Int) : Position :=
  let i := lines.lineAt offset
  ⟨i + 1, offset - lines.start i + 1⟩

/-- The line and the column of any number as an offset; the column is rounded at each step. -/
def locateNumber (lines : Lines) (offset : Number) : Nat × Number :=
  let i := lines.lineAt (offset.floor?.getD 0)
  (i + 1, (offset.addInt (-(lines.start i : Int))).addInt 1)

end Lines

end Offside
