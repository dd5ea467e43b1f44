import Offside.Number
import Offside.Text.Basic

/-!
Numbers in decimal. The digits are the fewest that read back as the number, and of those the
nearest to it. They are written positionally from a millionth up to twenty-one places, and with
an exponent outside.
-/

namespace Offside.Number

/-- The digits of `0.d₁d₂… · 10 ^ point`. -/
structure Decimal where
  digits : List Char
  point : Int
  deriving DecidableEq, Repr

def candidates (significand : Nat) (exponent unit : Int) : List Nat :=
  let f := (size significand exponent).scale 10 (-unit)
  let low := f.floor
  let ordered :=
    if f.half = .lt ∨ f.half = .eq ∧ low % 2 = 0 then [low, low + 1] else [low + 1, low]
  ordered.filter fun n =>
    nearest false (Fraction.scale 10 ⟨n, 1⟩ unit) = .finite false significand exponent

def exactly (significand : Nat) : Int → Nat × Int
  | .ofNat k => (significand * Nat.pow 2 k, 0)
  | .negSucc k => (significand * Nat.pow 5 (k + 1), .negSucc k)

/-- The fewest digits that read back as a positive number; all of them if seventeen do not. -/
def shortest (significand : Nat) (exponent : Int) : Decimal :=
  let f := size significand exponent
  let width (n : Nat) := (Nat.toDigits 10 n).length
  let point := f.magnitude 10 (width f.num) (width f.den) + 1
  let found := (List.range 17).findSome? fun (count : Nat) =>
    let unit : Int := point - (count + 1)
    (candidates significand exponent unit).head?.map fun n => (n, unit)
  let (n, unit) := found.getD (exactly significand exponent)
  let digits := Nat.toDigits 10 n
  ⟨(digits.reverse.dropWhile (· == '0')).reverse, unit + digits.length⟩

def Decimal.text (d : Decimal) : Text :=
  let digits := Text.ofChars d.digits
  let zeros (n : Nat) : Text := List.replicate n .zero
  let dot := Text.ofString "."
  if d.digits.length ≤ d.point ∧ d.point ≤ 21 then
    digits ++ zeros (d.point.toNat - digits.length)
  else if 0 < d.point ∧ d.point ≤ 21 then
    digits.take d.point.toNat ++ dot ++ digits.drop d.point.toNat
  else if -6 < d.point ∧ d.point ≤ 0 then
    Text.ofString "0." ++ zeros (-d.point).toNat ++ digits
  else
    let exponent := d.point - 1
    digits.take 1 ++ (if digits.length = 1 then [] else dot ++ digits.drop 1) ++
      Text.ofString (if exponent < 0 then "e-" else "e+") ++ Text.ofNat exponent.natAbs

def text : Number → Text
  | .nan => Text.ofString "NaN"
  | .infinite negative => Text.ofString (if negative then "-Infinity" else "Infinity")
  | .finite negative significand exponent =>
    if significand = 0 then Text.ofString "0"
    else
      (if negative then Text.ofString "-" else []) ++ (shortest significand exponent).text

def wholeText (n : Int) : Text := if n.natAbs ≤ maxExact then Text.ofInt n else (ofInt n).text

end Offside.Number
