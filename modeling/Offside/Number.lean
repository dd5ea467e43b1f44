/-!
Binary64 numbers as exact values. A number is read from a fraction by rounding to the nearest
value, with ties to the even significand.
-/

namespace Offside

/-- A finite number is `significand · 2 ^ exponent`; its significand has 53 bits unless the exponent
is the least one. -/
inductive Number where
  | nan
  | infinite (negative : Bool)
  | finite (negative : Bool) (significand : Nat) (exponent : Int)
  deriving DecidableEq, Repr

structure Fraction where
  num : Nat
  den : Nat
  deriving DecidableEq, Repr

namespace Fraction

def scale (base : Nat) (f : Fraction) : Int → Fraction
  | .ofNat k => ⟨f.num * Nat.pow base k, f.den⟩
  | .negSucc k => ⟨f.num, f.den * Nat.pow base (k + 1)⟩

def floor (f : Fraction) : Nat := f.num / f.den

def half (f : Fraction) : Ordering := compare (2 * (f.num % f.den)) f.den

def round (f : Fraction) : Nat :=
  match f.half with
  | .lt => f.floor
  | .eq => f.floor + f.floor % 2
  | .gt => f.floor + 1

/-- The exponent of the leading digit in a base, from the exponents of the two parts. -/
def magnitude (base numMagnitude denMagnitude : Nat) (f : Fraction) : Int :=
  let guess : Int := numMagnitude - denMagnitude
  if 1 ≤ (f.scale base (-guess)).floor then guess else guess - 1

end Fraction

namespace Number

def minExponent : Int := -1074

def maxExponent : Int := 971

def nearest (negative : Bool) (f : Fraction) : Number :=
  let exponent := max minExponent (f.magnitude 2 f.num.log2 f.den.log2 - 52)
  let significand := (f.scale 2 (-exponent)).round
  if significand = 0 then .finite negative 0 minExponent
  else if significand < Nat.pow 2 53 then
    if exponent ≤ maxExponent then .finite negative significand exponent else .infinite negative
  else
    if exponent < maxExponent then .finite negative (Nat.pow 2 52) (exponent + 1)
    else .infinite negative

def ofDecimal (mantissa : Int) (places : Nat) : Number :=
  nearest (mantissa < 0) ⟨mantissa.natAbs, Nat.pow 10 places⟩

def ofNat (n : Nat) : Number := nearest false ⟨n, 1⟩

def ofInt (n : Int) : Number := nearest (n < 0) ⟨n.natAbs, 1⟩

def size (significand : Nat) (exponent : Int) : Fraction :=
  Fraction.scale 2 ⟨significand, 1⟩ exponent

def signed (negative : Bool) (n : Nat) : Int := if negative then -(n : Int) else n

def floor? : Number → Option Int
  | .finite negative significand exponent =>
    let f := size significand exponent
    some (signed negative f.num / f.den)
  | _ => none

def toInt? : Number → Option Int
  | .finite negative significand exponent =>
    let f := size significand exponent
    if f.num % f.den = 0 then some (signed negative f.floor) else none
  | _ => none

def addInt : Number → Int → Number
  | .finite negative significand exponent, k =>
    let f := size significand exponent
    let sum := signed negative f.num + k * f.den
    nearest (sum < 0) ⟨sum.natAbs, f.den⟩
  | n, _ => n

def le : Number → Number → Bool
  | .nan, _ | _, .nan => false
  | .infinite true, _ | _, .infinite false => true
  | .infinite false, _ | _, .infinite true => false
  | .finite negative significand exponent, .finite negative' significand' exponent' =>
    let f := size significand exponent
    let g := size significand' exponent'
    signed negative f.num * g.den ≤ signed negative' g.num * f.den

def clamp (n : Number) (size : Nat) : Nat :=
  match n.floor? with
  | some i => min size i.toNat
  | none => if n = .infinite false then size else 0

def maxExact : Nat := Nat.pow 2 53 - 1

end Number

end Offside
