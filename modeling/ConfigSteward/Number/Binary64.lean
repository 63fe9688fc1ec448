/-! # Binary floating point, 64 bits wide, in exact arithmetic

A number is a sign, a natural mantissa below `2 ^ 53` and a power of two. `ofRatio` and `ofDecimal`
give the nearest one, a tie going to the even mantissa; what is too large becomes infinite.
-/
namespace ConfigSteward

inductive Binary64 where
  | nan
  | infinite (negative : Bool)
  | finite (negative : Bool) (mantissa : Nat) (exponent : Int)
  deriving DecidableEq, Repr

namespace Binary64

/-- The least exponent; numbers that need a smaller one lose digits. -/
def leastExponent : Int := -1074

/-- The largest exponent of a finite number. -/
def greatestExponent : Int := 971

/-- Whether `2 ^ 53 ≤ num / den / 2 ^ e` fails. -/
def fits (num den : Nat) (e : Int) : Bool :=
  if e < 0 then num * Nat.pow 2 (-e).toNat < den * Nat.pow 2 53
  else num < den * Nat.pow 2 (e.toNat + 53)

/-- The quotient `num / den`, rounded to the nearest natural number, a tie going to the even one. -/
def roundDiv (num den : Nat) : Nat :=
  let q := num / den
  let r := num % den
  if 2 * r < den then q
  else if 2 * r > den then q + 1
  else if q % 2 = 0 then q else q + 1

/-- The nearest number to `num / den`, where `den` is positive. -/
def ofRatio (negative : Bool) (num den : Nat) : Binary64 :=
  if num = 0 then finite negative 0 leastExponent
  else
    let guess : Int := (Nat.log2 num : Int) - Nat.log2 den - 53
    let e := max leastExponent (if fits num den guess then guess else guess + 1)
    let m :=
      if e < 0 then roundDiv (num * Nat.pow 2 (-e).toNat) den
      else roundDiv num (den * Nat.pow 2 e.toNat)
    let (m, e) := if m = Nat.pow 2 53 then (Nat.pow 2 52, e + 1) else (m, e)
    if e > greatestExponent then infinite negative else finite negative m e

/-- The nearest number to `digits * 10 ^ exponent`. Exponents that decide the result at a glance
are settled without computing the power. -/
def ofDecimal (negative : Bool) (digits : Nat) (exponent : Int) : Binary64 :=
  if digits = 0 then finite negative 0 leastExponent
  else
    let size : Int := (Nat.toDigits 10 digits).length + exponent
    if size > 310 then infinite negative
    else if size < -330 then finite negative 0 leastExponent
    else if exponent < 0 then ofRatio negative digits (Nat.pow 10 (-exponent).toNat)
    else ofRatio negative (digits * Nat.pow 10 exponent.toNat) 1

/-- The value as a quotient of natural numbers, sign apart. -/
def ratio (mantissa : Nat) (exponent : Int) : Nat × Nat :=
  if exponent < 0 then (mantissa, Nat.pow 2 (-exponent).toNat)
  else (mantissa * Nat.pow 2 exponent.toNat, 1)

def isPositive : Binary64 → Bool
  | nan => false
  | infinite negative => !negative
  | finite negative m _ => !negative && m != 0

/-- The value as an integer, if it is one. -/
def toInt? : Binary64 → Option Int
  | finite negative m e =>
    let (num, den) := ratio m e
    if num % den = 0 then some (if negative then -(num / den : Nat) else (num / den : Nat))
    else none
  | _ => none

/-- The integer that is left when the fraction is cut off. -/
def truncate : Binary64 → Int
  | finite negative m e =>
    let (num, den) := ratio m e
    if negative then -(num / den : Nat) else (num / den : Nat)
  | _ => 0

/-- The greatest integer that is not above `scale` times the value. -/
def floorScaled (scale : Nat) : Binary64 → Int
  | finite negative m e =>
    let (num, den) := ratio m e
    if negative then -(((num * scale + (den - 1)) / den : Nat) : Int) else (num * scale / den : Nat)
  | _ => 0

/-- The integer nearest to `scale` times the value, a tie going to the even one. -/
def roundScaled (scale : Nat) : Binary64 → Int
  | finite negative m e =>
    let (num, den) := ratio m e
    if negative then -(roundDiv (num * scale) den : Nat) else (roundDiv (num * scale) den : Nat)
  | _ => 0

theorem ofRatio_zero (negative : Bool) (den : Nat) :
    ofRatio negative 0 den = finite negative 0 leastExponent := rfl

end Binary64
end ConfigSteward
