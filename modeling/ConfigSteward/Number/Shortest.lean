import ConfigSteward.Number.Binary64

/-! # The shortest decimal that reads back

`shortest` looks for the fewest digits whose decimal lies among the reals that round to a number.
On each decimal grid, coarsest first, it tests the two neighbours of the value; the first grid with
a hit wins, and of two hits the nearer. `Layout` says how the digits are then written.
-/
namespace ConfigSteward.Binary64

/-- The reals that round to `mantissa * 2 ^ exponent`: the ends as numerators over one common
denominator, and whether the ends belong to it. -/
structure Neighbourhood where
  low : Nat
  value : Nat
  high : Nat
  den : Nat
  closed : Bool

def neighbourhood (mantissa : Nat) (exponent : Int) : Neighbourhood :=
  let (num, den) := ratio mantissa exponent
  let (unit, _) := ratio 1 exponent
  let lowStep := if mantissa = Nat.pow 2 52 && exponent > leastExponent then unit else 2 * unit
  ⟨4 * num - lowStep, 4 * num, 4 * num + 2 * unit, 4 * den, mantissa % 2 = 0⟩

/-- Whether `c * 10 ^ g` lies in the neighbourhood. -/
def Neighbourhood.contains (n : Neighbourhood) (c : Nat) (g : Int) : Bool :=
  let x := if g < 0 then c else c * Nat.pow 10 g.toNat * n.den
  let scale := if g < 0 then Nat.pow 10 (-g).toNat else 1
  let x := if g < 0 then x * n.den else x
  if n.closed then n.low * scale ≤ x && x ≤ n.high * scale
  else n.low * scale < x && x < n.high * scale

/-- The neighbours of the value on the grid of step `10 ^ g`: the one below and the quotient's
remainder over its denominator. -/
def Neighbourhood.below (n : Neighbourhood) (g : Int) : Nat × Nat × Nat :=
  let num := if g < 0 then n.value * Nat.pow 10 (-g).toNat else n.value
  let den := if g < 0 then n.den else n.den * Nat.pow 10 g.toNat
  (num / den, num % den, den)

/-- The power of ten of the value's first digit. -/
def Neighbourhood.magnitude (n : Neighbourhood) : Int :=
  let guess : Int := ((Nat.log2 n.value : Int) - Nat.log2 n.den) * 30103 / 100000 - 1
  if (n.below (guess + 2)).1 ≠ 0 then guess + 2
  else if (n.below (guess + 1)).1 ≠ 0 then guess + 1
  else guess

/-- The first hit among the grids of at most `tries` more digits. -/
def Neighbourhood.search (n : Neighbourhood) (g : Int) : Nat → Nat × Int
  | 0 => ((n.below g).1, g)
  | tries + 1 =>
    let (c, r, den) := n.below g
    match n.contains c g, n.contains (c + 1) g with
    | true, true =>
      if 2 * r < den || (2 * r = den && c % 2 = 0) then (c, g) else (c + 1, g)
    | true, false => (c, g)
    | false, true => (c + 1, g)
    | false, false => n.search (g - 1) tries

/-- Digits without zeros at their end, and the power of ten of the first one. -/
def shortest (mantissa : Nat) (exponent : Int) : List Char × Int :=
  let n := neighbourhood mantissa exponent
  let (c, g) := n.search n.magnitude 17
  let digits := Nat.toDigits 10 c
  let trimmed := (digits.reverse.dropWhile (· = '0')).reverse
  (if trimmed.isEmpty then ['0'] else trimmed, g + digits.length - 1)

/-- How digits are laid out as text. -/
structure Layout where
  /-- Powers of ten from here on take an exponent. -/
  exponentFrom : Int
  /-- Powers of ten below this take an exponent. -/
  exponentBelow : Int
  /-- The least number of digits of an exponent. -/
  exponentWidth : Nat
  /-- What a whole number ends in. -/
  wholeEnd : String

/-- At least `width` digits of `n`. -/
def paddedDigits (width n : Nat) : List Char :=
  let digits := Nat.toDigits 10 n
  List.replicate (width - digits.length) '0' ++ digits

def Layout.write (l : Layout) (digits : List Char) (power : Int) : String :=
  if power < l.exponentBelow || l.exponentFrom ≤ power then
    let head := match digits with
      | d :: [] => [d]
      | d :: ds => d :: '.' :: ds
      | [] => ['0']
    String.ofList (head ++ ['e', if power < 0 then '-' else '+']
      ++ paddedDigits l.exponentWidth power.natAbs)
  else if power < 0 then
    String.ofList ('0' :: '.' :: List.replicate (power.natAbs - 1) '0' ++ digits)
  else
    let whole := digits.take (power.toNat + 1)
    let fraction := digits.drop (power.toNat + 1)
    let whole := whole ++ List.replicate (power.toNat + 1 - whole.length) '0'
    if fraction.isEmpty then String.ofList whole ++ l.wholeEnd
    else String.ofList (whole ++ '.' :: fraction)

def text (l : Layout) : Binary64 → String
  | nan => "nan"
  | infinite negative => if negative then "-inf" else "inf"
  | finite negative m e =>
    let body :=
      if m = 0 then l.write ['0'] 0
      else
        let (digits, power) := shortest m e
        l.write digits power
    if negative then "-" ++ body else body

end ConfigSteward.Binary64
