/-!
# Finite doubles and their shortest decimals

A finite double is a sign, a whole mantissa below 2^53 and a power of two. Rounding a quotient to
the nearest double, ties to the even mantissa, is exact arithmetic on natural numbers; a quotient
too large for a finite double has no value.
-/

namespace Componentry.Decimal

/-- A finite double: plus or minus `mantissa` times two to the `exponent`. -/
structure Binary64 where
  negative : Bool
  mantissa : Nat
  exponent : Int
deriving DecidableEq, Repr

namespace Binary64

def zero (negative : Bool) : Binary64 := ⟨negative, 0, -1074⟩

/-- The quotient of two naturals rounded to the nearest natural, a half to the even one. -/
def roundDiv (num den : Nat) : Nat :=
  let q := num / den
  let r := num % den
  if 2 * r < den then q
  else if 2 * r > den then q + 1
  else if q % 2 == 0 then q else q + 1

/-- `num / den` in units of two to the `e`, as a pair of naturals. -/
def scaled (num den : Nat) (e : Int) : Nat × Nat :=
  if e ≥ 0 then (num, den <<< e.toNat) else (num <<< (-e).toNat, den)

/-- The power of two whose units give `num / den` a mantissa of 53 bits, not below -1074. -/
def unitExponent (num den : Nat) : Int :=
  let guess : Int := (Nat.log2 num : Int) - (Nat.log2 den : Int) - 53
  let p := scaled num den guess
  let e := if p.1 / p.2 ≥ 1 <<< 53 then guess + 1 else guess
  max e (-1074)

/-- The double nearest to `num / den`, with a sign; none when it would be infinite. -/
def ofRatio (negative : Bool) (num den : Nat) : Option Binary64 :=
  if num == 0 || den == 0 then some (zero negative)
  else
    let e := unitExponent num den
    let p := scaled num den e
    let m := roundDiv p.1 p.2
    let r : Nat × Int := if m == 1 <<< 53 then (1 <<< 52, e + 1) else (m, e)
    if r.2 > 971 then none else some ⟨negative, r.1, r.2⟩

/-- The double nearest to `m` times ten to the `e`. -/
def ofDecimal (negative : Bool) (m : Nat) (e : Int) : Option Binary64 :=
  if m == 0 then some (zero negative)
  else if e > 400 then none
  else if e ≥ 0 then ofRatio negative (m * Nat.pow 10 e.toNat) 1
  else if (Nat.log2 m : Int) + 1 < -e * 3 - 1100 then some (zero negative)
  else ofRatio negative m (Nat.pow 10 (-e).toNat)

def ofInt (n : Int) : Option Binary64 :=
  ofRatio (n < 0) n.natAbs 1

variable (x : Binary64)

def ratio : Nat × Nat :=
  if x.exponent ≥ 0 then (x.mantissa <<< x.exponent.toNat, 1)
  else (x.mantissa, 1 <<< (-x.exponent).toNat)

def mul (y : Binary64) : Option Binary64 :=
  let p := x.ratio
  let q := y.ratio
  ofRatio (x.negative != y.negative) (p.1 * q.1) (p.2 * q.2)

/-- The quotient, rounded; the divisor is not zero. -/
def div (y : Binary64) : Option Binary64 :=
  let p := x.ratio
  let q := y.ratio
  ofRatio (x.negative != y.negative) (p.1 * q.2) (p.2 * q.1)

/-- The value is at least zero; both zeros are. -/
def isNonneg : Bool :=
  !x.negative || x.mantissa == 0

def floorMagnitude : Nat :=
  x.ratio.1 / x.ratio.2

def isWhole : Bool :=
  x.ratio.1 % x.ratio.2 == 0

end Binary64

/-! ### The shortest decimal of a double

Of the decimals that round to a given double, the one with the fewest digits, and of those the
nearest. Digit counts are tried in turn; on the grid of decimals with `n` digits only the two
neighbours of the value can be hits. -/

/-- A positive decimal: whole digits times a power of ten. -/
structure Digits where
  /-- The digits as a number without trailing zeros. -/
  digits : Nat
  exponent : Int
deriving DecidableEq, Repr

variable (x : Binary64)

/-- Twice the bounds of the interval that rounds to `m * 2^e`, in units of `2^(e-2)`: the lower
half-step is shorter at a power of two. -/
def halfSteps : Nat × Nat :=
  let low := if x.mantissa == 1 <<< 52 && x.exponent > -1074 then 1 else 2
  (4 * x.mantissa - low, 4 * x.mantissa + 2)

def decimalPoint (num den : Nat) : Int :=
  if num ≥ den then ((Nat.toDigits 10 (num / den)).length : Int) - 1
  else -((Nat.toDigits 10 ((den - 1) / num)).length : Int)

/-- `a * 10^k ≤ b` and the like are compared after clearing negative powers. -/
def scaleTen (n : Nat) (k : Int) : Nat × Nat :=
  if k ≥ 0 then (n * Nat.pow 10 k.toNat, 1) else (n, Nat.pow 10 (-k).toNat)

/-- A candidate `c * 10^k` lies in the rounding interval of `x`; the ends count when the mantissa
is even. -/
def roundsTo (c : Nat) (k : Int) : Bool :=
  let v := scaleTen c k
  let s := halfSteps x
  let unit : Nat × Nat :=
    if x.exponent - 2 ≥ 0 then (1 <<< (x.exponent - 2).toNat, 1) else (1, 1 <<< (2 - x.exponent).toNat)
  let lhs := v.1 * unit.2
  let lo := s.1 * unit.1 * v.2
  let hi := s.2 * unit.1 * v.2
  if x.mantissa % 2 == 0 then lo ≤ lhs && lhs ≤ hi else lo < lhs && lhs < hi

/-- The distance of `c * 10^k` from the fraction, as a numerator over a common denominator. -/
def distance (num den : Nat) (c : Nat) (k : Int) : Nat :=
  let v := scaleTen c k
  let a := v.1 * den
  let b := num * v.2
  if a ≥ b then a - b else b - a

def hitWith (num den : Nat) (p : Int) (n : Nat) : Option (Nat × Int) :=
  let k : Int := p - n + 1
  let c := if k ≥ 0 then num / (den * Nat.pow 10 k.toNat) else num * Nat.pow 10 (-k).toNat / den
  let low := roundsTo x c k && c > 0
  let high := roundsTo x (c + 1) k
  if low && high then
    let a := distance num den c k
    let b := distance num den (c + 1) k
    if a < b || (a == b && c % 2 == 0) then some (c, k) else some (c + 1, k)
  else if low then some (c, k)
  else if high then some (c + 1, k)
  else none

/-- The number without trailing zeros, with their count; at most `fuel` are taken. -/
def stripZeros : Nat → Nat → Nat → Nat × Nat
  | 0, n, z => (n, z)
  | fuel + 1, n, z => if n % 10 == 0 && n != 0 then stripZeros fuel (n / 10) (z + 1) else (n, z)

def shortest : Digits :=
  let r := x.ratio
  let p := decimalPoint r.1 r.2
  let hit := ((List.range 17).filterMap fun i => hitWith x r.1 r.2 p (i + 1)).head?
  let (c, k) := hit.getD (0, 0)
  let s := stripZeros 20 c 0
  ⟨s.1, k + s.2⟩

/-- How a format writes a double. -/
structure Format where
  /-- Least position of the decimal point that is written out with leading zeros. -/
  leastPoint : Int
  /-- Greatest position of the decimal point that is written out. -/
  greatestPoint : Int
  /-- What follows the digits of a whole number. -/
  wholeTail : String
  plusSign : String

def zeros (n : Nat) : String :=
  String.ofList (List.replicate n '0')

def Format.write (f : Format) (x : Binary64) : String :=
  let sign := if x.negative then "-" else ""
  if x.mantissa == 0 then sign ++ "0" ++ f.wholeTail
  else
    let d := shortest x
    let text := toString d.digits
    let n : Int := text.length
    let point := n + d.exponent
    if d.exponent ≥ 0 && point ≤ f.greatestPoint then
      sign ++ text ++ zeros d.exponent.toNat ++ f.wholeTail
    else if 0 < point && point ≤ f.greatestPoint then
      let cs := text.toList
      sign ++ String.ofList (cs.take point.toNat) ++ "." ++ String.ofList (cs.drop point.toNat)
    else if f.leastPoint < point && point ≤ 0 then
      sign ++ "0." ++ zeros (-point).toNat ++ text
    else
      let e := point - 1
      let exponent := if e < 0 then "e-" ++ toString e.natAbs else "e" ++ f.plusSign ++ toString e
      match text.toList with
      | [] => sign
      | [c] => sign ++ String.ofList [c] ++ exponent
      | c :: cs => sign ++ String.ofList [c] ++ "." ++ String.ofList cs ++ exponent

end Componentry.Decimal
