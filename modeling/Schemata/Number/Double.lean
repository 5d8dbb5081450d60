/-!
Binary floating-point numbers of 64 bits, held as the integers that define them, so that
equality is decidable and every operation can be evaluated. `ofRatio` is the one place where
rounding happens: to the nearest number, a tie to the even significand.
-/

namespace Schemata

/-- A finite number is `significand * 2 ^ exponent` with its sign kept apart, so that the two
zeros differ. `ofRatio` builds only the normal form: the significand has 53 bits unless the
exponent is the least one. What is not a number carries a payload, by which two such values are
told apart. -/
inductive Double where
  | nan (payload : Nat)
  | infinite (negative : Bool)
  | finite (negative : Bool) (significand : Nat) (exponent : Int)
  deriving DecidableEq, Inhabited

namespace Double

def precision : Nat := 53

/-- The exponent of the smallest positive number. -/
def leastExponent : Int := -1074

def greatestExponent : Int := 971

def zero (negative : Bool) : Double := .finite negative 0 leastExponent

/-- The quotient `num / den` divided by `2 ^ exponent`, again as a quotient of natural numbers. -/
def scaled (num den : Nat) (exponent : Int) : Nat × Nat :=
  if 0 ≤ exponent then (num, den * Nat.pow 2 exponent.toNat)
  else (num * Nat.pow 2 (-exponent).toNat, den)

/-- The integer nearest to `num / den`, a tie to the even one. -/
def roundHalfEven (num den : Nat) : Nat :=
  let quotient := num / den
  let twice := 2 * (num % den)
  if twice < den then quotient
  else if den < twice then quotient + 1
  else quotient + quotient % 2

/-- The number nearest to `num / den`; beyond the largest finite number it is infinite. -/
def ofRatio (negative : Bool) (num den : Nat) : Double :=
  if num = 0 then zero negative
  else
    let estimate : Int := (num.log2 : Int) - den.log2 - precision
    let (n, d) := scaled num den estimate
    let exponent := max leastExponent (if n < Nat.pow 2 precision * d then estimate else estimate + 1)
    let (n, d) := scaled num den exponent
    let significand := roundHalfEven n d
    let (significand, exponent) :=
      if significand = Nat.pow 2 precision then (Nat.pow 2 (precision - 1), exponent + 1)
      else (significand, exponent)
    if greatestExponent < exponent then .infinite negative
    else .finite negative significand exponent

/-- The number nearest to `digits * 10 ^ exponent`. Powers far outside the range are settled
before they are computed. -/
def ofDecimal (negative : Bool) (digits : Nat) (exponent : Int) : Double :=
  if digits = 0 then zero negative
  else
    let size : Int := exponent + (Nat.toDigits 10 digits).length
    if 400 < size then .infinite negative
    else if size < -400 then zero negative
    else if 0 ≤ exponent then ofRatio negative (digits * Nat.pow 10 exponent.toNat) 1
    else ofRatio negative digits (Nat.pow 10 (-exponent).toNat)

def magnitude (significand : Nat) (exponent : Int) : Nat × Nat :=
  if 0 ≤ exponent then (significand * Nat.pow 2 exponent.toNat, 1)
  else (significand, Nat.pow 2 (-exponent).toNat)

def toInt? : Double → Option Int
  | .finite negative significand exponent =>
    let (num, den) := magnitude significand exponent
    if num % den = 0 then
      some (if negative then -((num / den : Nat) : Int) else (num / den : Nat))
    else none
  | _ => none

def ofNat (n : Nat) : Double := ofRatio false n 1

def mul : Double → Double → Double
  | .nan payload, _ => .nan payload
  | _, .nan payload => .nan payload
  | .infinite a, .infinite b => .infinite (a != b)
  | .infinite a, .finite b n _ => if n = 0 then .nan 0 else .infinite (a != b)
  | .finite a m _, .infinite b => if m = 0 then .nan 0 else .infinite (a != b)
  | .finite a m e, .finite b n f =>
    let (p, q) := magnitude m e
    let (r, s) := magnitude n f
    ofRatio (a != b) (p * r) (q * s)

/-- The number nearest to the sum. A sum that is zero has the sign of its terms if they agree. -/
def add : Double → Double → Double
  | .nan payload, _ => .nan payload
  | _, .nan payload => .nan payload
  | .infinite a, .infinite b => if a = b then .infinite a else .nan 0
  | .infinite a, _ => .infinite a
  | _, .infinite b => .infinite b
  | .finite a m e, .finite b n f =>
    let (p, q) := magnitude m e
    let (r, s) := magnitude n f
    let signed (negative : Bool) (magnitude : Nat) : Int :=
      if negative then -(magnitude : Int) else magnitude
    let sum := signed a (p * s) + signed b (r * q)
    if sum = 0 then zero (a && b) else ofRatio (sum < 0) sum.natAbs (q * s)

def negate : Double → Double
  | .nan payload => .nan payload
  | .infinite negative => .infinite (!negative)
  | .finite negative significand exponent => .finite (!negative) significand exponent

/-- The same number; what is none takes a payload. -/
def stamp (payload : Nat) : Double → Double
  | .nan _ => .nan payload
  | value => value

end Double

end Schemata
