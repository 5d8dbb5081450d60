import Schemata.Number.Double

/-!
The decimal text of a floating-point number: the fewest digits that read back as the same
number, and of those the nearest. Numbers from `0.0001` up to, not including, `10 ^ 16` are
written positionally, all others with an exponent of at least two digits.
-/

namespace Schemata.Double

/-- The least `k` with `num / den < 10 ^ k`, found from the sizes of the two integers. -/
def decimalPoint (num den : Nat) : Int :=
  let estimate : Int := ((num.log2 : Int) - den.log2) * 30103 / 100000
  let below (power : Int) : Bool :=
    if 0 ≤ power then num < den * Nat.pow 10 power.toNat
    else num * Nat.pow 10 (-power).toNat < den
  let rec search : Nat → Int → Int
    | 0, power => power
    | steps + 1, power => if below power then power else search steps (power + 1)
  search 4 (estimate - 1)

/-- The neighbours of `num / den` among the multiples of `10 ^ power`, each with its distance
in units that are the same for both. -/
def neighbours (num den : Nat) (power : Int) : (Nat × Nat) × (Nat × Nat) :=
  let (n, d) :=
    if 0 ≤ power then (num, den * Nat.pow 10 power.toNat)
    else (num * Nat.pow 10 (-power).toNat, den)
  ((n / d, n % d), (n / d + 1, d - n % d))

/-- Of the two neighbours with `count` digits the one that reads back as `value`; of two the
nearer, and the even one of two equally near. -/
def digitsWithin (value : Double) (num den : Nat) (point : Int) (count : Nat) : Option Nat :=
  let power := point - count
  let ((low, lowGap), (high, highGap)) := neighbours num den power
  let reads (digits : Nat) : Bool := ofDecimal false digits power = value
  match reads low, reads high with
  | false, false => none
  | true, false => some low
  | false, true => some high
  | true, true =>
    if lowGap < highGap then some low
    else if highGap < lowGap then some high
    else some (if low % 2 = 0 then low else high)

/-- The fewest digits, at most seventeen, that read back, and the place of the point before
which they stand: the number is `0.digits * 10 ^ point`. -/
def shortest (significand : Nat) (exponent : Int) : Nat × Int :=
  let (num, den) := magnitude significand exponent
  let point := decimalPoint num den
  let value := Double.finite false significand exponent
  let rec search : Nat → Nat → Nat × Int
    | 0, count => ((neighbours num den (point - count)).1.1, point)
    | steps + 1, count =>
      match digitsWithin value num den point count with
      | some digits => if digits = Nat.pow 10 count then (1, point + 1) else (digits, point)
      | none => search steps (count + 1)
  search 17 1

/-- An exponent with its sign and at least two digits. -/
def exponentText (power : Int) : String :=
  let digits := toString power.natAbs
  (if power < 0 then "-" else "+") ++ (if digits.length < 2 then "0" ++ digits else digits)

/-- Digits written around the decimal point. -/
def layOut (digits : String) (point : Int) : String :=
  let count := digits.length
  if -4 < point ∧ point ≤ 16 then
    if point ≤ 0 then "0." ++ String.ofList (List.replicate (-point).toNat '0') ++ digits
    else if count ≤ point.toNat then
      digits ++ String.ofList (List.replicate (point.toNat - count) '0') ++ ".0"
    else
      String.ofList (digits.toList.take point.toNat) ++ "."
        ++ String.ofList (digits.toList.drop point.toNat)
  else
    let head := String.ofList (digits.toList.take 1)
    let tail := String.ofList (digits.toList.drop 1)
    head ++ (if tail = "" then "" else "." ++ tail) ++ "e" ++ exponentText (point - 1)

/-- The text of a number, with the given words for the values that are no decimals. -/
def textWith (nan infinity : String) : Double → String
  | .nan _ => nan
  | .infinite negative => (if negative then "-" else "") ++ infinity
  | .finite negative significand exponent =>
    let sign := if negative then "-" else ""
    if significand = 0 then sign ++ "0.0"
    else
      let (digits, point) := shortest significand exponent
      sign ++ layOut (toString digits) point

end Schemata.Double
