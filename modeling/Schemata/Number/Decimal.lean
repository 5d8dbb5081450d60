import Schemata.Number.Double
import Schemata.Text.Numeral

/-!
Reading floating-point numbers: digits with a point and an exponent, both optional, or one of the
words for infinity and for no number. Blanks around the number are passed over.
-/

namespace Schemata.Double

open Schemata.Text

def takeDigits (text : List Char) : List Nat × List Char :=
  ((text.takeWhile fun c => (decimalDigit? c).isSome).filterMap decimalDigit?,
    text.dropWhile fun c => (decimalDigit? c).isSome)

def ofDigits (digits : List Nat) : Nat := digits.foldl (fun sum digit => sum * 10 + digit) 0

/-- The exponent that ends a number: none, or a mark with an optional sign and digits. -/
def exponent? : List Char → Option Int
  | [] => some 0
  | mark :: rest =>
    if mark = 'e' || mark = 'E' then
      let (negative, rest) := takeSign rest
      match takeDigits rest with
      | ([], _) => none
      | (digits, []) => some (if negative then -(ofDigits digits : Int) else ofDigits digits)
      | _ => none
    else none

def unsigned? (negative : Bool) (text : List Char) : Option Double :=
  let word := String.ofList (text.map Char.toLower)
  if word = "inf" || word = "infinity" then some (.infinite negative)
  else if word = "nan" then some (.nan 0)
  else
    let (whole, rest) := takeDigits text
    let (places, rest) :=
      match rest with
      | '.' :: rest => takeDigits rest
      | rest => ([], rest)
    if whole.isEmpty && places.isEmpty then none
    else
      (exponent? rest).map fun exponent =>
        ofDecimal negative (ofDigits (whole ++ places)) (exponent - places.length)

def read? (text : List Char) : Option Double :=
  let (negative, rest) := takeSign (trim text)
  unsigned? negative rest

end Schemata.Double
