import Schemata.Text.Blank

/-!
Reading whole numbers. Blanks around a number are passed over, a sign may come first, one
underscore may stand between two digits, and the digits may be those of any script. A number in
base ten has no more than 4300 digits.
-/

namespace Schemata.Text

/-- The characters for zero of all scripts with decimal digits; those for one to nine follow. -/
def zeros : List Nat :=
  [0x30, 0x660, 0x6F0, 0x7C0, 0x966, 0x9E6, 0xA66, 0xAE6, 0xB66, 0xBE6, 0xC66, 0xCE6, 0xD66,
    0xDE6, 0xE50, 0xED0, 0xF20, 0x1040, 0x1090, 0x17E0, 0x1810, 0x1946, 0x19D0, 0x1A80, 0x1A90,
    0x1B50, 0x1BB0, 0x1C40, 0x1C50, 0xA620, 0xA8D0, 0xA900, 0xA9D0, 0xA9F0, 0xAA50, 0xABF0,
    0xFF10, 0x104A0, 0x10D30, 0x11066, 0x110F0, 0x11136, 0x111D0, 0x112F0, 0x11450, 0x114D0,
    0x11650, 0x116C0, 0x11730, 0x118E0, 0x11950, 0x11C50, 0x11D50, 0x11DA0, 0x16A60, 0x16AC0,
    0x16B50, 0x1D7CE, 0x1D7D8, 0x1D7E2, 0x1D7EC, 0x1D7F6, 0x1E140, 0x1E2F0, 0x1E950, 0x1FBF0]

/-- The value of a decimal digit of any script. -/
def decimalDigit? (c : Char) : Option Nat :=
  (zeros.find? fun first => first ≤ c.toNat && c.toNat < first + 10).map (c.toNat - ·)

/-- The value of a digit below the base; letters stand for the digits from ten on. -/
def digit? (base : Nat) (c : Char) : Option Nat :=
  let value :=
    if 'a' ≤ c && c ≤ 'z' then some (c.toNat - 87)
    else if 'A' ≤ c && c ≤ 'Z' then some (c.toNat - 55)
    else decimalDigit? c
  value.filter (· < base)

/-- Digits, with an underscore allowed between two of them. -/
def digits? (base : Nat) (sum : Nat) : List Char → Option Nat
  | [] => none
  | c :: rest =>
    match digit? base c with
    | none => none
    | some value =>
      let sum := sum * base + value
      match rest with
      | [] => some sum
      | '_' :: rest => digits? base sum rest
      | rest => digits? base sum rest

/-- The most digits of a number in base ten. -/
def longest : Nat := 4300

/-- Whether a number has no more digits in base ten than may be written or read. -/
def isWritable (n : Int) : Bool := n.natAbs < Nat.pow 10 longest

/-- The blanks around a number: the information separators are not among them. -/
def isNumeralBlank (c : Char) : Bool := isBlank c && !(0x1C ≤ c.toNat && c.toNat ≤ 0x1F)

def trim (text : List Char) : List Char :=
  ((text.dropWhile isNumeralBlank).reverse.dropWhile isNumeralBlank).reverse

def takeSign : List Char → Bool × List Char
  | '-' :: rest => (true, rest)
  | '+' :: rest => (false, rest)
  | text => (false, text)

/-- Takes the mark of a base off, and an underscore behind it. -/
def takeBaseMark (base : Nat) : List Char → List Char
  | '0' :: mark :: rest =>
    let marks := if base = 2 then ['b', 'B'] else if base = 8 then ['o', 'O']
      else if base = 16 then ['x', 'X'] else []
    if marks.contains mark then
      match rest with
      | '_' :: rest => rest
      | rest => rest
    else '0' :: mark :: rest
  | text => text

/-- Whether the digits of a base are too many. -/
def isTooLong (base : Nat) (digits : List Char) : Bool :=
  base = 10 && longest < digits.countP (· ≠ '_')

/-- Reads a whole number in a base. -/
def int? (base : Nat) (text : List Char) : Option Int :=
  let (negative, rest) := takeSign (trim text)
  if isTooLong base rest then none
  else
    (digits? base 0 (takeBaseMark base rest)).map fun value =>
      if negative then -(value : Int) else value

end Schemata.Text
