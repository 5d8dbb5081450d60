import Schemata.Number.Decimal
import Schemata.Value
import Schemata.Yaml.Cursor
import Schemata.Yaml.Tag

/-!
What the texts of scalars mean under their tags: truth values, whole numbers, numbers with a point,
bytes, days and moments.
-/

namespace Schemata.Yaml

def falsehoods : List String := ["no", "false", "off"]

def truths : List String := ["yes", "true", "on"]

def lower (text : String) : String := text.map Char.toLower

def boolOf (text : String) : Except Trouble Value :=
  if lower text ∈ truths then .ok (.bool true)
  else if lower text ∈ falsehoods then .ok (.bool false)
  else .error .unknownWord

def orImpossible : Option α → Except Trouble α
  | some value => .ok value
  | none => .error .impossible

def splitColons (text : List Char) : List (List Char) :=
  text.foldr (fun c parts =>
    if c = ':' then [] :: parts
    else
      match parts with
      | [] => [[c]]
      | part :: rest => (c :: part) :: rest) [[]]

/-- A number without its underscores, after its sign. -/
def unsignedDigits (text : String) : Except Trouble (Bool × List Char) :=
  match text.toList.filter (· ≠ '_') with
  | [] => .error .emptyNumber
  | digits => .ok (Text.takeSign digits)

/-- A whole number: in base two, sixteen, eight, sixty or ten. -/
def intOf (text : String) : Except Trouble Value := do
  let (negative, digits) ← unsignedDigits text
  let magnitude ←
    match digits with
    | [] => throw .emptyNumber
    | ['0'] => pure 0
    | '0' :: 'b' :: rest => orImpossible (Text.int? 2 rest)
    | '0' :: 'x' :: rest => orImpossible (Text.int? 16 rest)
    | '0' :: rest => orImpossible (Text.int? 8 ('0' :: rest))
    | digits =>
      if digits.contains ':' then
        (splitColons digits).foldlM (fun sum part => do
          return sum * 60 + (← orImpossible (Text.int? 10 part))) 0
      else orImpossible (Text.int? 10 digits)
  return .int (if negative then -magnitude else magnitude)

/-- The sum of parts in base sixty, the last part first. -/
def sixtiethsOf : Nat → Double → List Double → Except Trouble Double
  | _, sum, [] => .ok sum
  | scale, sum, part :: rest =>
    match Double.ofNat scale with
    | .infinite _ => .error .tooLarge
    | factor => sixtiethsOf (scale * 60) (sum.add (part.mul factor)) rest

/-- A number with a point, in base ten or sixty. -/
def magnitudeOf (digits : List Char) : Except Trouble Double := do
  if digits = ".inf".toList then return .infinite false
  else if digits.contains ':' then
    let parts ← (splitColons digits).mapM fun part => orImpossible (Double.read? part)
    sixtiethsOf 1 (.zero false) parts.reverse
  else orImpossible (Double.read? digits)

/-- A number with a point and a sign. What is no number is told apart by the place of its node, except
that the usual word for it always means the same. -/
def floatOf (place : Nat) (text : String) : Except Trouble Value := do
  let (negative, digits) ← unsignedDigits (lower text)
  if digits = ".nan".toList then return .float (.nan 0)
  let magnitude ← magnitudeOf digits
  return .float ((if negative then magnitude.negate else magnitude).stamp (place + 1))

/-- The millionths that the digits of a fraction count. -/
def microseconds (digits : List Char) : Nat :=
  Written.number ((digits ++ List.replicate 6 '0').take 6)

def timestampOf (text : String) : Except Trouble Value :=
  match Written.read? text.toList with
  | none => .error .notMoment
  | some written =>
    let date : Date := ⟨written.year, written.month, written.day⟩
    match written.time with
    | none => if date.isValid then .ok (.date date) else .error .impossible
    | some (hour, minute, second, fraction, offset) =>
      let moment : Moment :=
        ⟨date, hour, minute, second, microseconds fraction, offset⟩
      if moment.isValid then .ok (.moment moment) else .error .impossible

/-- The six bits of a character of base 64. -/
def sixBits? (c : Char) : Option Nat :=
  if 'A' ≤ c && c ≤ 'Z' then some (c.toNat - 65)
  else if 'a' ≤ c && c ≤ 'z' then some (c.toNat - 71)
  else if '0' ≤ c && c ≤ '9' then some (c.toNat + 4)
  else if c = '+' then some 62
  else if c = '/' then some 63
  else none

/-- Bytes from base 64. `held` are the bits left over and `place` counts the characters of a group
of four; other characters are passed over, and enough padding ends the text. -/
def decodeBase64 (place held pads : Nat) : List Char → Option (List UInt8)
  | [] => if place = 0 then some [] else none
  | c :: rest =>
    if c = '=' then
      if 2 ≤ place && 4 ≤ place + pads + 1 then some []
      else decodeBase64 place held (if 2 ≤ place then pads + 1 else pads) rest
    else
      match sixBits? c with
      | none => decodeBase64 place held pads rest
      | some bits =>
        match place with
        | 0 => decodeBase64 1 bits 0 rest
        | 1 => (decodeBase64 2 (bits % 16) 0 rest).map (UInt8.ofNat (held * 4 + bits / 16) :: ·)
        | 2 => (decodeBase64 3 (bits % 4) 0 rest).map (UInt8.ofNat (held * 16 + bits / 4) :: ·)
        | _ => (decodeBase64 0 0 0 rest).map (UInt8.ofNat (held * 64 + bits) :: ·)

def binaryOf (text : String) : Except Trouble Value :=
  if text.toList.all (·.toNat < 128) then
    match decodeBase64 0 0 0 text.toList with
    | some bytes => .ok (.bytes bytes)
    | none => .error .malformed
  else .error .malformed

/-- The data that a text with a tag denotes at a place; nothing if the tag is not one of scalars. -/
def scalarOf? (place : Nat) (tag : Tag) (text : String) : Option (Except Trouble Value) :=
  match tag with
  | .null => some (.ok .null)
  | .bool => some (boolOf text)
  | .int => some (intOf text)
  | .float => some (floatOf place text)
  | .str => some (.ok (.text text))
  | .binary => some (binaryOf text)
  | .timestamp => some (timestampOf text)
  | _ => none

end Schemata.Yaml
