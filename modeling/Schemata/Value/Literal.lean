import Schemata.Value
import Schemata.Number.Shortest
import Schemata.Text.Quoted

/-!
The literal text of a value, as messages quote it: texts between marks, lists in brackets,
mappings in braces. A collection that comes up inside itself is left out there.
-/

namespace Schemata.Value

open Schemata.Text

def dateLiteral (date : Date) : String :=
  "datetime.date(" ++ toString date.year ++ ", " ++ toString date.month ++ ", "
    ++ toString date.day ++ ")"

/-- The offset of a clock as days and seconds, the seconds never negative. -/
def offsetLiteral (minutes : Int) : String :=
  if minutes = 0 then "datetime.timezone.utc"
  else
    let seconds := minutes * 60
    let days := seconds / 86400
    let rest := seconds % 86400
    let parts := (if days = 0 then [] else ["days=" ++ toString days])
      ++ (if rest = 0 then [] else ["seconds=" ++ toString rest])
    "datetime.timezone(datetime.timedelta(" ++ ", ".intercalate parts ++ "))"

/-- Seconds and microseconds are left out if nothing after them is given. -/
def momentLiteral (moment : Moment) : String :=
  let date := moment.date
  let parts := [date.year, date.month, date.day, moment.hour, moment.minute]
    ++ (if moment.second = 0 && moment.microsecond = 0 then [] else [moment.second])
    ++ (if moment.microsecond = 0 then [] else [moment.microsecond])
  "datetime.datetime(" ++ ", ".intercalate (parts.map toString)
    ++ (match moment.offset with
      | none => ""
      | some minutes => ", tzinfo=" ++ offsetLiteral minutes) ++ ")"

/-- What is written for a collection inside itself. -/
def ellipsis (isMapping : Bool) : String := if isMapping then "\x7b...\x7d" else "[...]"

def isMapping : Value → Bool
  | .map _ => true
  | _ => false

mutual

/-- The literal text of a value inside the collections of some marks. -/
def literalWithin (around : List Nat) : Value → String
  | .null => "None"
  | .bool value => if value then "True" else "False"
  | .int value => toString value
  | .float value => value.textWith "nan" "inf"
  | .text value => quoted value
  | .date value => dateLiteral value
  | .moment value => momentLiteral value
  | .bytes value => quotedBytes value
  | .list items => "[" ++ ", ".intercalate (literals around items) ++ "]"
  | .map entries => "\x7b" ++ ", ".intercalate (entryLiterals around entries) ++ "\x7d"
  | .set [] => "set()"
  | .set members => "\x7b" ++ ", ".intercalate (literals around members) ++ "\x7d"
  | .pair first second =>
    "(" ++ literalWithin around first ++ ", " ++ literalWithin around second ++ ")"
  | .knot mark collection =>
    if around.contains mark then ellipsis collection.isMapping
    else literalWithin (mark :: around) collection
  | .again _ isMapping => ellipsis isMapping

def literals (around : List Nat) : List Value → List String
  | [] => []
  | item :: rest => literalWithin around item :: literals around rest

def entryLiterals (around : List Nat) : List (Value × Value) → List String
  | [] => []
  | (key, value) :: rest =>
    (literalWithin around key ++ ": " ++ literalWithin around value) :: entryLiterals around rest

end

def literal (value : Value) : String := literalWithin [] value

/-- The text of a value that stands in a message without marks. -/
def display : Value → String
  | .text value => value
  | .date value => value.text
  | .moment value => value.text.map fun c => if c = 'T' then ' ' else c
  | value => literal value

end Schemata.Value
