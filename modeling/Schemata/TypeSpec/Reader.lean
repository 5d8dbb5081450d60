import Schemata.TypeSpec
import Schemata.Text.Blank
import Schemata.Value

/-!
Reading type references. A text follows the grammar

    reference = blanks ["!"] core ["?"] blanks      core = name | "[" reference "]"

with `!` allowed only in fields and parameters, and blanks nowhere else. A list of one reference
is an array of it.
-/

namespace Schemata

inductive ReferenceFault where
  | notOneElement
  | notReference
  | strayRequired
  | repeatedNullable
  | unbalancedBrackets
  | missingName
  | notName (text : String)
  | unknownLocation (location : String)
  | nullableInput
  | nestedInput (name : String)
  | notInput
  /-- Lists of one reference hold each other without end. -/
  | endless
  deriving DecidableEq

def ReferenceFault.message : ReferenceFault → String
  | .notOneElement => "an array literal must wrap exactly one element type"
  | .notReference => "expected a string or a one-element list"
  | .strayRequired => "'!' is only allowed on field and parameter definitions"
  | .repeatedNullable => "only one '?' marker is allowed"
  | .unbalancedBrackets => "unbalanced array brackets"
  | .missingName => "missing type name"
  | .notName text => "'" ++ text ++ "' is not a valid type name"
  | .unknownLocation location => "unknown parameter location '" ++ location ++ "'"
  | .nullableInput => "an input type cannot be nullable"
  | .nestedInput name => "input type '" ++ name ++ "' cannot be nested in another type"
  | .notInput => "not an input type"
  | .endless => ""

/-- A reference that cannot be read: the innermost part at fault, as it was given. -/
structure Misreading where
  given : Value
  fault : ReferenceFault

/-- The same misreading, its data closed by the knot that was around it. -/
def Misreading.within (mark : Nat) (whole : Value) (misreading : Misreading) : Misreading :=
  { misreading with given := misreading.given.replace mark whole }

namespace TypeSpec

/-- Takes a leading `!` off. -/
def takeRequired : List Char → Bool × List Char
  | '!' :: rest => (true, rest)
  | text => (false, text)

/-- Takes a final character off. -/
def takeLast (mark : Char) (text : List Char) : Bool × List Char :=
  if text.getLast? = some mark then (true, text.dropLast) else (false, text)

theorem length_takeRequired_le (text : List Char) :
    (takeRequired text).2.length ≤ text.length := by
  unfold takeRequired
  split
  · simp
  · exact Nat.le_refl _

theorem length_takeLast_le (mark : Char) (text : List Char) :
    (takeLast mark text).2.length ≤ text.length := by
  unfold takeLast
  split
  · simp
  · exact Nat.le_refl _

inductive Core where
  | name (text : List Char)
  | brackets (inside : List Char)

/-- Tells a name from a reference in brackets. -/
def core (text : List Char) : Except ReferenceFault Core :=
  match text with
  | '[' :: rest =>
    if rest.getLast? = some ']' then .ok (.brackets rest.dropLast) else .error .unbalancedBrackets
  | _ =>
    if text.getLast? = some ']' then .error .unbalancedBrackets
    else if text.isEmpty then .error .missingName
    else if isName text then .ok (.name text)
    else .error (.notName (String.ofList text))

theorem length_lt_of_core_eq {text inside : List Char} (read : core text = .ok (.brackets inside)) :
    inside.length < text.length := by
  unfold core at read
  split at read
  · split at read
    · cases read
      simp only [List.length_dropLast, List.length_cons]
      omega
    · cases read
  · repeat' split at read
    all_goals cases read

def marks (inField : Bool) (text : List Char) : Except ReferenceFault (Bool × Bool × List Char) :=
  let (required, text) := takeRequired (Text.strip text)
  if required && !inField then .error .strayRequired
  else
    let (nullable, text) := takeLast '?' text
    if nullable && text.getLast? = some '?' then .error .repeatedNullable
    else .ok (required, nullable, text)

theorem length_le_of_marks_eq {inField required nullable : Bool} {text inside : List Char}
    (read : marks inField text = .ok (required, nullable, inside)) :
    inside.length ≤ text.length := by
  have stripped := Text.length_strip_le text
  have first := length_takeRequired_le (Text.strip text)
  have last := length_takeLast_le '?' (takeRequired (Text.strip text)).2
  simp only [marks] at read
  repeat' split at read
  · cases read
  · cases read
  · cases read
    omega

/-- Reads a text. `inField` says whether it stands in a field or a parameter. -/
def readChars (inField : Bool) (text : List Char) : Except Misreading TypeSpec :=
  match marked : marks inField text with
  | .error fault => .error ⟨.text (String.ofList text), fault⟩
  | .ok (required, nullable, inner) =>
    match cored : core inner with
    | .error fault => .error ⟨.text (String.ofList text), fault⟩
    | .ok (.name name) => .ok (.named (String.ofList name) required nullable)
    | .ok (.brackets inside) =>
      have : inside.length < text.length :=
        Nat.lt_of_lt_of_le (length_lt_of_core_eq cored) (length_le_of_marks_eq marked)
      (readChars false inside).map fun element => .array element required nullable
  termination_by text.length

def read (inField : Bool) : Value → Except Misreading TypeSpec
  | .text text => readChars inField text.toList
  | .list [item] => (read false item).map fun element => .array element false false
  | .knot mark (.list [item]) =>
    ((read false item).map fun element => .array element false false).mapError
      (Misreading.within mark (.knot mark (.list [item])))
  | .list items => .error ⟨.list items, .notOneElement⟩
  | .knot mark (.list items) => .error ⟨.knot mark (.list items), .notOneElement⟩
  | .pair first second => .error ⟨.pair first second, .notOneElement⟩
  | .again mark isMapping => .error ⟨.again mark isMapping, .endless⟩
  | value => .error ⟨value, .notReference⟩

end TypeSpec

end Schemata
