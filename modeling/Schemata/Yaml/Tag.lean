import Schemata.Text.Numeral

/-!
Tags say what the text of a scalar means. A plain scalar without a tag has one of the core tags,
depending on its text alone.
-/

namespace Schemata.Yaml

inductive Tag where
  | null | bool | int | float | str | binary | timestamp
  | seq | map | set | omap | pairs
  | merge
  /-- The mark of a default value. -/
  | default
  | other (name : String)
  deriving DecidableEq, Inhabited

namespace Tag

/-- What the names of all core tags begin with. -/
def base : String := "tag:yaml.org,2002:"

def core : List (String × Tag) :=
  [("null", .null), ("bool", .bool), ("int", .int), ("float", .float), ("str", .str),
    ("binary", .binary), ("timestamp", .timestamp), ("seq", .seq), ("map", .map), ("set", .set),
    ("omap", .omap), ("pairs", .pairs), ("merge", .merge), ("value", .default)]

def ofName (name : String) : Tag :=
  match core.find? fun (suffix, _) => base ++ suffix = name with
  | some (_, tag) => tag
  | none => .other name

def falseWords : List String := ["no", "No", "NO", "false", "False", "FALSE", "off", "Off", "OFF"]

def trueWords : List String := ["yes", "Yes", "YES", "true", "True", "TRUE", "on", "On", "ON"]

def nullWords : List String := ["", "~", "null", "Null", "NULL"]

def isDigit (c : Char) : Bool := '0' ≤ c && c ≤ '9'

def isDigitOrLow (c : Char) : Bool := isDigit c || c = '_'

/-- Parts of a number in base sixty behind its first: each is below sixty, after a colon. What
follows them is returned, if there is one part at least. -/
def sixtieths : List Char → Option (List Char)
  | ':' :: a :: rest =>
    if !isDigit a then none
    else
      let rest :=
        match rest with
        | b :: later => if a ≤ '5' && isDigit b then later else rest
        | [] => rest
      match rest with
      | ':' :: _ => sixtieths rest
      | _ => some rest
  | _ => none
  termination_by text => text.length
  decreasing_by
    all_goals
      simp only [List.length_cons]
      split
      · split
        · simp_all only [List.length_cons]
          omega
        · omega
      · omega

def isInt (text : List Char) : Bool :=
  match (Text.takeSign text).2 with
  | ['0'] => true
  | '0' :: 'b' :: rest => !rest.isEmpty && rest.all fun c => c = '0' || c = '1' || c = '_'
  | '0' :: 'x' :: rest =>
    !rest.isEmpty && rest.all fun c =>
      isDigitOrLow c || ('a' ≤ c && c ≤ 'f') || ('A' ≤ c && c ≤ 'F')
  | '0' :: rest => rest.all fun c => ('0' ≤ c && c ≤ '7') || c = '_'
  | c :: rest =>
    isDigit c
      && match rest.dropWhile isDigitOrLow with
        | [] => true
        | rest => sixtieths rest = some []
  | [] => false

/-- The exponent of a number, which must have a sign, or nothing. -/
def isExponent : List Char → Bool
  | [] => true
  | mark :: sign :: rest =>
    (mark = 'e' || mark = 'E') && (sign = '-' || sign = '+') && !rest.isEmpty && rest.all isDigit
  | _ => false

def isFloat (text : List Char) : Bool :=
  let unsigned := (Text.takeSign text).2
  match unsigned with
  | '.' :: rest =>
    String.ofList rest ∈ ["inf", "Inf", "INF"]
      || (unsigned.length = text.length
        && (String.ofList rest ∈ ["nan", "NaN", "NAN"]
          || match rest with
            | c :: later => isDigit c && isExponent (later.dropWhile isDigitOrLow)
            | [] => false))
  | c :: rest =>
    isDigit c
      && match rest.dropWhile isDigitOrLow with
        | '.' :: later => isExponent (later.dropWhile isDigitOrLow)
        | later =>
          match sixtieths later with
          | some ('.' :: later) => later.all isDigitOrLow
          | _ => false
  | [] => false

end Tag

structure Written where
  year : Nat
  month : Nat
  day : Nat
  /-- Hour, minute, second, the digits of the fraction, and the offset in minutes. -/
  time : Option (Nat × Nat × Nat × List Char × Option Int)
  /-- Month and day have two digits each. -/
  padded : Bool

namespace Written

/-- The text without a line break that ends it. -/
def lessBreak (text : List Char) : List Char :=
  if text.getLast? = some '\n' then text.dropLast else text

def number (digits : List Char) : Nat :=
  digits.foldl (fun sum c => sum * 10 + (c.toNat - 48)) 0

def exactly (count : Nat) (text : List Char) : Option (Nat × List Char) :=
  let digits := text.take count
  if digits.length = count && digits.all Tag.isDigit then some (number digits, text.drop count)
  else none

def oneOrTwo (text : List Char) : Option (Nat × List Char) :=
  match exactly 2 text with
  | some read => some read
  | none => exactly 1 text

def takeMark (mark : Char) : List Char → Option (List Char)
  | c :: rest => if c = mark then some rest else none
  | [] => none

def offset? (text : List Char) : Option (Option Int) :=
  match text.dropWhile fun c => c = ' ' || c = '\t' with
  | [] => if text.isEmpty then some none else none
  | ['Z'] => some (some 0)
  | sign :: rest =>
    if sign = '-' || sign = '+' then do
      let (hours, rest) ← oneOrTwo rest
      let (minutes, rest) ←
        match rest with
        | ':' :: rest => exactly 2 rest
        | rest => some (0, rest)
      let total : Int := hours * 60 + minutes
      if rest.isEmpty then return some (if sign = '-' then -total else total) else none
    else none

def time? (text : List Char) : Option (Nat × Nat × Nat × List Char × Option Int) := do
  let rest ←
    match text with
    | c :: rest =>
      if c = 'T' || c = 't' then some rest
      else if c = ' ' || c = '\t' then some (rest.dropWhile fun c => c = ' ' || c = '\t')
      else none
    | [] => none
  let (hour, rest) ← oneOrTwo rest
  let rest ← takeMark ':' rest
  let (minute, rest) ← exactly 2 rest
  let rest ← takeMark ':' rest
  let (second, rest) ← exactly 2 rest
  let (fraction, rest) :=
    match rest with
    | '.' :: rest => (rest.takeWhile Tag.isDigit, rest.dropWhile Tag.isDigit)
    | rest => ([], rest)
  let offset ← offset? rest
  return (hour, minute, second, fraction, offset)

def ofLine? (text : List Char) : Option Written := do
  let (year, rest) ← exactly 4 text
  let rest ← takeMark '-' rest
  let (month, afterMonth) ← oneOrTwo rest
  let tail ← takeMark '-' afterMonth
  let (day, afterDay) ← oneOrTwo tail
  let padded := rest.length = afterMonth.length + 2 && tail.length = afterDay.length + 2
  match afterDay with
  | [] => return { year, month, day, time := none, padded }
  | _ => return { year, month, day, time := some (← time? afterDay), padded }

def read? (text : List Char) : Option Written := ofLine? (lessBreak text)

end Written

namespace Tag

def isTimestamp (line : List Char) : Bool :=
  match Written.ofLine? line with
  | some written => written.time.isSome || written.padded
  | none => false

/-- Marks that begin no plain scalar. They have a tag if they are all of a text, but it is the tag of
nothing. -/
def marks : List String := ["!", "&", "*"]

def ofLine (line : String) : Tag :=
  if line ∈ trueWords || line ∈ falseWords then .bool
  else if line ∈ nullWords then .null
  else if line = "<<" then .merge
  else if line = "=" then .default
  else if line ∈ marks then .other (base ++ "yaml")
  else if isFloat line.toList then .float
  else if isInt line.toList then .int
  else if isTimestamp line.toList then .timestamp
  else .str

/-- The tag of a plain scalar. A line break behind other characters changes nothing. -/
def ofPlain (text : String) : Tag :=
  if text = "\n" then .str else ofLine (String.ofList (Written.lessBreak text.toList))

end Tag

end Schemata.Yaml
