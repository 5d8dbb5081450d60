import Schemata.Text.Numeral
import Schemata.Text.Quoted

/-!
Reading the arguments of a command. Switches may stand anywhere, by any beginning of a long name
that no other shares, and with their value attached; behind `--` all arguments are operands. What
is read is a list of actions in the order in which they are taken, up to a mistake if there is
one: an action before a mistake still counts.
-/

namespace Schemata.CommandLine

structure Switch where
  names : List String
  takesValue : Bool

/-- An operand: one argument, or a command that takes all arguments behind it. -/
inductive Operand where
  | one
  | command

structure Grammar where
  switches : List Switch
  operands : List Operand

/-- A switch or an operand with its arguments: one for an operand and for a switch that takes a value,
but a separator among them is dropped. -/
inductive Action where
  | switch (switch : Switch) (arguments : List String)
  | operand (arguments : List String)

/-- What was read: the actions, and then the arguments that nothing takes, or a mistake. -/
structure Reading where
  actions : List Action
  ending : Except String (List String)

/-- An argument that looks like a switch. Text may be attached to it, by an equals sign or right
behind a short name. -/
structure Candidate where
  switch : Option Switch
  shown : String
  attached : Option String

inductive Look where
  | operand
  | separator
  | switch (candidate : Candidate)

namespace Switch

/-- A mistake in the use of a switch. -/
def mistake (switch : Switch) (message : String) : String :=
  "argument " ++ "/".intercalate switch.names ++ ": " ++ message

end Switch

namespace Grammar

def find? (grammar : Grammar) (name : String) : Option Switch :=
  grammar.switches.find? fun switch => switch.names.contains name

def names (grammar : Grammar) : List (String × Switch) :=
  grammar.switches.flatMap fun switch => switch.names.map fun name => (name, switch)

def splitEquals (text : String) : String × Option String :=
  let chars := text.toList
  if chars.contains '=' then
    (String.ofList (chars.takeWhile (· ≠ '=')),
      some (String.ofList ((chars.dropWhile (· ≠ '=')).drop 1)))
  else (text, none)

/-- The switches that an argument may stand for, by the beginning of a long name or by a short
name with text behind it. -/
def candidates (grammar : Grammar) (argument : String) : List Candidate :=
  match argument.toList with
  | '-' :: '-' :: _ =>
    let (start, value) := splitEquals argument
    grammar.names.filterMap fun (name, switch) =>
      if start.toList.isPrefixOf name.toList then
        some ⟨some switch, name, value⟩
      else none
  | '-' :: c :: rest =>
    grammar.names.filterMap fun (name, switch) =>
      if name.toList = ['-', c] then some ⟨some switch, name, some (String.ofList rest)⟩
      else none
  | _ => []

/-- Whether an argument reads as a negative number; a line break may end it. -/
def isNegativeNumber (argument : String) : Bool :=
  let isDigit (c : Char) : Bool := (Text.decimalDigit? c).isSome
  let chars := argument.toList
  match if chars.getLast? = some '\n' then chars.dropLast else chars with
  | '-' :: rest =>
    match rest.dropWhile isDigit with
    | [] => !rest.isEmpty
    | '.' :: places => !places.isEmpty && places.all isDigit
    | _ => false
  | _ => false

/-- What an argument looks like, or that it might be one of several switches. -/
def look (grammar : Grammar) (argument : String) : Except String Look :=
  match argument.toList with
  | '-' :: _ :: _ =>
    match grammar.find? argument with
    | some switch => .ok (.switch ⟨some switch, argument, none⟩)
    | none =>
      let (name, value) := splitEquals argument
      match value, grammar.find? name with
      | some value, some switch => .ok (.switch ⟨some switch, name, some value⟩)
      | _, _ =>
        match grammar.candidates argument with
        | [candidate] => .ok (.switch candidate)
        | [] =>
          if isNegativeNumber argument || argument.toList.contains ' ' then .ok .operand
          else .ok (.switch ⟨none, argument, none⟩)
        | several =>
          .error ("ambiguous option: " ++ argument ++ " could match "
            ++ ", ".intercalate (several.map (·.shown)))
  | _ => .ok .operand

def looks (grammar : Grammar) : List String → Except String (List (String × Look))
  | [] => .ok []
  | "--" :: rest => .ok (("--", .separator) :: rest.map fun argument => (argument, .operand))
  | argument :: rest => do
    let look ← grammar.look argument
    return (argument, look) :: (← grammar.looks rest)

structure Taken where
  actions : List Action
  /-- Whether the argument behind it was taken as the value. -/
  next : Bool

/-- The arguments of an action: the first separator among them is dropped. -/
def kept (arguments : List String) : List String := arguments.erase "--"

/-- Takes a switch, and the short switches that may be run together with it. `value?` is the
argument behind it, if that may be its value. -/
def take (grammar : Grammar) (value? : Option String) :
    Nat → List Action → Switch → String → Option String → Except String Taken
  | 0, actions, _, _, _ => .ok ⟨actions, false⟩
  | steps + 1, actions, switch, shown, attached =>
    match attached with
    | none =>
      if switch.takesValue then
        match value? with
        | some value => .ok ⟨actions ++ [.switch switch (kept [value])], true⟩
        | none => .error (switch.mistake "expected one argument")
      else .ok ⟨actions ++ [.switch switch []], false⟩
    | some text =>
      if switch.takesValue then .ok ⟨actions ++ [.switch switch (kept [text])], false⟩
      else
        let ignored := switch.mistake ("ignored explicit argument " ++ Text.quoted text)
        match text.toList with
        | [] => .error ignored
        | c :: rest =>
          if shown.toList[1]? = some '-' then .error ignored
          else
            let name := String.ofList ['-', c]
            match grammar.find? name with
            | none => .error ignored
            | some next =>
              let attached := if rest.isEmpty then none else some (String.ofList rest)
              grammar.take value? steps (actions ++ [.switch switch []]) next name attached

/-- How many of the leading arguments an operand takes. -/
def Operand.count? (operand : Operand) (items : List (String × Look)) : Option Nat :=
  let isSeparator (item : String × Look) : Bool :=
    match item.2 with
    | .separator => true
    | _ => false
  let before := (items.takeWhile isSeparator).length
  match items.drop before with
  | (_, .operand) :: rest =>
    match operand with
    | .one => some (before + 1 + (rest.takeWhile isSeparator).length)
    | .command => some items.length
  | _ => none

/-- Gives operands their arguments, as far as they go: the actions, the arguments left and the
operands left. -/
def fill : List Operand → List (String × Look) →
    List Action × List (String × Look) × List Operand
  | [], items => ([], items, [])
  | operand :: operands, items =>
    match Operand.count? operand items with
    | none => ([], items, operand :: operands)
    | some count =>
      let texts := (items.take count).map Prod.fst
      let texts :=
        match operand with
        | .one => kept texts
        | .command => texts
      let (actions, left, operands) := fill operands (items.drop count)
      (.operand texts :: actions, left, operands)

/-- Reads arguments: operands up to the next switch, then the switch. -/
def readItems (grammar : Grammar) :
    Nat → List Operand → List (String × Look) → List Action → List String → Reading
  | 0, _, _, actions, extras => ⟨actions, .ok extras⟩
  | steps + 1, operands, items, actions, extras =>
    let isSwitch (item : String × Look) : Bool :=
      match item.2 with
      | .switch _ => true
      | _ => false
    if !items.any isSwitch then
      let (filled, left, _) := fill operands items
      ⟨actions ++ filled, .ok (extras ++ left.map Prod.fst)⟩
    else
      let before := items.takeWhile fun item => !isSwitch item
      let (filled, left, later) := if before.isEmpty then ([], items, operands) else fill operands items
      if left.length < items.length then
        readItems grammar steps later left (actions ++ filled) extras
      else
        let extras := extras ++ before.map Prod.fst
        match items.drop before.length with
        | (argument, .switch candidate) :: rest =>
          match candidate.switch with
          | none => readItems grammar steps operands rest actions (extras ++ [argument])
          | some switch =>
            let value? :=
              match rest with
              | (value, .operand) :: _ => some value
              | _ => none
            match grammar.take value? (argument.length + 1) [] switch candidate.shown
                candidate.attached with
            | .error mistake => ⟨actions, .error mistake⟩
            | .ok taken =>
              readItems grammar steps operands (if taken.next then rest.drop 1 else rest)
                (actions ++ taken.actions) extras
        | _ => ⟨actions, .ok extras⟩

def read (grammar : Grammar) (arguments : List String) : Reading :=
  match grammar.looks arguments with
  | .error mistake => ⟨[], .error mistake⟩
  | .ok items => grammar.readItems (items.length + 1) grammar.operands items [] []

end Grammar

end Schemata.CommandLine
