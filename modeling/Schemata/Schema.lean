import Schemata.Definition.Shape

/-!
Schemas: ordered keywords. A keyword holds plain data taken over as it was given, or schemas that
the compiler built, so that a reference set by the compiler is never confused with data that
happens to look like one. What stands for a schema may also be data that is no object, in which no
keyword can be set. `nullable?` widens a schema so that it also admits null.
-/

namespace Schemata

/-- What a keyword holds. -/
inductive Part (σ : Type) where
  /-- Data as it was given. -/
  | data (value : Value)
  /-- A reference to a schema of the table: the base of the dialect, then the name. -/
  | reference (base name : String)
  | schema (schema : σ)
  | schemas (items : List σ)
  | members (items : List (String × σ))

inductive Schema where
  | keywords (parts : List (String × Part Schema))
  /-- Data that is no object with texts for keys. -/
  | data (value : Value)

mutual

def Schema.toValue : Schema → Value
  | .keywords parts => .map (Schema.entries parts)
  | .data value => value

def Schema.partValue : Part Schema → Value
  | .data value => value
  | .reference base name => .text (base ++ name)
  | .schema schema => schema.toValue
  | .schemas items => .list (Schema.values items)
  | .members items => .map (Schema.memberEntries items)

def Schema.entries : List (String × Part Schema) → List (Value × Value)
  | [] => []
  | (name, part) :: rest => (.text name, Schema.partValue part) :: Schema.entries rest

def Schema.values : List Schema → List Value
  | [] => []
  | schema :: rest => schema.toValue :: Schema.values rest

def Schema.memberEntries : List (String × Schema) → List (Value × Value)
  | [] => []
  | (name, schema) :: rest => (.text name, schema.toValue) :: Schema.memberEntries rest

end

namespace Schema

abbrev Parts := Record (Part Schema)

def dataParts (record : Record Value) : Parts :=
  record.map fun (name, value) => (name, .data value)

/-- A schema taken over as it was given. -/
def ofRecord (record : Record Value) : Schema := .keywords (dataParts record)

/-- Data taken for a schema. -/
def ofValue (value : Value) : Schema :=
  match value with
  | .map entries =>
    match Value.record? entries with
    | some record => ofRecord record
    | none => .data value
  | value => .data value

/-- A reference to the table. -/
def reference (base name : String) : Schema := .keywords [("$ref", .reference base name)]

def null : Schema := .keywords [("type", .data (.text "null"))]

def object : Schema := .keywords [("type", .data (.text "object"))]

def array (items : Schema) : Schema :=
  .keywords [("type", .data (.text "array")), ("items", .schema items)]

def choice (values : Value) : Schema :=
  .keywords [("type", .data (.text "string")), ("enum", .data values)]

def oneOf (alternatives : List Schema) : Schema := .keywords [("oneOf", .schemas alternatives)]

/-- Sets a keyword, which only an object has. -/
def set (name : String) (part : Part Schema) : Schema → Except Fault Schema
  | .keywords parts => .ok (.keywords (Record.set parts name part))
  | .data _ => .error .unsuitable

/-- Sets a keyword to data, if there is any. -/
def annotate (name : String) (value : Option Value) (schema : Schema) : Except Fault Schema :=
  match value with
  | some value => schema.set name (.data value)
  | none => .ok schema

def type? (parts : Parts) : Option Value :=
  match Record.find? parts "type" with
  | some (.data .null) => none
  | some (.data value) => some value
  | _ => none

/-- Adds null to the alternatives of a schema. Alternatives that are data are gone through
whatever they are. -/
def addNull : Part Schema → Except Fault (Part Schema)
  | .schemas alternatives => .ok (.schemas (alternatives ++ [null]))
  | part =>
    match (partValue part).members? with
    | some items => .ok (.data (.list (items ++ [null.toValue])))
    | none => .error .unsuitable

/-- Null beside a type. A list of types takes it once. -/
def typeWithNull (type : Value) : Value :=
  match type.items? with
  | some types =>
    if types.any (·.isText "null") then type else .list (types ++ [.text "null"])
  | none => .list [type, .text "null"]

/-- Whether a text occurs in another. -/
def occursIn (part : List Char) : List Char → Bool
  | [] => part.isEmpty
  | c :: rest => part.isPrefixOf (c :: rest) || occursIn part rest

/-- What goes wrong when data that is no object is to admit null. Members of a list or parts of a
text that read like keywords are taken for them at first. -/
def refusal (value : Value) : Fault :=
  let untyped (has : String → Bool) : Fault :=
    if has "oneOf" && !has "type" then .unsuitable else .missing "get"
  match value with
  | .list items => untyped fun name => items.any (·.isText name)
  | .text text => untyped fun name => occursIn name.toList text.toList
  | _ => .unsuitable

/-- Widens a schema to admit null. Untyped alternatives take null as one more. A typed schema
takes a flag if the dialect has one, and otherwise a second type. Any other schema cannot carry
the mark itself and is wrapped. -/
def nullable? (flagged : Bool) : Schema → Except Fault Schema
  | .data value => .error (refusal value)
  | .keywords parts =>
    match Record.find? parts "oneOf", Record.has parts "type" with
    | some alternatives, false =>
      (addNull alternatives).map fun part => .keywords (Record.set parts "oneOf" part)
    | _, _ =>
      match type? parts with
      | none =>
        .ok <|
          if flagged then
            .keywords [("allOf", .schemas [.keywords parts]), ("nullable", .data (.bool true))]
          else oneOf [.keywords parts, null]
      | some type =>
        .ok <| .keywords <|
          if flagged then Record.set parts "nullable" (.data (.bool true))
          else Record.set parts "type" (.data (typeWithNull type))

end Schema

end Schemata
