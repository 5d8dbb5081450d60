import Schemata.Value.Literal

/-!
Names of types. Checked definitions have texts for names. A hand-written object may have any other
value, which is never the same name as a text that reads alike.
-/

namespace Schemata

inductive Name where
  | text (text : String)
  /-- A value that is no text: what tells it apart from others, and how messages show it. -/
  | other (key shown : String)
  deriving DecidableEq, Inhabited

namespace Name

/-- Values that are one key of a mapping have one text here. -/
def keyText (value : Value) : String :=
  match value.keyForm with
  | .moment moment =>
    match moment.instant? with
    | some instant => "instant " ++ toString instant
    | none => Value.literal (.moment moment)
  | value => value.literal

def ofValue : Value → Name
  | .text written => .text written
  | value => .other (keyText value) value.display

def shown : Name → String
  | .text written => written
  | .other _ shown => shown

/-- Whether two names are one key of a mapping. -/
def same : Name → Name → Bool
  | .text a, .text b => a = b
  | .other a _, .other b _ => a = b
  | _, _ => false

end Name

end Schemata
