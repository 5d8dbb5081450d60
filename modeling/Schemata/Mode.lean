import Schemata.Value.Literal

/-!
Compile modes: sets of bits that choose the dialect and its options. Bits without a meaning are
kept, so that a mode answers with the number it was given.
-/

namespace Schemata

structure Mode where
  bits : Nat
  deriving DecidableEq

inductive ModeError where
  | exclusive
  | notMode (value : Value)

def ModeError.message : ModeError → String
  | .exclusive => "JSON_SCHEMA and OPEN_API modes are mutually exclusive"
  | .notMode value => value.literal ++ " is not a valid CompilerMode"

namespace Mode

def jsonSchema : Mode := ⟨1⟩

def openApi : Mode := ⟨2⟩

def refSchema : Mode := ⟨4⟩

def openApi31 : Mode := ⟨8⟩

def width : Nat := 4

def union (a b : Mode) : Mode := ⟨a.bits ||| b.bits⟩

def isJsonSchema (mode : Mode) : Bool := mode.bits.testBit 0

def isOpenApi (mode : Mode) : Bool := mode.bits.testBit 1

/-- Named types are hoisted into a table and referred to. -/
def isHoisting (mode : Mode) : Bool := mode.bits.testBit 2

def isOpenApi31 (mode : Mode) : Bool := mode.bits.testBit 3

/-- OpenAPI before 3.1 marks nullable schemas with a flag. -/
def isFlagged (mode : Mode) : Bool := mode.isOpenApi && !mode.isOpenApi31

/-- JSON Schema and OpenAPI exclude each other. -/
def isValid (mode : Mode) : Bool := !(mode.isJsonSchema && mode.isOpenApi)

def bitLength (n : Nat) : Nat := if n = 0 then 0 else n.log2 + 1

/-- A negative number is a complement: within the bits with a meaning if these can hold it, and
else within the least power of two that holds it. -/
def ofInt (n : Int) : Mode :=
  if 0 ≤ n then ⟨n.toNat⟩
  else if -(Int.pow 2 width) ≤ n then ⟨(Int.pow 2 width + n).toNat⟩
  else ⟨(Int.pow 2 (bitLength n.natAbs) + n).toNat⟩

/-- The mode that a value denotes. A float denotes one only if it is a single bit with a meaning. -/
def read? : Value → Option Mode
  | .int n => some (ofInt n)
  | .bool value => some (if value then jsonSchema else ⟨0⟩)
  | .float value =>
    match value.toInt? with
    | some n => if n = 1 ∨ n = 2 ∨ n = 4 ∨ n = 8 then some (ofInt n) else none
    | none => none
  | _ => none

/-- A mode must denote bits, and not those of two dialects. -/
def ofValue (value : Value) : Except ModeError Mode :=
  match read? value with
  | none => .error (.notMode value)
  | some mode => if mode.isValid then .ok mode else .error .exclusive

end Mode

end Schemata
