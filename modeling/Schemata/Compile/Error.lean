import Schemata.Entry
import Schemata.TypeSpec.Reader

/-!
What is compiled, and why compiling can fail.
-/

namespace Schemata

/-- What may be given as a type reference: a reference in writing, or a type itself. -/
inductive Referent where
  | written (value : Value)
  | entry (entry : Entry)

def Referent.literal : Referent → String
  | .written value => value.literal
  | .entry (.checked definition) => definition.literal
  | .entry (.handwritten _) => Entry.shapeLiteral

/-- Whether what was given can be quoted: no number in it has too many digits. -/
def Referent.isQuotable : Referent → Bool
  | .written value => value.isWritable
  | .entry (.checked definition) => definition.toValue.isWritable
  | .entry (.handwritten _) => true

inductive CompileError where
  /-- A reference does not follow the grammar, or may not stand where it does. -/
  | invalidReference (given : Referent) (fault : ReferenceFault)
  /-- A name is neither a primitive nor in the catalog. -/
  | unknownType (name : String)
  /-- A hand-written object has the attributes of no kind. -/
  | unknownKind (label : String)
  /-- A type contains itself where it has to be written out. The chain ends with the name that
  comes up again. -/
  | unterminatedRecursion (chain : List Name)
  /-- An attribute of a hand-written object, or a part of a fragment, cannot be used. -/
  | unusable (fault : Fault)

namespace CompileError

def message : CompileError → String
  | .invalidReference given fault =>
    "Invalid type reference " ++ given.literal ++ ": " ++ fault.message
  | .unknownType name =>
    "Unknown type '" ++ name ++ "': not a registered primitive or type definition"
  | .unknownKind label => "Cannot determine the kind of type '" ++ label ++ "'"
  | .unterminatedRecursion chain =>
    "Recursive type " ++ " -> ".intercalate (chain.map fun name => "'" ++ name.shown ++ "'")
      ++ " can only be compiled with REF_SCHEMA enabled"
  | .unusable _ => ""

def isSayable : CompileError → Bool
  | .invalidReference given _ => given.isQuotable
  | _ => true

/-- One of the errors that a compilation is documented to raise. An invalid reference is raised together with its
message, so not if that cannot be written. -/
def IsReported : CompileError → Prop
  | .invalidReference given _ => given.isQuotable = true
  | .unknownType _ | .unknownKind _ | .unterminatedRecursion _ => True
  | .unusable _ => False

def ofMisreading (misreading : Misreading) : CompileError :=
  match misreading.fault with
  | .endless => .unusable .endless
  | fault => .invalidReference (.written misreading.given) fault

end CompileError

end Schemata
