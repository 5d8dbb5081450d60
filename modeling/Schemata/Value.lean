import Schemata.Calendar
import Schemata.Record
import Schemata.Number.Double
import Schemata.Text.CodePoint
import Schemata.Text.Numeral

/-!
Plain data: what definition documents hold, what schema fragments and examples are made of, and
what type references are written in. Mappings keep the order of their keys, and a key may be any
scalar. A collection may hold itself: a `knot` is a collection with a mark, and inside it the mark
stands for the whole collection again.
-/

namespace Schemata

inductive Value where
  | null
  | bool (value : Bool)
  | int (value : Int)
  | float (value : Double)
  | text (value : String)
  | date (value : Date)
  | moment (value : Moment)
  | bytes (value : List UInt8)
  | list (items : List Value)
  | map (entries : List (Value × Value))
  | set (members : List Value)
  | pair (first second : Value)
  /-- A collection that some of its parts hold again. -/
  | knot (mark : Nat) (collection : Value)
  /-- The collection of the knot around this place that has the mark: a mapping or a list. -/
  | again (mark : Nat) (isMapping : Bool)
  deriving Inhabited

namespace Value

mutual

/-- Puts a value in all places that hold the collection of a mark again. -/
def replace (mark : Nat) (whole : Value) : Value → Value
  | .again other isMapping => if other = mark then whole else .again other isMapping
  | .knot other collection =>
    if other = mark then .knot other collection else .knot other (replace mark whole collection)
  | .list items => .list (replaceItems mark whole items)
  | .map entries => .map (replaceEntries mark whole entries)
  | .pair first second => .pair (replace mark whole first) (replace mark whole second)
  | value => value

def replaceItems (mark : Nat) (whole : Value) : List Value → List Value
  | [] => []
  | item :: rest => replace mark whole item :: replaceItems mark whole rest

/-- Keys are no collections. -/
def replaceEntries (mark : Nat) (whole : Value) : List (Value × Value) → List (Value × Value)
  | [] => []
  | (key, value) :: rest => (key, replace mark whole value) :: replaceEntries mark whole rest

end

/-- The same data with its outermost collection in the open. -/
def untied : Value → Value
  | .knot mark collection => replace mark (.knot mark collection) collection
  | value => value

def items? (value : Value) : Option (List Value) :=
  match value.untied with
  | .list items => some items
  | _ => none

def entries? (value : Value) : Option (List (Value × Value)) :=
  match value.untied with
  | .map entries => some entries
  | _ => none

mutual

/-- Whether no collection in the data holds itself. -/
def isFinite : Value → Bool
  | .knot .. => false
  | .again .. => false
  | .list items => areFinite items
  | .map entries => entriesAreFinite entries
  | .pair first second => isFinite first && isFinite second
  | _ => true

def areFinite : List Value → Bool
  | [] => true
  | item :: rest => isFinite item && areFinite rest

def entriesAreFinite : List (Value × Value) → Bool
  | [] => true
  | (_, value) :: rest => isFinite value && entriesAreFinite rest

end

mutual

def isWritable : Value → Bool
  | .int value => Text.isWritable value
  | .list items => areWritable items
  | .map entries => entriesAreWritable entries
  | .set members => areWritable members
  | .pair first second => isWritable first && isWritable second
  | .knot _ collection => isWritable collection
  | _ => true

def areWritable : List Value → Bool
  | [] => true
  | item :: rest => isWritable item && areWritable rest

def entriesAreWritable : List (Value × Value) → Bool
  | [] => true
  | (key, value) :: rest => isWritable key && isWritable value && entriesAreWritable rest

end

/-- A number that is equal to an integer counts as that integer, as do the truth values. -/
def keyForm : Value → Value
  | .bool value => .int (if value then 1 else 0)
  | .float value =>
    match value.toInt? with
    | some n => .int n
    | none => .float value
  | value => value

/-- Whether two values are one key of a mapping. Collections are no keys. -/
def sameKey (a b : Value) : Bool :=
  match a.keyForm, b.keyForm with
  | .null, .null => true
  | .int m, .int n => m = n
  | .float x, .float y => x = y
  | .text s, .text t => s = t
  | .date d, .date e => d = e
  | .moment m, .moment n => m.same n
  | .bytes a, .bytes b => a = b
  | _, _ => false

def isKey : Value → Bool
  | .list _ | .map _ | .set _ | .knot .. | .again .. => false
  | _ => true

def isText (name : String) : Value → Bool
  | .text value => value = name
  | _ => false

/-- A mapping whose keys are texts. -/
def record (entries : Record Value) : Value :=
  .map (entries.map fun (name, value) => (.text name, value))

/-- The entries of a mapping whose keys are all texts. -/
def record? : List (Value × Value) → Option (Record Value)
  | [] => some []
  | (.text name, value) :: rest => (record? rest).map ((name, value) :: ·)
  | _ => none

def ofOption (wrap : α → Value) : Option α → Value
  | none => .null
  | some value => wrap value

def texts (values : List String) : Value := .list (values.map .text)

/-- Replaces the value of a key in its place, or appends the key. -/
def put : List (Value × α) → Value → α → List (Value × α)
  | [], key, value => [(key, value)]
  | (old, kept) :: rest, key, value =>
    if old.sameKey key then (old, value) :: rest else (old, kept) :: put rest key value

/-- Entries given one after another, later ones of a key replacing earlier ones. -/
def ofEntries (entries : List (Value × α)) : List (Value × α) :=
  entries.foldl (fun built (key, value) => put built key value) []

def find? : List (Value × Value) → String → Option Value
  | [], _ => none
  | (key, value) :: rest, name => if key.isText name then some value else find? rest name

def without (entries : List (Value × Value)) (name : String) : List (Value × Value) :=
  entries.filter fun (key, _) => !key.isText name

/-- Whether a value counts as given: zero, the empty text and empty collections do not. -/
def isGiven : Value → Bool
  | .null => false
  | .bool value => value
  | .int value => value ≠ 0
  | .float value => value ≠ .zero false && value ≠ .zero true
  | .text value => value ≠ ""
  | .bytes value => !value.isEmpty
  | .list items => !items.isEmpty
  | .map entries => !entries.isEmpty
  | .set members => !members.isEmpty
  | _ => true

/-- The members of a value that can be gone through: the items of a collection, the keys of a
mapping, the code points of a text, the numbers of bytes. -/
def members? (value : Value) : Option (List Value) :=
  match value.untied with
  | .text value =>
    some ((Text.codePoints value).map fun point => .text (Text.ofCodePoints [point]))
  | .bytes value => some (value.map fun byte => .int byte.toNat)
  | .list items => some items
  | .map entries => some (entries.map Prod.fst)
  | .set members => some members
  | .pair first second => some [first, second]
  | _ => none

end Value

end Schemata
