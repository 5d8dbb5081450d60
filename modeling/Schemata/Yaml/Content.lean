import Schemata.Yaml.Layer

/-!
The data of a document: its layers put together. A collection that is met again inside itself makes a
knot, and so do all collections on the way.
-/

namespace Schemata.Yaml

/-- Puts layers together. The state keeps the collections that hold nothing around them again, so that
each of those is put together once. -/
abbrev Assemble := StateM (Array (Option Value))

namespace Assemble

/-- A value, and the places of collections around it that it holds again. -/
abbrev Held := Value × List Nat

/-- The values of some parts, and the places that any of them holds again. -/
def gather (held : List Held) : List Value × List Nat :=
  (held.map Prod.fst, (held.flatMap Prod.snd).eraseDups)

/-- The value of a layer, its parts put together by a function. -/
def layer (part : Part → Assemble Held) : Layer → Assemble Held
  | .list items => do
    let (values, again) := gather (← items.mapM part)
    return (.list values, again)
  | .map entries => do
    let (values, again) := gather (← entries.mapM fun (_, value) => part value)
    return (.map ((entries.map Prod.fst).zip values), again)
  | .set members => return (.set members, [])
  | .pairs items => do
    let held ← items.mapM fun (first, second) => do
      let (first, again) ← part first
      let (second, more) ← part second
      return (Value.pair first second, again ++ more)
    let (values, again) := gather held
    return (.list values, again)

/-- The value of a part inside the collections of some places. -/
def part (layers : Array (Option Layer)) : Nat → List Nat → Part → Assemble Held
  | 0, _, _ => return (.null, [])
  | _ + 1, _, .whole value => return (value, [])
  | steps + 1, around, .collection place => do
    let made := ((layers[place]?).join).getD (.list [])
    if around.contains place then return (.again place made.isMapping, [place])
    if let some value := ((← get)[place]?).join then return (value, [])
    let (value, again) ← layer (part layers steps (place :: around)) made
    let value := if again.isEmpty then value else .knot place value
    let outer := again.filter (· ≠ place)
    if outer.isEmpty then modify fun known => known.setIfInBounds place (some value)
    return (value, outer)

/-- The value of the root. No way down is longer than there are layers. -/
def root (layers : Array (Option Layer)) (part : Part) : Value :=
  ((Assemble.part layers (layers.size + 2) [] part).run (Array.replicate layers.size none)).1.1

end Assemble

/-- The data that a node denotes. -/
def Graph.toValue (graph : Graph) (root : Nat) : Except Trouble Value := do
  let (part, builder) ← (Build.whole root).run (.start graph)
  return Assemble.root builder.layers part

/-- The data of a document; an empty one is null. A text with code points that are no characters is
no document. -/
def read (text : String) : Except Trouble Value :=
  match Text.chars? text with
  | none => .error .malformed
  | some chars => do
    match ← Graph.ofText chars with
    | (_, none) => return .null
    | (graph, some root) => graph.toValue root

end Schemata.Yaml
