import Schemata.Yaml.Meaning
import Schemata.Yaml.Merge

/-!
The data of nodes, one layer deep: a scalar is a value, and a collection holds values and the places
of other collections. Layers are made from the root on, those nearer to the root first, so that of
several parts of a document that denote nothing the one nearest to the root is at fault.
-/

namespace Schemata.Yaml

/-- What a node denotes: a value, or a collection that is known by its place. -/
inductive Part where
  | whole (value : Value)
  | collection (place : Nat)

inductive Layer where
  | list (items : List Part)
  | map (entries : List (Value × Part))
  | set (members : List Value)
  | pairs (items : List (Part × Part))

def Layer.isMapping : Layer → Bool
  | .map _ => true
  | _ => false

/-- What is known while layers are made: the nodes, what those met so far denote, the layers, and the
collections that were met but have no layer yet, the last one first. -/
structure Builder where
  graph : Graph
  parts : Array (Option Part)
  layers : Array (Option Layer)
  waiting : List Nat

namespace Builder

/-- Nothing is known of the nodes of a graph. -/
def start (graph : Graph) : Builder :=
  ⟨graph, Array.replicate graph.size none, Array.replicate graph.size none, []⟩

end Builder

abbrev Build := StateT Builder (Except Trouble)

namespace Build

/-- The data of a scalar. A mapping under the tag of a scalar stands for its default value, except
that no moment can be written so. -/
def scalar (place : Nat) (node : Node) : Build Value := do
  let text ← (← get).graph.text place
  match node.tag, node.content with
  | .timestamp, .mapping _ => throw .notText
  | tag, _ =>
    match scalarOf? place tag text with
    | some value => value
    | none => throw .malformed

/-- What a node denotes, which is found out once. -/
def part (place : Nat) : Build Part := do
  let builder ← get
  if let some part := (builder.parts[place]?).join then return part
  let some node := builder.graph.get? place | throw .malformed
  let part ←
    match node.tag with
    | .seq | .map | .set | .omap | .pairs => do
      modify fun builder => { builder with waiting := place :: builder.waiting }
      pure (Part.collection place)
    | .merge | .default | .other _ => throw .malformed
    | _ => Part.whole <$> scalar place node
  modify fun builder => { builder with parts := builder.parts.setIfInBounds place (some part) }
  return part

def items (place : Nat) : Build (List Nat) := do
  match (← get).graph.get? place with
  | some ⟨_, .sequence items⟩ => return items
  | _ => throw .malformed

/-- The entries of a mapping when it is merged; a collection is no key. -/
def entries (place : Nat) : Build (List (Value × Part)) := do
  let builder ← get
  let graph ← builder.graph.merge place
  set { builder with graph }
  ((graph.entries? place).getD []).foldlM (fun built (key, value) => do
    match ← part key with
    | .collection _ => throw .malformed
    | .whole key => return Value.put built key (← part value)) []

def pair (place : Nat) : Build (Part × Part) := do
  match (← get).graph.entries? place with
  | some [(key, value)] =>
    let key ← part key
    return (key, ← part value)
  | _ => throw .malformed

def layer (place : Nat) : Build Layer := do
  match (← get).graph.tag? place with
  | some .seq => return .list (← (← items place).mapM part)
  | some .map => return .map (← entries place)
  | some .set => return .set ((← entries place).map Prod.fst)
  | _ => return .pairs (← (← items place).mapM pair)

def fill (place : Nat) : Build Unit := do
  let layer ← layer place
  modify fun builder =>
    { builder with layers := builder.layers.setIfInBounds place (some layer) }

/-- Makes the layers of all waiting collections, and then of those that were met meanwhile. -/
def fillAll : Nat → Build Unit
  | 0 => pure ()
  | steps + 1 => do
    let places := (← get).waiting.reverse
    if places.isEmpty then return
    modify fun builder => { builder with waiting := [] }
    places.forM fill
    fillAll steps

/-- What a node denotes, with all layers below it. -/
def whole (root : Nat) : Build Part := do
  let part ← part root
  fillAll ((← get).graph.size + 1)
  return part

end Build

end Schemata.Yaml
