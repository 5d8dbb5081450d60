import Schemata.Yaml.Graph

/-!
Merge keys: the value of one is a mapping, or a list of mappings, whose entries are taken over before
the own ones of the mapping that has the key. The mappings that are taken over are merged themselves
first. Merging changes the table of nodes, since others may mention the same mappings.
-/

namespace Schemata.Yaml.Graph

def tag? (graph : Graph) (place : Nat) : Option Tag := (graph.get? place).map Node.tag

def entries? (graph : Graph) (place : Nat) : Option (List (Nat × Nat)) :=
  match graph.get? place with
  | some ⟨_, .mapping entries⟩ => some entries
  | _ => none

def setEntries (graph : Graph) (place : Nat) (entries : List (Nat × Nat)) : Graph :=
  match graph.tag? place with
  | some tag => graph.set place ⟨tag, .mapping entries⟩
  | none => graph

def entryCount (graph : Graph) : Nat :=
  graph.nodes.foldl (fun count node =>
    match node.content with
    | .mapping entries => count + entries.length
    | _ => count) 0

/-- The value of the first merge key, and the other entries. -/
def takeMerge? (graph : Graph) : List (Nat × Nat) → Option (Nat × List (Nat × Nat))
  | [] => none
  | (key, value) :: rest =>
    if graph.tag? key = some .merge then some (value, rest)
    else (graph.takeMerge? rest).map fun (merged, rest) => (merged, (key, value) :: rest)

/-- As a key of a merged mapping, the mark of a default value is a text. -/
def settleKey (graph : Graph) (key : Nat) : Graph :=
  match graph.get? key with
  | some ⟨.default, content⟩ => graph.set key ⟨.str, content⟩
  | _ => graph

/-- The entries that the value of a merge key stands for. Of a list, those of later mappings come
first. -/
def inherit (merge : Graph → Nat → Except Trouble Graph) (graph : Graph) (place : Nat) :
    Except Trouble (List (Nat × Nat) × Graph) :=
  match graph.get? place with
  | some ⟨_, .mapping _⟩ => do
    let graph ← merge graph place
    return ((graph.entries? place).getD [], graph)
  | some ⟨_, .sequence items⟩ =>
    items.foldlM (fun (gathered, graph) item => do
      let graph ← merge graph item
      return ((graph.entries? item).getD [] ++ gathered, graph)) ([], graph)
  | _ => .error .malformed

/-- Merges a mapping. Each step takes one merge key away, and none is ever added. -/
def mergeWithin : Nat → Graph → Nat → Except Trouble Graph
  | 0, _, _ => .error .endless
  | steps + 1, graph, place =>
    match graph.entries? place with
    | none => .error .malformed
    | some entries =>
      match graph.takeMerge? entries with
      | none => .ok (entries.foldl (fun graph (key, _) => graph.settleKey key) graph)
      | some (merged, rest) => do
        let (inherited, graph) ← inherit (mergeWithin steps) (graph.setEntries place rest) merged
        let graph ← mergeWithin steps graph place
        return graph.setEntries place (inherited ++ (graph.entries? place).getD [])

/-- Merges a mapping: afterwards it has no merge key. -/
def merge (graph : Graph) (place : Nat) : Except Trouble Graph :=
  mergeWithin (graph.entryCount + 1) graph place

/-- The text of a scalar. A mapping has the text of its default value. -/
def textWithin (graph : Graph) : Nat → Nat → Except Trouble String
  | 0, _ => .error .endless
  | steps + 1, place =>
    match graph.get? place with
    | some ⟨_, .scalar text⟩ => .ok text
    | some ⟨_, .mapping entries⟩ =>
      match entries.find? fun (key, _) => graph.tag? key = some .default with
      | some (_, value) => graph.textWithin steps value
      | none => .error .malformed
    | _ => .error .malformed

/-- The text of a scalar; looking for it passes no node twice. -/
def text (graph : Graph) (place : Nat) : Except Trouble String :=
  graph.textWithin (graph.size + 1) place

end Schemata.Yaml.Graph
