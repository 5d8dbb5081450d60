import Schemata.Yaml.Token
import Schemata.Yaml.Tag

/-!
The nodes of a YAML document: scalars, sequences and mappings with their tags. They stand in a table,
and a collection holds the places of its parts, so that an alias is one more mention of a place. A
collection may mention itself.
-/

namespace Schemata.Yaml

inductive Content where
  | scalar (text : String)
  | sequence (items : List Nat)
  | mapping (entries : List (Nat × Nat))
  deriving Inhabited

structure Node where
  tag : Tag
  content : Content
  deriving Inhabited

structure Graph where
  nodes : Array Node

namespace Graph

def empty : Graph := ⟨#[]⟩

def size (graph : Graph) : Nat := graph.nodes.size

def get? (graph : Graph) (place : Nat) : Option Node := graph.nodes[place]?

/-- Appends a node; its place is the size before. -/
def push (graph : Graph) (node : Node) : Graph := ⟨graph.nodes.push node⟩

def set (graph : Graph) (place : Nat) (node : Node) : Graph :=
  ⟨graph.nodes.setIfInBounds place node⟩

end Graph

/-- What is known while nodes are read: the tokens to come, the anchors met, the handles of tags,
and the nodes so far. -/
structure Composer where
  tokens : Tokens
  anchors : List (String × Nat)
  handles : List (String × String)
  graph : Graph

abbrev Compose := StateT Composer (Except Trouble)

namespace Compose

/-- The next token, which stays; nothing at the end of the text. -/
def peek : Compose (Option Token) := do
  let tokens := (← get).tokens
  match tokens.ready, tokens.trouble with
  | token :: _, _ => return some token
  | [], none => return none
  | [], some trouble => throw trouble

def skip : Compose Unit :=
  modify fun composer =>
    { composer with tokens := { composer.tokens with ready := composer.tokens.ready.tail } }

/-- Whether the next token passes a test; the end of the text passes none. -/
def sees (test : Token → Bool) : Compose Bool := return ((← peek).map test).getD false

/-- Passes the next token if it passes the test. -/
def takes (test : Token → Bool) : Compose Bool := do
  if ← sees test then
    skip
    return true
  else return false

def demand (test : Token → Bool) : Compose Unit := do
  if !(← takes test) then throw .malformed

def isBlockEntry : Token → Bool | .blockEntry => true | _ => false

def isBlockEnd : Token → Bool | .blockEnd => true | _ => false

def isKey : Token → Bool | .key => true | _ => false

def isValue : Token → Bool | .value => true | _ => false

def isFlowEntry : Token → Bool | .flowEntry => true | _ => false

def isSequenceEnd : Token → Bool | .flowSequenceEnd => true | _ => false

def isMappingEnd : Token → Bool | .flowMappingEnd => true | _ => false

def takeAnchor : Compose (Option String) := do
  match ← peek with
  | some (.anchor name) =>
    skip
    return some name
  | _ => return none

def takeTag : Compose (Option TagName) := do
  match ← peek with
  | some (.tag name) =>
    skip
    return some name
  | _ => return none

/-- The tag that is written, its handle replaced by what it stands for. -/
def fullTag (name : TagName) : Compose String := do
  match name.handle with
  | none => return name.suffix
  | some handle =>
    match (← get).handles.lookup handle with
    | some start => return start ++ name.suffix
    | none => throw .malformed

def takeProperties : Compose (Option String × Option String) := do
  match ← takeAnchor with
  | some anchor => return (some anchor, ← (← takeTag).mapM fullTag)
  | none =>
    match ← takeTag with
    | some name =>
      let anchor ← takeAnchor
      return (anchor, some (← fullTag name))
    | none => return (none, none)

/-- Makes an anchor stand for a place. -/
def bind (anchor : Option String) (place : Nat) : Compose Unit :=
  match anchor with
  | none => pure ()
  | some name => modify fun composer => { composer with anchors := (name, place) :: composer.anchors }

/-- An anchor must be new. -/
def checkAnchor (anchor : Option String) : Compose Unit := do
  match anchor with
  | none => pure ()
  | some name => if ((← get).anchors.lookup name).isSome then throw .malformed

def aliased (name : String) : Compose Nat := do
  match (← get).anchors.lookup name with
  | some place => return place
  | none => throw .malformed

/-- Gives a node a place. -/
def place (node : Node) : Compose Nat :=
  modifyGet fun composer =>
    (composer.graph.size, { composer with graph := composer.graph.push node })

def scalar (anchor : Option String) (tag : Tag) (text : String) : Compose Nat := do
  let made ← place ⟨tag, .scalar text⟩
  bind anchor made
  return made

/-- A collection, whose anchor stands for it already among its parts. -/
def collection (anchor : Option String) (tag : Tag) (content : Compose Content) : Compose Nat := do
  let made ← place ⟨tag, .sequence []⟩
  bind anchor made
  let content ← content
  modify fun composer => { composer with graph := composer.graph.set made ⟨tag, content⟩ }
  return made

def empty : Compose Nat := place ⟨.null, .scalar ""⟩

/-- The tag of a scalar. The mark `!` alone asks for the tag that the text would have unquoted. -/
def scalarTag (written : Option String) (text : String) (plain : Bool) : Tag :=
  match written with
  | none => if plain then .ofPlain text else .str
  | some "!" => .ofPlain text
  | some name => .ofName name

def collectionTag (written : Option String) (usual : Tag) : Tag :=
  match written with
  | none | some "!" => usual
  | some name => .ofName name

mutual

/-- The place of a node. In a block it may be a block itself; `indentless` says that a sequence may
begin without being indented. -/
def node (block indentless : Bool) : Nat → Compose Nat
  | 0 => throw .malformed
  | steps + 1 => do
    if let some (.alias name) ← peek then
      skip
      return ← aliased name
    let (anchor, tag) ← takeProperties
    let next ← peek
    checkAnchor anchor
    let sequence (items : Compose (List Nat)) : Compose Nat :=
      collection anchor (collectionTag tag .seq) (.sequence <$> items)
    let mapping (entries : Compose (List (Nat × Nat))) : Compose Nat :=
      collection anchor (collectionTag tag .map) (.mapping <$> entries)
    match next with
    | some .blockEntry =>
      if indentless then sequence (indentlessItems steps) else absent anchor tag
    | some (.scalar text plain) => do
      skip
      scalar anchor (scalarTag tag text plain) text
    | some .flowSequenceStart => do
      skip
      sequence (flowItems true steps)
    | some .flowMappingStart => do
      skip
      mapping (flowEntries true steps)
    | some .blockSequenceStart => do
      if block then
        skip
        sequence (blockItems steps)
      else absent anchor tag
    | some .blockMappingStart => do
      if block then
        skip
        mapping (blockEntries steps)
      else absent anchor tag
    | _ => absent anchor tag
where
  /-- Properties alone are an empty scalar; nothing at all is no node. -/
  absent (anchor tag : Option String) : Compose Nat := do
    if anchor.isNone && tag.isNone then throw .malformed
    scalar anchor (scalarTag tag "" true) ""

/-- A node, or nothing before one of some tokens. -/
def nodeUnless (stop : Token → Bool) (block indentless : Bool) : Nat → Compose Nat
  | 0 => throw .malformed
  | steps + 1 => do
    if ← sees stop then empty else node block indentless steps

def blockItems : Nat → Compose (List Nat)
  | 0 => throw .malformed
  | steps + 1 => do
    if ← takes isBlockEntry then
      let item ← nodeUnless (fun t => isBlockEntry t || isBlockEnd t) true false steps
      return item :: (← blockItems steps)
    else
      demand isBlockEnd
      return []

def indentlessItems : Nat → Compose (List Nat)
  | 0 => throw .malformed
  | steps + 1 => do
    if ← takes isBlockEntry then
      let item ← nodeUnless (fun t => isBlockEntry t || isKey t || isValue t || isBlockEnd t)
        true false steps
      return item :: (← indentlessItems steps)
    else return []

def blockEntries : Nat → Compose (List (Nat × Nat))
  | 0 => throw .malformed
  | steps + 1 => do
    let stop (t : Token) : Bool := isKey t || isValue t || isBlockEnd t
    if ← takes isKey then
      let key ← nodeUnless stop true true steps
      let value ← if ← takes isValue then nodeUnless stop true true steps else empty
      return (key, value) :: (← blockEntries steps)
    else
      demand isBlockEnd
      return []

/-- The key and the value of an entry between brackets or braces, behind the mark of the key. -/
def flowPair (stop : Token → Bool) : Nat → Compose (Nat × Nat)
  | 0 => throw .malformed
  | steps + 1 => do
    let key ← nodeUnless (fun t => isValue t || stop t) false false steps
    let value ← if ← takes isValue then nodeUnless stop false false steps else empty
    return (key, value)

def flowItems (first : Bool) : Nat → Compose (List Nat)
  | 0 => throw .malformed
  | steps + 1 => do
    if ← takes isSequenceEnd then return []
    if !first then demand isFlowEntry
    if ← takes isSequenceEnd then return []
    let item ←
      if ← takes isKey then
        collection none .map do
          return .mapping [← flowPair (fun t => isFlowEntry t || isSequenceEnd t) steps]
      else node false false steps
    return item :: (← flowItems false steps)

def flowEntries (first : Bool) : Nat → Compose (List (Nat × Nat))
  | 0 => throw .malformed
  | steps + 1 => do
    if ← takes isMappingEnd then return []
    if !first then demand isFlowEntry
    if ← takes isMappingEnd then return []
    let entry ←
      if ← takes isKey then flowPair (fun t => isFlowEntry t || isMappingEnd t) steps
      else
        let key ← node false false steps
        pure (key, ← empty)
    return entry :: (← flowEntries false steps)

end

/-- The handles that are known without a directive. -/
def usualHandles : List (String × String) := [("!", "!"), ("!!", Tag.base)]

/-- The directives before a document: the handles of tags. Only the first version counts, and no
handle is given twice. -/
def directives (versioned : Bool) (handles : List (String × String)) :
    Nat → Compose (List (String × String))
  | 0 => return handles
  | steps + 1 => do
    match ← peek with
    | some (.directive (.version major)) =>
      if versioned || major ≠ 1 then throw .malformed
      skip
      directives true handles steps
    | some (.directive (.tag handle start)) =>
      if (handles.lookup handle).isSome then throw .malformed
      skip
      directives versioned ((handle, start) :: handles) steps
    | some (.directive .other) =>
      skip
      directives versioned handles steps
    | _ => return handles

def documentEnds : Nat → Compose Unit
  | 0 => pure ()
  | steps + 1 => do
    if ← takes fun | .documentEnd => true | _ => false then documentEnds steps

/-- The root of a document behind an explicit start; nothing if there is no document. -/
def explicitDocument (steps : Nat) : Compose (Option Nat) := do
  documentEnds steps
  if (← peek).isNone then return none
  let handles ← directives false [] steps
  modify fun composer => { composer with handles := handles ++ usualHandles }
  demand fun | .documentStart => true | _ => false
  match ← peek with
  | none | some .documentStart | some .documentEnd | some (.directive _) => return some (← empty)
  | _ => return some (← node true false steps)

/-- The root of the one document of a text. -/
def document (steps : Nat) : Compose (Option Nat) := do
  let root ←
    match ← peek with
    | none | some .documentStart | some (.directive _) => explicitDocument steps
    | _ => some <$> node true false steps
  documentEnds steps
  if (← peek).isSome then
    let _ ← directives false [] steps
    throw .malformed
  return root

end Compose

/-- The nodes of a text and the place of the root; no root if the text holds no document. -/
def Graph.ofText (text : List Char) : Except Trouble (Graph × Option Nat) := do
  let tokens := Tokens.ofText text
  let composer : Composer := ⟨tokens, [], Compose.usualHandles, .empty⟩
  let (root, composer) ← (Compose.document (4 * tokens.ready.length + 8)).run composer
  return (composer.graph, root)

end Schemata.Yaml
