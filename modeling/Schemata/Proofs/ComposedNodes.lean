import Schemata.Yaml.Graph
import Schemata.Proofs.ScannedTexts

/-! What composing nodes can fail with. No action of the composer has a trouble of its own but that the text is
malformed: any other is the one that follows the tokens. -/

namespace Schemata.Yaml

namespace Compose

def Sound (permitted : Trouble → Prop) (composer : Composer) : Prop :=
  ∀ trouble ∈ composer.tokens.trouble, permitted trouble

abbrev Keeps (permitted : Trouble → Prop) (action : Compose α) : Prop := Yaml.Keeps permitted (Sound permitted) action

variable {permitted : Trouble → Prop}

/-- An action on what is not the tokens. -/
theorem keeps_change {change : Composer → Composer}
    (same : ∀ composer, (change composer).tokens.trouble = composer.tokens.trouble) : Keeps permitted (modify change) :=
  keeps_modify fun composer sound trouble found => sound trouble (same composer ▸ found)

theorem keeps_peek : Keeps permitted peek := by
  intro composer sound
  obtain ⟨⟨ready, trouble⟩, anchors, handles, graph⟩ := composer
  cases ready with
  | cons token rest => exact sound
  | nil =>
    cases trouble with
    | none => exact sound
    | some trouble => exact sound trouble rfl

theorem keeps_skip : Keeps permitted skip := keeps_change fun _ => rfl

theorem keeps_sees (test : Token → Bool) : Keeps permitted (sees test) :=
  keeps_peek.bind fun _ => keeps_pure _

theorem keeps_takes (test : Token → Bool) : Keeps permitted (takes test) := by
  refine (keeps_sees test).bind fun seen => ?_
  split
  · exact keeps_skip.bind fun _ => keeps_pure _
  · exact keeps_pure _

theorem keeps_place (node : Node) : Keeps permitted (place node) := fun _ sound => sound

theorem keeps_bind (anchor : Option String) (made : Nat) : Keeps permitted (bind anchor made) := by
  cases anchor with
  | none => exact keeps_pure _
  | some name => exact keeps_change fun _ => rfl

theorem keeps_scalar (anchor : Option String) (tag : Tag) (text : String) : Keeps permitted (scalar anchor tag text) :=
  (keeps_place _).bind fun made => (keeps_bind anchor made).bind fun _ => keeps_pure _

theorem keeps_collection {content : Compose Content} (anchor : Option String) (tag : Tag) (keeps : Keeps permitted content) :
    Keeps permitted (collection anchor tag content) := by
  refine (keeps_place _).bind fun made => (keeps_bind anchor made).bind fun _ => keeps.bind fun parts => ?_
  exact Keeps.bind (keeps_change fun _ => rfl) fun _ => keeps_pure made

theorem keeps_empty : Keeps permitted empty := keeps_place _

theorem keeps_takeAnchor : Keeps permitted takeAnchor := by
  refine keeps_peek.bind fun next => ?_
  split
  · exact keeps_skip.bind fun _ => keeps_pure _
  · exact keeps_pure _

theorem keeps_takeTag : Keeps permitted takeTag := by
  refine keeps_peek.bind fun next => ?_
  split
  · exact keeps_skip.bind fun _ => keeps_pure _
  · exact keeps_pure _

variable (basic : permitted .malformed)

include basic

theorem keeps_demand (test : Token → Bool) : Keeps permitted (demand test) := by
  refine (keeps_takes test).bind fun taken => ?_
  split
  · exact keeps_throw basic
  · exact keeps_pure _

theorem keeps_fullTag (name : TagName) : Keeps permitted (fullTag name) := by
  unfold fullTag
  split
  · exact keeps_pure _
  · refine keeps_get.bind fun composer => ?_
    split
    · exact keeps_pure _
    · exact keeps_throw basic

theorem keeps_takeProperties : Keeps permitted takeProperties := by
  refine keeps_takeAnchor.bind fun anchor => ?_
  split
  · refine keeps_takeTag.bind fun tag => ?_
    cases tag with
    | none => exact keeps_pure _
    | some name => exact ((keeps_fullTag basic name).map some).bind fun _ => keeps_pure _
  · refine keeps_takeTag.bind fun tag => ?_
    split
    · exact keeps_takeAnchor.bind fun _ => (keeps_fullTag basic _).bind fun _ => keeps_pure _
    · exact keeps_pure _

theorem keeps_checkAnchor (anchor : Option String) : Keeps permitted (checkAnchor anchor) := by
  unfold checkAnchor
  split
  · exact keeps_pure _
  · refine keeps_get.bind fun composer => ?_
    split
    · exact keeps_throw basic
    · exact keeps_pure _

theorem keeps_aliased (name : String) : Keeps permitted (aliased name) := by
  refine keeps_get.bind fun composer => ?_
  split
  · exact keeps_pure _
  · exact keeps_throw basic

theorem keeps_absent (anchor tag : Option String) : Keeps permitted (node.absent anchor tag) := by
  unfold node.absent
  split
  · exact keeps_throw basic
  · exact keeps_scalar _ _ _

omit basic in
/-- All readers of nodes keep to what is permitted for so many steps. -/
structure NodesKeep (permitted : Trouble → Prop) (steps : Nat) : Prop where
  node : ∀ block indentless, Keeps permitted (node block indentless steps)
  nodeUnless : ∀ stop block indentless, Keeps permitted (nodeUnless stop block indentless steps)
  blockItems : Keeps permitted (blockItems steps)
  indentlessItems : Keeps permitted (indentlessItems steps)
  blockEntries : Keeps permitted (blockEntries steps)
  flowPair : ∀ stop, Keeps permitted (flowPair stop steps)
  flowItems : ∀ first, Keeps permitted (flowItems first steps)
  flowEntries : ∀ first, Keeps permitted (flowEntries first steps)

theorem nodesKeep_zero : NodesKeep permitted 0 where
  node _ _ := keeps_throw basic
  nodeUnless _ _ _ := keeps_throw basic
  blockItems := keeps_throw basic
  indentlessItems := keeps_throw basic
  blockEntries := keeps_throw basic
  flowPair _ := keeps_throw basic
  flowItems _ := keeps_throw basic
  flowEntries _ := keeps_throw basic

theorem NodesKeep.node_succ {steps : Nat} (keep : NodesKeep permitted steps) (block indentless : Bool) :
    Keeps permitted (Compose.node block indentless (steps + 1)) := by
  rw [Compose.node]
  refine keeps_peek.bind fun first => ?_
  split
  · exact keeps_skip.bind fun _ => keeps_aliased basic _
  · refine (keeps_takeProperties basic).bind fun properties => keeps_peek.bind fun next => ?_
    obtain ⟨anchor, tag⟩ := properties
    refine (keeps_checkAnchor basic anchor).bind fun _ => ?_
    have sequence {items : Compose (List Nat)} (keeps : Keeps permitted items) :
        Keeps permitted (collection anchor (collectionTag tag .seq) (.sequence <$> items)) :=
      keeps_collection _ _ (keeps.map _)
    have mapping {entries : Compose (List (Nat × Nat))} (keeps : Keeps permitted entries) :
        Keeps permitted (collection anchor (collectionTag tag .map) (.mapping <$> entries)) :=
      keeps_collection _ _ (keeps.map _)
    have absent := keeps_absent basic anchor tag
    dsimp only
    split
    · split
      · exact sequence keep.indentlessItems
      · exact absent
    · exact keeps_skip.bind fun _ => keeps_scalar _ _ _
    · exact keeps_skip.bind fun _ => sequence (keep.flowItems true)
    · exact keeps_skip.bind fun _ => mapping (keep.flowEntries true)
    · split
      · exact keeps_skip.bind fun _ => sequence keep.blockItems
      · exact absent
    · split
      · exact keeps_skip.bind fun _ => mapping keep.blockEntries
      · exact absent
    · exact absent

omit basic in
theorem NodesKeep.nodeUnless_succ {steps : Nat} (keep : NodesKeep permitted steps) (stop : Token → Bool)
    (block indentless : Bool) : Keeps permitted (Compose.nodeUnless stop block indentless (steps + 1)) := by
  rw [Compose.nodeUnless]
  refine (keeps_sees stop).bind fun seen => ?_
  split
  · exact keeps_empty
  · exact keep.node _ _

theorem NodesKeep.blockItems_succ {steps : Nat} (keep : NodesKeep permitted steps) :
    Keeps permitted (Compose.blockItems (steps + 1)) := by
  rw [Compose.blockItems]
  refine (keeps_takes _).bind fun taken => ?_
  split
  · exact (keep.nodeUnless _ _ _).bind fun _ => keep.blockItems.bind fun _ => keeps_pure _
  · exact (keeps_demand basic _).bind fun _ => keeps_pure _

omit basic in
theorem NodesKeep.indentlessItems_succ {steps : Nat} (keep : NodesKeep permitted steps) :
    Keeps permitted (Compose.indentlessItems (steps + 1)) := by
  rw [Compose.indentlessItems]
  refine (keeps_takes _).bind fun taken => ?_
  split
  · exact (keep.nodeUnless _ _ _).bind fun _ => keep.indentlessItems.bind fun _ => keeps_pure _
  · exact keeps_pure _

omit basic in
/-- What stands behind the mark of a value, or nothing. -/
theorem NodesKeep.value {steps : Nat} (keep : NodesKeep permitted steps) (stop : Token → Bool)
    (block indentless : Bool) :
    Keeps permitted (do if ← takes isValue then Compose.nodeUnless stop block indentless steps else empty) := by
  refine (keeps_takes _).bind fun taken => ?_
  split
  · exact keep.nodeUnless _ _ _
  · exact keeps_empty

theorem NodesKeep.blockEntries_succ {steps : Nat} (keep : NodesKeep permitted steps) :
    Keeps permitted (Compose.blockEntries (steps + 1)) := by
  rw [Compose.blockEntries]
  refine (keeps_takes _).bind fun taken => ?_
  split
  · refine (keep.nodeUnless _ _ _).bind fun key => ?_
    refine (keeps_takes _).bind fun valued => ?_
    split
    · exact (keep.nodeUnless _ _ _).bind fun _ => keep.blockEntries.bind fun _ => keeps_pure _
    · exact keeps_empty.bind fun _ => keep.blockEntries.bind fun _ => keeps_pure _
  · exact (keeps_demand basic _).bind fun _ => keeps_pure _

omit basic in
theorem NodesKeep.flowPair_succ {steps : Nat} (keep : NodesKeep permitted steps) (stop : Token → Bool) :
    Keeps permitted (Compose.flowPair stop (steps + 1)) := by
  rw [Compose.flowPair]
  refine (keep.nodeUnless _ _ _).bind fun key => ?_
  refine (keeps_takes _).bind fun valued => ?_
  split
  · exact (keep.nodeUnless _ _ _).bind fun _ => keeps_pure _
  · exact keeps_empty.bind fun _ => keeps_pure _

/-- What follows a comma, or the beginning, unless an end comes before it. -/
theorem keeps_separated {body : Compose (List α)} (first : Bool) (stop : Token → Bool) (keeps : Keeps permitted body) :
    Keeps permitted (do
      if ← takes stop then return []
      if !first then demand isFlowEntry
      if ← takes stop then return []
      body) := by
  have rest : Keeps permitted (do
      if ← takes stop then return []
      body) := by
    refine (keeps_takes stop).bind fun ended => ?_
    split
    · exact keeps_pure _
    · exact keeps
  refine (keeps_takes stop).bind fun ended => ?_
  split
  · exact keeps_pure _
  · dsimp only
    split
    · exact (keeps_demand basic _).bind fun _ => rest
    · exact rest

theorem NodesKeep.flowItems_succ {steps : Nat} (keep : NodesKeep permitted steps) (first : Bool) :
    Keeps permitted (Compose.flowItems first (steps + 1)) := by
  rw [Compose.flowItems]
  refine keeps_separated basic first isSequenceEnd ((keeps_takes _).bind fun keyed => ?_)
  split
  · refine (keeps_collection none .map ?_).bind fun _ => (keep.flowItems false).bind fun _ => keeps_pure _
    exact (keep.flowPair _).bind fun _ => keeps_pure _
  · exact (keep.node _ _).bind fun _ => (keep.flowItems false).bind fun _ => keeps_pure _

theorem NodesKeep.flowEntries_succ {steps : Nat} (keep : NodesKeep permitted steps) (first : Bool) :
    Keeps permitted (Compose.flowEntries first (steps + 1)) := by
  rw [Compose.flowEntries]
  refine keeps_separated basic first isMappingEnd ((keeps_takes _).bind fun keyed => ?_)
  split
  · exact (keep.flowPair _).bind fun _ => (keep.flowEntries false).bind fun _ => keeps_pure _
  · refine (keep.node _ _).bind fun key => keeps_empty.bind fun value => ?_
    exact (keep.flowEntries false).bind fun _ => keeps_pure _

theorem nodesKeep (steps : Nat) : NodesKeep permitted steps := by
  induction steps with
  | zero => exact nodesKeep_zero basic
  | succ steps keep =>
    exact ⟨keep.node_succ basic, keep.nodeUnless_succ, keep.blockItems_succ basic, keep.indentlessItems_succ,
      keep.blockEntries_succ basic, keep.flowPair_succ, keep.flowItems_succ basic, keep.flowEntries_succ basic⟩

theorem keeps_directives (versioned : Bool) (handles : List (String × String)) (steps : Nat) :
    Keeps permitted (directives versioned handles steps) := by
  induction steps generalizing versioned handles with
  | zero => exact keeps_pure _
  | succ steps ih =>
    rw [directives]
    refine keeps_peek.bind fun next => ?_
    split
    · split
      · exact keeps_throw basic
      · exact keeps_skip.bind fun _ => ih _ _
    · split
      · exact keeps_throw basic
      · exact keeps_skip.bind fun _ => ih _ _
    · exact keeps_skip.bind fun _ => ih _ _
    · exact keeps_pure _

omit basic in
theorem keeps_documentEnds (steps : Nat) : Keeps permitted (documentEnds steps) := by
  induction steps with
  | zero => exact keeps_pure _
  | succ steps ih =>
    rw [documentEnds]
    refine (keeps_takes _).bind fun taken => ?_
    split
    · exact ih
    · exact keeps_pure _

theorem keeps_explicitDocument (steps : Nat) : Keeps permitted (explicitDocument steps) := by
  refine (keeps_documentEnds steps).bind fun _ => keeps_peek.bind fun next => ?_
  split
  · exact keeps_pure _
  · refine (keeps_directives basic _ _ steps).bind fun handles => ?_
    refine Keeps.bind (keeps_change fun _ => rfl) fun _ => (keeps_demand basic _).bind fun _ => keeps_peek.bind fun root => ?_
    split
    · exact keeps_empty.bind fun _ => keeps_pure _
    · exact keeps_empty.bind fun _ => keeps_pure _
    · exact keeps_empty.bind fun _ => keeps_pure _
    · exact keeps_empty.bind fun _ => keeps_pure _
    · exact ((nodesKeep basic steps).node true false).bind fun _ => keeps_pure _

theorem keeps_document (steps : Nat) : Keeps permitted (document steps) := by
  have finish (root : Option Nat) : Keeps permitted (do
      documentEnds steps
      if (← peek).isSome then
        let _ ← directives false [] steps
        throw .malformed
      return root) := by
    refine (keeps_documentEnds steps).bind fun _ => keeps_peek.bind fun next => ?_
    split
    · exact (keeps_directives basic _ _ steps).bind fun _ => keeps_throw basic
    · exact keeps_pure _
  refine keeps_peek.bind fun first => ?_
  split
  · exact (keeps_explicitDocument basic steps).bind finish
  · exact (keeps_explicitDocument basic steps).bind finish
  · exact (keeps_explicitDocument basic steps).bind finish
  · exact (((nodesKeep basic steps).node true false).map some).bind finish

end Compose

/-- Of a text that is not malformed all nodes are composed, unless a number is out of bounds. -/
theorem Graph.ofText_ends (text : List Char) : Ends (MayReport text) (fun _ => True) (ofText text) := by
  refine Ends.bind (Compose.keeps_document (.inl rfl) _ _ ?_) fun _ _ => trivial
  exact Tokens.ofText_reports text

end Schemata.Yaml
