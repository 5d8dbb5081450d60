import Schemata.Yaml.Content
import Schemata.Proofs.ComposedNodes
import Schemata.Proofs.MergedNodes

/-! What reading a document can fail with. A text that is not malformed gives no data only if a number in it is out of
bounds, or if a scalar denotes nothing under its tag: a day that no month has, or a number that is none. -/

namespace Schemata.Yaml

namespace Graph

/-- A node under the tag of a scalar that denotes nothing, with the trouble that it makes. A mapping under such a tag
has the text of another node, and may be looking for it in itself. -/
inductive Broken (graph : Graph) : Trouble → Prop where
  | scalar {place source : Nat} {tag other : Tag} {content : Content} {text : String} {trouble : Trouble}
      (node : graph.get? place = some ⟨tag, content⟩) (read : graph.get? source = some ⟨other, .scalar text⟩)
      (own : source = place ∨ ∃ entries, content = .mapping entries) (sort : tag ∈ [.bool, .int, .float, .timestamp])
      (fails : scalarOf? place tag text = some (.error trouble)) : Broken graph trouble
  | moment {place : Nat} {entries : List (Nat × Nat)} (node : graph.get? place = some ⟨.timestamp, .mapping entries⟩) :
      Broken graph .notText
  | endless {place : Nat} {tag : Tag} {entries : List (Nat × Nat)}
      (node : graph.get? place = some ⟨tag, .mapping entries⟩) (noMapping : tag ≠ .map) : Broken graph .endless

def MayFail (graph : Graph) (trouble : Trouble) : Prop := trouble = .malformed ∨ graph.Broken trouble

variable {graph later : Graph}

/-- The text of a node is that of a scalar: of the node itself, unless this is a mapping. -/
theorem textWithin_ends (graph : Graph) (steps place : Nat) :
    Ends (fun trouble => trouble = .malformed ∨ trouble = .endless)
      (fun text => ∃ source tag, graph.get? source = some ⟨tag, .scalar text⟩) (graph.textWithin steps place) := by
  induction steps generalizing place with
  | zero => exact .inr rfl
  | succ steps ih =>
    unfold textWithin
    split
    next tag text found => exact ⟨place, tag, found⟩
    next =>
      split
      next value _ => exact ih value
      next => exact .inl rfl
    next => exact .inl rfl

theorem text_ends {place : Nat} {node : Node} (found : graph.get? place = some node) :
    Ends (fun trouble => trouble = .malformed ∨ trouble = .endless ∧ ∃ entries, node.content = .mapping entries)
      (fun text => ∃ source tag, graph.get? source = some ⟨tag, .scalar text⟩ ∧
        (source = place ∨ ∃ entries, node.content = .mapping entries)) (graph.text place) := by
  obtain ⟨own, content⟩ := node
  unfold text textWithin
  rw [found]
  cases content with
  | scalar text => exact ⟨place, own, found, .inl rfl⟩
  | sequence => exact .inl rfl
  | mapping entries =>
    dsimp only
    split
    next value _ =>
      have ends := textWithin_ends graph graph.size value
      generalize graph.textWithin graph.size value = result at ends
      cases result with
      | ok text =>
        obtain ⟨source, tag, scalar⟩ := ends
        exact ⟨source, tag, scalar, .inr ⟨entries, rfl⟩⟩
      | error trouble => exact Or.imp id (fun endless => ⟨endless, entries, rfl⟩) ends
    next => exact .inl rfl

/-- Under all other tags a text has a value, or is malformed. -/
theorem scalarOf?_error {place : Nat} {tag : Tag} {text : String} {trouble : Trouble}
    (fails : scalarOf? place tag text = some (.error trouble)) :
    trouble = .malformed ∨ tag ∈ [.bool, .int, .float, .timestamp] := by
  cases tag with
  | bool | int | float | timestamp => exact .inr (by simp)
  | binary =>
    simp only [scalarOf?, Option.some.injEq] at fails
    unfold binaryOf at fails
    split at fails
    · split at fails <;> cases fails
      exact .inl rfl
    · cases fails
      exact .inl rfl
  | _ => cases fails

/-- A scalar of the graph that some merging led to denotes nothing only if one of the first graph does so. -/
theorem Merges.mayFail_of_scalar {place source : Nat} {tag other : Tag} {content : Content} {text : String}
    {trouble : Trouble} (merges : graph.Merges later) (found : later.get? place = some ⟨tag, content⟩)
    (read : later.get? source = some ⟨other, .scalar text⟩)
    (own : source = place ∨ ∃ entries, content = .mapping entries)
    (fails : scalarOf? place tag text = some (.error trouble)) : graph.MayFail trouble := by
  obtain ⟨⟨before, held⟩, node, becomes⟩ := merges.node found
  obtain ⟨⟨beforeToo, written⟩, scalar, same⟩ := merges.node read
  have text : written = .scalar text := by
    rcases same.content with same | ⟨-, _, mapping⟩
    · exact same.symm
    · cases mapping
  subst text
  rcases becomes.tag with same | ⟨mark, text⟩
  · cases same
    refine (scalarOf?_error fails).imp id fun sort => .scalar node scalar (own.imp id fun mapping => ?_) sort fails
    obtain ⟨entries, rfl⟩ := mapping
    rcases becomes.content with same | ⟨mapping, -⟩
    · exact ⟨entries, same.symm⟩
    · exact mapping
  · cases text
    cases fails

/-- A mapping under the tag of a scalar was one from the beginning. -/
theorem Merges.mapping {place : Nat} {tag : Tag} {entries : List (Nat × Nat)} (merges : graph.Merges later)
    (found : later.get? place = some ⟨tag, .mapping entries⟩) :
    ∃ before others, graph.get? place = some ⟨before, .mapping others⟩ ∧ (tag = before ∨ before = .default ∧ tag = .str) := by
  obtain ⟨⟨before, held⟩, node, becomes⟩ := merges.node found
  refine ⟨before, ?_⟩
  rcases becomes.content with same | ⟨⟨others, mapping⟩, -⟩
  · exact ⟨entries, by rw [node, show held = .mapping entries from same.symm], becomes.tag⟩
  · exact ⟨others, by rw [node, show held = .mapping others from mapping], becomes.tag⟩

end Graph

namespace Build

variable {graph : Graph}

def Sound (graph : Graph) (builder : Builder) : Prop := graph.Merges builder.graph

abbrev Keeps (graph : Graph) (action : Build α) : Prop := Yaml.Keeps graph.MayFail (Sound graph) action

theorem keeps_malformed : Keeps (α := α) graph (throw .malformed) := keeps_throw (.inl rfl)

theorem run_scalar (place : Nat) (node : Node) (builder : Builder) :
    (scalar place node).run builder = builder.graph.text place >>= fun text =>
      match node.tag, node.content with
      | .timestamp, .mapping _ => .error .notText
      | tag, _ =>
        match scalarOf? place tag text with
        | some value => value.map fun value => (value, builder)
        | none => .error .malformed := by
  obtain ⟨tag, content⟩ := node
  unfold scalar
  cases text : builder.graph.text place with
  | error trouble =>
    simp only [StateT.run_bind, StateT.run_get, pure_bind, text]
    rfl
  | ok written =>
    have plain : ((match scalarOf? place tag written with
        | some value => value
        | none => throw .malformed : Build Value).run builder) =
        match scalarOf? place tag written with
        | some value => value.map fun value => (value, builder)
        | none => .error .malformed := by
      cases scalarOf? place tag written with
      | none => rfl
      | some value => cases value <;> rfl
    simp only [StateT.run_bind, StateT.run_get, pure_bind, text]
    cases tag with
    | timestamp => cases content with
      | mapping => rfl
      | scalar | sequence => exact plain
    | _ => exact plain

theorem scalar_ends {builder : Builder} (sound : Sound graph builder) {place : Nat} {node : Node}
    (found : builder.graph.get? place = some node) (noMapping : node.tag ≠ .map) :
    Ends graph.MayFail (fun done => Sound graph done.2) ((scalar place node).run builder) := by
  rw [run_scalar]
  obtain ⟨tag, content⟩ := node
  have texts := Graph.text_ends found
  cases text : builder.graph.text place with
  | error trouble =>
    rw [text] at texts
    rcases texts with malformed | ⟨rfl, entries, rfl⟩
    · exact .inl malformed
    · obtain ⟨before, others, node, same⟩ := sound.mapping found
      refine .inr (.endless node ?_)
      rcases same with rfl | ⟨rfl, -⟩
      · exact noMapping
      · simp
  | ok written =>
    rw [text] at texts
    obtain ⟨source, other, read, own⟩ := texts
    have plain : Ends graph.MayFail (fun done => Sound graph done.2)
        (match scalarOf? place tag written with
        | some value => value.map fun value => (value, builder)
        | none => .error .malformed) := by
      cases outcome : scalarOf? place tag written with
      | none => exact .inl rfl
      | some value =>
        cases value with
        | ok value => exact sound
        | error trouble => exact sound.mayFail_of_scalar found read own outcome
    cases tag with
    | timestamp => cases content with
      | mapping entries =>
        obtain ⟨before, others, node, rfl | ⟨-, impossible⟩⟩ := sound.mapping found
        · exact .inr (.moment node)
        · cases impossible
      | scalar | sequence => exact plain
    | _ => exact plain

theorem keeps_part (place : Nat) : Keeps graph (part place) := by
  intro builder sound
  unfold part
  simp only [StateT.run_bind, StateT.run_get, pure_bind]
  split
  next => exact sound
  next =>
    split
    next node found =>
      have finish {made : Build Part}
          (ends : Ends graph.MayFail (fun done : Part × Builder => Sound graph done.2) (made.run builder)) :
          Ends graph.MayFail (fun done : Part × Builder => Sound graph done.2) ((do
            let part ← made
            modify fun builder => { builder with parts := builder.parts.setIfInBounds place (some part) }
            return part : Build Part).run builder) :=
        Ends.bind ends fun done own => own
      have whole (noMapping : node.tag ≠ .map) :
          Ends graph.MayFail (fun done : Part × Builder => Sound graph done.2)
            ((Part.whole <$> scalar place node).run builder) :=
        Ends.bind (scalar_ends sound found noMapping) fun _ own => own
      cases tag : node.tag with
      | seq | map | set | omap | pairs => exact sound
      | merge | default | other => exact .inl rfl
      | _ => exact finish (whole (by simp [tag]))
    next => exact .inl rfl

theorem keeps_items (place : Nat) : Keeps graph (items place) := by
  refine keeps_get.bind fun builder => ?_
  split
  · exact keeps_pure _
  · exact keeps_malformed

theorem keeps_foldlM {step : β → α → Build β} (keeps : ∀ built item, Keeps graph (step built item)) (items : List α)
    (built : β) : Keeps graph (items.foldlM step built) := by
  induction items generalizing built with
  | nil => exact keeps_pure _
  | cons item rest ih =>
    rw [List.foldlM_cons]
    exact (keeps built item).bind ih

theorem keeps_entries (place : Nat) : Keeps graph (entries place) := by
  intro builder sound
  have merges := builder.graph.merge_ends place
  unfold entries
  cases merged : builder.graph.merge place with
  | error trouble =>
    rw [merged] at merges
    simp only [StateT.run_bind, StateT.run_get, pure_bind, merged]
    exact .inl merges
  | ok later =>
    rw [merged] at merges
    simp only [StateT.run_bind, StateT.run_get, pure_bind, merged]
    refine keeps_foldlM (fun built pair => ?_) _ [] { builder with graph := later } (Graph.Merges.trans sound merges)
    refine (keeps_part pair.1).bind fun key => ?_
    split
    · exact keeps_malformed
    · exact (keeps_part pair.2).bind fun _ => keeps_pure _

theorem keeps_pair (place : Nat) : Keeps graph (pair place) := by
  refine keeps_get.bind fun builder => ?_
  split
  · exact (keeps_part _).bind fun _ => (keeps_part _).bind fun _ => keeps_pure _
  · exact keeps_malformed

theorem keeps_mapM {action : α → Build β} (keeps : ∀ item, Keeps graph (action item)) (items : List α) :
    Keeps graph (items.mapM action) := by
  induction items with
  | nil => exact keeps_pure _
  | cons item rest ih =>
    rw [List.mapM_cons]
    exact (keeps item).bind fun _ => ih.bind fun _ => keeps_pure _

theorem keeps_layer (place : Nat) : Keeps graph (layer place) := by
  refine keeps_get.bind fun builder => ?_
  split
  · exact (keeps_items place).bind fun _ => (keeps_mapM keeps_part _).bind fun _ => keeps_pure _
  · exact (keeps_entries place).bind fun _ => keeps_pure _
  · exact (keeps_entries place).bind fun _ => keeps_pure _
  · exact (keeps_items place).bind fun _ => (keeps_mapM keeps_pair _).bind fun _ => keeps_pure _

theorem keeps_fill (place : Nat) : Keeps graph (fill place) :=
  (keeps_layer place).bind fun _ => keeps_modify fun _ sound => sound

theorem keeps_fillAll (steps : Nat) : Keeps graph (fillAll steps) := by
  induction steps with
  | zero => exact keeps_pure _
  | succ steps ih =>
    have all (places : List Nat) : Keeps graph (places.forM fill) := by
      induction places with
      | nil => exact keeps_pure _
      | cons place rest ih =>
        exact (keeps_fill place).bind fun _ => ih
    refine keeps_get.bind fun builder => ?_
    dsimp only
    split
    · exact keeps_pure _
    · exact Keeps.bind (keeps_modify fun _ sound => sound) fun _ => (all _).bind fun _ => ih

theorem keeps_whole (root : Nat) : Keeps graph (whole root) :=
  (keeps_part root).bind fun _ => keeps_get.bind fun _ => (keeps_fillAll _).bind fun _ => keeps_pure _

end Build

theorem Graph.toValue_ends (graph : Graph) (root : Nat) : Ends graph.MayFail (fun _ => True) (graph.toValue root) :=
  Ends.bind (Build.keeps_whole root (.start graph) (.refl graph)) fun _ _ => trivial

/-- A text that gives no data although it is not malformed: a number in it is out of bounds, or a node denotes
nothing. -/
inductive Fails (text : String) (trouble : Trouble) : Prop where
  | outOfBounds {chars : List Char} (same : Text.chars? text = some chars) (beyond : OutOfBounds chars trouble)
  | broken {chars : List Char} {graph : Graph} {root : Nat} (same : Text.chars? text = some chars)
      (composed : Graph.ofText chars = .ok (graph, some root)) (broken : graph.Broken trouble)

theorem read_ends (text : String) :
    Ends (fun trouble => trouble = .malformed ∨ Fails text trouble) (fun _ => True) (read text) := by
  unfold read
  cases same : Text.chars? text with
  | none => exact .inl rfl
  | some chars =>
    have composes := Graph.ofText_ends chars
    dsimp only
    cases composed : Graph.ofText chars with
    | error trouble =>
      rw [composed] at composes
      exact Or.imp id (.outOfBounds same) composes
    | ok made =>
      obtain ⟨graph, root?⟩ := made
      cases root? with
      | none => exact trivial
      | some root =>
        have ends := graph.toValue_ends root
        show Ends _ _ (graph.toValue root)
        cases done : graph.toValue root with
        | ok value => exact trivial
        | error trouble =>
          rw [done] at ends
          exact Or.imp id (.broken same composed) ends

end Schemata.Yaml
