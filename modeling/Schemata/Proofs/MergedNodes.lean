import Schemata.Yaml.Merge
import Schemata.Proofs.ScannedTexts
import Mathlib.Algebra.GroupWithZero.Nat

/-! What merging changes in a table of nodes. A mapping keeps its place and its tag and gets other entries, and the mark
of a default value may become a text. Each step takes one merge key away and none is ever added, so that merging comes
to an end, even of mappings that take over each other. -/

namespace Schemata.Yaml

structure Node.Becomes (node later : Node) : Prop where
  tag : later.tag = node.tag ∨ node.tag = .default ∧ later.tag = .str
  content : later.content = node.content ∨
    (∃ entries, node.content = .mapping entries) ∧ ∃ entries, later.content = .mapping entries

theorem Node.Becomes.refl (node : Node) : node.Becomes node := ⟨.inl rfl, .inl rfl⟩

theorem Node.Becomes.trans {first second third : Node} (earlier : first.Becomes second) (later : second.Becomes third) :
    first.Becomes third := by
  constructor
  · rcases later.tag with same | ⟨mark, text⟩
    · rcases earlier.tag with again | ⟨mark, text⟩
      · exact .inl (same.trans again)
      · exact .inr ⟨mark, same.trans text⟩
    · rcases earlier.tag with again | ⟨_, other⟩
      · exact .inr ⟨again ▸ mark, text⟩
      · cases mark.symm.trans other
  · rcases later.content with same | ⟨⟨_, mapping⟩, own⟩
    · rcases earlier.content with again | ⟨before, ⟨entries, own⟩⟩
      · exact .inl (same.trans again)
      · exact .inr ⟨before, entries, same.trans own⟩
    · rcases earlier.content with again | ⟨before, -⟩
      · exact .inr ⟨⟨_, again ▸ mapping⟩, own⟩
      · exact .inr ⟨before, own⟩

namespace Graph

structure Merges (graph later : Graph) : Prop where
  size : later.size = graph.size
  node {place : Nat} {after : Node} : later.get? place = some after →
    ∃ node, graph.get? place = some node ∧ node.Becomes after

variable {graph later : Graph} {place : Nat}

theorem Merges.refl (graph : Graph) : graph.Merges graph := ⟨rfl, fun found => ⟨_, found, .refl _⟩⟩

theorem Merges.trans {last : Graph} (first : graph.Merges later) (second : later.Merges last) : graph.Merges last := by
  refine ⟨second.size.trans first.size, fun found => ?_⟩
  obtain ⟨middle, found, last⟩ := second.node found
  obtain ⟨node, found, first⟩ := first.node found
  exact ⟨node, found, first.trans last⟩

theorem get?_set {node : Node} (graph : Graph) (place other : Nat) :
    (graph.set place node).get? other =
      if place = other ∧ (graph.get? other).isSome then some node else graph.get? other := by
  simp only [get?, set, Array.getElem?_setIfInBounds]
  split
  next same =>
    subst same
    by_cases bound : place < graph.nodes.size
    · simp [bound]
    · simp [bound]
  next different => simp [different]

theorem merges_set {node after : Node} (found : graph.get? place = some node) (becomes : node.Becomes after) :
    graph.Merges (graph.set place after) := by
  refine ⟨Array.size_setIfInBounds, fun {other later} own => ?_⟩
  rw [get?_set] at own
  split at own
  next same =>
    cases own
    exact ⟨node, same.1 ▸ found, becomes⟩
  next => exact ⟨later, own, .refl _⟩

theorem get?_of_entries? {entries : List (Nat × Nat)} (found : graph.entries? place = some entries) :
    ∃ tag, graph.get? place = some ⟨tag, .mapping entries⟩ := by
  unfold entries? at found
  split at found
  next tag _ node =>
    cases found
    exact ⟨tag, node⟩
  next => cases found

theorem setEntries_eq {tag : Tag} {content : Content} (found : graph.get? place = some ⟨tag, content⟩)
    (entries : List (Nat × Nat)) : graph.setEntries place entries = graph.set place ⟨tag, .mapping entries⟩ := by
  simp [setEntries, tag?, found]

theorem merges_setEntries {entries : List (Nat × Nat)} (found : graph.entries? place = some entries)
    (others : List (Nat × Nat)) : graph.Merges (graph.setEntries place others) := by
  obtain ⟨tag, node⟩ := get?_of_entries? found
  rw [setEntries_eq node]
  exact merges_set node ⟨.inl rfl, .inr ⟨⟨_, rfl⟩, _, rfl⟩⟩

theorem merges_settleKey (graph : Graph) (key : Nat) : graph.Merges (graph.settleKey key) := by
  unfold settleKey
  split
  next content found => exact merges_set found ⟨.inr ⟨rfl, rfl⟩, .inl rfl⟩
  next => exact .refl graph

def mergeKeys (graph : Graph) (entries : List (Nat × Nat)) : Nat :=
  entries.countP fun (key, _) => graph.tag? key = some .merge

def mergeKeysOf (graph : Graph) : Content → Nat
  | .mapping entries => graph.mergeKeys entries
  | .scalar _ | .sequence _ => 0

def mergeCount (graph : Graph) : Nat := (graph.nodes.toList.map fun node => graph.mergeKeysOf node.content).sum

theorem Merges.tag?_merge (merges : graph.Merges later) (key : Nat) :
    later.tag? key = some .merge ↔ graph.tag? key = some .merge := by
  have bounds : later.nodes.size = graph.nodes.size := merges.size
  cases found : later.get? key with
  | none =>
    have absent : graph.get? key = none := by
      rw [get?, Array.getElem?_eq_none_iff] at found ⊢
      omega
    simp [tag?, found, absent]
  | some after =>
    obtain ⟨node, held, becomes⟩ := merges.node found
    simp only [tag?, found, held, Option.map_some, Option.some.injEq]
    rcases becomes.tag with same | ⟨mark, text⟩
    · rw [same]
    · simp [mark, text]

theorem Merges.mergeKeys (merges : graph.Merges later) : later.mergeKeys = graph.mergeKeys := by
  funext entries
  exact List.countP_congr fun entry _ => by simpa using merges.tag?_merge entry.1

theorem Merges.mergeKeysOf (merges : graph.Merges later) : later.mergeKeysOf = graph.mergeKeysOf := by
  funext content
  cases content with
  | mapping entries => exact congrFun merges.mergeKeys entries
  | scalar | sequence => rfl

private theorem sum_map_set {items : List α} {index : Nat} {old : α} (found : items[index]? = some old) (new : α)
    (weight : α → Nat) : ((items.set index new).map weight).sum + weight old = (items.map weight).sum + weight new := by
  induction items generalizing index with
  | nil => cases found
  | cons head rest ih =>
    cases index with
    | zero =>
      cases found
      simp only [List.set_cons_zero, List.map_cons, List.sum_cons]
      omega
    | succ index =>
      have later := ih (by simpa using found)
      simp only [List.set_cons_succ, List.map_cons, List.sum_cons]
      omega

theorem mergeCount_set {node after : Node} (found : graph.get? place = some node) (becomes : node.Becomes after) :
    (graph.set place after).mergeCount + graph.mergeKeysOf node.content =
      graph.mergeCount + graph.mergeKeysOf after.content := by
  rw [mergeCount, mergeCount, (merges_set found becomes).mergeKeysOf]
  simp only [set, Array.toList_setIfInBounds]
  exact sum_map_set (by simpa [get?] using found) after _

theorem mergeCount_setEntries {entries : List (Nat × Nat)} (found : graph.entries? place = some entries)
    (others : List (Nat × Nat)) :
    (graph.setEntries place others).mergeCount + graph.mergeKeys entries = graph.mergeCount + graph.mergeKeys others := by
  obtain ⟨tag, node⟩ := get?_of_entries? found
  rw [setEntries_eq node]
  exact mergeCount_set node ⟨.inl rfl, .inr ⟨⟨_, rfl⟩, _, rfl⟩⟩

theorem mergeCount_settleKey (graph : Graph) (key : Nat) : (graph.settleKey key).mergeCount = graph.mergeCount := by
  unfold settleKey
  split
  next content found =>
    have becomes : Node.Becomes ⟨.default, content⟩ ⟨.str, content⟩ := ⟨.inr ⟨rfl, rfl⟩, .inl rfl⟩
    have same := mergeCount_set found becomes
    exact Nat.add_right_cancel same
  next => rfl

/-- A count that grows by at least their weights counts at least their sum. -/
private theorem sum_le_foldl {count : Nat → α → Nat} {weight : α → Nat}
    (grows : ∀ before item, before + weight item ≤ count before item) (items : List α) (before : Nat) :
    before + (items.map weight).sum ≤ items.foldl count before := by
  induction items generalizing before with
  | nil => exact Nat.le_refl _
  | cons item rest ih =>
    rw [List.map_cons, List.sum_cons, ← Nat.add_assoc]
    exact Nat.le_trans (Nat.add_le_add_right (grows before item) _) (ih _)

theorem mergeCount_le (graph : Graph) : graph.mergeCount ≤ graph.entryCount := by
  rw [entryCount, ← Array.foldl_toList, mergeCount, ← Nat.zero_add (List.sum _)]
  refine sum_le_foldl (fun before node => ?_) _ 0
  cases node.content with
  | mapping entries => exact Nat.add_le_add_left List.countP_le_length before
  | scalar | sequence => exact Nat.le_refl _

theorem takeMerge?_eq_none {entries : List (Nat × Nat)} (none : graph.takeMerge? entries = none) :
    graph.mergeKeys entries = 0 := by
  induction entries with
  | nil => rfl
  | cons entry rest ih =>
    obtain ⟨key, value⟩ := entry
    simp only [takeMerge?] at none
    split at none
    next => cases none
    next plain => simpa [mergeKeys, plain] using ih (Option.map_eq_none_iff.mp none)

theorem takeMerge?_eq_some {entries rest : List (Nat × Nat)} {merged : Nat}
    (some : graph.takeMerge? entries = some (merged, rest)) :
    graph.mergeKeys entries = graph.mergeKeys rest + 1 := by
  induction entries generalizing rest with
  | nil => cases some
  | cons entry later ih =>
    obtain ⟨key, value⟩ := entry
    simp only [takeMerge?] at some
    split at some
    next own =>
      cases some
      simp [mergeKeys, own]
    next plain =>
      obtain ⟨⟨_, kept⟩, taken, same⟩ := Option.map_eq_some_iff.mp some
      cases same
      simpa [mergeKeys, plain] using ih taken

theorem Merges.entries? {entries : List (Nat × Nat)} (merges : graph.Merges later)
    (found : graph.entries? place = some entries) : ∃ others, later.entries? place = some others := by
  obtain ⟨tag, node⟩ := get?_of_entries? found
  have bounds : later.nodes.size = graph.nodes.size := merges.size
  cases held : later.get? place with
  | none =>
    have absent : graph.get? place = none := by
      rw [get?, Array.getElem?_eq_none_iff] at held ⊢
      omega
    cases node.symm.trans absent
  | some after =>
    obtain ⟨before, again, becomes⟩ := merges.node held
    cases node.symm.trans again
    obtain ⟨own, content⟩ := after
    rcases becomes.content with same | ⟨-, others, same⟩
    · exact ⟨entries, by simp [Graph.entries?, held, show content = .mapping entries from same]⟩
    · exact ⟨others, by simp [Graph.entries?, held, show content = .mapping others from same]⟩

theorem entries?_setEntries {entries : List (Nat × Nat)} (found : graph.entries? place = some entries)
    (others : List (Nat × Nat)) : (graph.setEntries place others).entries? place = some others := by
  obtain ⟨tag, node⟩ := get?_of_entries? found
  simp [setEntries_eq node, Graph.entries?, get?_set, node]

theorem mergeKeys_append (entries others : List (Nat × Nat)) :
    graph.mergeKeys (entries ++ others) = graph.mergeKeys entries + graph.mergeKeys others := List.countP_append

theorem merges_settleKeys (entries : List (Nat × Nat)) (graph : Graph) :
    graph.Merges (entries.foldl (fun graph (key, _) => graph.settleKey key) graph) ∧
      (entries.foldl (fun graph (key, _) => graph.settleKey key) graph).mergeCount = graph.mergeCount := by
  induction entries generalizing graph with
  | nil => exact ⟨.refl graph, rfl⟩
  | cons entry rest ih =>
    obtain ⟨merges, same⟩ := ih (graph.settleKey entry.1)
    exact ⟨(merges_settleKey graph entry.1).trans merges, same.trans (mergeCount_settleKey graph entry.1)⟩

theorem entries?_settleKey (graph : Graph) (key other : Nat) : (graph.settleKey key).entries? other = graph.entries? other := by
  unfold settleKey
  split
  next content found =>
    by_cases same : key = other
    · subst same
      cases content <;> simp [entries?, get?_set, found]
    · simp [entries?, get?_set, same]
  next => rfl

theorem entries?_settleKeys (entries : List (Nat × Nat)) (graph : Graph) (other : Nat) :
    (entries.foldl (fun graph (key, _) => graph.settleKey key) graph).entries? other = graph.entries? other := by
  induction entries generalizing graph with
  | nil => rfl
  | cons entry rest ih => exact (ih _).trans (entries?_settleKey graph entry.1 other)

/-- A graph after some merging, with no more merge keys than before. -/
structure Reduces (graph later : Graph) : Prop where
  merges : graph.Merges later
  count : later.mergeCount ≤ graph.mergeCount

theorem Reduces.refl (graph : Graph) : graph.Reduces graph := ⟨.refl graph, Nat.le_refl _⟩

theorem Reduces.trans {last : Graph} (first : graph.Reduces later) (second : later.Reduces last) : graph.Reduces last :=
  ⟨first.merges.trans second.merges, Nat.le_trans second.count first.count⟩

def IsMerged (graph : Graph) (place : Nat) : Prop := graph.mergeKeys ((graph.entries? place).getD []) = 0

/-- A merging of graphs with a limited number of merge keys comes to an end. -/
def Finishes (limit : Nat) (merge : Graph → Nat → Except Trouble Graph) : Prop :=
  ∀ graph place, graph.mergeCount < limit →
    Ends (· = .malformed) (fun later => graph.Reduces later ∧ later.IsMerged place) (merge graph place)

theorem Finishes.inherit {limit : Nat} {merge : Graph → Nat → Except Trouble Graph} (finishes : Finishes limit merge)
    (few : graph.mergeCount < limit) (place : Nat) :
    Ends (· = .malformed) (fun inherited => graph.Reduces inherited.2 ∧ graph.mergeKeys inherited.1 = 0)
      (Graph.inherit merge graph place) := by
  unfold Graph.inherit
  split
  next =>
    refine (finishes graph place few).bind fun later done => ?_
    obtain ⟨reduces, merged⟩ := done
    exact ⟨reduces, reduces.merges.mergeKeys ▸ merged⟩
  next items _ =>
    refine Ends.foldlM (fun inherited item own => ?_) items ⟨.refl graph, rfl⟩
    obtain ⟨gathered, current⟩ := inherited
    obtain ⟨reduces, none⟩ := own
    refine (finishes current item (Nat.lt_of_le_of_lt reduces.count few)).bind fun later done => ?_
    obtain ⟨step, merged⟩ := done
    have whole := reduces.trans step
    refine ⟨whole, ?_⟩
    rw [mergeKeys_append, none, ← whole.merges.mergeKeys]
    exact merged
  next => exact rfl

/-- So many steps are enough for fewer merge keys. -/
theorem finishes_mergeWithin (steps : Nat) : Finishes steps (mergeWithin steps) := by
  induction steps with
  | zero => exact fun graph place few => absurd few (Nat.not_lt_zero _)
  | succ steps finishes =>
    intro graph place few
    rw [mergeWithin]
    split
    next => exact rfl
    next entries found =>
      split
      next none =>
        obtain ⟨merges, count⟩ := merges_settleKeys entries graph
        refine ⟨⟨merges, Nat.le_of_eq count⟩, ?_⟩
        rw [IsMerged, merges.mergeKeys, entries?_settleKeys, found]
        exact takeMerge?_eq_none none
      next merged rest taken =>
        -- the key that was taken makes up for the step
        have fewer := mergeCount_setEntries found rest
        have keys := takeMerge?_eq_some taken
        have start : graph.Reduces (graph.setEntries place rest) := ⟨merges_setEntries found rest, by omega⟩
        have few : (graph.setEntries place rest).mergeCount < steps := by omega
        refine (finishes.inherit few merged).bind fun inherited own => ?_
        obtain ⟨gathered, current⟩ := inherited
        obtain ⟨step, none⟩ := own
        refine (finishes current place (by have := step.count; dsimp only at this; omega)).bind fun last done => ?_
        obtain ⟨again, clean⟩ := done
        have whole := start.trans (step.trans again)
        obtain ⟨own, held⟩ := whole.merges.entries? found
        have ownKeys : last.mergeKeys own = 0 := by simpa [IsMerged, held] using clean
        have inheritedKeys : last.mergeKeys gathered = 0 := by
          rw [whole.merges.mergeKeys, ← start.merges.mergeKeys]
          exact none
        have keys : last.mergeKeys (gathered ++ own) = 0 := by rw [mergeKeys_append, ownKeys, inheritedKeys]
        have final := mergeCount_setEntries held (gathered ++ own)
        have wider := merges_setEntries held (gathered ++ own)
        show _ ∧ IsMerged (last.setEntries place (gathered ++ (last.entries? place).getD [])) place
        rw [held, Option.getD_some]
        refine ⟨whole.trans ⟨wider, by omega⟩, ?_⟩
        rw [IsMerged, wider.mergeKeys, entries?_setEntries held, Option.getD_some]
        exact keys

/-- Merging comes to an end. -/
theorem merge_ends (graph : Graph) (place : Nat) :
    Ends (· = .malformed) (fun later => graph.Merges later) (graph.merge place) :=
  (finishes_mergeWithin _ graph place (Nat.lt_succ_of_le graph.mergeCount_le)).imp fun _ done => done.1.merges

end Graph

end Schemata.Yaml
