import Schemata.Catalog
import Schemata.Proofs.Records

/-! What a catalog is held to while entries are registered. It keeps two maps, from identifiers to
entries and from names to identifiers, and an identifier may well be the name of another entry. Each
registration writes both maps, so that the second stays the inverse of the first. -/

namespace Schemata

structure Registration where
  identifier? : Option String
  entry : Entry

namespace Registration

def IsNamed (request : Registration) : Prop := ∃ name, request.entry.name? = some (.text name)

def identifier (request : Registration) : String := request.identifier?.getD request.entry.name.shown

end Registration

namespace Catalog

/-- The catalog after a request. One that is refused leaves it as it was. -/
def receive (catalog : Catalog) (request : Registration) : Catalog :=
  match catalog.register request.identifier? request.entry with
  | .ok extended => extended
  | .error _ => catalog

def receiveAll (catalog : Catalog) (requests : List Registration) : Catalog := requests.foldl receive catalog

def accepted : Catalog → List Registration → List (String × Entry)
  | _, [] => []
  | catalog, request :: rest =>
    match catalog.register request.identifier? request.entry with
    | .ok extended => (request.identifier, request.entry) :: extended.accepted rest
    | .error _ => catalog.accepted rest

structure Consistent (catalog : Catalog) : Prop where
  identifiers_nodup : catalog.identifiers.Nodup
  identifiers_nameable : ∀ identifier ∈ catalog.identifiers, TypeSpec.isName identifier.toList = true
  names_nodup : (catalog.toList.map Entry.name).Nodup
  named : ∀ entry ∈ catalog.toList, ∃ name, entry.name? = some (.text name)
  /-- Each identifier owns the name of its entry, and nothing else is owned. -/
  owners_eq : catalog.owners = catalog.entries.map fun (identifier, entry) => (entry.name, identifier)

/-- All views of the catalog describe one sequence of entries under their identifiers. -/
structure Lists (catalog : Catalog) (sequence : List (String × Entry)) : Prop where
  size : catalog.size = sequence.length
  toList : catalog.toList = sequence.map Prod.snd
  identifiers : catalog.identifiers = sequence.map Prod.fst
  get? : ∀ identifier entry, catalog.get? identifier = some entry ↔ (identifier, entry) ∈ sequence
  contains : ∀ identifier, catalog.contains identifier = true ↔ identifier ∈ sequence.map Prod.fst

end Catalog

theorem Entry.name_of_text {entry : Entry} {name : String} (named : entry.name? = some (.text name)) :
    entry.name = .text name := by
  rw [Entry.name, named]
  rfl

theorem Name.text_same {written : String} {name : Name} : (Name.text written).same name = true ↔ name = .text written := by
  cases name with
  | text other => simp [Name.same, eq_comm]
  | other key shown => simp [Name.same]

theorem Registration.identifierFor_eq {request : Registration} (named : request.IsNamed) :
    Catalog.identifierFor request.entry request.identifier? = .ok request.identifier := by
  obtain ⟨name, named⟩ := named
  unfold Catalog.identifierFor Registration.identifier
  cases request.identifier? with
  | some identifier => rfl
  | none => simp [named, Entry.name_of_text named, Name.shown]

theorem Registration.nameOf_eq {request : Registration} (named : request.IsNamed) :
    Catalog.nameOf request.entry = .ok request.entry.name := by
  obtain ⟨name, named⟩ := named
  simp [Catalog.nameOf, named, Entry.name_of_text named, Value.isKey, Name.ofValue]

namespace Catalog

variable {catalog : Catalog} {request : Registration}

theorem get?_of_grown {before after : Catalog} (grown : before.entries <+: after.entries) {identifier : String}
    {entry : Entry} (found : before.get? identifier = some entry) : after.get? identifier = some entry := by
  obtain ⟨added, same⟩ := grown
  rw [get?, ← same]
  exact Record.find?_append found

namespace Consistent

theorem lists (consistent : catalog.Consistent) : catalog.Lists catalog.entries where
  size := rfl
  toList := rfl
  identifiers := rfl
  get? _ _ := ⟨Record.mem_of_find?, Record.find?_of_mem consistent.identifiers_nodup⟩
  contains _ := Record.has_iff

private theorem find?_owner {entries : Record Entry} {name : Name} {identifier : String}
    (named : ∀ entry ∈ entries.map Prod.snd, ∃ written, entry.name? = some (.text written))
    (unique : ((entries.map Prod.snd).map Entry.name).Nodup) :
    ((entries.map fun (identifier, entry) => (entry.name, identifier)).find? fun (known, _) => known.same name).map
        Prod.snd = some identifier ↔
      ∃ entry, (identifier, entry) ∈ entries ∧ entry.name = name := by
  induction entries with
  | nil => simp
  | cons head rest ih =>
    obtain ⟨own, entry⟩ := head
    simp only [List.map_cons, List.nodup_cons, List.forall_mem_cons] at named unique
    obtain ⟨⟨written, text⟩, others⟩ := named
    replace ih := ih others unique.2
    by_cases same : entry.name = name
    · have found : entry.name.same name = true := by
        rw [Entry.name_of_text text, Name.text_same, ← same, Entry.name_of_text text]
      have alone (other : Entry) (member : (identifier, other) ∈ rest) : other.name ≠ name := by
        intro again
        exact unique.1 (List.mem_map.mpr ⟨other, List.mem_map.mpr ⟨_, member, rfl⟩, again.trans same.symm⟩)
      simp only [List.map_cons, List.find?_cons, found, Option.map_some, Option.some.injEq, List.mem_cons, Prod.mk.injEq]
      constructor
      · intro own
        exact ⟨entry, .inl ⟨own.symm, rfl⟩, same⟩
      · intro held
        obtain ⟨other, ⟨here, -⟩ | later, again⟩ := held
        · exact here.symm
        · exact absurd again (alone other later)
    · have passed : entry.name.same name = false := by
        rw [← Bool.not_eq_true, Entry.name_of_text text, Name.text_same]
        intro again
        exact same ((Entry.name_of_text text).trans again.symm)
      simp only [List.map_cons, List.find?_cons, passed, ih, List.mem_cons, Prod.mk.injEq]
      constructor
      · intro held
        obtain ⟨other, member, again⟩ := held
        exact ⟨other, .inr member, again⟩
      · intro held
        obtain ⟨other, ⟨-, rfl⟩ | later, again⟩ := held
        · exact absurd again same
        · exact ⟨other, later, again⟩

theorem owner?_eq_some (consistent : catalog.Consistent) {name : Name} {identifier : String} :
    catalog.owner? name = some identifier ↔ ∃ entry, catalog.get? identifier = some entry ∧ entry.name = name := by
  simp only [owner?, consistent.owners_eq, consistent.lists.get?]
  exact find?_owner consistent.named consistent.names_nodup

theorem owner?_eq_none (consistent : catalog.Consistent) {name : Name} :
    catalog.owner? name = none ↔ name ∉ catalog.toList.map Entry.name := by
  simp only [Option.eq_none_iff_forall_ne_some, ne_eq, consistent.owner?_eq_some, consistent.lists.get?]
  constructor
  · intro free taken
    obtain ⟨entry, held, same⟩ := List.mem_map.mp taken
    obtain ⟨⟨identifier, _⟩, member, rfl⟩ := List.mem_map.mp held
    exact free identifier ⟨_, member, same⟩
  · intro free identifier owned
    obtain ⟨entry, member, same⟩ := owned
    exact free (List.mem_map.mpr ⟨entry, List.mem_map.mpr ⟨_, member, rfl⟩, same⟩)

/-- A request is accepted if its identifier can be one and is free, and the name of its entry is free. -/
theorem register_eq_ok (consistent : catalog.Consistent) (named : request.IsNamed) {extended : Catalog} :
    catalog.register request.identifier? request.entry = .ok extended ↔
      (TypeSpec.isName request.identifier.toList = true ∧ request.identifier ∉ catalog.identifiers ∧
        request.entry.name ∉ catalog.toList.map Entry.name) ∧
      extended = ⟨catalog.entries ++ [(request.identifier, request.entry)],
        catalog.owners ++ [(request.entry.name, request.identifier)]⟩ := by
  rw [← consistent.owner?_eq_none, identifiers, ← Record.has_eq_false_iff]
  simp only [register, Registration.identifierFor_eq named, Registration.nameOf_eq named, bind, Except.bind, pure,
    Except.pure, throw, throwThe, MonadExceptOf.throw]
  cases nameable : TypeSpec.isName request.identifier.toList with
  | false => simp
  | true =>
    cases known : Record.has catalog.entries request.identifier with
    | true => simp
    | false =>
      cases owned : catalog.owner? request.entry.name with
      | some owner => simp
      | none => simp [eq_comm]

theorem register (consistent : catalog.Consistent) (named : request.IsNamed) {extended : Catalog}
    (registered : catalog.register request.identifier? request.entry = .ok extended) : extended.Consistent := by
  obtain ⟨⟨nameable, absent, free⟩, rfl⟩ := (consistent.register_eq_ok named).mp registered
  refine ⟨?_, ?_, ?_, ?_, ?_⟩
  · rw [identifiers, Record.names_append]
    exact consistent.identifiers_nodup.append (List.nodup_singleton _) (List.disjoint_singleton.mpr absent)
  · simp only [identifiers, Record.names_append, List.mem_append]
    intro identifier member
    rcases member with old | new
    · exact consistent.identifiers_nameable identifier old
    · cases List.mem_singleton.mp new
      exact nameable
  · rw [toList, List.map_append, List.map_append]
    exact consistent.names_nodup.append (List.nodup_singleton _) (List.disjoint_singleton.mpr free)
  · simp only [toList, List.map_append, List.mem_append]
    intro entry member
    rcases member with old | new
    · exact consistent.named entry old
    · cases List.mem_singleton.mp new
      exact named
  · simp [consistent.owners_eq]

theorem receive (consistent : catalog.Consistent) (named : request.IsNamed) : (catalog.receive request).Consistent := by
  unfold Catalog.receive
  split
  next registered => exact consistent.register named registered
  next => exact consistent

end Consistent

theorem empty_consistent : empty.Consistent := by
  constructor <;> simp [empty, identifiers, toList, Record.names]

theorem Consistent.receiveAll (consistent : catalog.Consistent) {requests : List Registration}
    (named : ∀ request ∈ requests, request.IsNamed) : (catalog.receiveAll requests).Consistent := by
  induction requests generalizing catalog with
  | nil => exact consistent
  | cons request rest ih =>
    rw [List.forall_mem_cons] at named
    exact ih (consistent.receive named.1) named.2

/-- Requests that are accepted put their entries to the end, and the others leave no trace. -/
theorem Consistent.entries_receiveAll (consistent : catalog.Consistent) {requests : List Registration}
    (named : ∀ request ∈ requests, request.IsNamed) :
    (catalog.receiveAll requests).entries = catalog.entries ++ catalog.accepted requests := by
  induction requests generalizing catalog with
  | nil => simp [Catalog.receiveAll, accepted]
  | cons request rest ih =>
    rw [List.forall_mem_cons] at named
    have later := ih (consistent.receive named.1) named.2
    rw [Catalog.receiveAll, List.foldl_cons, ← Catalog.receiveAll, later, accepted, Catalog.receive]
    cases registered : catalog.register request.identifier? request.entry with
    | error error => rfl
    | ok extended =>
      obtain ⟨-, rfl⟩ := (consistent.register_eq_ok named.1).mp registered
      simp

/-- Whatever was registered and refused before, identifiers and names are distinct, the owners are the
inverse of the map from identifiers to names, and all views show the accepted entries in order. One more
request is accepted exactly if its identifier and its name are free. -/
theorem registrations_keep_catalog (requests : List Registration) (named : ∀ request ∈ requests, request.IsNamed) :
    let catalog := empty.receiveAll requests
    let sequence := empty.accepted requests
    catalog.Consistent ∧ catalog.Lists sequence ∧
      (∀ name identifier, catalog.owner? name = some identifier ↔
        ∃ entry, catalog.get? identifier = some entry ∧ entry.name = name) ∧
      ∀ request : Registration, request.IsNamed →
        ((∃ extended, catalog.register request.identifier? request.entry = .ok extended) ↔
          TypeSpec.isName request.identifier.toList = true ∧ request.identifier ∉ catalog.identifiers ∧
            request.entry.name ∉ catalog.toList.map Entry.name) ∧
        (∀ error, catalog.register request.identifier? request.entry = .error error →
          catalog.receive request = catalog) ∧
        (∀ extended, catalog.register request.identifier? request.entry = .ok extended →
          catalog.receive request = extended ∧ extended.Lists (sequence ++ [(request.identifier, request.entry)]) ∧
            (∀ identifier entry, catalog.get? identifier = some entry → extended.get? identifier = some entry) ∧
            ∀ name identifier, catalog.owner? name = some identifier → extended.owner? name = some identifier) := by
  intro catalog sequence
  have consistent : catalog.Consistent := empty_consistent.receiveAll named
  have entries : catalog.entries = sequence := empty_consistent.entries_receiveAll named
  refine ⟨consistent, entries ▸ consistent.lists, fun _ _ => consistent.owner?_eq_some, fun request own => ⟨?_, ?_, ?_⟩⟩
  · simp only [consistent.register_eq_ok own, exists_and_left, exists_eq, and_true]
  · intro error refused
    rw [Catalog.receive, refused]
  · intro extended accepted
    have later := consistent.register own accepted
    obtain ⟨-, same⟩ := (consistent.register_eq_ok own).mp accepted
    have grown : extended.entries = sequence ++ [(request.identifier, request.entry)] := by rw [same, entries]
    have found (identifier : String) (entry : Entry) (held : catalog.get? identifier = some entry) :
        extended.get? identifier = some entry := get?_of_grown ⟨_, by rw [entries, grown]⟩ held
    refine ⟨by rw [Catalog.receive, accepted], grown ▸ later.lists, found, ?_⟩
    intro name identifier owned
    obtain ⟨entry, held, same⟩ := consistent.owner?_eq_some.mp owned
    exact later.owner?_eq_some.mpr ⟨entry, found identifier entry held, same⟩

def crossedRequests : List Registration :=
  [⟨some "Cat", .checked (.sum "Dog" ["bark"])⟩, ⟨some "Dog", .checked (.sum "Cat" ["purr"])⟩,
    ⟨none, .checked (.sum "Dog" ["growl"])⟩, ⟨some "Kitten", .checked (.sum "Cat" ["mew"])⟩,
    ⟨some "a cat", .checked (.sum "Lion" ["roar"])⟩]

theorem registrations_keep_catalog_of_crossed :
    let catalog := empty.receiveAll crossedRequests
    (∀ request ∈ crossedRequests, request.IsNamed) ∧ catalog.Consistent ∧
      catalog.Lists [("Cat", .checked (.sum "Dog" ["bark"])), ("Dog", .checked (.sum "Cat" ["purr"]))] ∧
      (∃ entry, catalog.get? "Cat" = some entry ∧ entry.name = .text "Dog") := by
  have named : ∀ request ∈ crossedRequests, request.IsNamed := by
    simp [crossedRequests, Registration.IsNamed, Entry.name?]
  obtain ⟨consistent, lists, owned, -⟩ := registrations_keep_catalog crossedRequests named
  exact ⟨named, consistent, lists, (owned (.text "Dog") "Cat").mp rfl⟩

end Catalog

end Schemata
