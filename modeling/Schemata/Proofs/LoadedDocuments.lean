import Schemata.Document
import Schemata.Proofs.CatalogGrowth

/-! What a document is loaded to. Its types are checked and registered one after another, until one is not valid or
conflicts with a type before it. So the catalog is that of all types, each read alone, or there is none, and then the
error is that of the first type at fault. -/

namespace Schemata

namespace Document

def Types (document : Value) (types : List Value) : Prop :=
  ∃ data listed, document.entries? = some data ∧ Value.find? data "types" = some listed ∧ listed.items? = some types

/-- The identifier that the data of a type gives. It may be left out or null. -/
inductive Identifies (data : List (Value × Value)) : Option String → Prop where
  | absent (missing : Value.find? data "identifier" = none) : Identifies data none
  | null (found : Value.find? data "identifier" = some .null) : Identifies data none
  | text {identifier : String} (found : Value.find? data "identifier" = some (.text identifier)) :
      Identifies data (some identifier)

/-- A type, looked at alone, is a mapping of the data of a definition, and perhaps of an identifier. -/
def Describes (value : Value) (identifier? : Option String) (definition : Definition) : Prop :=
  ∃ data, value.entries? = some data ∧ Identifies data identifier? ∧
    Definition.check (.map (Value.without data "identifier")) = .ok definition

/-- A type is valid if it describes a definition, and its identifier, or else its name, is one that references can
name. -/
def Valid (value : Value) (listing : String × Definition) : Prop :=
  ∃ identifier?, Describes value identifier? listing.2 ∧ identifier?.getD listing.2.name = listing.1 ∧
    TypeSpec.isName listing.1.toList = true

def Conflict (value other : Value) : Prop :=
  ∃ listing earlier, Valid value listing ∧ Valid other earlier ∧
    (earlier.1 = listing.1 ∨ earlier.2.name = listing.2.name)

/-- The type at an index is not valid, or conflicts with an earlier one. -/
def Faulty (types : List Value) (index : Nat) : Prop :=
  ∃ value, types[index]? = some value ∧ ((∀ listing, ¬ Valid value listing) ∨
    ∃ earlier other, earlier < index ∧ types[earlier]? = some other ∧ Conflict value other)

inductive Blames (label : String) (index : Nat) (listed : List (String × Definition)) (value : Value) :
    DocumentError → Prop where
  | notMapping (noMapping : value.entries? = none) : Blames label index listed value (.entryNotMapping label index)
  | identifier {data : List (Value × Value)} {other : Value} (mapping : value.entries? = some data)
      (found : Value.find? data "identifier" = some other) (notNull : other ≠ .null)
      (notText : ∀ text, other ≠ .text text) : Blames label index listed value (.identifierNotText label index)
  | definition {data : List (Value × Value)} {identifier? : Option String} {findings : List Finding}
      (mapping : value.entries? = some data) (identifies : Identifies data identifier?)
      (refused : Definition.check (.map (Value.without data "identifier")) = .error findings) :
      Blames label index listed value (.invalid label index findings)
  | unnameable {identifier? : Option String} {definition : Definition}
      (describes : Describes value identifier? definition)
      (refused : TypeSpec.isName (identifier?.getD definition.name).toList = false) :
      Blames label index listed value
        (.conflict label index (.invalidIdentifier (identifier?.getD definition.name)))
  | identifierTaken {listing : String × Definition} (valid : Valid value listing)
      (taken : listing.1 ∈ listed.map Prod.fst) :
      Blames label index listed value (.conflict label index (.duplicateIdentifier listing.1))
  | nameTaken {listing earlier : String × Definition} (valid : Valid value listing)
      (free : listing.1 ∉ listed.map Prod.fst) (taken : earlier ∈ listed)
      (same : earlier.2.name = listing.2.name) :
      Blames label index listed value (.conflict label index (.duplicateName (.text listing.2.name) earlier.1))

theorem Identifies.unique {data : List (Value × Value)} {one other : Option String} (first : Identifies data one)
    (second : Identifies data other) : one = other := by
  cases first with
  | absent missing | null missing | text missing =>
    cases second with
    | absent found | null found | text found => cases missing.symm.trans found <;> rfl

theorem Describes.unique {value : Value} {one other : Option String} {first second : Definition}
    (describes : Describes value one first) (describesToo : Describes value other second) :
    one = other ∧ first = second := by
  obtain ⟨data, mapping, identifies, checked⟩ := describes
  obtain ⟨_, again, identifiesToo, checkedToo⟩ := describesToo
  cases mapping.symm.trans again
  cases checked.symm.trans checkedToo
  exact ⟨identifies.unique identifiesToo, rfl⟩

theorem Valid.unique {value : Value} {one other : String × Definition} (first : Valid value one)
    (second : Valid value other) : one = other := by
  obtain ⟨_, describes, own, -⟩ := first
  obtain ⟨_, describesToo, ownToo, -⟩ := second
  obtain ⟨rfl, same⟩ := describes.unique describesToo
  exact Prod.ext (by rw [← own, ← ownToo, same]) same

/-- Of a type with an acceptable identifier the rest is checked. -/
theorem entry_of_identifies {label : String} {index : Nat} {value : Value} {data : List (Value × Value)}
    {identifier? : Option String} (mapping : value.entries? = some data) (identifies : Identifies data identifier?) :
    entry label index value =
      ((Definition.check (.map (Value.without data "identifier"))).mapError (.invalid label index)).map
        fun definition => (identifier?, definition) := by
  unfold entry
  rw [mapping]
  cases identifies with
  | absent found | null found | text found =>
    simp only [found, pure_bind]
    cases Definition.check (.map (Value.without data "identifier")) <;> rfl

/-- A type is read as what it describes, or it is to blame itself. -/
theorem entry_cases (label : String) (index : Nat) (listed : List (String × Definition)) (value : Value) :
    (∃ identifier? definition, Describes value identifier? definition ∧
      entry label index value = .ok (identifier?, definition)) ∨
    ∃ error, Blames label index listed value error ∧ entry label index value = .error error := by
  cases mapping : value.entries? with
  | none =>
    refine .inr ⟨_, .notMapping mapping, ?_⟩
    rw [entry, mapping]
    rfl
  | some data =>
    by_cases identified : ∃ identifier?, Identifies data identifier?
    · obtain ⟨identifier?, identifies⟩ := identified
      rw [entry_of_identifies mapping identifies]
      cases checked : Definition.check (.map (Value.without data "identifier")) with
      | ok definition => exact .inl ⟨identifier?, definition, ⟨data, mapping, identifies, checked⟩, rfl⟩
      | error findings => exact .inr ⟨_, .definition mapping identifies checked, rfl⟩
    · obtain ⟨given, found⟩ : ∃ given, Value.find? data "identifier" = some given :=
        Option.ne_none_iff_exists'.mp fun missing => identified ⟨_, .absent missing⟩
      have notNull : given ≠ .null := fun same => identified ⟨_, .null (same ▸ found)⟩
      have notText (text : String) : given ≠ .text text := fun same => identified ⟨_, .text (same ▸ found)⟩
      refine .inr ⟨_, .identifier mapping found notNull notText, ?_⟩
      rw [entry, mapping]
      cases given with
      | null => exact absurd rfl notNull
      | text written => exact absurd rfl (notText written)
      | _ =>
        simp only [found]
        rfl

end Document

namespace Catalog

structure Holds (catalog : Catalog) (listed : List (String × Definition)) : Prop where
  consistent : catalog.Consistent
  entries : catalog.entries = listed.map fun (identifier, definition) => (identifier, .checked definition)

variable {catalog : Catalog} {listed : List (String × Definition)}

theorem Holds.identifiers (holds : catalog.Holds listed) : catalog.identifiers = listed.map Prod.fst := by
  rw [Catalog.identifiers, holds.entries, Record.names, List.map_map]
  rfl

theorem Holds.names (holds : catalog.Holds listed) :
    catalog.toList.map Entry.name = listed.map fun listing => .text listing.2.name := by
  rw [toList, holds.entries, List.map_map, List.map_map]
  rfl

theorem Holds.identifiers_nodup (holds : catalog.Holds listed) : (listed.map Prod.fst).Nodup :=
  holds.identifiers ▸ holds.consistent.identifiers_nodup

theorem Holds.names_nodup (holds : catalog.Holds listed) : (listed.map (·.2.name)).Nodup := by
  have distinct : ((listed.map (·.2.name)).map Name.text).Nodup := by
    rw [List.map_map]
    exact holds.names ▸ holds.consistent.names_nodup
  exact distinct.of_map _

theorem holds_empty : empty.Holds [] := ⟨empty_consistent, rfl⟩

section Refusals

variable {identifier? : Option String} {definition : Definition} {identifier : String}
  (chosen : identifierFor (.checked definition) identifier? = .ok identifier)

include chosen

private theorem register_unnameable (unnameable : ¬ TypeSpec.isName identifier.toList = true) :
    catalog.register identifier? (.checked definition) = .error (.invalidIdentifier identifier) := by
  simp [register, chosen, unnameable, bind, Except.bind, throw, throwThe, MonadExceptOf.throw]

private theorem register_taken (nameable : TypeSpec.isName identifier.toList = true)
    (taken : Record.has catalog.entries identifier = true) :
    catalog.register identifier? (.checked definition) = .error (.duplicateIdentifier identifier) := by
  simp [register, chosen, nameable, taken, bind, Except.bind, throw, throwThe, MonadExceptOf.throw]

private theorem register_owned (nameable : TypeSpec.isName identifier.toList = true)
    (absent : Record.has catalog.entries identifier = false) {owner : String}
    (owned : catalog.owner? (.text definition.name) = some owner) :
    catalog.register identifier? (.checked definition) = .error (.duplicateName (.text definition.name) owner) := by
  have own : nameOf (.checked definition) = .ok (.text definition.name) := rfl
  simp [register, chosen, nameable, absent, own, owned, bind, Except.bind, throw, throwThe, MonadExceptOf.throw]

end Refusals

/-- A definition is registered under its identifier, or else its name, unless that is no identifier or is taken, or
else the name is taken. -/
theorem Holds.register_cases (holds : catalog.Holds listed) (identifier? : Option String) (definition : Definition) :
    let identifier := identifier?.getD definition.name
    (TypeSpec.isName identifier.toList = true ∧ identifier ∉ listed.map Prod.fst ∧
      definition.name ∉ listed.map (·.2.name) ∧
      ∃ extended, catalog.register identifier? (.checked definition) = .ok extended ∧
        extended.Holds (listed ++ [(identifier, definition)])) ∨
    ∃ error, catalog.register identifier? (.checked definition) = .error error ∧
      (TypeSpec.isName identifier.toList = false ∧ error = .invalidIdentifier identifier ∨
        TypeSpec.isName identifier.toList = true ∧ (identifier ∈ listed.map Prod.fst ∧
          error = .duplicateIdentifier identifier ∨ identifier ∉ listed.map Prod.fst ∧
            ∃ earlier ∈ listed, earlier.2.name = definition.name ∧
              error = .duplicateName (.text definition.name) earlier.1)) := by
  intro identifier
  let request : Registration := ⟨identifier?, .checked definition⟩
  have named : request.IsNamed := ⟨definition.name, rfl⟩
  have chosen : identifierFor (.checked definition) identifier? = .ok identifier := Registration.identifierFor_eq named
  by_cases nameable : TypeSpec.isName identifier.toList = true
  swap
  · exact .inr ⟨_, register_unnameable chosen nameable, .inl ⟨by simpa using nameable, rfl⟩⟩
  by_cases taken : identifier ∈ listed.map Prod.fst
  · have known : Record.has catalog.entries identifier = true := by
      rwa [Record.has_iff, ← Catalog.identifiers, holds.identifiers]
    exact .inr ⟨_, register_taken chosen nameable known, .inr ⟨nameable, .inl ⟨taken, rfl⟩⟩⟩
  have absent : Record.has catalog.entries identifier = false := by
    rwa [Record.has_eq_false_iff, ← Catalog.identifiers, holds.identifiers]
  cases owned : catalog.owner? (.text definition.name) with
  | some owner =>
    obtain ⟨entry, held, same⟩ := holds.consistent.owner?_eq_some.mp owned
    have member := Record.mem_of_find? held
    rw [holds.entries] at member
    obtain ⟨earlier, listing, pair⟩ := List.mem_map.mp member
    cases pair
    exact .inr ⟨_, register_owned chosen nameable absent owned,
      .inr ⟨nameable, .inr ⟨taken, earlier, listing, Name.text.inj same, rfl⟩⟩⟩
  | none =>
    have free : definition.name ∉ listed.map (·.2.name) := by
      have unowned := holds.consistent.owner?_eq_none.mp owned
      rw [holds.names] at unowned
      simpa using unowned
    have registered := (holds.consistent.register_eq_ok named).mpr ⟨⟨nameable, ?_, ?_⟩, rfl⟩
    · refine .inl ⟨nameable, taken, free, _, registered, holds.consistent.register named registered, ?_⟩
      simp only [holds.entries, List.map_append, List.map_cons, List.map_nil]
      rfl
    · exact holds.identifiers ▸ taken
    · exact holds.consistent.owner?_eq_none.mp owned

end Catalog

namespace Document

variable {label : String} {catalog : Catalog} {types : List Value} {listed : List (String × Definition)}

/-- A type is added to those listed before it, or it is to blame. -/
theorem registered_or_blamed (holds : catalog.Holds listed) (label : String) (index : Nat) (value : Value) :
    (∃ listing extended, Valid value listing ∧ listing.1 ∉ listed.map Prod.fst ∧
      listing.2.name ∉ listed.map (·.2.name) ∧ extended.Holds (listed ++ [listing]) ∧
      ∀ rest, register label index catalog (value :: rest) = register label (index + 1) extended rest) ∨
    ∃ error, Blames label index listed value error ∧ ∀ rest, register label index catalog (value :: rest) = .error error := by
  rcases entry_cases label index listed value with ⟨identifier?, definition, describes, read⟩ | ⟨error, blames, refused⟩
  · rcases holds.register_cases identifier? definition with
      ⟨nameable, free, freeName, extended, registered, holds⟩ | ⟨error, refused, cause⟩
    · refine .inl ⟨_, extended, ⟨identifier?, describes, rfl, nameable⟩, free, freeName, holds, fun rest => ?_⟩
      simp only [register, read, registered, bind, Except.bind]
    · refine .inr ⟨.conflict label index error, ?_, fun rest => ?_⟩
      · rcases cause with ⟨unnameable, rfl⟩ | ⟨nameable, conflict⟩
        · exact .unnameable describes unnameable
        · have valid : Valid value (identifier?.getD definition.name, definition) :=
            ⟨identifier?, describes, rfl, nameable⟩
          rcases conflict with ⟨taken, rfl⟩ | ⟨free, earlier, member, same, rfl⟩
          · exact .identifierTaken valid taken
          · exact .nameTaken valid free member same
      · simp only [register, read, refused, bind, Except.bind]
        rfl
  · refine .inr ⟨error, blames, fun rest => ?_⟩
    simp only [register, refused, bind, Except.bind]

/-- All types are added in order, or the first one to blame ends the loading. -/
theorem register_cases (holds : catalog.Holds listed) (label : String) (index : Nat) (types : List Value) :
    (∃ more extended, List.Forall₂ Valid types more ∧ extended.Holds (listed ++ more) ∧
      register label index catalog types = .ok extended) ∨
    ∃ front value back more reached error, types = front ++ value :: back ∧ List.Forall₂ Valid front more ∧
      Catalog.Holds reached (listed ++ more) ∧ Blames label (index + front.length) (listed ++ more) value error ∧
      register label index catalog types = .error error := by
  induction types generalizing index catalog listed with
  | nil => exact .inl ⟨[], catalog, .nil, by simpa using holds, rfl⟩
  | cons value rest ih =>
    rcases registered_or_blamed holds label index value with
      ⟨listing, extended, valid, -, -, later, step⟩ | ⟨error, blames, step⟩
    · rw [step]
      rcases ih later (index + 1) with
        ⟨more, last, all, done, ran⟩ | ⟨front, fault, back, more, reached, error, rfl, all, done, blames, ran⟩
      · exact .inl ⟨listing :: more, last, .cons valid all, by simpa using done, ran⟩
      · refine .inr ⟨value :: front, fault, back, listing :: more, reached, error, rfl, .cons valid all, by simpa using done,
          ?_, ran⟩
        simpa [Nat.add_assoc, Nat.add_comm 1] using blames
    · exact .inr ⟨[], value, rest, [], catalog, error, rfl, .nil, by simpa using holds, by simpa using blames, step rest⟩

private theorem listing_at {front : List Value} (all : List.Forall₂ Valid front listed) {index : Nat} {value : Value}
    (own : front[index]? = some value) : ∃ listing, listed[index]? = some listing ∧ Valid value listing := by
  obtain ⟨bound, rfl⟩ := List.getElem?_eq_some_iff.mp own
  have boundToo : index < listed.length := all.length_eq ▸ bound
  exact ⟨listed[index], List.getElem?_eq_getElem boundToo, all.get bound boundToo⟩

private theorem type_of_listing {front : List Value} (all : List.Forall₂ Valid front listed)
    {listing : String × Definition} (member : listing ∈ listed) :
    ∃ index value, index < front.length ∧ front[index]? = some value ∧ Valid value listing := by
  obtain ⟨index, bound, rfl⟩ := List.mem_iff_getElem.mp member
  have boundToo : index < front.length := all.length_eq ▸ bound
  exact ⟨index, front[index], boundToo, List.getElem?_eq_getElem boundToo, all.get boundToo bound⟩

private theorem eq_of_same {key : String × Definition → String} (distinct : (listed.map key).Nodup) {index other : Nat}
    {one two : String × Definition} (first : listed[index]? = some one) (second : listed[other]? = some two)
    (same : key one = key two) : index = other := by
  obtain ⟨bound, rfl⟩ := List.getElem?_eq_some_iff.mp first
  obtain ⟨boundToo, rfl⟩ := List.getElem?_eq_some_iff.mp second
  have bounded : index < (listed.map key).length := by simpa using bound
  have boundedToo : other < (listed.map key).length := by simpa using boundToo
  have alike : (listed.map key)[index] = (listed.map key)[other] := by simpa using same
  exact distinct.getElem_inj_iff.mp alike

/-- Types that are valid, with distinct identifiers and distinct names, are not at fault. -/
theorem not_faulty {front : List Value} (all : List.Forall₂ Valid front listed)
    (identifiers : (listed.map Prod.fst).Nodup) (names : (listed.map (·.2.name)).Nodup) (back : List Value)
    {index : Nat} (bound : index < front.length) : ¬ Faulty (front ++ back) index := by
  rintro ⟨value, own, fault⟩
  rw [List.getElem?_append_left bound] at own
  obtain ⟨listing, here, valid⟩ := listing_at all own
  rcases fault with invalid | ⟨earlier, other, before, held, one, two, validOne, validTwo, same⟩
  · exact invalid listing valid
  · rw [List.getElem?_append_left (Nat.lt_trans before bound)] at held
    obtain ⟨found, there, validEarlier⟩ := listing_at all held
    cases valid.unique validOne
    cases validEarlier.unique validTwo
    rcases same with same | same
    · exact Nat.ne_of_lt before (eq_of_same identifiers there here same)
    · exact Nat.ne_of_lt before (eq_of_same names there here same)

/-- A type that is to blame is at fault. -/
theorem Blames.faulty {front back : List Value} {value : Value} {index : Nat} {error : DocumentError}
    (blames : Blames label index listed value error) (all : List.Forall₂ Valid front listed) :
    Faulty (front ++ value :: back) front.length := by
  refine ⟨value, by simp, ?_⟩
  have conflicts {listing earlier : String × Definition} (valid : Valid value listing) (member : earlier ∈ listed)
      (same : earlier.1 = listing.1 ∨ earlier.2.name = listing.2.name) :
      ∃ earlier other, earlier < front.length ∧ (front ++ value :: back)[earlier]? = some other ∧ Conflict value other := by
    obtain ⟨position, other, before, held, validOther⟩ := type_of_listing all member
    refine ⟨position, other, before, ?_, listing, earlier, valid, validOther, same⟩
    rwa [List.getElem?_append_left before]
  cases blames with
  | notMapping noMapping =>
    refine .inl fun listing valid => ?_
    obtain ⟨_, ⟨data, mapping, -⟩, -⟩ := valid
    cases noMapping.symm.trans mapping
  | identifier mapping found notNull notText =>
    refine .inl fun listing valid => ?_
    obtain ⟨_, ⟨data, again, identifies, -⟩, -⟩ := valid
    cases mapping.symm.trans again
    cases identifies with
    | absent missing => cases found.symm.trans missing
    | null null => exact notNull (Option.some.inj (found.symm.trans null))
    | text text => exact notText _ (Option.some.inj (found.symm.trans text))
  | definition mapping identifies refused =>
    refine .inl fun listing valid => ?_
    obtain ⟨_, ⟨data, again, -, checked⟩, -⟩ := valid
    cases mapping.symm.trans again
    cases refused.symm.trans checked
  | unnameable describes refused =>
    refine .inl fun listing valid => ?_
    obtain ⟨_, describesToo, own, nameable⟩ := valid
    obtain ⟨rfl, rfl⟩ := describes.unique describesToo
    rw [own, nameable] at refused
    cases refused
  | identifierTaken valid taken =>
    obtain ⟨earlier, member, same⟩ := List.mem_map.mp taken
    exact .inr (conflicts valid member (.inl same))
  | nameTaken valid _ taken same => exact .inr (conflicts valid taken (.inr same))

theorem Blames.message {index : Nat} {value : Value} {error : DocumentError}
    (blames : Blames label index listed value error) :
    ∃ rest, error.message = DocumentError.entryLabel label index ++ rest := by
  cases blames with
  | notMapping | identifier | definition => exact ⟨_, rfl⟩
  | unnameable | identifierTaken | nameTaken => exact ⟨_, String.append_assoc ..⟩

theorem catalogOf_eq {document : Value} (lists : Types document types) :
    catalogOf label document = register label 0 .empty types := by
  obtain ⟨data, listed, mapping, found, items⟩ := lists
  simp only [catalogOf, mapping, found, items]

/-- A document lists types, or else the error tells what it lacks. -/
theorem catalogOf_cases (label : String) (document : Value) :
    (∃ types, Types document types) ∨ ∃ error, catalogOf label document = .error error ∧
      (error = .notMapping label ∨ error = .noTypes label ∨ error = .typesNotList label) := by
  unfold catalogOf
  cases mapping : document.entries? with
  | none => exact .inr ⟨_, rfl, .inl rfl⟩
  | some data =>
    cases found : Value.find? data "types" with
    | none => exact .inr ⟨_, by simp only [found]; rfl, .inr (.inl rfl)⟩
    | some listed =>
      cases items : listed.items? with
      | none => exact .inr ⟨_, by simp only [found, items]; rfl, .inr (.inr rfl)⟩
      | some types => exact .inl ⟨types, data, listed, mapping, found, items⟩

theorem exists_types_of_catalogOf {document : Value} (loaded : catalogOf label document = .ok catalog) :
    ∃ types, Types document types := by
  rcases catalogOf_cases label document with lists | ⟨error, refused, -⟩
  · exact lists
  · cases loaded.symm.trans refused

/-- A document with a list of types has a catalog exactly if all of them are valid, with distinct identifiers and
distinct names. The catalog lists them in order, each under its identifier as the definition that it describes alone.
Otherwise the error blames the first type that is not valid or conflicts with an earlier one, and its message begins
with the place of this type. -/
theorem documents_load_all_or_nothing (label : String) (document : Value) (types : List Value)
    (lists : Types document types) :
    ((∃ catalog, catalogOf label document = .ok catalog) ↔ ∃ listed : List (String × Definition),
      List.Forall₂ Valid types listed ∧ (listed.map Prod.fst).Nodup ∧ (listed.map (·.2.name)).Nodup) ∧
    (∀ catalog listed, catalogOf label document = .ok catalog → List.Forall₂ Valid types listed →
      catalog.Lists (listed.map fun (identifier, definition) => (identifier, .checked definition))) ∧
    (∀ error, catalogOf label document = .error error → ∃ index value listed,
      Faulty types index ∧ (∀ earlier < index, ¬ Faulty types earlier) ∧ types[index]? = some value ∧
        List.Forall₂ Valid (types.take index) listed ∧ Blames label index listed value error ∧
        ∃ rest, error.message = DocumentError.entryLabel label index ++ rest) ∧
    ∀ text, Yaml.read text = .ok document → load label text = catalogOf label document := by
  have loaded {catalog : Catalog} (done : catalogOf label document = .ok catalog) :
      ∃ listed, List.Forall₂ Valid types listed ∧ catalog.Holds listed := by
    rw [catalogOf_eq lists] at done
    rcases register_cases Catalog.holds_empty label 0 types with
      ⟨listed, extended, all, holds, ran⟩ | ⟨_, _, _, _, _, _, _, _, _, _, ran⟩
    · cases done.symm.trans ran
      exact ⟨listed, all, holds⟩
    · cases done.symm.trans ran
  have failed {error : DocumentError} (refused : catalogOf label document = .error error) :
      ∃ front value back listed, types = front ++ value :: back ∧ List.Forall₂ Valid front listed ∧
        (listed.map Prod.fst).Nodup ∧ (listed.map (·.2.name)).Nodup ∧ Blames label front.length listed value error := by
    rw [catalogOf_eq lists] at refused
    rcases register_cases Catalog.holds_empty label 0 types with
      ⟨_, _, _, _, ran⟩ | ⟨front, value, back, listed, reached, _, same, all, holds, blames, ran⟩
    · cases refused.symm.trans ran
    · cases refused.symm.trans ran
      rw [Nat.zero_add] at blames
      exact ⟨front, value, back, listed, same, all, holds.identifiers_nodup, holds.names_nodup, blames⟩
  refine ⟨⟨fun succeeds => ?_, fun valid => ?_⟩, ?_, ?_, ?_⟩
  · obtain ⟨catalog, done⟩ := succeeds
    obtain ⟨listed, all, holds⟩ := loaded done
    exact ⟨listed, all, holds.identifiers_nodup, holds.names_nodup⟩
  · obtain ⟨listed, all, identifiers, names⟩ := valid
    cases outcome : catalogOf label document with
    | ok catalog => exact ⟨catalog, rfl⟩
    | error error =>
      obtain ⟨front, value, back, reached, rfl, valid, -, -, blames⟩ := failed outcome
      have inside : front.length < (front ++ value :: back).length := by simp
      have sound := not_faulty all identifiers names [] inside
      rw [List.append_nil] at sound
      exact absurd (blames.faulty valid) sound
  · intro catalog listed done all
    obtain ⟨reached, valid, holds⟩ := loaded done
    have unique : Relator.RightUnique Valid := fun _ _ _ => Valid.unique
    cases unique.forall₂ all valid
    rw [← holds.entries]
    exact holds.consistent.lists
  · intro error refused
    obtain ⟨front, value, back, listed, rfl, all, identifiers, names, blames⟩ := failed refused
    refine ⟨front.length, value, listed, blames.faulty all, fun earlier before => not_faulty all identifiers names _ before,
      by simp, by simpa using all, blames, blames.message⟩
  · intro text read
    rw [load, read]

/-- Of two documents the second one lists one more type, whose name is taken. -/
theorem documents_load_all_or_nothing_of_pets :
    let pet : Value := .map [(.text "identifier", .text "pet"), (.text "kind", .text "product"), (.text "name", .text "Pet"),
      (.text "fields", .map [(.text "id", .text "!integer")])]
    let color : Value := .map [(.text "kind", .text "sum"), (.text "name", .text "Color"), (.text "identifier", .null),
      (.text "values", .list [.text "red"])]
    let other : Value := .map [(.text "kind", .text "scalar"), (.text "name", .text "Pet"), (.text "fragment", .map [])]
    let document (types : List Value) : Value := .map [(.text "types", .list types)]
    Types (document [pet, color]) [pet, color] ∧ Types (document [pet, color, other]) [pet, color, other] ∧
      (∃ catalog, catalogOf "pets.yaml" (document [pet, color]) = .ok catalog ∧
        catalog.Lists [("pet", .checked (.product "Pet" [⟨"id", .text "!integer", none, none, none⟩] none none
          "application/json")), ("Color", .checked (.sum "Color" ["red"]))]) ∧
      ∃ error, catalogOf "pets.yaml" (document [pet, color, other]) = .error error ∧
        error.message = "pets.yaml: types[2]: Duplicate type name 'Pet' (already used by 'pet')" ∧
        ∃ index, Faulty [pet, color, other] index ∧ ∀ earlier < index, ¬ Faulty [pet, color, other] earlier := by
  intro pet color other document
  have two : Types (document [pet, color]) [pet, color] := ⟨_, _, rfl, rfl, rfl⟩
  have three : Types (document [pet, color, other]) [pet, color, other] := ⟨_, _, rfl, rfl, rfl⟩
  let listed : List (String × Definition) :=
    [("pet", .product "Pet" [⟨"id", .text "!integer", none, none, none⟩] none none "application/json"),
      ("Color", .sum "Color" ["red"])]
  have all : List.Forall₂ Valid [pet, color] listed :=
    .cons ⟨some "pet", ⟨_, rfl, .text rfl, rfl⟩, rfl, by decide +kernel⟩
      (.cons ⟨none, ⟨_, rfl, .null rfl, rfl⟩, rfl, by decide +kernel⟩ .nil)
  obtain ⟨succeeds, shows, -, -⟩ := documents_load_all_or_nothing "pets.yaml" _ _ two
  obtain ⟨-, -, blames, -⟩ := documents_load_all_or_nothing "pets.yaml" _ _ three
  obtain ⟨catalog, done⟩ := succeeds.mpr ⟨listed, all, by decide +kernel, by decide +kernel⟩
  have refused : catalogOf "pets.yaml" (document [pet, color, other]) =
      .error (.conflict "pets.yaml" 2 (.duplicateName (.text "Pet") "pet")) := rfl
  obtain ⟨index, _, _, faulty, first, -⟩ := blames _ refused
  exact ⟨two, three, ⟨catalog, done, shows catalog listed done all⟩, _, refused, by decide +kernel, index, faulty, first⟩

end Document

end Schemata
