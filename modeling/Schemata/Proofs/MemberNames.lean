import Schemata.Proofs.CheckedDefinitions
import Schemata.Proofs.PointwiseParameters
import Schemata.Proofs.RequiredProperties

/-! The names of members that are written as a mapping. An entry of the mapping gives its member a name: the one that
its details say, or else its key. The properties of a product and the records of an input have these names, so they
keep the keys of the mapping exactly if no entry says another name in its details. -/

namespace Schemata

namespace Value

/-- The text that a value is read as. Bytes are what they encode. -/
def text? : Value → Option String
  | .text written => some written
  | .bytes octets => (String.fromUTF8? ⟨octets.toArray⟩).map fun decoded => Text.ofChars decoded.toList
  | _ => none

theorem isText_iff {key : Value} {name : String} : key.isText name = true ↔ key = .text name := by
  cases key <;> simp [isText]

theorem sameKey_text {key : Value} {name : String} : key.sameKey (.text name) = true ↔ key = .text name := by
  cases key with
  | float value =>
    simp only [sameKey, keyForm]
    cases value.toInt? <;> simp
  | _ => simp [sameKey, keyForm]

theorem sameKey_of_text {key : Value} {name : String} : (Value.text name).sameKey key = true ↔ key = .text name := by
  cases key with
  | float value =>
    simp only [sameKey, keyForm]
    cases value.toInt? <;> simp
  | _ => simp [sameKey, keyForm, eq_comm]

theorem find?_put (entries : List (Value × Value)) (key value : Value) (name : String) :
    find? (put entries key value) name = if key.isText name then some value else find? entries name := by
  induction entries with
  | nil => rfl
  | cons head rest ih =>
    obtain ⟨old, kept⟩ := head
    simp only [put]
    split
    next same =>
      simp only [find?]
      by_cases named : key.isText name = true
      · have replaced : old = .text name := by
          rw [isText_iff.mp named] at same
          exact sameKey_text.mp same
        simp [named, isText_iff.mpr replaced]
      · have other : old.isText name = false := by
          rw [← Bool.not_eq_true]
          intro own
          rw [isText_iff.mp own] at same
          exact named (isText_iff.mpr (sameKey_of_text.mp same))
        simp [named, other]
    next different =>
      simp only [find?, ih]
      by_cases named : key.isText name = true
      · have passed : old.isText name = false := by
          rw [← Bool.not_eq_true]
          intro own
          exact different (by rw [isText_iff.mp own, isText_iff.mp named]; exact sameKey_text.mpr rfl)
        simp [named, passed]
      · simp [named]

theorem find?_append (front back : List (Value × Value)) (name : String) :
    find? (front ++ back) name = (find? front name).or (find? back name) := by
  induction front with
  | nil => rfl
  | cons head rest ih =>
    obtain ⟨key, value⟩ := head
    simp only [List.cons_append, find?]
    split
    · rfl
    · exact ih

/-- Of entries given one after another the last one of a name counts. -/
theorem find?_ofEntries (entries : List (Value × Value)) (name : String) :
    find? (ofEntries entries) name = find? entries.reverse name := by
  induction entries using List.reverseRecOn with
  | nil => rfl
  | append_singleton entries entry ih =>
    obtain ⟨key, value⟩ := entry
    rw [ofEntries, List.foldl_append, ← ofEntries, List.foldl_cons, List.foldl_nil, find?_put, ih, List.reverse_concat]
    rfl

end Value

namespace Check

/-- The name that an entry gives to its member: the one in its details, the last if there were several, or else its
key. -/
def givenName (entry : Value × Value) : Value :=
  ((entry.2.entries?.bind fun details => Value.find? details.reverse "name")).getD entry.1

def KeepsKey (entry : Value × Value) : Prop :=
  ∃ key, entry.1 = .text key ∧
    ∀ details, entry.2.entries? = some details →
      ∀ name, Value.find? details.reverse "name" = some name → name.text? = some key

theorem keepsKey_iff {entry : Value × Value} :
    KeepsKey entry ↔ ∃ key, entry.1 = .text key ∧ (givenName entry).text? = some key := by
  obtain ⟨given, value⟩ := entry
  refine exists_congr fun key => and_congr_right fun text => ?_
  cases text
  have own : (Value.text key).text? = some key := rfl
  cases mapping : value.entries? with
  | none => simp [givenName, mapping, own]
  | some details => cases named : Value.find? details.reverse "name" <;> simp [givenName, mapping, named, own]

theorem text_eq_ok {place : List Step} {value : Value} {name : String} :
    text place value = .ok name ↔ value.text? = some name := by
  cases value with
  | bytes octets =>
    simp only [text, Value.text?]
    cases String.fromUTF8? ⟨octets.toArray⟩ <;> simp [Checked.fail]
  | _ => simp [text, Value.text?, Checked.fail]

theorem find?_memberOfEntry (entry : Value × Value) :
    ∃ data, (memberOfEntry entry).entries? = some data ∧ Value.find? data "name" = some (givenName entry) := by
  obtain ⟨key, value⟩ := entry
  simp only [memberOfEntry, givenName]
  cases value.entries? with
  | none => exact ⟨_, rfl, rfl⟩
  | some details =>
    refine ⟨_, rfl, ?_⟩
    rw [Value.find?_ofEntries, List.reverse_cons, Value.find?_append, Option.bind_some]
    cases Value.find? details.reverse "name" <;> rfl

/-- Members that are checked one by one, by a check that reads the name of a member under `name`. -/
theorem named_of_members {check : List Step → Value → Checked α} {nameOf : α → String} {place : List Step}
    {value : Value} {entries : List (Value × Value)} {results : List α}
    (reads : ∀ place member data result, Value.entries? member = some data → check place member = .ok result →
      ∃ name, Value.find? data "name" = some name ∧ name.text? = some (nameOf result))
    (mapping : value.entries? = some entries) (checked : members check place value = .ok results) :
    List.Forall₂ (fun entry name => (givenName entry).text? = some name) entries (results.map nameOf) := by
  have listed : members check place value = Checked.each check place (entries.map memberOfEntry) := by
    simp only [members, expandMembers, mapping]
    rfl
  rw [listed] at checked
  rw [List.forall₂_map_right_iff]
  refine (List.forall₂_map_left_iff.mp (Checked.of_each checked)).imp fun entry result own => ?_
  obtain ⟨inside, own⟩ := own
  obtain ⟨data, found, named⟩ := find?_memberOfEntry entry
  obtain ⟨name, again, read⟩ := reads inside _ data result found own
  cases named.symm.trans again
  exact read

/-- A required text is read from what is there under its name. -/
private theorem given_text {place : List Step} {data : List (Value × Value)} {key name : String}
    (checked : required text place data key = .ok name) :
    ∃ given, Value.find? data key = some given ∧ given.text? = some name := by
  obtain ⟨given, found, read⟩ := required_eq_ok checked
  exact ⟨given, found, text_eq_ok.mp read⟩

private theorem field_name {place : List Step} {member : Value} {data : List (Value × Value)} {result : Field}
    (found : member.entries? = some data) (checked : field place member = .ok result) :
    ∃ name, Value.find? data "name" = some name ∧ name.text? = some result.name := by
  obtain ⟨_, again, named, -⟩ := field_eq_ok.mp checked
  cases found.symm.trans again
  exact given_text named

private theorem parameter_name {place : List Step} {member : Value} {data : List (Value × Value)} {result : Parameter}
    (found : member.entries? = some data) (checked : parameter place member = .ok result) :
    ∃ name, Value.find? data "name" = some name ∧ name.text? = some result.name := by
  obtain ⟨_, again, named, -⟩ := parameter_eq_ok.mp checked
  cases found.symm.trans again
  exact given_text named

end Check

namespace Definition

def membersKey? : Kind → Option String
  | .product => some "fields"
  | .input => some "parameters"
  | .scalar | .sum | .map | .union => none

def memberNames : Definition → List String
  | .product _ fields .. => fields.map (·.name)
  | .input _ parameters => parameters.map (·.name)
  | .scalar .. | .sum .. | .map .. | .union .. => []

/-- A definition was read from data in which its members are the entries of a mapping. -/
def ReadFrom (definition : Definition) (entries : List (Value × Value)) : Prop :=
  ∃ value data key listed, check value = .ok definition ∧ value.entries? = some data ∧
    membersKey? definition.kind = some key ∧ Value.find? data key = some listed ∧ listed.entries? = some entries

variable {definition : Definition} {entries : List (Value × Value)}

/-- There is one member for each entry, in order, with the name that the entry gives. -/
theorem ReadFrom.named (read : definition.ReadFrom entries) :
    List.Forall₂ (fun entry name => (Check.givenName entry).text? = some name) entries definition.memberNames := by
  obtain ⟨value, data, key, listed, checked, found, own, listing, mapping⟩ := read
  obtain ⟨_, again, -, stated⟩ := check_eq_ok.mp checked
  cases found.symm.trans again
  cases definition with
  | scalar | sum | map | union => cases own
  | product name fields title description contentType =>
    cases own
    obtain ⟨-, members, -⟩ := stated
    rw [Check.defaulted, listing] at members
    exact Check.named_of_members (fun _ _ _ _ => Check.field_name) mapping members
  | input name parameters =>
    cases own
    obtain ⟨-, members⟩ := stated
    rw [Check.defaulted, listing] at members
    exact Check.named_of_members (fun _ _ _ _ => Check.parameter_name) mapping members

/-- The names of the members are the keys of the mapping exactly if every entry keeps its key. -/
theorem ReadFrom.names_eq_keys_iff (read : definition.ReadFrom entries) :
    definition.memberNames.map .text = entries.map Prod.fst ↔ ∀ entry ∈ entries, Check.KeepsKey entry := by
  have named := read.named
  clear read
  generalize definition.memberNames = names at named ⊢
  induction named with
  | nil => simp
  | @cons entry name rest names own _ ih =>
    rw [List.forall_mem_cons, List.map_cons, List.map_cons, List.cons.injEq]
    refine and_congr ⟨fun same => Check.keepsKey_iff.mpr ⟨name, same.symm, own⟩, fun keeps => ?_⟩ ih
    obtain ⟨key, same, again⟩ := Check.keepsKey_iff.mp keeps
    cases own.symm.trans again
    exact same.symm

/-- So are the names without their repetitions, as no key is there twice. -/
theorem ReadFrom.distinct_names_eq_keys_iff (read : definition.ReadFrom entries)
    (distinct : (entries.map Prod.fst).Nodup) :
    definition.memberNames.eraseDups.map .text = entries.map Prod.fst ↔ ∀ entry ∈ entries, Check.KeepsKey entry := by
  rw [← read.names_eq_keys_iff]
  constructor
  · intro same
    have length := congrArg List.length same
    rw [List.length_map, List.length_map, read.named.length_eq] at length
    have kept : definition.memberNames.eraseDups.Subperm definition.memberNames :=
      List.subperm_of_subset (nodup_eraseDups _) fun _ => List.mem_eraseDups.mp
    have unrepeated := (kept.perm_of_length_le length.ge).nodup_iff.mp (nodup_eraseDups _)
    rw [← same, eraseDups_of_nodup unrepeated]
  · intro same
    have unrepeated : definition.memberNames.Nodup := by
      rw [← same] at distinct
      exact distinct.of_map _
    rw [eraseDups_of_nodup unrepeated, same]

theorem memberNames_of_product (product : definition.kind = .product) :
    definition.memberNames = definition.fields.map (·.name) := by
  cases definition with
  | product => rfl
  | scalar | sum | map | union | input => cases product

end Definition

theorem ShowsParameters.names {shows : TypeSpec → Schema → Prop} {definition : Definition}
    {records : List (ParameterRecord Schema)} (shown : ShowsParameters shows (.checked definition) records) :
    records.map (·.name) = definition.memberNames.map .text := by
  cases definition with
  | scalar | product | sum | map | union => exact shown.elim
  | input name parameters =>
    rw [Definition.memberNames, List.map_map]
    induction shown with
    | nil => rfl
    | cons own _ ih =>
      obtain ⟨location, spec, schema, -, -, rfl⟩ := own
      rw [List.map_cons, List.map_cons, ih]
      rfl

namespace Compiler

variable {compiler : Compiler} {given : Referent} {entry : Entry} {mode : Mode}

/-- The references of the records that a call answers were compiled from the empty chain. -/
theorem Input.shown {compiled : Compiled} (input : compiler.Input given entry)
    (answered : (compiler.compile given mode).outcome = .ok compiled) :
    ∃ records, compiled = .parameters records ∧
      ShowsParameters ((compiler.setting mode).Compiles []) entry records := by
  obtain ⟨progress, run, -⟩ := compile_ok answered
  rw [input.ofReferent, ← bind_assoc, ← Walk.parameters_eq] at run
  obtain ⟨records, _, ran, last⟩ := Walk.run_bind_ok.mp run
  obtain ⟨rfl, rfl⟩ := Walk.run_pure_ok.mp last
  have ensures := Rules.Ensures.parameters entry (fun _ _ _ _ _ => id)
    fun spec _ => (compiler.setting mode).ensures_compiles [] spec
  exact ⟨records, rfl, (ensures _ records progress trivial ran).2.2⟩

/-- The records of an input are named like its parameters. -/
theorem Input.names {definition : Definition} {compiled : Compiled} (input : compiler.Input given (.checked definition))
    (answered : (compiler.compile given mode).outcome = .ok compiled) :
    ∃ records, compiled = .parameters records ∧ records.map (·.name) = definition.memberNames.map .text := by
  obtain ⟨records, same, shown⟩ := input.shown answered
  exact ⟨records, same, shown.names⟩

/-- A definition whose members are written as a mapping has one member for each entry, in order, named as the details
of the entry say or else by its key. These are the names of the properties wherever its body is written, and of the
records of its parameters. They are the keys of the mapping exactly if the details of no entry say another name. -/
theorem members_keep_keys_iff (catalog : Catalog) (registry : Registry) (mode : Mode) (base? : Option String)
    (history : List Action) :
    let compiler := (new catalog registry mode base?).after history
    let keeps (definition : Definition) (names : List Value) : Prop :=
      ∀ entries, definition.ReadFrom entries → (entries.map Prod.fst).Nodup →
        (names = entries.map Prod.fst ↔ ∀ entry ∈ entries, Check.KeepsKey entry)
    let lists (definition : Definition) (parts : Schema.Parts) (properties : Record Schema) : Prop :=
      definition.Lists parts properties ∧
        (definition.kind = .product → keeps definition ((Record.names properties).map .text))
    (∀ (definition : Definition) entries, definition.ReadFrom entries →
      List.Forall₂ (fun entry name => (Check.givenName entry).text? = some name) entries definition.memberNames ∧
        (definition.memberNames.map .text = entries.map Prod.fst ↔ ∀ entry ∈ entries, Check.KeepsKey entry)) ∧
    (∀ called definition body, definition.kind = .product → compiler.WritesBody called definition body →
      ∃ parts properties, body = .keywords parts ∧ lists definition parts properties) ∧
    (∀ given called definition compiled, compiler.Input given (.checked definition) →
      (compiler.compile given called).outcome = .ok compiled →
        ∃ records, compiled = .parameters records ∧ records.map (·.name) = definition.memberNames.map .text ∧
          keeps definition (records.map (·.name))) ∧
    (∀ dialect name body, (name, body) ∈ compiler.table dialect →
      body.Everywhere (Schema.Declares fun definition parts properties =>
        Meets catalog history (.checked definition) ∧ lists definition parts properties)) ∧
    ∀ given called compiled, (compiler.compile given called).outcome = .ok compiled → ∀ schema ∈ compiled.schemas,
      schema.Everywhere (Schema.Declares fun definition parts properties =>
        Meets catalog (history ++ [.compile given called]) (.checked definition) ∧
          lists definition parts properties) := by
  intro compiler keeps lists
  have listed {definition : Definition} {parts : Schema.Parts} {properties : Record Schema}
      (own : definition.Lists parts properties) : lists definition parts properties := by
    refine ⟨own, fun product entries read distinct => ?_⟩
    rw [own.names, ← Definition.memberNames_of_product product]
    exact read.distinct_names_eq_keys_iff distinct
  have declared {met : Definition → Prop} {schema : Schema} (models : schema.Models met) :
      schema.Everywhere (Schema.Declares fun definition parts properties =>
        met definition ∧ lists definition parts properties) :=
    Schema.Everywhere.imp models fun _ declares =>
      declares.imp fun definition parts properties own => ⟨own.1, listed own.2⟩
  obtain ⟨tables, answers⟩ := modelled catalog registry mode base? history
  refine ⟨fun definition entries read => ⟨read.named, read.names_eq_keys_iff⟩, ?_, ?_, ?_, ?_⟩
  · intro called definition body product writes
    have named : definition.kind.isNamed = true := by rw [product]; rfl
    obtain ⟨parts, properties, same, own⟩ := (writes.compiled named).lists product
    exact ⟨parts, properties, same, listed own⟩
  · intro given called definition compiled input answered
    obtain ⟨records, same, names⟩ := input.names answered
    refine ⟨records, same, names, fun entries read _ => ?_⟩
    rw [names]
    exact read.names_eq_keys_iff
  · exact fun dialect name body member => declared (tables dialect name body member)
  · exact fun given called compiled answered schema member => declared (answers given called compiled answered schema member)

/-- A product and an input, with plain references and details mixed. Details may repeat the key. -/
theorem members_keep_keys_iff_of_pet :
    let fields : List (Value × Value) := [(.text "id", .text "!integer"),
      (.text "coat", .map [(.text "type", .text "string"), (.text "enum", .list [.text "long", .text "short"])]),
      (.text "owners", .list [.text "string"]),
      (.text "tag", .map [(.text "title", .text "Tag"), (.text "name", .text "tag"), (.text "type", .text "string?")])]
    let parameters : List (Value × Value) := [(.text "limit", .map [(.text "type", .text "query:integer")]),
      (.text "id", .text "path:!integer")]
    let pet : Definition := .product "Pet" [⟨"id", .text "!integer", none, none, none⟩,
      ⟨"coat", .text "string", none, none, some ["long", "short"]⟩, ⟨"owners", .list [.text "string"], none, none, none⟩,
      ⟨"tag", .text "string?", some "Tag", none, none⟩] none none "application/json"
    let search : Definition := .input "Search" [⟨"limit", .text "query:integer", none⟩, ⟨"id", .text "path:!integer", none⟩]
    let compiler := (new .empty .builtins .jsonSchema none).after []
    pet.ReadFrom fields ∧ search.ReadFrom parameters ∧
      (∃ parts properties, compiler.WritesBody .jsonSchema pet (.keywords parts) ∧
        Record.find? parts "properties" = some (.members properties) ∧
        (Record.names properties).map .text = fields.map Prod.fst) ∧
      ∃ records, (compiler.compile (.entry (.checked search)) .openApi).outcome = .ok (.parameters records) ∧
        records.map (·.name) = parameters.map Prod.fst := by
  intro fields parameters pet search compiler
  obtain ⟨-, bodies, calls, -, -⟩ := members_keep_keys_iff .empty .builtins .jsonSchema none []
  have readPet : pet.ReadFrom fields :=
    ⟨.map [(.text "kind", .text "product"), (.text "name", .text "Pet"), (.text "fields", .map fields)], _, "fields", _,
      rfl, rfl, rfl, rfl, rfl⟩
  have readSearch : search.ReadFrom parameters :=
    ⟨.map [(.text "kind", .text "input"), (.text "name", .text "Search"), (.text "parameters", .map parameters)], _,
      "parameters", _, rfl, rfl, rfl, rfl, rfl⟩
  have keepsFields : ∀ entry ∈ fields, Check.KeepsKey entry := by
    simp only [fields, List.forall_mem_cons, Check.keepsKey_iff]
    exact ⟨⟨"id", rfl, rfl⟩, ⟨"coat", rfl, rfl⟩, ⟨"owners", rfl, rfl⟩, ⟨"tag", rfl, rfl⟩, nofun⟩
  have keepsParameters : ∀ entry ∈ parameters, Check.KeepsKey entry := by
    simp only [parameters, List.forall_mem_cons, Check.keepsKey_iff]
    exact ⟨⟨"limit", rfl, rfl⟩, ⟨"id", rfl, rfl⟩, nofun⟩
  obtain ⟨body, writes⟩ : ∃ body, compiler.WritesBody .jsonSchema pet body := single_of_isSome (by decide +kernel)
  obtain ⟨parts, properties, rfl, own, kept⟩ := bodies .jsonSchema pet body rfl writes
  have answers : (compiler.compile (.entry (.checked search)) .openApi).outcome.toOption.isSome = true := by decide +kernel
  obtain ⟨compiled, found⟩ := Option.isSome_iff_exists.mp answers
  have answered := toOption_eq_some.mp found
  obtain ⟨records, rfl, -, named⟩ := calls _ .openApi search compiled .definition answered
  refine ⟨readPet, readSearch, ⟨parts, properties, writes, own.declared, ?_⟩, records, answered, ?_⟩
  · exact (kept rfl fields readPet (by simp [fields])).mpr keepsFields
  · exact (named parameters readSearch (by simp [parameters])).mpr keepsParameters

/-- The details of a field say another name, and the property has that name instead of the key. -/
theorem renamed_field_loses_key :
    let fields : List (Value × Value) :=
      [(.text "a", .map [(.text "name", .text "b"), (.text "type", .text "string")])]
    let definition : Definition := .product "P" [⟨"b", .text "string", none, none, none⟩] none none "application/json"
    let compiler := new .empty .builtins .jsonSchema none
    definition.ReadFrom fields ∧ ∃ parts properties, compiler.WritesBody .jsonSchema definition (.keywords parts) ∧
      Record.find? parts "properties" = some (.members properties) ∧ Record.names properties = ["b"] ∧
      (Record.names properties).map .text ≠ fields.map Prod.fst := by
  intro fields definition compiler
  obtain ⟨body, writes⟩ : ∃ body, compiler.WritesBody .jsonSchema definition body := single_of_isSome (by decide +kernel)
  obtain ⟨parts, properties, rfl, lists⟩ := (writes.compiled rfl).lists rfl
  have names : Record.names properties = ["b"] := lists.names
  refine ⟨⟨.map [(.text "kind", .text "product"), (.text "name", .text "P"), (.text "fields", .map fields)], _, "fields", _,
    rfl, rfl, rfl, rfl, rfl⟩, parts, properties, writes, lists.declared, names, ?_⟩
  rw [names]
  simp [fields]

end Compiler

end Schemata
