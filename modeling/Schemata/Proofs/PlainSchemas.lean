import Schemata.Proofs.CompileErrors
import Schemata.Proofs.DeclaredErrors
import Schemata.Proofs.PrintedValues
import Schemata.Proofs.RenderedReferences
import Schemata.Proofs.RequiredProperties

/-! Compilations over plain data. Where all definitions are plain when they are written out, what is compiled is plain,
and a failure is one that is declared and that a message can quote. -/

namespace Schemata

namespace Value

@[simp]
theorem arePlain_eq (items : List Value) : arePlain items = items.all isPlain := by
  induction items with
  | nil => rfl
  | cons item rest ih => rw [arePlain, ih, List.all_cons]

theorem entriesArePlain_iff {entries : List (Value × Value)} : entriesArePlain entries = true ↔
    ∀ entry ∈ entries, (∃ name, entry.1 = .text name) ∧ entry.2.isPlain = true := by
  induction entries with
  | nil => simp [entriesArePlain]
  | cons entry rest ih =>
    obtain ⟨key, value⟩ := entry
    cases key <;> simp [entriesArePlain, ih]

theorem isPlain_record {entries : Record Value} :
    (record entries).isPlain = true ↔ ∀ entry ∈ entries, entry.2.isPlain = true := by
  rw [record, isPlain, entriesArePlain_iff, List.forall_mem_map]
  exact forall₂_congr fun entry member => ⟨And.right, fun plain => ⟨⟨entry.1, rfl⟩, plain⟩⟩

theorem isPlain_texts (values : List String) : (texts values).isPlain = true := by
  simp [texts, isPlain]

/-- Plain data holds itself nowhere. -/
theorem untied_of_isPlain {value : Value} (plain : value.isPlain = true) : value.untied = value := by
  cases value with
  | knot => cases plain
  | _ => rfl

theorem isPlain_of_members? {value : Value} {items : List Value} (plain : value.isPlain = true)
    (listed : value.members? = some items) : ∀ item ∈ items, item.isPlain = true := by
  rw [members?, untied_of_isPlain plain] at listed
  cases value with
  | text value =>
    cases listed
    simp [isPlain]
  | list items =>
    cases listed
    simpa [isPlain] using plain
  | pair first second =>
    cases listed
    simpa [isPlain] using plain
  | map entries =>
    cases listed
    intro key member
    obtain ⟨entry, held, rfl⟩ := List.mem_map.mp member
    obtain ⟨⟨name, same⟩, -⟩ := entriesArePlain_iff.mp plain entry held
    rw [same]
    rfl
  | bytes | set => cases plain
  | _ => cases listed

end Value

/-- A misreading that can be reported: of plain data, and of no lists that hold each other. -/
structure Misreading.IsPlain (misreading : Misreading) : Prop where
  given : misreading.given.isPlain = true
  fault : misreading.fault ≠ .endless

namespace TypeSpec

theorem marks_ne_endless {inField : Bool} {text : List Char} {fault : ReferenceFault}
    (refused : marks inField text = .error fault) : fault ≠ .endless := by
  simp only [marks] at refused
  repeat' split at refused
  all_goals cases refused
  all_goals simp

theorem core_ne_endless {text : List Char} {fault : ReferenceFault} (refused : core text = .error fault) :
    fault ≠ .endless := by
  unfold core at refused
  repeat' split at refused
  all_goals cases refused
  all_goals simp

theorem isPlain_of_readChars {inField : Bool} {text : List Char} {misreading : Misreading}
    (refused : readChars inField text = .error misreading) : misreading.IsPlain := by
  fun_induction readChars inField text with
  | case1 inField text fault marked => cases refused; exact ⟨rfl, marks_ne_endless marked⟩
  | case2 inField text required nullable inner marked fault cored => cases refused; exact ⟨rfl, core_ne_endless cored⟩
  | case3 => cases refused
  | case4 inField text required nullable inner marked inside cored smaller ih =>
    cases read : readChars false inside with
    | ok element => rw [read] at refused; cases refused
    | error other =>
      rw [read] at refused
      cases refused
      exact ih read

theorem isPlain_of_read {inField : Bool} {value : Value} {misreading : Misreading} (plain : value.isPlain = true)
    (refused : read inField value = .error misreading) : misreading.IsPlain := by
  fun_induction read inField value with
  | case1 inField text => exact isPlain_of_readChars refused
  | case2 inField item ih =>
    cases read : read false item with
    | ok element => rw [read] at refused; cases refused
    | error other =>
      rw [read] at refused
      cases refused
      exact ih (by simpa [Value.isPlain] using plain) read
  | case3 | case5 | case7 => cases plain
  | case4 | case6 | case8 => cases refused; exact ⟨plain, by simp⟩

end TypeSpec

namespace Parameter

theorem splitLocation_plain {type : Value} (plain : type.isPlain = true) :
    (∃ location rest, splitLocation type = .ok (location, rest) ∧ rest.isPlain = true) ∨
      ∃ misreading, splitLocation type = .error misreading ∧ misreading.IsPlain := by
  cases type with
  | text written =>
    unfold splitLocation
    dsimp only
    split
    · split
      · exact .inl ⟨_, _, rfl, rfl⟩
      · exact .inr ⟨_, rfl, rfl, by simp⟩
    · exact .inl ⟨_, _, rfl, rfl⟩
  | _ => exact .inl ⟨_, _, rfl, plain⟩

theorem isPlain_of_readType {type : Value} {misreading : Misreading} (plain : type.isPlain = true)
    (refused : readType type = .error misreading) : misreading.IsPlain := by
  rcases splitLocation_plain plain with ⟨location, rest, split, own⟩ | ⟨other, split, own⟩
  · cases read : TypeSpec.read true rest with
    | error other =>
      simp only [readType, split, bind, Except.bind, read] at refused
      cases refused
      exact TypeSpec.isPlain_of_read own read
    | ok spec => simp [readType, split, bind, Except.bind, read, pure, Except.pure] at refused
  · simp only [readType, split, bind, Except.bind] at refused
    cases refused
    exact own

end Parameter

def Catalog.IsPlain (catalog : Catalog) : Prop :=
  ∀ definition, .checked definition ∈ catalog.toList → definition.toValue.isPlain = true

namespace Definition

variable {definition : Definition}

theorem isPlain_of_reads (plain : definition.toValue.isPlain = true) {misreading : Misreading}
    (reads : definition.Reads (.error misreading)) : misreading.IsPlain := by
  cases definition with
  | scalar | sum => exact reads.elim
  | product name fields title description contentType =>
    obtain ⟨field, member, refused⟩ := reads
    have listed : (Value.list (fields.map fun field => .record field.toRecord)).isPlain = true :=
      Value.isPlain_record.mp plain ("fields", _) (by simp [toRecord])
    have own : (Value.record field.toRecord).isPlain = true := by
      simp only [Value.isPlain, Value.arePlain_eq, List.all_eq_true, List.forall_mem_map] at listed
      exact listed field member
    exact TypeSpec.isPlain_of_read (Value.isPlain_record.mp own ("type", _) (by simp [Field.toRecord])) refused.symm
  | map name valueType sample =>
    obtain ⟨type, rfl, refused⟩ := reads
    have own := Value.isPlain_record.mp plain ("value_type", type) (by simp [toRecord])
    exact TypeSpec.isPlain_of_read own refused.symm
  | union name alternatives =>
    obtain ⟨type, member, refused⟩ := reads
    have listed : (Value.list alternatives).isPlain = true :=
      Value.isPlain_record.mp plain ("allowed_types", _) (by simp [toRecord])
    rw [Value.isPlain, Value.arePlain_eq, List.all_eq_true] at listed
    exact TypeSpec.isPlain_of_read (listed type member) refused.symm
  | input name parameters =>
    obtain ⟨parameter, member, refused⟩ := reads
    have listed : (Value.list (parameters.map fun parameter => .record parameter.toRecord)).isPlain = true :=
      Value.isPlain_record.mp plain ("parameters", _) (by simp [toRecord])
    have own : (Value.record parameter.toRecord).isPlain = true := by
      simp only [Value.isPlain, Value.arePlain_eq, List.all_eq_true, List.forall_mem_map] at listed
      exact listed parameter member
    have read : Parameter.readType parameter.type = .error misreading := by
      cases same : Parameter.readType parameter.type with
      | ok read => rw [same] at refused; cases refused
      | error other => rw [same] at refused; cases refused; rfl
    exact Parameter.isPlain_of_readType (Value.isPlain_record.mp own ("type", _) (by simp [Parameter.toRecord])) read

end Definition

theorem Misreading.IsPlain.isReported {misreading : Misreading} (plain : misreading.IsPlain) :
    (CompileError.ofMisreading misreading).IsReported :=
  CompileError.isReported_ofMisreading.mpr ⟨plain.fault, (Value.numbers_of_isPlain _ plain.given).1⟩

namespace Setting

variable {setting : Setting} (plain : setting.catalog.IsPlain)

include plain

theorem Explains.isReported {chain : List Name} {spec : TypeSpec} {error : CompileError}
    (explains : setting.Explains chain spec error) : error.IsReported := by
  induction explains with
  | element _ ih | inside _ _ _ _ _ ih => exact ih
  | unclassified classified => exact isReported_of_classify classified
  | nested => rfl
  | endless => trivial
  | misread classified _ reads =>
    exact (Definition.isPlain_of_reads (plain _ (mem_of_classify_eq classified)) reads).isReported

theorem Refuses.isReported {value : Value} (given : value.isPlain = true) {error : CompileError}
    (refuses : setting.Refuses value error) : error.IsReported := by
  cases refuses with
  | misread refused => exact (TypeSpec.isPlain_of_read given refused).isReported
  | reference _ _ explains | mentioned _ _ _ explains => exact Explains.isReported plain explains
  | nullable => rfl
  | parameter _ classified reads =>
    exact (Definition.isPlain_of_reads (plain _ (mem_of_classify_eq classified)) reads).isReported

end Setting

namespace Schema

variable {schema changed : Schema}

theorem isPlain_keywords {parts : Parts} :
    (keywords parts).toValue.isPlain = true ↔ ∀ entry ∈ parts, (partValue entry.2).isPlain = true := by
  rw [toValue, entries_eq_map, Value.isPlain, Value.entriesArePlain_iff, List.forall_mem_map]
  exact forall₂_congr fun entry member => ⟨And.right, fun plain => ⟨⟨entry.1, rfl⟩, plain⟩⟩

theorem isPlain_values {items : List Schema} :
    (partValue (.schemas items)).isPlain = true ↔ ∀ item ∈ items, item.toValue.isPlain = true := by
  simp [partValue, values_eq_map, Value.isPlain]

theorem isPlain_members {items : List (String × Schema)} :
    (partValue (.members items)).isPlain = true ↔ ∀ item ∈ items, item.2.toValue.isPlain = true := by
  rw [partValue, memberEntries_eq_map, Value.isPlain, Value.entriesArePlain_iff, List.forall_mem_map]
  exact forall₂_congr fun entry member => ⟨And.right, fun plain => ⟨⟨entry.1, rfl⟩, plain⟩⟩

theorem isPlain_data {value : Value} : (partValue (.data value)).isPlain = true ↔ value.isPlain = true := by
  rw [partValue]

theorem isPlain_set {key : String} {part : Part Schema} (plain : schema.toValue.isPlain = true)
    (own : (partValue part).isPlain = true) (done : schema.set key part = .ok changed) :
    changed.toValue.isPlain = true := by
  cases schema with
  | data => cases done
  | keywords parts =>
    cases done
    refine isPlain_keywords.mpr fun entry member => ?_
    rcases Record.mem_set member with rfl | old
    · exact own
    · exact isPlain_keywords.mp plain entry old

theorem isPlain_annotate {key : String} {value : Option Value} (plain : schema.toValue.isPlain = true)
    (own : ∀ given, value = some given → given.isPlain = true) (done : schema.annotate key value = .ok changed) :
    changed.toValue.isPlain = true := by
  cases value with
  | none => cases done; exact plain
  | some value => exact isPlain_set plain (isPlain_data.mpr (own value rfl)) done

theorem isPlain_choice {values : Value} (plain : values.isPlain = true) : (choice values).toValue.isPlain = true :=
  isPlain_keywords.mpr (by simp [partValue, plain, Value.isPlain])

theorem isPlain_array (plain : schema.toValue.isPlain = true) : (array schema).toValue.isPlain = true :=
  isPlain_keywords.mpr (by simp [partValue, plain, Value.isPlain])

theorem isPlain_oneOf {alternatives : List Schema} (all : ∀ item ∈ alternatives, item.toValue.isPlain = true) :
    (oneOf alternatives).toValue.isPlain = true :=
  isPlain_keywords.mpr (by simpa using isPlain_values.mpr all)

private theorem isPlain_addNull {part widened : Part Schema} (plain : (partValue part).isPlain = true)
    (done : addNull part = .ok widened) : (partValue widened).isPlain = true := by
  rcases addNull_eq_ok done with ⟨items, rfl, rfl⟩ | ⟨items, listed, rfl⟩
  · refine isPlain_values.mpr fun item member => ?_
    rcases List.mem_append.mp member with old | new
    · exact isPlain_values.mp plain item old
    · cases List.mem_singleton.mp new
      rfl
  · have all := Value.isPlain_of_members? plain listed
    simpa [partValue, Value.isPlain, or_imp, forall_and, null, toValue] using ⟨all, rfl⟩

private theorem isPlain_typeWithNull {type : Value} (plain : type.isPlain = true) :
    (typeWithNull type).isPlain = true := by
  unfold typeWithNull
  split
  next types listed =>
    split
    · exact plain
    · have all : ∀ item ∈ types, item.isPlain = true := by
        rw [Value.items?, Value.untied_of_isPlain plain] at listed
        cases type with
        | list items =>
          cases listed
          simpa [Value.isPlain] using plain
        | _ => cases listed
      simpa [Value.isPlain, or_imp, forall_and] using all
  next => simpa [Value.isPlain] using plain

theorem isPlain_nullable {flagged : Bool} (plain : schema.toValue.isPlain = true)
    (done : schema.nullable? flagged = .ok changed) : changed.toValue.isPlain = true := by
  obtain ⟨parts, rfl, admission⟩ := admission done
  cases admission with
  | alternative found _ added =>
    have own := isPlain_keywords.mp plain _ (Record.mem_of_find? found)
    exact isPlain_set plain (isPlain_addNull own added) rfl
  | wrapped => exact isPlain_keywords.mpr (by simp [partValue, values, plain, Value.isPlain])
  | beside =>
    have isPlain_null : null.toValue.isPlain = true := rfl
    exact isPlain_oneOf (by simpa using ⟨plain, isPlain_null⟩)
  | flagged => exact isPlain_set plain rfl rfl
  | typed _ typed =>
    have own := isPlain_data.mp (isPlain_keywords.mp plain _ (Record.mem_of_find? (find?_of_type? typed)))
    exact isPlain_set plain (isPlain_data.mpr (isPlain_typeWithNull own)) rfl

end Schema

theorem isPlain_of_givenText? {text : Option String} {given : Value} (same : givenText? text = some given) :
    given.isPlain = true := by
  obtain ⟨written, -, rfl⟩ := Option.map_eq_some_iff.mp same
  rfl

section Bodies

variable {setting : Setting}

theorem isPlain_described {title description : Option String} {schema changed : Schema}
    (plain : schema.toValue.isPlain = true)
    (done : schema.described (givenText? title) (givenText? description) = .ok changed) :
    changed.toValue.isPlain = true := by
  obtain ⟨middle, titled, described⟩ := Schema.described_eq_ok.mp done
  have own := Schema.isPlain_annotate plain (fun _ => isPlain_of_givenText?) titled
  exact Schema.isPlain_annotate own (fun _ => isPlain_of_givenText?) described

theorem isPlain_body {properties : List (String × Schema)} {required : List String} {title description : Option String}
    (all : ∀ item ∈ properties, item.2.toValue.isPlain = true) :
    (CompiledField.body (.members properties) (required.map .text) (givenText? title)
      (givenText? description)).toValue.isPlain = true := by
  refine Schema.isPlain_keywords.mpr fun entry member => ?_
  obtain ⟨name, part⟩ := entry
  cases CompiledField.says_of_mem rfl member with
  | type => rfl
  | properties => exact Schema.isPlain_members.mpr all
  | required => exact Schema.isPlain_data.mpr (by simp [Value.isPlain])
  | title given | description given => exact Schema.isPlain_data.mpr (isPlain_of_givenText? given)

/-- The body of a plain definition is plain if the schemas of its references are. -/
theorem Setting.ShowsBody.isPlain {definition : Definition} {body : Schema} (plain : definition.toValue.isPlain = true)
    (shown : setting.ShowsBody (fun _ schema => schema.toValue.isPlain = true) definition body) :
    body.toValue.isPlain = true := by
  cases definition with
  | scalar name fragment =>
    cases shown
    rw [Schema.toValue_ofRecord]
    exact Value.isPlain_record.mp plain ("fragment", .record fragment) (by simp [Definition.toRecord])
  | sum name values => cases shown; exact Schema.isPlain_choice (Value.isPlain_texts values)
  | input => exact shown.elim
  | product name fields title description contentType =>
    obtain ⟨compiled, all, rfl⟩ := shown
    refine isPlain_body (CompiledField.forall_properties (·.toValue.isPlain = true) all fun field compiled own => ?_)
    exact own.keeps (fun _ _ => id) (fun values _ => Schema.isPlain_choice (Value.isPlain_texts values))
      (fun _ _ => Schema.isPlain_nullable) fun _ _ => isPlain_described
  | map name valueType sample =>
    obtain ⟨keywords, shown, annotated⟩ := shown
    refine Schema.isPlain_annotate ?_ (fun given same => ?_) annotated
    · cases valueType with
      | none => cases show keywords = .object from shown; rfl
      | some type =>
        obtain ⟨values, ⟨spec, -, own⟩, done⟩ := shown
        exact Schema.isPlain_set rfl (by rwa [Schema.partValue]) done
    · unfold sampleValue? at same
      split at same
      · cases same
      · cases same
        exact Value.isPlain_record.mp plain ("example", .record sample) (by simp [Definition.toRecord])
  | union name alternatives =>
    obtain ⟨schemas, shown, rfl⟩ := shown
    exact Schema.isPlain_oneOf (forall_of_forall₂ shown fun type schema own => own.elim fun _ shown => shown.2)

end Bodies

def Upkeep.plain : Upkeep where
  property _ _ schema := schema.toValue.isPlain = true
  fits entry := ∃ definition, entry = .checked definition ∧ definition.toValue.isPlain = true
  takes fragment := fragment.isPlain = true
  imp plain _ := plain
  reference _ := rfl
  array := Schema.isPlain_array
  nullable := Schema.isPlain_nullable
  primitive {_ _ fragment} plain := by rwa [Schema.toValue_ofValue]
  scalar fits typed read := by
    obtain ⟨definition, rfl, plain⟩ := fits
    obtain ⟨name, record, rfl, rfl⟩ := Definition.eq_scalar typed read
    rw [Schema.toValue_ofValue]
    exact Value.isPlain_record.mp plain ("fragment", .record record) (by simp [Definition.toRecord])
  body fits shown := by
    obtain ⟨definition, rfl, plain⟩ := fits
    exact Setting.ShowsBody.isPlain plain shown

theorem Registry.builtins_plain : ∀ name fragment, (name, fragment) ∈ builtins.fragments → fragment.isPlain = true := by
  have all : (builtins.fragments.all fun entry => entry.2.isPlain) = true := rfl
  exact fun name fragment member => List.all_eq_true.mp all _ member

/-- The records of a plain input are plain. -/
theorem ShowsParameters.isPlain {definition : Definition} {records : List (ParameterRecord Schema)}
    (shown : ShowsParameters (fun _ schema => schema.toValue.isPlain = true) (.checked definition) records) :
    (Compiled.parameters records).toValue.isPlain = true := by
  suffices every : ∀ record ∈ records, (record.toValue Schema.toValue).isPlain = true by
    rw [Compiled.toValue, Value.isPlain, Value.arePlain_eq, List.all_eq_true, List.forall_mem_map]
    exact every
  cases definition with
  | scalar | product | sum | map | union => exact shown.elim
  | input name parameters =>
    refine forall_of_forall₂ shown ?_
    intro parameter record own
    obtain ⟨location, spec, schema, -, plain, rfl⟩ := own
    refine Value.isPlain_record.mpr fun entry member => ?_
    simp only [ParameterRecord.of, List.mem_append, List.mem_cons, List.not_mem_nil, or_false] at member
    rcases member with (rfl | rfl | rfl | rfl) | listed
    · rfl
    · rfl
    · rfl
    · exact plain
    · split at listed
      next text same =>
        cases List.mem_singleton.mp listed
        exact isPlain_of_givenText? same
      next => cases listed

namespace Compiler

variable {catalog : Catalog} {mode : Mode} {value : Value}

/-- What a fresh compiler over plain definitions answers is plain, and so is its table. -/
theorem isPlain_of_compile (built : catalog.OfDefinitions) (plain : catalog.IsPlain) (base? : Option String)
    {compiled : Compiled}
    (answered : ((new catalog .builtins mode base?).compile (.written value) mode).outcome = .ok compiled) :
    let call := (new catalog .builtins mode base?).compile (.written value) mode
    compiled.toValue.isPlain = true ∧
      (mode.isHoisting = true → ∀ entry ∈ call.compiler.schemasFor mode, entry.2.toValue.isPlain = true) := by
  intro call
  let compiler := new catalog .builtins mode base?
  have fits (entry : Entry) (held : entry ∈ catalog.toList) : Upkeep.plain.fits entry := by
    obtain ⟨definition, rfl⟩ := built.checked held
    exact ⟨definition, rfl, plain definition held⟩
  obtain ⟨progress, run, same⟩ := compile_ok answered
  have begins : Upkeep.plain.Maintains (compiler.setting mode) [] (compiler.start (.written value) mode) :=
    ⟨nofun, fun _ => nofun⟩
  let discipline := Upkeep.plain.maintaining (compiler.setting mode) fits Registry.builtins_plain
  obtain ⟨kept, -, answers⟩ := discipline.ensures_ofReferent (.written value)
    (discipline.receives_of_admits (fun _ => trivial) nofun) _ _ _ begins run
  constructor
  · cases answers with
    | reference read own => exact own
    | input read classified shown =>
      obtain ⟨definition, rfl⟩ := built.checked (mem_of_classify_eq classified)
      exact shown.isPlain
  · intro hoisting entry member
    have own : call.compiler.schemasFor mode = progress.table := by
      rw [show call.compiler = _ from same]
      exact table_setTable_self compiler (compiler.dialect mode) progress.table
    rw [own] at member
    exact (kept.table hoisting entry member).property

/-- Where the definitions are plain and their alternatives are lists, what is written in plain data fails to compile
only with an error that can be reported. -/
theorem isReported_of_compile (built : catalog.OfDefinitions) (regular : catalog.IsRegular) (plain : catalog.IsPlain)
    (given : value.isPlain = true) (base? : Option String) {error : CompileError}
    (failed : ((new catalog .builtins mode base?).compile (.written value) mode).outcome = .error error) :
    error.IsReported := by
  let compiler := new catalog .builtins mode base?
  obtain ⟨progress, run⟩ := run_of_compile_error failed
  have raises := @Setting.raises_ofReferent (compiler.setting mode) built Registry.builtins_isRegular regular value
  exact Setting.Refuses.isReported plain given (raises (compiler.start (.written value) mode) error progress nofun run)

end Compiler

end Schemata
