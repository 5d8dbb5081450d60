import Schemata.Proofs.EmittedReferences
import Schemata.Yaml.Scalar

/-! Readers of references. A reference to a place in its own document is a JSON Pointer behind a number sign: tokens
with a slash before each, in which `~1` is a slash and `~0` a tilde, and as in any fragment a percent sign with two
hexadecimal digits is a byte. Tokens that are merely put one after another are read back if nothing in them has to
be escaped, and never otherwise. -/

namespace Schemata

namespace Pointer

/-- The bytes that a fragment stands for. -/
def bytes? : List Char → Option (List UInt8)
  | [] => some []
  | c :: rest =>
    if c = '%' then
      match rest with
      | high :: low :: rest =>
        (Yaml.Scalar.hexNumber? [high, low]).bind fun byte => (bytes? rest).map (UInt8.ofNat byte :: ·)
      | _ => none
    else (bytes? rest).map (String.utf8EncodeChar c ++ ·)

def decode? (fragment : List Char) : Option String :=
  (bytes? fragment).bind fun bytes => String.fromUTF8? bytes.toByteArray

def unescape? : List Char → Option (List Char)
  | [] => some []
  | c :: rest =>
    if c = '~' then
      match rest with
      | '0' :: rest => (unescape? rest).map ('~' :: ·)
      | '1' :: rest => (unescape? rest).map ('/' :: ·)
      | _ => none
    else (unescape? rest).map (c :: ·)

def tokens? : List Char → Option (List String)
  | [] => some []
  | c :: rest => if c = '/' then (rest.splitOn '/').mapM fun token => (unescape? token).map String.ofList else none

/-- The tokens of a reference to a place in its own document. -/
def read? (reference : String) : Option (List String) :=
  match reference.toList with
  | '#' :: fragment => (decode? fragment).bind fun pointer => tokens? pointer.toList
  | _ => none

end Pointer

namespace Value

/-- A member of an object, or an item of a list by its number. -/
def step? (value : Value) (token : String) : Option Value :=
  match value.untied with
  | .map entries => find? entries token
  | .list items => token.toNat?.bind fun index => if toString index = token then items[index]? else none
  | _ => none

def follow? (value : Value) (tokens : List String) : Option Value := tokens.foldlM step? value

/-- The place in a document that a reference in it leads to. -/
def resolve? (document : Value) (reference : String) : Option Value :=
  (Pointer.read? reference).bind document.follow?

theorem follow?_append (value : Value) (first second : List String) :
    value.follow? (first ++ second) = (value.follow? first).bind fun inner => inner.follow? second :=
  List.foldlM_append

end Value

namespace Pointer

def spell (tokens : List (List Char)) : List Char := tokens.flatMap fun token => '/' :: token

/-- Nothing in a token has to be escaped. -/
def IsPlain (token : List Char) : Prop := '/' ∉ token ∧ '~' ∉ token ∧ '%' ∉ token

private theorem cons_intercalate {tokens : List (List Char)} (some : tokens ≠ []) :
    '/' :: ['/'].intercalate tokens = spell tokens := by
  induction tokens with
  | nil => exact absurd rfl some
  | cons token rest ih =>
    cases rest with
    | nil => simp [spell]
    | cons next rest =>
      rw [List.intercalate_cons_cons, spell, List.flatMap_cons, ← spell, ← ih (by simp)]
      simp

private theorem spell_splitOn (text : List Char) : spell (text.splitOn '/') = '/' :: text := by
  rw [← cons_intercalate (List.splitOn_ne_nil _ _), List.intercalate_splitOn]

private theorem bytes?_plain {text : List Char} (plain : '%' ∉ text) :
    bytes? text = some (text.flatMap String.utf8EncodeChar) := by
  induction text with
  | nil => rfl
  | cons c rest ih =>
    rw [List.mem_cons, not_or] at plain
    unfold bytes?
    rw [if_neg (Ne.symm plain.1), ih plain.2]
    rfl

theorem decode?_plain {text : List Char} (plain : '%' ∉ text) : decode? text = some (String.ofList text) := by
  have valid : (text.flatMap String.utf8EncodeChar).toByteArray.IsValidUTF8 := ⟨text, rfl⟩
  rw [decode?, bytes?_plain plain, Option.bind_some, String.fromUTF8?, dif_pos valid]
  rfl

theorem unescape?_plain {token : List Char} (plain : '~' ∉ token) : unescape? token = some token := by
  induction token with
  | nil => rfl
  | cons c rest ih =>
    rw [List.mem_cons, not_or] at plain
    unfold unescape?
    rw [if_neg (Ne.symm plain.1), ih plain.2]
    rfl

private def size (text : List Char) : Nat := (text.flatMap String.utf8EncodeChar).length

private theorem size_cons (c : Char) (text : List Char) : size (c :: text) = c.utf8Size + size text := by
  rw [size, List.flatMap_cons, List.length_append, String.length_utf8EncodeChar, size]

private theorem size_append (first second : List Char) : size (first ++ second) = size first + size second := by
  rw [size, List.flatMap_append, List.length_append, size, size]

/-- Decoding loses bytes wherever there is a percent sign. -/
private theorem length_bytes? {text : List Char} {bytes : List UInt8} (read : bytes? text = some bytes) :
    bytes.length ≤ size text ∧ (size text ≤ bytes.length → '%' ∉ text) := by
  induction text using bytes?.induct generalizing bytes with
  | case1 =>
    cases read
    simp [size]
  | case2 high low rest ih =>
    unfold bytes? at read
    rw [if_pos rfl] at read
    obtain ⟨byte, -, read⟩ := Option.bind_eq_some_iff.mp read
    obtain ⟨others, own, rfl⟩ := Option.map_eq_some_iff.mp read
    have smaller := (ih own).1
    have first : '%'.utf8Size = 1 := rfl
    have second := Char.utf8Size_pos high
    simp only [size_cons, List.length_cons]
    omega
  | case3 rest short =>
    unfold bytes? at read
    rw [if_pos rfl] at read
    split at read
    next => exact (short _ _ _ rfl).elim
    next => cases read
  | case4 c rest other ih =>
    unfold bytes? at read
    rw [if_neg other] at read
    obtain ⟨others, own, rfl⟩ := Option.map_eq_some_iff.mp read
    obtain ⟨smaller, plain⟩ := ih own
    rw [size_cons, List.length_append, String.length_utf8EncodeChar]
    refine ⟨by omega, fun kept => ?_⟩
    rw [List.mem_cons, not_or]
    exact ⟨Ne.symm other, plain (by omega)⟩

private theorem size_decode? {text : List Char} {pointer : String} (read : decode? text = some pointer) :
    size pointer.toList ≤ size text ∧ (size text ≤ size pointer.toList → '%' ∉ text) := by
  obtain ⟨bytes, own, decoded⟩ := Option.bind_eq_some_iff.mp read
  have same : size pointer.toList = bytes.length := by
    rw [String.fromUTF8?] at decoded
    split at decoded
    next valid =>
      cases decoded
      have written : (String.fromUTF8 bytes.toByteArray valid).toList.utf8Encode = bytes.toByteArray :=
        String.utf8Encode_toList
      rw [size, List.toByteArray_inj.mp written]
    next => cases decoded
  rw [same]
  exact length_bytes? own

/-- A token loses characters wherever there is a tilde. -/
private theorem size_unescape? {token text : List Char} (read : unescape? token = some text) :
    size text ≤ size token ∧ (size token ≤ size text → '~' ∉ token) := by
  induction token using unescape?.induct generalizing text with
  | case1 =>
    cases read
    simp
  | case2 rest ih =>
    unfold unescape? at read
    rw [if_pos rfl] at read
    obtain ⟨others, own, rfl⟩ := Option.map_eq_some_iff.mp read
    have smaller := (ih own).1
    have wide : '0'.utf8Size = 1 := rfl
    simp only [size_cons]
    omega
  | case3 rest ih =>
    unfold unescape? at read
    rw [if_pos rfl] at read
    obtain ⟨others, own, rfl⟩ := Option.map_eq_some_iff.mp read
    have smaller := (ih own).1
    have wide : '~'.utf8Size = '/'.utf8Size := rfl
    have wideToo : '1'.utf8Size = 1 := rfl
    simp only [size_cons]
    omega
  | case4 rest noTilde noSlash =>
    unfold unescape? at read
    rw [if_pos rfl] at read
    split at read
    next => exact (noTilde _ rfl).elim
    next => exact (noSlash _ rfl).elim
    next => cases read
  | case5 c rest other ih =>
    unfold unescape? at read
    rw [if_neg other] at read
    obtain ⟨others, own, rfl⟩ := Option.map_eq_some_iff.mp read
    obtain ⟨smaller, plain⟩ := ih own
    simp only [size_cons]
    refine ⟨by omega, fun kept => ?_⟩
    rw [List.mem_cons, not_or]
    exact ⟨Ne.symm other, plain (by omega)⟩

private abbrev segmentText? (segment : List Char) : Option String := (unescape? segment).map String.ofList

private theorem mapM_plain {segments : List (List Char)} (plain : ∀ segment ∈ segments, '~' ∉ segment) :
    segments.mapM segmentText? = some (segments.map String.ofList) := by
  induction segments with
  | nil => rfl
  | cons segment rest ih =>
    obtain ⟨first, later⟩ := List.forall_mem_cons.mp plain
    rw [List.mapM_cons, segmentText?, unescape?_plain first, ih later]
    rfl

private theorem size_segments {segments : List (List Char)} {tokens : List String}
    (read : segments.mapM segmentText? = some tokens) :
    size (spell (tokens.map String.toList)) ≤ size (spell segments) ∧
      (size (spell segments) ≤ size (spell (tokens.map String.toList)) → ∀ segment ∈ segments, '~' ∉ segment) := by
  induction segments generalizing tokens with
  | nil =>
    cases read
    simp
  | cons segment rest ih =>
    rw [List.mapM_cons] at read
    obtain ⟨token, own, read⟩ := Option.bind_eq_some_iff.mp read
    obtain ⟨others, further, read⟩ := Option.bind_eq_some_iff.mp read
    cases read
    obtain ⟨text, unescaped, rfl⟩ := Option.map_eq_some_iff.mp own
    obtain ⟨smaller, plain⟩ := size_unescape? unescaped
    obtain ⟨smallerRest, plainRest⟩ := ih further
    simp only [spell, List.map_cons, List.flatMap_cons, size_append, size_cons, String.toList_ofList] at *
    refine ⟨by omega, fun kept => List.forall_mem_cons.mpr ⟨plain (by omega), plainRest (by omega)⟩⟩

private theorem notMem_of_mem_splitOn {text segment : List Char} (member : segment ∈ text.splitOn '/') :
    '/' ∉ segment := by
  induction text generalizing segment with
  | nil =>
    cases List.mem_singleton.mp member
    exact List.not_mem_nil
  | cons c rest ih =>
    rw [List.splitOn_cons_eq_if_modifyHead] at member
    split at member
    next =>
      rcases List.mem_cons.mp member with rfl | later
      · exact List.not_mem_nil
      · exact ih later
    next other =>
      obtain ⟨first, others, same⟩ := List.exists_cons_of_ne_nil (List.splitOn_ne_nil '/' rest)
      rw [same] at ih member
      rcases List.mem_cons.mp member with rfl | later
      · rw [List.mem_cons, not_or]
        exact ⟨fun slash => other (beq_iff_eq.mpr slash.symm), ih List.mem_cons_self⟩
      · exact ih (List.mem_cons_of_mem _ later)

private theorem mem_spell {tokens : List (List Char)} {token : List Char} (member : token ∈ tokens) {c : Char}
    (inside : c ∈ token) : c ∈ spell tokens :=
  List.mem_flatMap.mpr ⟨token, member, List.mem_cons_of_mem _ inside⟩

def write (tokens : List String) : String := .ofList ('#' :: spell (tokens.map String.toList))

private theorem read?_write (tokens : List String) : read? (write tokens) =
    (decode? (spell (tokens.map String.toList))).bind fun pointer => tokens? pointer.toList := by
  rw [read?, write, String.toList_ofList]
  rfl

private theorem read?_of_plain {tokens : List String} (plain : ∀ token ∈ tokens, IsPlain token.toList) :
    read? (write tokens) = some tokens := by
  have plainSegments : ∀ segment ∈ tokens.map String.toList, IsPlain segment := List.forall_mem_map.mpr plain
  have unmarked : '%' ∉ spell (tokens.map String.toList) := by
    intro marked
    obtain ⟨segment, member, inside⟩ := List.mem_flatMap.mp marked
    rcases List.mem_cons.mp inside with impossible | inside
    · exact absurd impossible (by decide)
    · exact (plainSegments segment member).2.2 inside
  rw [read?_write, decode?_plain unmarked, Option.bind_some, String.toList_ofList]
  cases tokens with
  | nil => rfl
  | cons token rest =>
    have some : (token :: rest).map String.toList ≠ [] := by simp
    rw [← cons_intercalate some, tokens?, if_pos rfl,
      List.splitOn_intercalate '/' (fun segment member => (plainSegments segment member).1) some,
      mapM_plain fun segment member => (plainSegments segment member).2.1]
    simp

private theorem plain_of_read? {tokens : List String} (read : read? (write tokens) = some tokens) :
    ∀ token ∈ tokens, IsPlain token.toList := by
  rw [read?_write] at read
  obtain ⟨pointer, decoded, read⟩ := Option.bind_eq_some_iff.mp read
  obtain ⟨smaller, unmarked⟩ := size_decode? decoded
  cases text : pointer.toList with
  | nil =>
    rw [text] at read
    cases read
    exact nofun
  | cons c rest =>
    rw [text, tokens?] at read
    split at read
    next slash =>
      subst slash
      obtain ⟨smallerSegments, untilded⟩ := size_segments read
      rw [text, ← spell_splitOn] at smaller unmarked
      -- nothing was lost on the way, so there was nothing to lose
      have plain := untilded (by omega)
      rw [mapM_plain plain] at read
      cases read
      intro token member
      obtain ⟨segment, listed, rfl⟩ := List.mem_map.mp member
      rw [String.toList_ofList]
      refine ⟨notMem_of_mem_splitOn listed, plain segment listed, fun marked => ?_⟩
      refine unmarked (by omega) (mem_spell ?_ marked)
      simpa using listed
    next => cases read

/-- Tokens put one after another are read back if and only if none of them has to be escaped. -/
theorem read?_write_iff (tokens : List String) :
    read? (write tokens) = some tokens ↔ ∀ token ∈ tokens, IsPlain token.toList :=
  ⟨plain_of_read?, read?_of_plain⟩

end Pointer

/-- Where a document holds the table of a dialect, which goes by what its references start with. -/
def Dialect.path? (dialect : Dialect) : Option (List String) :=
  if dialect.base = Dialect.jsonSchemaBase then some ["definitions"]
  else if dialect.base = Dialect.openApiBase then some ["components", "schemas"]
  else none

theorem Dialect.base_append {dialect : Dialect} {path : List String} (rooted : dialect.path? = some path)
    (name : String) : dialect.base ++ name = Pointer.write (path ++ [name]) := by
  apply String.toList_inj.mp
  unfold path? at rooted
  split at rooted
  next same =>
    cases rooted
    simp [same, jsonSchemaBase, Pointer.write, Pointer.spell]
  next =>
    split at rooted
    next same =>
      cases rooted
      simp [same, openApiBase, Pointer.write, Pointer.spell]
    next => cases rooted

theorem Dialect.plain_path {dialect : Dialect} {path : List String} (rooted : dialect.path? = some path) :
    ∀ token ∈ path, Pointer.IsPlain token.toList := by
  unfold path? at rooted
  split at rooted
  · cases rooted
    simp [Pointer.IsPlain]
  · split at rooted <;> cases rooted
    simp [Pointer.IsPlain]

/-- The reference to a name leads to the entry of a table. It is read as the path of the table and the name if and
only if nothing in the name has to be escaped. -/
structure Table.Leads (table : Table) (base : String) (path : List String) (name : String) : Prop where
  read : Pointer.read? (base ++ name) = some (path ++ [name]) ↔ Pointer.IsPlain name.toList
  stored : ∃ body, Record.find? table name = some body ∧
    (Pointer.IsPlain name.toList → ∀ document : Value,
      document.follow? path = some (.map (Schema.memberEntries table)) →
      document.resolve? (base ++ name) = some body.toValue)

private theorem find?_memberEntries (table : Table) (name : String) :
    Value.find? (Schema.memberEntries table) name = (Record.find? table name).map Schema.toValue := by
  induction table with
  | nil => rfl
  | cons head rest ih =>
    obtain ⟨key, body⟩ := head
    simp only [Schema.memberEntries, Value.find?, Value.isText, Record.find?, List.lookup_cons] at ih ⊢
    by_cases same : name = key
    · simp [same]
    · simp only [decide_eq_true_eq, Ne.symm same, if_false, ih, beq_false_of_ne same]

theorem Table.leads_of_mem {table : Table} {dialect : Dialect} {path : List String}
    (rooted : dialect.path? = some path) {name : String} (listed : name ∈ Record.names table) :
    table.Leads dialect.base path name := by
  have read : Pointer.read? (dialect.base ++ name) = some (path ++ [name]) ↔ Pointer.IsPlain name.toList := by
    rw [Dialect.base_append rooted, Pointer.read?_write_iff]
    constructor
    · exact fun all => all name (by simp)
    · intro plain token member
      rcases List.mem_append.mp member with inside | last
      · exact Dialect.plain_path rooted token inside
      · cases List.mem_singleton.mp last
        exact plain
  obtain ⟨body, found⟩ := Option.isSome_iff_exists.mp (Record.has_iff.mpr listed)
  refine ⟨read, body, found, fun plain document holds => ?_⟩
  rw [Value.resolve?, read.mpr plain, Option.bind_some, Value.follow?_append, holds, Option.bind_some]
  show Value.step? _ name >>= pure = _
  rw [bind_pure, Value.step?]
  exact (find?_memberEntries table name).trans (by rw [found]; rfl)

namespace Compiler

/-- Whatever was done with a compiler, the references that it puts into tables and answers lead to the entries of
the types that they name, for readers of a document that holds the table at the path of the dialect. Nothing is
escaped in a reference, so this goes for names in which there is nothing to escape. -/
theorem references_lead_to_types (catalog : Catalog) (registry : Registry) (mode : Mode) (base? : Option String)
    (history : List Action) :
    let compiler := (new catalog registry mode base?).after history
    (∀ dialect path, dialect.path? = some path → ∀ name body, (name, body) ∈ compiler.table dialect →
      body.Points dialect.base ((compiler.table dialect).Leads dialect.base path) ∧
      ∃ (setting : Setting) (kind : Kind) (entry : Entry), setting.dialect = dialect ∧ Meets catalog history entry ∧
        entry.kind? = some kind ∧ entry.name = .text name ∧
        setting.ShowsEntry (fun _ => Schema.Points dialect.base ((compiler.table dialect).Leads dialect.base path))
          kind entry body) ∧
    (∀ action given called compiled path, action.call? = some (given, called) →
      compiler.answer action = .call (.ok compiled) → (compiler.dialect called).path? = some path →
      ∀ schema ∈ compiled.schemas, schema.Points (compiler.dialect called).base
        (((compiler.act action).table (compiler.dialect called)).Leads (compiler.dialect called).base path)) := by
  intro compiler
  constructor
  · intro dialect path rooted name body member
    have upholds : compiler.Upholds (.pointing (Meets catalog history)) :=
      after_upholds (fun _ => id) (fun _ _ => trivial) mode base?
    have stores := (upholds.tables dialect _ member).imp fun other listed => Table.leads_of_mem rooted listed
    exact ⟨stores.property, stores⟩
  · intro action given called compiled path call answered rooted schema member
    have types (entry : Entry) (_ : Meets catalog (history ++ [action]) entry) :
        (Upkeep.pointing fun _ => True).fits entry := trivial
    have points := answers_uphold types (fun _ _ => trivial) call answered schema member
    exact points.imp fun other refers => Table.leads_of_mem rooted refers.2

/-- A type that refers to itself, whose reference leads to its own entry. -/
theorem references_lead_to_types_of_node :
    let node : Definition := .product "node" [⟨"next", .text "node?", none, none, none⟩] none none "application/json"
    let called : Mode := .union .jsonSchema .refSchema
    let compiler := (new .empty .builtins called none).after [.registerType none (.checked node)]
    let action : Action := .compile (.written (.text "node")) called
    let table := (compiler.act action).table (compiler.dialect called)
    (compiler.dialect called).path? = some ["definitions"] ∧ (compiler.answer action).isFailure = false ∧
      Record.names table = ["node"] ∧
      (∀ body, ("node", body) ∈ table → body.Points "#/definitions/" (table.Leads "#/definitions/" ["definitions"])) ∧
      ∀ compiled, compiler.answer action = .call (.ok compiled) → ∀ schema ∈ compiled.schemas,
        schema.Points "#/definitions/" (table.Leads "#/definitions/" ["definitions"]) := by
  intro node called compiler action table
  have rooted : (compiler.dialect called).path? = some ["definitions"] := by decide +kernel
  have base : (compiler.dialect called).base = "#/definitions/" := by decide +kernel
  have history := references_lead_to_types .empty .builtins called none [.registerType none (.checked node), action]
  have last := references_lead_to_types .empty .builtins called none [.registerType none (.checked node)]
  refine ⟨rooted, by decide +kernel, by decide +kernel, fun body member => ?_, fun compiled answered => ?_⟩
  · exact base ▸ (history.1 _ _ rooted _ _ member).1
  · exact base ▸ last.2 action _ called compiled _ rfl answered rooted

def reference? : Compiled → Option (String × String)
  | .single (.keywords [("$ref", .reference base name)]) => some (base, name)
  | _ => none

/-- A type may have a slash in its name if it is registered under another identifier. The reference to it is then
read as two tokens, and leads nowhere. -/
theorem reference_leads_nowhere :
    let sum : Definition := .sum "a/b" ["x"]
    let called : Mode := .union .jsonSchema .refSchema
    let compiler := (new .empty .builtins called none).after [.registerType (some "ab") (.checked sum)]
    let call := compiler.compile (.written (.text "ab")) called
    let table := call.compiler.table (compiler.dialect called)
    let document : Value := .map [(.text "definitions", .map (Schema.memberEntries table))]
    call.outcome.toOption.bind reference? = some ("#/definitions/", "a/b") ∧ Record.names table = ["a/b"] ∧
      (document.resolve? ("#/definitions/" ++ "a/b")).isSome = false := by
  intro sum called compiler call table document
  refine ⟨by decide +kernel, by decide +kernel, by decide +kernel⟩

end Compiler

end Schemata
