import Schemata.Proofs.LoadedFiles
import Schemata.Proofs.PlainSchemas

/-! How the compile command ends. It is to print JSON that stands for exactly what a fresh compiler answers, or else the
error of that compiler. It does so exactly if the error can be reported, or the answer is plain and there is an
indentation to print it with. -/

namespace Schemata

namespace Document

theorem ofDefinitions_of_register {label : String} {index : Nat} {catalog extended : Catalog} {types : List Value}
    (built : catalog.OfDefinitions) (registered : register label index catalog types = .ok extended) :
    extended.OfDefinitions := by
  induction types generalizing index catalog with
  | nil => cases registered; exact built
  | cons value rest ih =>
    cases read : entry label index value with
    | error error =>
      simp only [register, read, bind, Except.bind] at registered
      cases registered
    | ok pair =>
      simp only [register, read, bind, Except.bind] at registered
      split at registered
      next => cases registered
      next next accepted => exact ih (built.register accepted) registered

theorem ofDefinitions_of_catalogOf {label : String} {value : Value} {catalog : Catalog}
    (loaded : catalogOf label value = .ok catalog) : catalog.OfDefinitions := by
  obtain ⟨types, lists⟩ := exists_types_of_catalogOf loaded
  rw [catalogOf_eq lists] at loaded
  exact ofDefinitions_of_register .empty loaded

end Document

namespace CommandLine

/-- The types of a file that loads are definitions. -/
theorem ofDefinitions_of_loadFile {path : String} {reading : FileReading} {catalog : Catalog}
    (loaded : loadFile path reading = .ok catalog) : catalog.OfDefinitions := by
  unfold loadFile at loaded
  obtain ⟨text, -, loaded⟩ := bind_eq_ok.mp loaded
  unfold Document.load at loaded
  split at loaded
  next => cases loaded
  next => cases loaded
  next => exact Document.ofDefinitions_of_catalogOf loaded

namespace Arguments

theorem foldlM_keeps {step : σ → α → Except ε σ} {good : σ → Prop}
    (keeps : ∀ current item next, good current → step current item = .ok next → good next) (items : List α)
    {first last : σ} (start : good first) (done : items.foldlM step first = .ok last) : good last := by
  induction items generalizing first with
  | nil => cases done; exact start
  | cons item rest ih =>
    rw [List.foldlM_cons] at done
    obtain ⟨next, taken, done⟩ := bind_eq_ok.mp done
    exact ih (keeps first item next start taken) done

theorem isPlain_operandValue (texts : List String) : (operandValue texts).isPlain = true := by
  unfold operandValue
  split
  · rfl
  · exact Value.isPlain_texts texts

theorem isPlain_of_compileAction (given : CompileGiven) (action : Action) (next : CompileGiven)
    (plain : ∀ operand ∈ given.operands, operand.isPlain = true) (taken : compileAction given action = .ok next) :
    ∀ operand ∈ next.operands, operand.isPlain = true := by
  cases action with
  | operand texts =>
    cases taken
    intro operand member
    rcases List.mem_append.mp member with old | new
    · exact plain operand old
    · cases List.mem_singleton.mp new
      exact isPlain_operandValue texts
  | switch switch texts =>
    simp only [compileAction] at taken
    split at taken
    · cases taken
    split at taken
    · obtain ⟨dialect, -, same⟩ := bind_eq_ok.mp taken
      cases same
      exact plain
    split at taken
    · cases taken
      exact plain
    · obtain ⟨indent, -, same⟩ := bind_eq_ok.mp taken
      cases same
      exact plain

theorem isPlain_of_readCompile {arguments extras : List String} {options : CompileOptions}
    (accepted : readCompile arguments = .ok (.compile options, extras)) : options.type.isPlain = true := by
  unfold readCompile at accepted
  obtain ⟨given, taken, accepted⟩ := bind_eq_ok.mp accepted
  have plain : ∀ operand ∈ given.operands, operand.isPlain = true :=
    foldlM_keeps isPlain_of_compileAction _ (fun operand member => absurd member List.not_mem_nil) taken
  split at accepted
  next => cases accepted
  next =>
    split at accepted
    next definitions type operands =>
      cases accepted
      exact plain type (by simp [operands])
    next => cases accepted

theorem list_of_readList {arguments extras : List String} {command : Command}
    (accepted : readList arguments = .ok (command, extras)) : ∃ definitions, command = .list definitions := by
  unfold readList at accepted
  obtain ⟨operands, -, accepted⟩ := bind_eq_ok.mp accepted
  split at accepted
  next => cases accepted
  next =>
    split at accepted
    next definitions _ => cases accepted; exact ⟨definitions, rfl⟩
    next => cases accepted

theorem isPlain_of_mainAction (given : MainGiven) (action : Action) (next : MainGiven)
    (plain : ∀ options, given.command = some (.compile options) → options.type.isPlain = true)
    (taken : mainAction given action = .ok next) :
    ∀ options, next.command = some (.compile options) → options.type.isPlain = true := by
  cases action with
  | switch switch texts =>
    simp only [mainAction] at taken
    split at taken
    · cases taken
    · cases taken
      exact plain
  | operand texts =>
    simp only [mainAction] at taken
    intro options compiles
    split at taken
    · obtain ⟨⟨command, extras⟩, read, same⟩ := bind_eq_ok.mp taken
      cases same
      cases compiles
      exact isPlain_of_readCompile read
    split at taken
    · obtain ⟨⟨command, extras⟩, read, same⟩ := bind_eq_ok.mp taken
      cases same
      cases compiles
      obtain ⟨definitions, impossible⟩ := list_of_readList read
      cases impossible
    · cases taken

/-- The type that is asked for is given as a text, or as none. -/
theorem isPlain_of_read {arguments : List String} {invocation : Invocation} {options : CompileOptions}
    (accepted : read arguments = .ok invocation) (compiles : invocation.command = .compile options) :
    options.type.isPlain = true := by
  unfold read at accepted
  obtain ⟨given, taken, accepted⟩ := bind_eq_ok.mp accepted
  have plain : ∀ options, given.command = some (.compile options) → options.type.isPlain = true :=
    foldlM_keeps isPlain_of_mainAction _ (fun options impossible => by cases impossible) taken
  split at accepted
  next => cases accepted
  next =>
    split at accepted
    next command _ given =>
      cases accepted
      exact plain options (by rw [given]; exact congrArg some compiles)
    next => cases accepted
    next => cases accepted

end Arguments

namespace CompileOptions

variable (options : CompileOptions) (catalog : Catalog) (dialect : Mode)

def mode : Mode := if options.hoisting then dialect.union .refSchema else dialect

def call : Call (Except CompileError Compiled) :=
  (Compiler.new catalog .builtins (options.mode dialect) none).compile (.written options.type) (options.mode dialect)

/-- What is to be printed of an answer: when hoisting also the table that the call leaves. -/
def output (compiled : Compiled) : Value :=
  compileOutput options.hoisting compiled ((options.call catalog dialect).compiler.schemasFor (options.mode dialect))

/-- The answer of the compiler is printed as JSON that stands for exactly this answer, or its error is reported. -/
inductive Verdict : Except Breakdown Report → Prop where
  | printed {dialect : Mode} {compiled : Compiled} {form : Json} {log : List String} {text : String}
      (given : options.dialect = some dialect) (answered : (options.call catalog dialect).outcome = .ok compiled)
      (reads : Json.read text = some form) (encodes : form.Encodes (options.output catalog dialect compiled)) :
      Verdict (.ok ⟨log, .ok text⟩)
  | failed {dialect : Mode} {error : CompileError} {log : List String} (given : options.dialect = some dialect)
      (refused : (options.call catalog dialect).outcome = .error error) : Verdict (.ok ⟨log, .error (.compile error)⟩)

/-- There is a dialect, and then an error that can be reported, or a plain answer and an indentation. -/
inductive Settles : Prop where
  | answer {dialect : Mode} {compiled : Compiled} {layout : Value.Layout} (given : options.dialect = some dialect)
      (answered : (options.call catalog dialect).outcome = .ok compiled) (fits : layoutOf options.indent = .ok layout)
      (plain : (options.output catalog dialect compiled).isPlain = true) : Settles
  | error {dialect : Mode} {error : CompileError} (given : options.dialect = some dialect)
      (refused : (options.call catalog dialect).outcome = .error error) (reported : error.IsReported) : Settles

/-- How a run on a file that loads may end: the form of the answer is printed, an error is reported, or neither. -/
inductive Ends : Except Breakdown Report → Prop where
  | printed {dialect : Mode} {compiled : Compiled} {layout : Value.Layout} {form : Json} {log : List String}
      (given : options.dialect = some dialect) (answered : (options.call catalog dialect).outcome = .ok compiled)
      (fits : layoutOf options.indent = .ok layout)
      (formed : Value.jsonForm [] (options.output catalog dialect compiled) = .ok form) :
      Ends (.ok ⟨log, .ok (form.text layout 0 ++ "\n")⟩)
  | failed {dialect : Mode} {error : CompileError} {log : List String} (given : options.dialect = some dialect)
      (refused : (options.call catalog dialect).outcome = .error error) (reported : error.IsReported) :
      Ends (.ok ⟨log, .error (.compile error)⟩)
  | escaped {breakdown : Breakdown} : Ends (.error breakdown)

end CompileOptions

section Runs

variable {options : CompileOptions} {path : String} {reading : FileReading} {catalog : Catalog}

/-- The report on a file that loads, in a dialect. -/
theorem runCompile_eq (loaded : loadFile path reading = .ok catalog) {dialect : Mode}
    (given : options.dialect = some dialect) : ∃ log, runCompile options path reading =
      compileReport options (options.mode dialect) log (options.call catalog dialect) := by
  simp only [runCompile, loaded, given]
  exact ⟨_, rfl⟩

/-- An error is reported if it can be, and leaves the command otherwise. -/
theorem compileReport_error {mode : Mode} {log : List String} {call : Call (Except CompileError Compiled)}
    {error : CompileError} (refused : call.outcome = .error error) :
    (error.IsReported → compileReport options mode log call = .ok ⟨log, .error (.compile error)⟩) ∧
      (¬ error.IsReported → compileReport options mode log call = .error (.compile error)) := by
  unfold compileReport
  rw [refused]
  cases error with
  | unusable fault => exact ⟨False.elim, fun _ => rfl⟩
  | invalidReference given fault =>
    cases quotable : given.isQuotable <;> simp [quotable, CompileError.IsReported, CompileError.isSayable, pure,
      Except.pure, throw, throwThe, MonadExceptOf.throw]
  | unknownType | unknownKind | unterminatedRecursion =>
    exact ⟨fun _ => rfl, fun unreported => absurd trivial unreported⟩

/-- An answer is printed if there is an indentation and JSON has a form for it. -/
theorem compileReport_ok {mode : Mode} {log : List String} {call : Call (Except CompileError Compiled)}
    {compiled : Compiled} (answered : call.outcome = .ok compiled) {report : Report} :
    compileReport options mode log call = .ok report ↔ ∃ layout form, layoutOf options.indent = .ok layout ∧
      Value.jsonForm [] (compileOutput options.hoisting compiled (call.compiler.schemasFor mode)) = .ok form ∧
        report = ⟨log, .ok (form.text layout 0 ++ "\n")⟩ := by
  unfold compileReport
  rw [answered]
  dsimp only
  generalize compileOutput options.hoisting compiled (call.compiler.schemasFor mode) = output
  cases layout : layoutOf options.indent with
  | error => simp [bind, Except.bind]
  | ok layout =>
    cases form : Value.jsonForm [] output with
    | error => simp [bind, Except.bind, Value.json_eq, form, Except.map, throw, throwThe, MonadExceptOf.throw]
    | ok form => simp [bind, Except.bind, Value.json_eq, form, Except.map, pure, Except.pure, eq_comm]

theorem runCompile_ends (loaded : loadFile path reading = .ok catalog) :
    options.Ends catalog (runCompile options path reading) := by
  cases ended : runCompile options path reading with
  | error breakdown => exact .escaped
  | ok report =>
    cases given : options.dialect with
    | none =>
      simp only [runCompile, loaded, given] at ended
      cases ended
    | some dialect =>
      obtain ⟨log, same⟩ := runCompile_eq loaded given
      rw [same] at ended
      cases outcome : (options.call catalog dialect).outcome with
      | ok compiled =>
        obtain ⟨layout, form, fits, formed, rfl⟩ := (compileReport_ok outcome).mp ended
        exact .printed given outcome fits formed
      | error error =>
        by_cases reported : error.IsReported
        · cases ((compileReport_error outcome).1 reported).symm.trans ended
          exact .failed given outcome reported
        · cases ((compileReport_error outcome).2 reported).symm.trans ended

/-- Plain definitions whose alternatives are lists settle a run, whatever reference in plain data is given. -/
theorem settles_of_isPlain (built : catalog.OfDefinitions) (plain : catalog.IsPlain) (regular : catalog.IsRegular)
    (type : options.type.isPlain = true) {dialect : Mode} (given : options.dialect = some dialect)
    {layout : Value.Layout} (fits : layoutOf options.indent = .ok layout) : options.Settles catalog := by
  cases outcome : (options.call catalog dialect).outcome with
  | error error => exact .error given outcome (Compiler.isReported_of_compile built regular plain type none outcome)
  | ok compiled =>
    obtain ⟨own, table⟩ := Compiler.isPlain_of_compile built plain none outcome
    refine .answer given outcome fits ?_
    unfold CompileOptions.output compileOutput
    split
    next hoists =>
      have hoisting : (options.mode dialect).isHoisting = true := by
        rw [CompileOptions.mode, if_pos hoists]
        exact Mode.union_refSchema_isHoisting dialect
      refine Value.isPlain_record.mpr fun entry member => ?_
      simp only [List.mem_cons, List.not_mem_nil, or_false] at member
      rcases member with rfl | rfl
      · exact own
      · refine Value.isPlain_record.mpr fun entry member => ?_
        obtain ⟨stored, held, rfl⟩ := List.mem_map.mp member
        exact table hoisting stored held
    next => exact own

end Runs

/-- A file that loads is compiled to a verdict exactly if the error can be reported, or the answer is plain and there
is an indentation. Without a verdict there is no report, or else an answer that is not plain is printed, as a text that
is JSON exactly if all numbers are finite. Where all definitions are plain and all alternatives are lists, any reference
that is given as an argument gets its verdict, in every dialect and with every indentation that fits. -/
theorem compilations_end_with_verdict_iff (options : CompileOptions) (path : String) (reading : FileReading)
    {catalog : Catalog} (loaded : loadFile path reading = .ok catalog) :
    (options.Verdict catalog (runCompile options path reading) ↔ options.Settles catalog) ∧
    (∀ report, runCompile options path reading = .ok report → options.Verdict catalog (.ok report) ∨
      ∃ dialect compiled form text, options.dialect = some dialect ∧ report.result = .ok text ∧
        (options.call catalog dialect).outcome = .ok compiled ∧
        Value.jsonForm [] (options.output catalog dialect compiled) = .ok form ∧
        (options.output catalog dialect compiled).isPlain = false ∧
        (Json.read text = some form ↔ (options.output catalog dialect compiled).isNumeric = true)) ∧
    ∀ arguments invocation, Arguments.read arguments = .ok invocation → invocation.command = .compile options →
      catalog.IsPlain → catalog.IsRegular → (∃ dialect, options.dialect = some dialect) →
      (∃ layout, layoutOf options.indent = .ok layout) → options.Settles catalog := by
  have ends := @runCompile_ends options path reading catalog loaded
  have printed {dialect : Mode} {compiled : Compiled} {layout : Value.Layout} {form : Json} {log : List String}
      (given : options.dialect = some dialect) (answered : (options.call catalog dialect).outcome = .ok compiled)
      (formed : Value.jsonForm [] (options.output catalog dialect compiled) = .ok form)
      (plain : (options.output catalog dialect compiled).isPlain = true) :
      options.Verdict catalog (.ok ⟨log, .ok (form.text layout 0 ++ "\n")⟩) := by
    obtain ⟨own, same, encodes⟩ := Value.encodes_of_isPlain [] _ plain
    cases formed.symm.trans same
    exact .printed given answered ((Value.read_jsonForm formed layout).mpr (Value.numbers_of_isPlain _ plain).2) encodes
  refine ⟨⟨fun verdict => ?_, fun settles => ?_⟩, fun report run => ?_, ?_⟩
  · generalize runCompile options path reading = ending at ends verdict
    cases ends with
    | escaped => cases verdict
    | failed given refused reported => exact .error given refused reported
    | printed given answered fits formed =>
      cases verdict with
      | printed same again _ encodes =>
        cases given.symm.trans same
        cases answered.symm.trans again
        exact .answer given answered fits (Value.isPlain_of_encodes [] _ encodes formed)
  · cases settles with
    | @answer dialect compiled layout given answered fits plain =>
      obtain ⟨form, formed, -⟩ := Value.encodes_of_isPlain [] _ plain
      obtain ⟨log, same⟩ := runCompile_eq loaded given
      rw [same, (compileReport_ok answered).mpr ⟨layout, form, fits, formed, rfl⟩]
      exact printed given answered formed plain
    | @error dialect error given refused reported =>
      obtain ⟨log, same⟩ := runCompile_eq loaded given
      rw [same, (compileReport_error refused).1 reported]
      exact .failed given refused
  · rw [run] at ends
    cases ends with
    | failed given refused reported => exact .inl (.failed given refused)
    | @printed dialect compiled layout form log given answered fits formed =>
      cases plain : (options.output catalog dialect compiled).isPlain with
      | true => exact .inl (printed given answered formed plain)
      | false =>
        exact .inr ⟨dialect, compiled, form, _, given, rfl, answered, formed, plain, Value.read_jsonForm formed layout⟩
  · intro arguments invocation accepted compiles plain regular dialect layout
    obtain ⟨dialect, given⟩ := dialect
    obtain ⟨layout, fits⟩ := layout
    exact settles_of_isPlain (ofDefinitions_of_loadFile loaded) plain regular
      (Arguments.isPlain_of_read accepted compiles) given fits

private def holdsPet : Except DocumentError Catalog → Bool
  | .ok ⟨[("Pet", .checked (.product "Pet" [⟨"id", .text "!integer", none, none, none⟩] none none
      "application/json"))], _⟩ => true
  | _ => false

/-- A file with one product is compiled to an array of it, into a table. -/
theorem compilations_end_with_verdict_iff_of_pets :
    let options : CompileOptions := ⟨.text "pets.yaml", .text "[Pet]?", some .jsonSchema, true, some 2⟩
    let reading : FileReading :=
      .bytes "types:\n- \x7bkind: product, name: Pet, fields: \x7bid: \"!integer\"\x7d\x7d\n".toUTF8.data.toList
    Arguments.read ["compile", "pets.yaml", "[Pet]?", "--ref"] = .ok ⟨false, .compile options⟩ ∧
      ∃ catalog, loadFile "pets.yaml" reading = .ok catalog ∧ catalog.IsPlain ∧ catalog.IsRegular ∧
        options.Verdict catalog (runCompile options "pets.yaml" reading) := by
  intro options reading
  let pet : Definition := .product "Pet" [⟨"id", .text "!integer", none, none, none⟩] none none "application/json"
  obtain ⟨owners, loaded⟩ : ∃ owners, loadFile "pets.yaml" reading = .ok ⟨[("Pet", .checked pet)], owners⟩ := by
    have holds : holdsPet (loadFile "pets.yaml" reading) = true := by decide +kernel
    unfold holdsPet at holds
    split at holds
    next owners same => exact ⟨owners, same⟩
    next => cases holds
  have accepted : Arguments.read ["compile", "pets.yaml", "[Pet]?", "--ref"] = .ok ⟨false, .compile options⟩ := rfl
  have only (definition : Definition) (held : .checked definition ∈ [Entry.checked pet]) : definition = pet :=
    Entry.checked.inj (List.mem_singleton.mp held)
  have plain : Catalog.IsPlain ⟨[("Pet", .checked pet)], owners⟩ := by
    intro definition held
    rw [only definition held]
    rfl
  have regular : Catalog.IsRegular ⟨[("Pet", .checked pet)], owners⟩ := by
    intro name fragment held
    have impossible : Kind.scalar = pet.kind := congrArg Definition.kind (only _ held)
    cases impossible
  obtain ⟨verdict, -, settles⟩ := compilations_end_with_verdict_iff options "pets.yaml" reading loaded
  exact ⟨accepted, _, loaded, plain, regular,
    verdict.mpr (settles _ _ accepted rfl plain regular ⟨_, rfl⟩ ⟨_, rfl⟩)⟩

private def lacksForm : Except Breakdown Report → Bool
  | .error (.notJson .noForm) => true
  | _ => false

/-- A file with a date in a fragment loads, and the answer to its type gets no verdict. -/
theorem date_gets_no_verdict :
    let options : CompileOptions := ⟨.text "t.yaml", .text "D", some .jsonSchema, false, some 2⟩
    let reading : FileReading :=
      .bytes "types:\n- \x7bkind: scalar, name: D, fragment: \x7bdefault: 2001-01-01\x7d\x7d\n".toUTF8.data.toList
    Arguments.read ["compile", "t.yaml", "D"] = .ok ⟨false, .compile options⟩ ∧
      ∃ catalog, loadFile "t.yaml" reading = .ok catalog ∧
        runCompile options "t.yaml" reading = .error (.notJson .noForm) ∧
          ¬ options.Verdict catalog (runCompile options "t.yaml" reading) := by
  intro options reading
  have accepted : Arguments.read ["compile", "t.yaml", "D"] = .ok ⟨false, .compile options⟩ := rfl
  obtain ⟨catalog, loaded⟩ : ∃ catalog, loadFile "t.yaml" reading = .ok catalog := by
    have loads : (loadFile "t.yaml" reading).toOption.isSome = true := by decide +kernel
    obtain ⟨catalog, same⟩ := Option.isSome_iff_exists.mp loads
    exact ⟨catalog, toOption_eq_some.mp same⟩
  have run : runCompile options "t.yaml" reading = .error (.notJson .noForm) := by
    have lacks : lacksForm (runCompile options "t.yaml" reading) = true := by decide +kernel
    unfold lacksForm at lacks
    split at lacks
    next same => exact same
    next => cases lacks
  refine ⟨accepted, catalog, loaded, run, fun verdict => ?_⟩
  rw [run] at verdict
  cases verdict

end CommandLine

end Schemata
