import Schemata.Proofs.InlineRecursion
import Schemata.Proofs.SettledReferences
import Schemata.Proofs.WalkMemory

/-! The memory of a compilation is never noticed. What is remembered under one chain may be looked up under
another. With hoisting, compiling it again would find all its types in the table or on the chain. Without,
it could only fail on a type that is still being written out; but the reference was met on the way from
that type, so the type would contain itself and the reference could not have been written out before. -/

namespace Schemata

def Rules.still (table : Table) : Rules where
  invariant progress := progress.table = table
  growth _ _ := True
  refl _ := trivial
  trans _ _ := trivial

namespace Catalog

variable {catalog : Catalog} {registry : Registry}

theorem Denotes.held_of_path {spec : TypeSpec} {root definition : Definition}
    (denotes : catalog.Denotes registry spec root) (path : Relation.ReflTransGen (catalog.Uses registry) root definition) :
    .checked definition ∈ catalog.toList := by
  cases path with
  | refl => exact denotes.held
  | tail _ uses => exact uses.held

end Catalog

namespace Setting

variable {setting : Setting}

private theorem still_place {chain : List Name} {entry : Entry} {name : String} {table : Table}
    {body : entry.name ∉ chain → Walk Schema} (listed : name ∈ Record.names table ∨ entry.name ∈ chain) :
    (Rules.still table).Yields (place chain entry name body) () := by
  intro before kept
  have note (event : Event) : ∃ after, (Walk.note event).run before = .ok () after ∧
      (Rules.still table).invariant after ∧ (Rules.still table).growth before after := ⟨_, rfl, kept, trivial⟩
  rw [place_run, show before.table = table from kept]
  split
  next => exact note _
  next absent =>
    split
    next => exact note _
    next fresh => exact (listed.elim (fun present => absent (Record.has_iff.mpr present)) fresh).elim

/-- A settled reference compiles to its outline again, and nothing is added to the table. -/
theorem again_of_settled (built : setting.catalog.OfDefinitions) (hoists : setting.hoisting = true) {chain : List Name}
    {table : Table} {spec : TypeSpec} {schema : Schema}
    (settled : setting.Settled (fun name => name ∈ Record.names table ∨ .text name ∈ chain) spec schema) :
    (Rules.still table).Yields (compileSpecWith .absent setting chain spec) schema := by
  induction spec generalizing schema with
  | array element required nullable ih =>
    obtain ⟨items, outlined, widened⟩ := outline?_array.mp settled.outlined
    rw [compileSpecWith_eq]
    exact (ih ⟨outlined, settled.listed⟩).bind (Rules.Yields.ofAccess widened)
  | named name required nullable =>
    rw [compileSpecWith_eq, Memory.absent, anew]
    cases checkedOutline built settled.outlined with
    | fragment supplies widened =>
      rw [compileNameWith_fragment _ supplies]
      exact Rules.Yields.ofAccess widened
    | @type definition named classified widened =>
      have listed := settled.listed definition ⟨_, classified⟩ named
      rw [compileNameWith_named _ named classified, occurrence_hoisting hoists rfl]
      exact (still_place listed).bind (Rules.Yields.ofAccess widened)

/-- What is written out is written out again under a chain that is clear for it, if a body is whenever the references in
it are. -/
theorem WritesOut.yields {bodies : (TypeSpec → Schema → Prop) → Kind → Entry → Schema → Prop}
    (clear : List Name → TypeSpec → Prop) (inline : setting.hoisting = false) (table : Table)
    (brackets : ∀ {chain element required nullable}, clear chain (.array element required nullable) → clear chain element)
    (body : ∀ {chain name required nullable kind entry schema body} {shows : TypeSpec → Schema → Prop},
      clear chain (.named name required nullable) → kind.isNamed = true →
      classify setting.catalog setting.registry name = .ok (.entry kind entry) → bodies shows kind entry body →
      (∀ next answer, shows next answer → setting.WritesOut bodies next answer) →
      setting.WritesOut bodies (.named name required nullable) schema →
      entry.name ∉ chain ∧ ((∀ next answer, shows next answer → clear (chain ++ [entry.name]) next →
          (Rules.still table).Yields (compileSpecWith .absent setting (chain ++ [entry.name]) next) answer) →
        (Rules.still table).Yields (compileBodyWith .absent setting (chain ++ [entry.name]) kind entry) body))
    {chain : List Name} {spec : TypeSpec} {schema : Schema} (writes : setting.WritesOut bodies spec schema)
    (own : clear chain spec) : (Rules.still table).Yields (compileSpecWith .absent setting chain spec) schema := by
  induction writes generalizing chain with
  | primitive classified widened =>
    rw [compileSpecWith_eq, Memory.absent, anew, compileNameWith_eq, classified]
    exact Rules.Yields.ofAccess widened
  | scalar classified read widened =>
    rw [compileSpecWith_eq, Memory.absent, anew, compileNameWith_eq, classified]
    exact (Rules.Yields.ofAccess read).bind (Rules.Yields.ofAccess widened)
  | array inner widened ih =>
    rw [compileSpecWith_eq]
    exact (ih (brackets own)).bind (Rules.Yields.ofAccess widened)
  | named kindNamed classified shown inner widened ih =>
    obtain ⟨fresh, yields⟩ := body own kindNamed classified shown inner (.named kindNamed classified shown inner widened)
    rw [compileSpecWith_eq, Memory.absent, anew, compileNameWith_named _ kindNamed classified, occurrence_inline inline,
      dif_neg fresh]
    exact (yields fun next answer shows clear => ih next answer shows clear).bind (Rules.Yields.ofAccess widened)

/-- No named type with one of the names is reached from the reference. -/
def Avoids (setting : Setting) (names : List Name) (spec : TypeSpec) : Prop :=
  ∀ root definition, setting.catalog.Denotes setting.registry spec root →
    Relation.ReflTransGen (setting.catalog.Uses setting.registry) root definition →
    definition.kind.isNamed = true → .text definition.name ∉ names

theorem Avoids.of_base {names : List Name} {spec other : TypeSpec} (avoids : setting.Avoids names spec)
    (same : spec.base = other.base) : setting.Avoids names other :=
  fun root definition denotes => avoids root definition (denotes.of_base same.symm)

theorem Avoids.of_primitive {names : List Name} {name : String} {required nullable : Bool} {fragment : Value}
    (classified : classify setting.catalog setting.registry name = .ok (.primitive fragment)) :
    setting.Avoids names (.named name required nullable) := by
  intro root _ denotes
  cases classified.symm.trans denotes.kind

theorem Avoids.of_scalar {names : List Name} {name : String} {required nullable : Bool} {entry : Entry}
    (classified : classify setting.catalog setting.registry name = .ok (.entry .scalar entry)) :
    setting.Avoids names (.named name required nullable) := by
  intro root definition denotes path named
  have same := (Classified.entry.inj (Except.ok.inj (denotes.kind.symm.trans classified))).1
  cases root with
  | product | sum | map | union | input => cases same
  | scalar =>
    rcases path.cases_head with rfl | ⟨next, ⟨_, mentions, _⟩, _⟩
    · cases named
    · exact mentions.elim

theorem Avoids.of_checked {names : List Name} {name : String} {required nullable : Bool} {kind : Kind}
    {definition : Definition}
    (classified : classify setting.catalog setting.registry name = .ok (.entry kind (.checked definition)))
    (outside : .text definition.name ∉ names) (inner : ∀ spec, definition.Mentions spec → setting.Avoids names spec) :
    setting.Avoids names (.named name required nullable) := by
  intro root reached denotes path named
  obtain ⟨-, same⟩ := Classified.entry.inj (Except.ok.inj (classified.symm.trans denotes.kind))
  cases Entry.checked.inj same
  rcases path.cases_head with rfl | ⟨next, ⟨spec, mentions, leads⟩, rest⟩
  · exact outside
  · exact inner spec mentions next reached leads rest named

/-- A reference that can be written out is written out again, unless it reaches a type on the chain. -/
theorem again_of_inlines (built : setting.catalog.OfDefinitions) (inline : setting.hoisting = false) {spec : TypeSpec}
    {schema : Schema} (inlines : setting.Inlines spec schema) {chain : List Name} (avoids : setting.Avoids chain spec)
    (table : Table) : (Rules.still table).Yields (compileSpecWith .absent setting chain spec) schema := by
  refine inlines.yields setting.Avoids inline table (fun avoids => avoids.of_base rfl) ?_ avoids
  intro chain name required nullable kind entry schema body shows avoids kindNamed classified shown inner again
  obtain ⟨definition, rfl, rfl, shown⟩ := shown
  have denotes : setting.catalog.Denotes setting.registry (.named name required nullable) definition := ⟨_, classified⟩
  refine ⟨avoids definition definition denotes .refl kindNamed, fun yields => ?_⟩
  refine Rules.Yields.definitionBody (shown.imp fun next answer mentions own => yields next answer own ?_)
  intro root reached denotesToo path named inside
  have uses : setting.catalog.Uses setting.registry definition root := ⟨next, mentions, denotesToo⟩
  rcases List.mem_append.mp inside with outer | last
  · exact avoids definition reached denotes (.head uses path) named outer
  · -- a type with the same name is the same type, which would contain itself
    have same := built.eq_of_name (denotesToo.held_of_path path) denotes.held (List.mem_singleton.mp last)
    cases Entry.checked.inj same
    exact Catalog.no_circle (Inlines.accessible again denotes) .refl (Relation.TransGen.head' uses path)

/-- Writing out, as a discipline. Some names stand apart: they are on every chain of the call, and nothing
that is written out reaches a type with one of them. -/
def inliningApart (setting : Setting) (inline : setting.hoisting = false) (built : setting.catalog.OfDefinitions)
    (apart : List Name) : Discipline setting where
  rules chain :=
    { invariant := fun progress => (∀ name ∈ apart, name ∈ chain) ∧
        ∀ entry ∈ progress.known, setting.Inlines entry.1 entry.2 ∧ setting.Avoids apart entry.1
      growth := fun _ _ => True
      refl := fun _ => trivial
      trans := fun _ _ => trivial }
  admits _ _ := True
  enters _ _ entry := ∃ definition, entry = .checked definition
  shows _ spec schema _ := setting.Inlines spec schema ∧ setting.Avoids apart spec
  stands _ entry nullable schema _ := ∃ definition body, entry = .checked definition ∧ .text definition.name ∉ apart ∧
    setting.ShowsBody (fun spec schema => setting.Inlines spec schema ∧ setting.Avoids apart spec) definition body ∧
    setting.widened nullable body = .ok schema
  stable _ _ _ _ _ _ shown := shown
  silent _ kept := ⟨kept, trivial⟩
  recalled {_ _ spec _} kept _ found := by
    obtain ⟨inlines, avoids⟩ := kept.2 _ (Record.mem_of_lookup found)
    exact ⟨Inlines.optional.mp inlines, avoids.of_base spec.base_optional⟩
  remember {_ _ spec _} kept _ shown :=
    ⟨⟨kept.1, List.forall_mem_cons.mpr ⟨⟨Inlines.optional.mpr shown.1, shown.2.of_base spec.base_optional.symm⟩, kept.2⟩⟩,
      trivial⟩
  element _ := trivial
  array shown widened := ⟨WritesOut.array shown.1 widened, shown.2.of_base rfl⟩
  primitive classified widened := ⟨WritesOut.primitive classified widened, .of_primitive classified⟩
  scalar classified read widened := ⟨WritesOut.scalar classified read widened, .of_scalar classified⟩
  named kindNamed classified stood := by
    obtain ⟨definition, body, rfl, outside, shown, widened⟩ := stood
    cases classify_checked classified
    refine ⟨.named kindNamed classified shown (fun _ _ own => own.1) widened, .of_checked classified outside ?_⟩
    intro spec mentions
    obtain ⟨_, own⟩ := shown.mentioned mentions
    exact own.2
  entered _ classified := built.checked (mem_of_classify_eq classified)
  mentioned _ _ _ _ _ := trivial
  asked _ _ := trivial
  enter kept := ⟨fun name member => List.mem_append_left _ (kept.1 name member), kept.2⟩
  inlined _ _ entered fresh before after _ shown widened := by
    obtain ⟨definition, rfl⟩ := entered
    exact ⟨⟨before.1, after.2⟩, trivial, definition, _, rfl, fun inside => fresh (before.1 _ inside), shown, widened⟩
  referred hoisting _ _ _ _ _ := by simp [inline] at hoisting
  hoisted hoisting _ _ _ _ _ _ _ _ _ := by simp [inline] at hoisting

/-- The names on the chain belong to types that lead to the reference, but for those that stand apart. -/
def Led (setting : Setting) (apart chain : List Name) (spec : TypeSpec) : Prop :=
  ∀ name ∈ chain, name ∈ apart ∨ ∃ definition, .checked definition ∈ setting.catalog.toList ∧
    name = .text definition.name ∧ ∀ root, setting.catalog.Denotes setting.registry spec root →
      Relation.TransGen (setting.catalog.Uses setting.registry) definition root

theorem Led.of_base {apart chain : List Name} {spec other : TypeSpec} (led : setting.Led apart chain spec)
    (same : spec.base = other.base) : setting.Led apart chain other := by
  intro name inside
  refine (led name inside).imp_right fun found => ?_
  obtain ⟨definition, held, own, leads⟩ := found
  exact ⟨definition, held, own, fun root denotes => leads root (denotes.of_base same.symm)⟩

theorem Led.enter {apart chain : List Name} {name : String} {required nullable : Bool} {kind : Kind}
    {definition : Definition} {spec : TypeSpec} (led : setting.Led apart chain (.named name required nullable))
    (classified : classify setting.catalog setting.registry name = .ok (.entry kind (.checked definition)))
    (mentions : definition.Mentions spec) : setting.Led apart (chain ++ [(Entry.checked definition).name]) spec := by
  have uses (root : Definition) (denotes : setting.catalog.Denotes setting.registry spec root) :
      setting.catalog.Uses setting.registry definition root := ⟨spec, mentions, denotes⟩
  intro other inside
  rcases List.mem_append.mp inside with outer | last
  · refine (led other outer).imp_right fun found => ?_
    obtain ⟨leader, held, own, leads⟩ := found
    exact ⟨leader, held, own, fun root denotes => (leads definition ⟨kind, classified⟩).tail (uses root denotes)⟩
  · refine .inr ⟨definition, mem_of_classify_eq classified, List.mem_singleton.mp last, fun root denotes => ?_⟩
    exact .single (uses root denotes)

/-- What was written out reaches no type that leads to it. -/
theorem Led.avoids (built : setting.catalog.OfDefinitions) {apart chain : List Name} {spec : TypeSpec} {schema : Schema}
    (led : setting.Led apart chain spec) (inlines : setting.Inlines spec schema) (avoids : setting.Avoids apart spec) :
    setting.Avoids chain spec := by
  intro root definition denotes path named inside
  rcases led _ inside with apartToo | ⟨leader, held, same, leads⟩
  · exact avoids root definition denotes path named apartToo
  · cases built.eq_of_name (denotes.held_of_path path) held same
    exact Catalog.no_circle (inlines.accessible denotes) path ((leads root denotes).trans_left path)

private theorem alike_memoized {spec : TypeSpec} {walk twin : Walk Schema} {first second : Progress}
    (alike : Walk.Alike (Walk.Matches fun _ _ => True) (walk.run first) (twin.run second))
    (tables : first.table = second.table)
    (again : ∀ schema, first.known.lookup spec.optional = some schema → (Rules.still first.table).Yields twin schema) :
    Walk.Alike (Walk.Matches fun _ _ => True) ((Walk.memoized spec walk).run first) (twin.run second) := by
  cases found : first.known.lookup spec.optional with
  | some schema =>
    obtain ⟨after, ran, still, -⟩ := again schema found second tables.symm
    simp only [Walk.memoized, EStateM.run_bind, EStateM.run_get, found]
    rw [ran]
    exact .ok ⟨still.symm, trivial⟩
  | none =>
    simp only [Walk.memoized, EStateM.run_bind, EStateM.run_get, found]
    generalize walk.run first = here at alike
    generalize twin.run second = there at alike
    cases alike with
    | ok matched => exact .ok ⟨matched.1, trivial⟩
    | error => exact .error

private theorem agrees_of_alike (discipline : Discipline setting) {chain : List Name} {spec : TypeSpec}
    (admitted : discipline.admits chain spec)
    (again : ∀ {schema progress}, discipline.shows chain spec schema progress →
      (Rules.still progress.table).Yields (compileSpecWith .absent setting chain spec) schema)
    (alike : ∀ first second, (discipline.rules chain).invariant first ∧ first.table = second.table →
      Walk.Alike (Walk.Matches fun _ _ => True) ((setting.anew Walk.memoized chain spec).run first)
        ((setting.anew .absent chain spec).run second)) :
    Walk.Agrees (fun first second => (discipline.rules chain).invariant first ∧ first.table = second.table)
      (compileSpecWith Walk.memoized setting chain spec) (compileSpecWith .absent setting chain spec) := by
  have plain : compileSpecWith .absent setting chain spec = setting.anew .absent chain spec := compileSpecWith_eq ..
  intro first second related
  have same : Walk.Alike (Walk.Matches fun _ _ => True) ((compileSpecWith Walk.memoized setting chain spec).run first)
      ((compileSpecWith .absent setting chain spec).run second) := by
    rw [compileSpecWith_eq Walk.memoized, plain]
    refine alike_memoized (alike first second related) related.2 fun schema found => ?_
    rw [← plain]
    exact again (discipline.recalled related.1 admitted found)
  rw [compileSpecWith_memoized] at same ⊢
  have ensured := discipline.ensures_compileSpec chain spec admitted first
  generalize (compileSpec setting chain spec).run first = here at same ensured
  generalize (compileSpecWith .absent setting chain spec).run second = there at same
  cases same with
  | ok matched => exact .ok ⟨(ensured _ _ related.1 rfl).1, matched.1⟩
  | error => exact .error

/-- Remembering beside compiling anew, under a discipline by which what is remembered is compiled again. -/
private def forgetting (discipline : Discipline setting) (admits : ∀ chain spec, discipline.admits chain spec)
    (meets : List Name → TypeSpec → Prop)
    (element : ∀ {chain element required nullable}, meets chain (.array element required nullable) → meets chain element)
    (mentioned : ∀ {chain name required nullable kind entry spec}, meets chain (.named name required nullable) →
      classify setting.catalog setting.registry name = .ok (.entry kind entry) → entry.MayMention spec →
      meets (chain ++ [entry.name]) spec)
    (again : ∀ {chain spec schema progress}, discipline.shows chain spec schema progress → meets chain spec →
      (Rules.still progress.table).Yields (compileSpecWith .absent setting chain spec) schema) :
    Comparison setting Walk.memoized .absent fun _ _ => True where
  related chain first second := (discipline.rules chain).invariant first ∧ first.table = second.table
  meets := meets
  matched related := ⟨related.2, trivial⟩
  enter related := ⟨discipline.enter related.1, related.2⟩
  element := element
  mentioned := mentioned
  remembered met alike :=
    agrees_of_alike discipline (admits _ _) (fun shown => again shown met) alike

/-- Any call can be compared with one that remembers nothing. The name of a type that was given as an
object stands apart. -/
private theorem exists_forgetting (built : setting.catalog.OfDefinitions) (apart : List Name) {begun : Progress}
    (fresh : begun.known = []) : ∃ comparison : Comparison setting Walk.memoized .absent fun _ _ => True,
      comparison.related apart begun begun ∧ ∀ spec, comparison.meets apart spec := by
  have nothing {property : TypeSpec × Schema → Prop} : ∀ entry ∈ begun.known, property entry := by
    rw [fresh]
    exact nofun
  cases hoists : setting.hoisting with
  | true =>
    let discipline := setting.outlining hoists built (fun _ => True) (fun _ _ _ => True) (fun _ _ _ _ => trivial)
      (fun _ _ _ _ _ _ => trivial) fun _ _ _ _ _ _ => trivial
    refine ⟨forgetting discipline (fun _ _ _ _ => trivial) (fun _ _ => True) (fun _ => trivial) (fun _ _ _ => trivial) ?_,
      ⟨⟨nothing, fun _ _ => trivial⟩, rfl⟩, fun _ => trivial⟩
    exact fun settled _ => again_of_settled built hoists (settled.imp fun _ refers => refers.2)
  | false =>
    refine ⟨forgetting (setting.inliningApart hoists built apart) (fun _ _ => trivial) (setting.Led apart)
      (fun led => led.of_base rfl) (fun led classified mentions => ?_) ?_, ⟨⟨fun _ => id, nothing⟩, rfl⟩,
      fun spec name => .inl⟩
    · obtain ⟨definition, rfl⟩ := built.checked (mem_of_classify_eq classified)
      exact led.enter classified (mentions definition rfl)
    · exact fun shown led => again_of_inlines built hoists shown.1 (led.avoids built shown.1 shown.2) _

theorem alike_absent (built : setting.catalog.OfDefinitions) (given : Referent) {begun : Progress}
    (fresh : begun.known = []) : Walk.Alike (Walk.Matches fun _ _ => True)
      ((Compiled.ofReferentWith Walk.memoized setting given).run begun)
      ((Compiled.ofReferentWith .absent setting given).run begun) := by
  obtain ⟨comparison, related, met⟩ := exists_forgetting built [] fresh
  cases given with
  | written value =>
    rw [Compiled.ofReferentWith, Compiled.ofReferentWith]
    cases TypeSpec.read false value with
    | error misreading => exact .error
    | ok spec => exact comparison.spec related met spec
  | entry entry =>
    cases entry with
    | handwritten shape => exact .error
    | checked definition =>
      have type (kind : Kind) : Walk.Alike (Walk.Matches fun _ _ => True)
          ((setting.occurrence [] (.checked definition) false fun _ =>
            compileBodyWith Walk.memoized setting [(Entry.checked definition).name] kind (.checked definition)).run begun)
          ((setting.occurrence [] (.checked definition) false fun _ =>
            compileBodyWith .absent setting [(Entry.checked definition).name] kind (.checked definition)).run begun) := by
        obtain ⟨inside, within, all⟩ := exists_forgetting built [(Entry.checked definition).name] fresh
        refine Walk.Matches.occurrence ⟨rfl, trivial⟩ fun _ => ?_
        exact (inside.body kind (fun spec _ => all spec) _ _ within).imp inside.matched
      cases definition with
      | scalar name fragment => exact .ok ⟨rfl, trivial⟩
      | input name parameters => exact (comparison.input (fun spec _ => met spec) _ _ related).imp comparison.matched
      | product | sum | map | union => exact (type _).bind fun _ _ _ matched => .ok matched

end Setting

namespace Compiler

/-- A call remembers what it has compiled, answers what it would answer if it remembered nothing, and
leaves the same tables: the memory only saves work. -/
theorem memory_unnoticed (compiler : Compiler) (given : Referent) (mode : Mode)
    (built : compiler.catalog.OfDefinitions) :
    let call := compiler.compile given mode
    let anew := compiler.compileWith .absent given mode
    compiler.compileWith Walk.memoized given mode = call ∧
      call.outcome = anew.outcome ∧ call.compiler = anew.compiler := by
  intro call anew
  refine ⟨by rw [compileWith_memoized], ?_⟩
  have alike : Walk.Alike (Walk.Matches fun _ _ => True)
      ((Compiled.ofReferentWith Walk.memoized (compiler.setting mode) given).run (compiler.start given mode))
      ((Compiled.ofReferentWith .absent (compiler.setting mode) given).run (compiler.start given mode)) :=
    Setting.alike_absent built given rfl
  have same := compileWith_alike alike
  rwa [compileWith_memoized] at same

/-- An address is met three times, the last time inside another type. Only the first is not looked up, so
that less is logged with hoisting; without it, a type that contains itself is reported all the same. -/
theorem memory_unnoticed_of_order :
    let field (name type : String) : Field := ⟨name, .text type, none, none, none⟩
    let address : Definition := .product "Address" [field "city" "string"] none none "application/json"
    let shop : Definition := .product "Shop" [field "at" "address?", field "of" "order"] none none "application/json"
    let order : Definition :=
      .product "Order" [field "home" "address?", field "office" "!address?", field "from" "shop"] none none
        "application/json"
    let catalog : Catalog := ⟨[("address", .checked address), ("shop", .checked shop), ("order", .checked order)],
      [(.text "Address", "address"), (.text "Shop", "shop"), (.text "Order", "order")]⟩
    let compiler := new catalog .builtins .refSchema none
    let call := compiler.compile (.written (.text "order"))
    let anew := compiler.compileWith .absent (.written (.text "order"))
    compiler.catalog.OfDefinitions ∧
      Record.names ((call .refSchema).compiler.schemasFor .refSchema) = ["Address", "Shop", "Order"] ∧
      (call .refSchema).events.length < (anew .refSchema).events.length ∧
      (call .refSchema).compiler = (anew .refSchema).compiler ∧
      (call .jsonSchema).outcome.toOption.isNone = true ∧ (call .jsonSchema).outcome = (anew .jsonSchema).outcome := by
  intro field address shop order catalog compiler call anew
  have built : compiler.catalog.OfDefinitions :=
    Catalog.OfDefinitions.empty.register_all [("address", address), ("shop", shop), ("order", order)] rfl
  have same (mode : Mode) := memory_unnoticed compiler (.written (.text "order")) mode built
  exact ⟨built, by decide +kernel, by decide +kernel, (same .refSchema).2.2, by decide +kernel, (same .jsonSchema).2.1⟩

end Compiler

end Schemata
