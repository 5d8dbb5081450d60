import Schemata.Proofs.CompileRules
import Schemata.Proofs.HoistedTypes

/-! What a compilation does with references that earlier calls have settled. With the earlier table at
hand it refers to them at once; without it, it writes out their types again. Either way it yields the
same schema and nothing is seen of it but entries that the earlier table has already. -/

namespace Schemata

namespace Setting

variable (setting : Setting) (earlier : Table)

/-- A reference that is settled in an earlier table. Only hoisting calls look at tables. -/
def Hides (spec : TypeSpec) (schema : Schema) : Prop :=
  setting.hoisting = true ∧ setting.Settled (· ∈ Record.names earlier) spec schema

/-- Progress that looks alike beyond an earlier table, and remembers what is settled rightly. -/
def unseen : Rules where
  invariant progress := ∀ spec known value,
    setting.Hides earlier spec value → progress.known.lookup spec = some known → known = value
  growth before after :=
    Record.beyond earlier before.table = Record.beyond earlier after.table ∧
      ∀ spec, (∀ value, ¬ setting.Hides earlier spec value) → before.known.lookup spec = after.known.lookup spec
  refl _ := ⟨rfl, fun _ _ => rfl⟩
  trans first second := ⟨first.1.trans second.1, fun spec open_ => (first.2 spec open_).trans (second.2 spec open_)⟩

def Near (first second : Progress) : Prop :=
  (setting.unseen earlier).invariant first ∧ (setting.unseen earlier).invariant second ∧
    (setting.unseen earlier).growth first second

variable {setting earlier}

theorem Hides.optional {spec : TypeSpec} {schema : Schema} :
    setting.Hides earlier spec.optional schema ↔ setting.Hides earlier spec schema :=
  and_congr_right fun _ => Settled.optional

theorem Hides.unique {spec : TypeSpec} {first second : Schema} (one : setting.Hides earlier spec first)
    (other : setting.Hides earlier spec second) : first = second :=
  Option.some.inj (one.2.outlined.symm.trans other.2.outlined)

private theorem Hides.ne {spec other : TypeSpec} {schema : Schema} (hides : setting.Hides earlier spec schema)
    (visible : ∀ value, ¬ setting.Hides earlier other value) : other ≠ spec := by
  intro same
  exact visible schema (same ▸ hides)

/-- What is sure to happen unseen happens from progresses that look alike. -/
theorem respects_of_yields {walk : Walk α} {value : α} (yields : (setting.unseen earlier).Yields walk value) :
    Walk.Respects (setting.Near earlier) walk := by
  intro first second alike
  obtain ⟨one, other, near⟩ := alike
  obtain ⟨here, ran, kept, grown⟩ := yields first one
  obtain ⟨there, again, keptToo, grownToo⟩ := yields second other
  rw [ran, again]
  refine .ok ⟨kept, keptToo, ?_, fun spec visible => ?_⟩
  · exact grown.1.symm.trans (near.1.trans grownToo.1)
  · exact (grown.2 spec visible).symm.trans ((near.2 spec visible).trans (grownToo.2 spec visible))

private theorem lookup_cons_ne {spec key : TypeSpec} (different : spec ≠ key) (schema : Schema)
    (known : List (TypeSpec × Schema)) : ((key, schema) :: known).lookup spec = known.lookup spec := by
  rw [List.lookup_cons, beq_false_of_ne different]

theorem yields_memoized {spec : TypeSpec} {schema : Schema} {walk : Walk Schema}
    (hidden : setting.Hides earlier spec schema) (yields : (setting.unseen earlier).Yields walk schema) :
    (setting.unseen earlier).Yields (Walk.memoized spec walk) schema := by
  have key := Hides.optional.mpr hidden
  intro before kept
  cases found : before.known.lookup spec.optional with
  | some known =>
    cases kept _ _ _ key found
    refine ⟨before, Walk.run_bind_ok.mpr ⟨before, before, rfl, ?_⟩, kept, Rules.refl _ _⟩
    rw [found]
    exact Walk.run_pure_ok.mpr ⟨rfl, rfl⟩
  | none =>
    obtain ⟨middle, ran, inner, grown⟩ := yields before kept
    refine ⟨{ middle with known := (spec.optional, schema) :: middle.known },
      Walk.run_bind_ok.mpr ⟨before, before, rfl, ?_⟩, fun other known value hides found => ?_, grown.1,
      fun other visible => ?_⟩
    · rw [found]
      exact Walk.run_bind_ok.mpr ⟨schema, middle, ran, rfl⟩
    · by_cases same : other = spec.optional
      · subst same
        rw [List.lookup_cons_self] at found
        exact (Option.some.inj found).symm.trans (key.unique hides)
      · exact inner other known value hides (lookup_cons_ne same .. ▸ found)
    · rw [lookup_cons_ne (key.ne visible)]
      exact grown.2 other visible

private theorem respects_remember {key : TypeSpec} (visible : ∀ value, ¬ setting.Hides earlier key value)
    (schema : Schema) : Walk.Respects (setting.Near earlier)
      (modify (fun progress => { progress with known := (key, schema) :: progress.known }) >>=
        fun _ => pure schema : Walk Schema) := by
  intro first second near
  obtain ⟨oneKept, otherKept, tables, memo⟩ := near
  have remembers {progress : Progress} (kept : (setting.unseen earlier).invariant progress) :
      (setting.unseen earlier).invariant { progress with known := (key, schema) :: progress.known } := by
    intro asked known value hides found
    exact kept asked known value hides (lookup_cons_ne (hides.ne visible).symm .. ▸ found)
  refine .ok ⟨remembers oneKept, remembers otherKept, tables, fun asked open_ => ?_⟩
  by_cases same : asked = key
  · rw [same, List.lookup_cons_self, List.lookup_cons_self]
  · rw [lookup_cons_ne same, lookup_cons_ne same]
    exact memo asked open_

theorem respects_memoized {spec : TypeSpec} {walk : Walk Schema}
    (visible : ∀ value, ¬ setting.Hides earlier spec value) (respects : Walk.Respects (setting.Near earlier) walk) :
    Walk.Respects (setting.Near earlier) (Walk.memoized spec walk) := by
  have key (value : Schema) : ¬ setting.Hides earlier spec.optional value :=
    fun hides => visible value (Hides.optional.mp hides)
  intro first second near
  have same := near.2.2.2 spec.optional key
  cases found : second.known.lookup spec.optional with
  | some schema =>
    simp only [Walk.memoized, EStateM.run_bind, EStateM.run_get, same, found]
    exact .ok near
  | none =>
    simp only [Walk.memoized, EStateM.run_bind, EStateM.run_get, same, found]
    exact Walk.Respects.bind respects (respects_remember key) first second near

/-- Sees to it that a named type is in the table, unless it is on the chain. -/
def place (chain : List Name) (entry : Entry) (name : String) (body : entry.name ∉ chain → Walk Schema) :
    Walk Unit := do
  if Record.has (← get).table name then Walk.note (.reused name)
  else if fresh : entry.name ∈ chain then Walk.note (.recursive name)
  else
    Walk.hoist name (← body fresh)
    Walk.note (.hoisted name)

theorem occurrence_hoisting {chain : List Name} {entry : Entry} {nullable : Bool} {name : String}
    {body : entry.name ∉ chain → Walk Schema} (hoists : setting.hoisting = true) (named : entry.name = .text name) :
    setting.occurrence chain entry nullable body =
      place chain entry name body >>= fun _ =>
        .ofAccess (setting.widened nullable (.reference setting.dialect.base name)) := by
  unfold occurrence place
  rw [if_pos hoists]
  split
  next other known =>
    cases named.symm.trans known
    simp only [widen_eq, bind_assoc]
    congr 1
    funext progress
    split
    · rfl
    · split
      · rfl
      · simp only [bind_assoc]
  next known => cases named.symm.trans known

theorem occurrence_inline {chain : List Name} {entry : Entry} {nullable : Bool}
    {body : entry.name ∉ chain → Walk Schema} (inline : setting.hoisting = false) :
    setting.occurrence chain entry nullable body =
      if fresh : entry.name ∈ chain then throw (.unterminatedRecursion (chain ++ [entry.name]))
      else body fresh >>= fun written => .ofAccess (setting.widened nullable written) := by
  unfold occurrence
  simp only [inline, widen_eq, Bool.false_eq_true, if_false]

theorem occurrence_unsuitable {chain : List Name} {entry : Entry} {nullable : Bool}
    {key shown : String} {body : entry.name ∉ chain → Walk Schema} (hoists : setting.hoisting = true)
    (named : entry.name = .other key shown) :
    setting.occurrence chain entry nullable body =
      if fresh : entry.name ∈ chain then throw (.unusable .unsuitable)
      else body fresh >>= fun _ => throw (.unusable .unsuitable) := by
  unfold occurrence
  rw [if_pos hoists]
  split
  next known => cases named.symm.trans known
  next =>
    by_cases inside : entry.name ∈ chain
    · rw [dif_pos inside, dif_neg (not_not_intro inside)]
    · rw [dif_neg inside, dif_pos inside]
      simp only [discard, Functor.discard, map_const, Function.comp_apply, bind_map_left]

section Places

variable {chain : List Name} {entry : Entry} {name : String} {body : entry.name ∉ chain → Walk Schema}

private theorem yields_note (event : Event) : (setting.unseen earlier).Yields (Walk.note event) () :=
  fun _ kept => ⟨_, rfl, kept, rfl, fun _ _ => rfl⟩

private theorem yields_hoist (inside : name ∈ Record.names earlier) (written : Schema) :
    (setting.unseen earlier).Yields (Walk.hoist name written) () :=
  fun _ kept => ⟨_, rfl, kept, (Record.beyond_set_of_mem inside ..).symm, fun _ _ => rfl⟩

theorem place_run (progress : Progress) : (place chain entry name body).run progress =
    (if Record.has progress.table name then Walk.note (.reused name)
      else if fresh : entry.name ∈ chain then Walk.note (.recursive name)
      else body fresh >>= fun written => Walk.hoist name written >>= fun _ => Walk.note (.hoisted name)).run progress :=
  rfl

/-- Writing out a type that the earlier table has is not seen. -/
theorem yields_place {written : Schema} (inside : name ∈ Record.names earlier)
    (yields : ∀ fresh, (setting.unseen earlier).Yields (body fresh) written) :
    (setting.unseen earlier).Yields (place chain entry name body) () := by
  intro before kept
  rw [place_run]
  split
  · exact yields_note _ before kept
  · split
    · exact yields_note _ before kept
    · next fresh =>
      exact ((yields fresh).bind ((yields_hoist inside written).bind (yields_note _))) before kept

theorem respects_place (outside : name ∉ Record.names earlier)
    (respects : ∀ fresh, Walk.Respects (setting.Near earlier) (body fresh)) :
    Walk.Respects (setting.Near earlier) (place chain entry name body) := by
  intro first second near
  have same : Record.has first.table name = Record.has second.table name := by
    rw [Bool.eq_iff_iff, Record.has_iff, Record.has_iff]
    have listed (progress : Progress) : name ∈ Record.names progress.table ↔
        name ∈ Record.names (Record.beyond earlier progress.table) := by
      rw [Record.mem_names_beyond, and_iff_left outside]
    rw [listed, listed, near.2.2.1]
  have note (event : Event) : Walk.Respects (setting.Near earlier) (Walk.note event) :=
    respects_of_yields (yields_note event)
  have hoist (written : Schema) : Walk.Respects (setting.Near earlier) (Walk.hoist name written) := by
    intro one other near
    obtain ⟨oneKept, otherKept, tables, memo⟩ := near
    refine .ok ⟨oneKept, otherKept, ?_, memo⟩
    rw [Record.beyond_set_of_notMem outside, Record.beyond_set_of_notMem outside, tables]
  rw [place_run, place_run, same]
  split
  · exact note _ first second near
  · split
    · exact note _ first second near
    · next fresh =>
      exact Walk.Respects.bind (respects fresh)
        (fun written => Walk.Respects.bind (hoist written) fun _ => note _) first second near

end Places

theorem widened_reference (setting : Setting) (nullable : Bool) (name : String) :
    ∃ schema, setting.widened nullable (.reference setting.dialect.base name) = .ok schema := by
  cases nullable <;> exact ⟨_, rfl⟩

section Walks

variable (built : setting.catalog.OfDefinitions)
  (stored : setting.hoisting = true →
    ∀ entry ∈ earlier, setting.Stores (· ∈ Record.names earlier) entry.1 entry.2)

include built stored

private theorem yields_occurrence {chain : List Name} {definition : Definition} {kind : Kind} {nullable : Bool}
    {schema : Schema} (hoists : setting.hoisting = true) (held : .checked definition ∈ setting.catalog.toList)
    (listed : definition.name ∈ Record.names earlier)
    (widened : setting.widened nullable (.reference setting.dialect.base definition.name) = .ok schema)
    (references : (Entry.checked definition).name ∉ chain → ∀ spec inner, setting.Hides earlier spec inner →
      (setting.unseen earlier).Yields (compileSpec setting (chain ++ [(Entry.checked definition).name]) spec) inner) :
    (setting.unseen earlier).Yields (setting.occurrence chain (.checked definition) nullable fun _ =>
      compileBody setting (chain ++ [(Entry.checked definition).name]) kind (.checked definition)) schema := by
  obtain ⟨body, member⟩ := Record.exists_of_mem_names listed
  obtain ⟨other, otherHeld, same, -, shown⟩ := stored hoists _ member
  cases built.eq_of_name held otherHeld (congrArg Name.text same.symm)
  rw [occurrence_hoisting hoists rfl]
  have yields (fresh : (Entry.checked definition).name ∉ chain) : (setting.unseen earlier).Yields
      (compileBody setting (chain ++ [(Entry.checked definition).name]) kind (.checked definition)) body :=
    Rules.Yields.definitionBody (shown.imp fun spec inner _ settled => references fresh spec inner ⟨hoists, settled⟩)
  exact (yields_place listed yields).bind (Rules.Yields.ofAccess widened)

/-- A settled reference yields its outline, whatever has been compiled and wherever it stands. -/
theorem yields_compileSpec (chain : List Name) {spec : TypeSpec} {schema : Schema}
    (hidden : setting.Hides earlier spec schema) :
    (setting.unseen earlier).Yields (compileSpec setting chain spec) schema := by
  induction chain using setting.chain_induction generalizing spec schema with
  | step chain ih =>
    induction spec generalizing schema with
    | array element required nullable inner =>
      obtain ⟨items, outlined, widened⟩ := outline?_array.mp hidden.2.outlined
      have hides : setting.Hides earlier element items := ⟨hidden.1, outlined, hidden.2.listed⟩
      refine yields_memoized hidden ((inner hides).bind ?_)
      rw [widen_eq]
      exact Rules.Yields.ofAccess widened
    | named name required nullable =>
      apply yields_memoized hidden
      cases checkedOutline built hidden.2.outlined with
      | fragment supplies widened =>
        rw [compileName_fragment supplies]
        exact Rules.Yields.ofAccess widened
      | @type definition named classified widened =>
        have held := mem_of_classify_eq classified
        have listed := hidden.2.listed definition ⟨_, classified⟩ named
        rw [compileName_named named classified]
        exact yields_occurrence built stored hidden.1 held listed widened fun fresh _ _ => ih _ held fresh

private theorem respects_occurrence {chain : List Name} {definition : Definition} (kind : Kind) (nullable : Bool)
    (held : .checked definition ∈ setting.catalog.toList)
    (references : (Entry.checked definition).name ∉ chain → ∀ spec, Walk.Respects (setting.Near earlier)
      (compileSpec setting (chain ++ [(Entry.checked definition).name]) spec)) :
    Walk.Respects (setting.Near earlier) (setting.occurrence chain (.checked definition) nullable fun _ =>
      compileBody setting (chain ++ [(Entry.checked definition).name]) kind (.checked definition)) := by
  have body (fresh : (Entry.checked definition).name ∉ chain) : Walk.Respects (setting.Near earlier)
      (compileBody setting (chain ++ [(Entry.checked definition).name]) kind (.checked definition)) :=
    Walk.Respects.definitionBody definition fun spec _ => references fresh spec
  cases hoists : setting.hoisting with
  | true =>
    by_cases listed : definition.name ∈ Record.names earlier
    · obtain ⟨schema, widened⟩ := setting.widened_reference nullable definition.name
      refine respects_of_yields (yields_occurrence built stored hoists held listed widened fun _ _ _ hidden => ?_)
      exact yields_compileSpec built stored _ hidden
    · rw [occurrence_hoisting hoists rfl]
      exact Walk.Respects.bind (respects_place listed body) fun _ => Walk.Respects.ofAccess _
  | false =>
    rw [occurrence_inline hoists]
    split
    · exact Walk.Respects.throw _
    · next fresh => exact Walk.Respects.bind (body fresh) fun written => Walk.Respects.ofAccess _

/-- A reference does the same with the earlier table and without it. -/
theorem respects_compileSpec (chain : List Name) (spec : TypeSpec) :
    Walk.Respects (setting.Near earlier) (compileSpec setting chain spec) := by
  induction chain using setting.chain_induction generalizing spec with
  | step chain ih =>
    induction spec with
    | array element required nullable inner =>
      by_cases hidden : ∃ value, setting.Hides earlier (.array element required nullable) value
      · obtain ⟨value, hides⟩ := hidden
        exact respects_of_yields (yields_compileSpec built stored chain hides)
      · apply respects_memoized (not_exists.mp hidden)
        apply Walk.Respects.bind inner
        intro items
        rw [widen_eq]
        exact Walk.Respects.ofAccess _
    | named name required nullable =>
      by_cases hidden : ∃ value, setting.Hides earlier (.named name required nullable) value
      · obtain ⟨value, hides⟩ := hidden
        exact respects_of_yields (yields_compileSpec built stored chain hides)
      · apply respects_memoized (not_exists.mp hidden)
        cases built.denotation setting.registry name with
        | nothing classified =>
          rw [compileName_error classified]
          exact Walk.Respects.throw _
        | input classified =>
          rw [compileName_input classified]
          exact Walk.Respects.throw _
        | fragment supplies =>
          rw [compileName_fragment supplies]
          exact Walk.Respects.ofAccess _
        | type named classified =>
          have held := mem_of_classify_eq classified
          rw [compileName_named named classified]
          exact respects_occurrence built stored _ nullable held fun fresh spec => ih _ held fresh spec

/-- A whole compilation does the same with the earlier table and without it. -/
theorem respects_ofReferent {given : Referent} (held : ∀ entry, given = .entry entry → entry ∈ setting.catalog.toList) :
    Walk.Respects (setting.Near earlier) (Compiled.ofReferent setting given) := by
  have input (name : String) (parameters : List Parameter) : Walk.Respects (setting.Near earlier)
      (Compiled.ofInput setting (.checked (.input name parameters))) :=
    Walk.Respects.bind (Walk.Respects.parameters fun spec _ => respects_compileSpec built stored [] spec)
      fun records => Walk.Respects.pure _
  have single (spec : TypeSpec) : Walk.Respects (setting.Near earlier)
      (compileSpec setting [] spec >>= fun schema => pure (Compiled.single schema)) :=
    Walk.Respects.bind (respects_compileSpec built stored [] spec) fun schema => Walk.Respects.pure _
  cases given with
  | entry entry =>
    cases entry with
    | handwritten shape => exact Walk.Respects.throw _
    | checked definition =>
      by_cases named : definition.kind.isNamed = true
      · rw [Compiled.ofReferent, Compiled.ofDefinition_named named]
        refine Walk.Respects.bind ?_ fun schema => Walk.Respects.pure _
        exact respects_occurrence built stored _ false (held _ rfl) fun _ => respects_compileSpec built stored _
      · cases definition with
        | product | sum | map | union => exact absurd rfl named
        | scalar name fragment => exact Walk.Respects.pure _
        | input name parameters => exact input name parameters
  | written value =>
    apply Walk.Respects.reading
    intro spec read
    cases spec with
    | array element required nullable => exact single _
    | named name required nullable =>
      rcases classify_cases setting.catalog setting.registry name with
        ⟨error, classified⟩ | ⟨entry, classified⟩ | ⟨found, classified, noInput⟩
      · rw [Compiled.ofSpec_error classified]
        exact Walk.Respects.throw _
      · obtain ⟨label, parameters, rfl⟩ := built.input classified
        rw [Compiled.ofSpec_input classified]
        split
        · exact Walk.Respects.throw _
        · exact input label parameters
      · rw [Compiled.ofSpec_named classified noInput]
        exact single _

end Walks

end Setting

end Schemata
