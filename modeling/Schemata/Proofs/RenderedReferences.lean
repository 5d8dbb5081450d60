import Schemata.Proofs.ReferenceGrammar

/-! The canonical texts of references. Such a text is the spelling without blanks, so that reading it gives
back what was written; and whatever is read, from texts or from lists, has a canonical text. -/

namespace Schemata.TypeSpec

variable {inField : Bool} {spec : TypeSpec}

/-- Proper names at the core, and `!` only at the outside. -/
def IsWellFormed : TypeSpec → Prop
  | .named name _ _ => isName name.toList = true
  | .array element _ _ => element.required = false ∧ element.IsWellFormed

instance IsWellFormed.decidable : DecidablePred IsWellFormed
  | .named name _ _ => inferInstanceAs (Decidable (isName name.toList = true))
  | .array element _ _ =>
    have := IsWellFormed.decidable element
    inferInstanceAs (Decidable (element.required = false ∧ element.IsWellFormed))

theorem toList_marked (required nullable : Bool) (text : String) :
    (marked required nullable text).toList =
      (if required then ['!'] else []) ++ (text.toList ++ if nullable then ['?'] else []) := by
  cases required <;> cases nullable <;> simp [marked]

theorem Margins.around_marking {required nullable : Bool} (permitted : required = true → inField = true)
    (text : String) : (Margins.marking required nullable permitted).around text.toList = (marked required nullable text).toList := by
  rw [toList_marked, around, mark, marking, List.nil_append, List.append_nil]

/-- The canonical text of a reference spells it. -/
theorem IsWellFormed.exists_spelling (wellFormed : spec.IsWellFormed) (permitted : spec.required = true → inField = true) :
    ∃ spelling : Spelling inField, spelling.text = spec.render.toList ∧ spelling.spec = spec := by
  induction spec generalizing inField with
  | named name required nullable =>
    refine ⟨.named (.marking required nullable permitted) name.toList wellFormed, Margins.around_marking permitted name, ?_⟩
    exact congrArg (TypeSpec.named · required nullable) String.ofList_toList
  | array element required nullable ih =>
    obtain ⟨plain, inner⟩ := wellFormed
    have within : ∃ spelling : Spelling false, spelling.text = element.render.toList ∧ spelling.spec = element :=
      ih inner (by simp [plain])
    obtain ⟨spelling, written, rfl⟩ := within
    refine ⟨.array (.marking required nullable permitted) spelling, ?_, rfl⟩
    have brackets : inBrackets spelling.text = ("[" ++ spelling.spec.render ++ "]").toList := by
      rw [written]
      simp [inBrackets]
    exact (congrArg _ brackets).trans (Margins.around_marking permitted _)

theorem IsWellFormed.read_render (wellFormed : spec.IsWellFormed) (permitted : spec.required = true → inField = true) :
    read inField (.text spec.render) = .ok spec := by
  obtain ⟨spelling, written, same⟩ := wellFormed.exists_spelling permitted
  rw [read, ← written, spelling.readChars_text, same]

theorem Spelling.required_spec (spelling : Spelling inField) (required : spelling.spec.required = true) :
    inField = true := by
  cases spelling with
  | named margins => exact margins.permitted required
  | array margins => exact margins.permitted required

theorem Spelling.wellFormed_spec (spelling : Spelling inField) : spelling.spec.IsWellFormed := by
  induction spelling with
  | named margins name nameable =>
    rw [Spelling.spec, IsWellFormed, String.toList_ofList]
    exact nameable
  | array margins element ih =>
    refine ⟨Bool.eq_false_iff.mpr fun required => ?_, ih⟩
    cases element.required_spec required

private theorem wellFormed_of_wrapped {item : Value}
    (inner : ∀ {element}, read false item = .ok element →
      element.IsWellFormed ∧ (element.required = true → false = true))
    (wrapped : ((read false item).map fun element => TypeSpec.array element false false) = .ok spec) :
    spec.IsWellFormed ∧ (spec.required = true → inField = true) := by
  cases read : read false item with
  | error misreading =>
    rw [read] at wrapped
    cases wrapped
  | ok element =>
    rw [read] at wrapped
    cases wrapped
    obtain ⟨wellFormed, plain⟩ := inner read
    exact ⟨⟨Bool.eq_false_iff.mpr fun required => Bool.false_ne_true (plain required), wellFormed⟩, nofun⟩

/-- Whatever is read is well formed, and required only in a field. -/
theorem wellFormed_of_read {value : Value} (accepted : read inField value = .ok spec) :
    spec.IsWellFormed ∧ (spec.required = true → inField = true) := by
  fun_induction read inField value generalizing spec with
  | case1 =>
    obtain ⟨spelling, -, rfl⟩ := TypeSpec.exists_spelling accepted
    exact ⟨spelling.wellFormed_spec, spelling.required_spec⟩
  | case2 inField item ih => exact wellFormed_of_wrapped ih accepted
  | case3 inField mark item ih =>
    cases wrapped : (read false item).map fun element => TypeSpec.array element false false with
    | error misreading =>
      rw [wrapped] at accepted
      cases accepted
    | ok found =>
      rw [wrapped] at accepted
      cases accepted
      exact wellFormed_of_wrapped ih wrapped
  | case4 | case5 | case6 | case7 | case8 => cases accepted

/-- A well-formed reference is read back from its canonical text, in a field or, if it is not required, also
outside of one, so that no two of them share a text. And whatever is read is well formed, with a canonical
text that is read as the same reference. -/
theorem rendering_inverts_reading :
    (∀ spec : TypeSpec, spec.IsWellFormed → read true (.text spec.render) = .ok spec ∧
      (spec.required = false → read false (.text spec.render) = .ok spec)) ∧
    (∀ first second : TypeSpec, first.IsWellFormed → second.IsWellFormed → first.render = second.render →
      first = second) ∧
    ∀ inField value spec, read inField value = .ok spec →
      spec.IsWellFormed ∧ read inField (.text spec.render) = .ok spec := by
  refine ⟨fun spec wellFormed => ⟨wellFormed.read_render fun _ => rfl, ?_⟩, ?_, ?_⟩
  · intro plain
    exact wellFormed.read_render (by simp [plain])
  · intro first second firstFormed secondFormed same
    have one : read true (.text first.render) = .ok first := firstFormed.read_render fun _ => rfl
    rw [same, secondFormed.read_render fun _ => rfl] at one
    exact (Except.ok.inj one).symm
  · intro inField value spec accepted
    obtain ⟨wellFormed, permitted⟩ := wellFormed_of_read accepted
    exact ⟨wellFormed, wellFormed.read_render permitted⟩

theorem rendering_inverts_reading_of_pets :
    read true (.text "![[shop.Pet?]]?") = .ok (.array (.array (.named "shop.Pet" false true) false false) true true) :=
  (rendering_inverts_reading.1 (.array (.array (.named "shop.Pet" false true) false false) true true)
    (by decide)).1

end Schemata.TypeSpec
