import Schemata.Proofs.WalkScripts

/-! What input types declare. A checked input type and one that was written by hand declare their parameters each in
its own way; here both are brought to one list, and it is said what is read from the type of a parameter. -/

namespace Schemata

/-- What an input type declares of a parameter. One that was written by hand need not have it all. -/
structure DeclaredParameter where
  type : Except Fault Value
  name : Except Fault Value
  description : Option Value

namespace DeclaredParameter

def ofParameter (parameter : Parameter) : DeclaredParameter where
  type := .ok parameter.type
  name := .ok (.text parameter.name)
  description := givenText? parameter.description

def ofMember (member : Value) : DeclaredParameter where
  type := member.part "type"
  name := member.part "name"
  description := member.givenPart? "description"

def heading (parameter : DeclaredParameter) : Except CompileError (String × TypeSpec × Value) := do
  let type ← parameter.type.mapError .unusable
  let (location, spec) ← (Parameter.readType type).mapError .ofMisreading
  let name ← parameter.name.mapError .unusable
  return (location, spec, name)

def record (parameter : DeclaredParameter) : String × TypeSpec × Value → α → ParameterRecord α
  | (location, spec, name), schema =>
    { name, location, required := spec.required, schema, description := parameter.description }

end DeclaredParameter

def Entry.declared : Entry → Except Fault (List DeclaredParameter)
  | .checked (.input _ parameters) => .ok (parameters.map .ofParameter)
  | .checked _ => .error (.missing "parameters")
  | .handwritten shape => (shape.members "parameters").map (List.map .ofMember)

namespace Walk

def declared (compile : TypeSpec → Walk α) (parameter : DeclaredParameter) : Walk (ParameterRecord α) := do
  let heading ← Walk.ofResult parameter.heading
  return parameter.record heading (← compile heading.2.1)

private theorem ofResult_bind (outcome : Except CompileError α) (next : α → Except CompileError β) :
    Walk.ofResult (outcome >>= next) = Walk.ofResult outcome >>= fun value => Walk.ofResult (next value) := by
  cases outcome <;> rfl

private theorem declared_eq (compile : TypeSpec → Walk α) (parameter : DeclaredParameter) :
    Walk.declared compile parameter = do
      let type ← Walk.ofAccess parameter.type
      let (location, spec) ← Walk.ofReading (Parameter.readType type)
      let name ← Walk.ofAccess parameter.name
      return parameter.record (location, spec, name) (← compile spec) := by
  simp only [declared, DeclaredParameter.heading, ofResult_bind, bind_assoc, Walk.ofAccess_eq, Walk.ofReading_eq]
  rfl

private theorem parameter_eq (compile : TypeSpec → Walk α) (parameter : Parameter) :
    Walk.parameter compile parameter = Walk.declared compile (.ofParameter parameter) := by
  rw [declared_eq]
  rfl

private theorem handParameter_eq (compile : TypeSpec → Walk α) (member : Value) :
    Walk.handParameter compile member = Walk.declared compile (.ofMember member) := by
  rw [declared_eq]
  rfl

private theorem each_map (step : β → Walk γ) (change : α → β) (items : List α) :
    Walk.each step (items.map change) = Walk.each (fun item => step (change item)) items := by
  induction items with
  | nil => rfl
  | cons item rest ih => simp only [List.map_cons, Walk.each, ih]

theorem parameters_eq (compile : TypeSpec → Walk α) (entry : Entry) :
    Walk.parameters compile entry = Walk.ofAccess entry.declared >>= Walk.each (Walk.declared compile) := by
  cases entry with
  | checked definition =>
    cases definition with
    | input name parameters =>
      simp only [Walk.parameters, Entry.declared, Walk.ofAccess, pure_bind, each_map, ← parameter_eq]
    | scalar | product | sum | map | union => rfl
  | handwritten shape =>
    simp only [Walk.parameters, Entry.declared]
    cases shape.members "parameters" with
    | error fault => rfl
    | ok members => simp only [Except.map, Walk.ofAccess, pure_bind, each_map, ← handParameter_eq]

end Walk

namespace Parameter

/-- Where the parameter of a type is found, and what the type leaves as its reference. -/
inductive Locates : Value → String → Value → Prop where
  | said {front rest : String} (first : ':' ∉ front.toList)
      (known : String.ofList (Text.strip front.toList) ∈ locations) :
      Locates (.text (front ++ ":" ++ rest)) (.ofList (Text.strip front.toList)) (.text rest)
  | unsaid {written : String} (none : ':' ∉ written.toList) : Locates (.text written) "query" (.text written)
  | other {value : Value} (noText : ∀ written, value ≠ .text written) : Locates value "query" value

private theorem splitLocation_said {front rest : String} (first : ':' ∉ front.toList) :
    let location := String.ofList (Text.strip front.toList)
    let written := front ++ ":" ++ rest
    splitLocation (.text written) =
      if locations.contains location then .ok (location, .text rest)
      else .error ⟨.text written, .unknownLocation location⟩ := by
  intro location written
  have chars : written.toList = front.toList ++ ':' :: rest.toList := by simp [written]
  have before : ∀ c ∈ front.toList, decide (c ≠ ':') = true := by
    intro c member
    simpa using fun same : c = ':' => first (same ▸ member)
  have cut : written.toList.takeWhile (· ≠ ':') = front.toList := by
    rw [chars, List.takeWhile_append_of_pos before, List.takeWhile_cons_of_neg (by simp), List.append_nil]
  have left : (written.toList.dropWhile (· ≠ ':')).drop 1 = rest.toList := by
    rw [chars, List.dropWhile_append_of_pos before, List.dropWhile_cons_of_neg (by simp), List.drop_one, List.tail_cons]
  have marked : written.toList.contains ':' = true := by simp [chars]
  simp only [splitLocation, marked, if_true, cut, left, String.ofList_toList]
  rfl

theorem splitLocation_ok {type rest : Value} {location : String} :
    splitLocation type = .ok (location, rest) ↔ Locates type location rest := by
  constructor
  · intro split
    by_cases text : ∃ written, type = .text written
    · obtain ⟨written, rfl⟩ := text
      by_cases marked : ':' ∈ written.toList
      · obtain ⟨front, back, chars, first⟩ := List.eq_append_cons_of_mem marked
        have same : written = String.ofList front ++ ":" ++ String.ofList back := by
          rw [← String.toList_inj, chars]
          simp
        have first : ':' ∉ (String.ofList front).toList := by simpa using first
        rw [same, splitLocation_said first] at split
        split at split
        next known =>
          cases split
          rw [same]
          exact .said first (by simpa using known)
        next => cases split
      · simp only [splitLocation, List.contains_iff_mem, marked] at split
        cases split
        exact .unsaid marked
    · cases type with
      | text written => exact absurd ⟨written, rfl⟩ text
      | _ =>
        cases split
        exact .other nofun
  · intro locates
    cases locates with
    | said first known =>
      rw [splitLocation_said first, if_pos (by simpa using known)]
    | unsaid none => simp [splitLocation, none, defaultLocation]
    | other noText =>
      cases type with
      | text written => exact absurd rfl (noText written)
      | _ => rfl

/-- The location and the reference that a type says. -/
theorem readType_ok {type : Value} {location : String} {spec : TypeSpec} :
    readType type = .ok (location, spec) ↔ ∃ rest, Locates type location rest ∧ TypeSpec.read true rest = .ok spec := by
  constructor
  · intro accepted
    cases split : splitLocation type with
    | error misreading =>
      rw [readType, split] at accepted
      cases accepted
    | ok found =>
      obtain ⟨place, rest⟩ := found
      cases read : TypeSpec.read true rest with
      | error misreading =>
        simp only [readType, split, read, bind, Except.bind] at accepted
        cases accepted
      | ok decoded =>
        simp only [readType, split, read, bind, Except.bind, pure, Except.pure] at accepted
        cases accepted
        exact ⟨rest, splitLocation_ok.mp split, read⟩
  · intro accepted
    obtain ⟨rest, locates, read⟩ := accepted
    simp only [readType, splitLocation_ok.mpr locates, read, bind, Except.bind, pure, Except.pure]

end Parameter

theorem DeclaredParameter.heading_ok {parameter : DeclaredParameter} {location : String} {spec : TypeSpec} {name : Value} :
    parameter.heading = .ok (location, spec, name) ↔ parameter.name = .ok name ∧
      ∃ type rest, parameter.type = .ok type ∧ Parameter.Locates type location rest ∧
        TypeSpec.read true rest = .ok spec := by
  obtain ⟨type?, name?, description⟩ := parameter
  cases type? with
  | error fault => simp [heading, Except.mapError, bind, Except.bind]
  | ok type =>
    cases accepted : Parameter.readType type with
    | error misreading =>
      simp [heading, Except.mapError, bind, Except.bind, accepted, ← Parameter.readType_ok]
    | ok found =>
      cases name? <;>
        simp [heading, Except.mapError, bind, Except.bind, pure, Except.pure, accepted, ← Parameter.readType_ok,
          Prod.ext_iff, and_assoc, and_comm]

end Schemata
