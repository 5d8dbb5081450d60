import Schemata.TypeSpec.Reader
import Mathlib.Data.List.Basic
import Mathlib.Data.List.TakeWhile

/-! The grammar of type references. A reader that only looks at the two ends of a text accepts what the
grammar spells, and nothing else: brackets, marks and names can be told apart by their first and last
characters, so that a text has one spelling at most. -/

namespace Schemata

namespace Text

structure Firm (text : List Char) : Prop where
  begins : ∃ c rest, text = c :: rest ∧ isBlank c = false
  ends : ∃ front c, text = front ++ [c] ∧ isBlank c = false

theorem Firm.reverse {text : List Char} (firm : Firm text) : Firm text.reverse := by
  obtain ⟨⟨c, rest, began, first⟩, front, d, ended, last⟩ := firm
  refine ⟨⟨d, front.reverse, ?_, last⟩, rest.reverse, c, ?_, first⟩
  · rw [ended, List.reverse_append]
    rfl
  · rw [began, List.reverse_cons]

private theorem Firm.dropWhile_pad {text blanks : List Char} (firm : Firm text) (rest : List Char)
    (blank : ∀ c ∈ blanks, isBlank c = true) : (blanks ++ (text ++ rest)).dropWhile isBlank = text ++ rest := by
  obtain ⟨c, tail, rfl, first⟩ := firm.begins
  rw [List.dropWhile_append_of_pos blank, List.cons_append, List.dropWhile_cons_of_neg (by simp [first])]

/-- Blanks around a text are taken off, and nothing else. -/
theorem Firm.strip_pad {before text after : List Char} (firm : Firm text)
    (blankBefore : ∀ c ∈ before, isBlank c = true) (blankAfter : ∀ c ∈ after, isBlank c = true) :
    strip (before ++ (text ++ after)) = text := by
  have back := firm.reverse.dropWhile_pad [] fun c member => blankAfter c (List.mem_reverse.mp member)
  rw [strip, firm.dropWhile_pad after blankBefore, List.reverse_append]
  rw [List.append_nil] at back
  rw [back, List.reverse_reverse]

/-- Where the blanks end can be seen from the whole. -/
theorem Firm.pad_injective {text before after beforeToo afterToo : List Char} (firm : Firm text)
    (blank : ∀ c ∈ before, isBlank c = true) (blankToo : ∀ c ∈ beforeToo, isBlank c = true)
    (same : before ++ (text ++ after) = beforeToo ++ (text ++ afterToo)) : before = beforeToo ∧ after = afterToo := by
  obtain ⟨c, rest, rfl, first⟩ := firm.begins
  have taken (blanks following : List Char) (blank : ∀ c ∈ blanks, isBlank c = true) :
      (blanks ++ (c :: rest ++ following)).takeWhile isBlank = blanks := by
    rw [List.takeWhile_append_of_pos blank, List.cons_append, List.takeWhile_cons_of_neg (by simp [first]), List.append_nil]
  have front : before = beforeToo := by
    rw [← taken before after blank, same, taken beforeToo afterToo blankToo]
  subst front
  exact ⟨rfl, List.append_cancel_left (List.append_cancel_left same)⟩

theorem exists_pad_strip (text : List Char) :
    ∃ before after, (∀ c ∈ before, isBlank c = true) ∧ (∀ c ∈ after, isBlank c = true) ∧
      text = before ++ (strip text ++ after) := by
  have blank (chars : List Char) : ∀ c ∈ chars.takeWhile isBlank, isBlank c = true :=
    fun c member => List.mem_takeWhile_imp member
  refine ⟨text.takeWhile isBlank, ((text.dropWhile isBlank).reverse.takeWhile isBlank).reverse, blank text, ?_, ?_⟩
  · exact fun c member => blank _ c (List.mem_reverse.mp member)
  · rw [strip, ← List.reverse_append, List.takeWhile_append_dropWhile, List.reverse_reverse,
      List.takeWhile_append_dropWhile]

end Text

namespace TypeSpec

private theorem isNameRest_of_isName {text : List Char} (nameable : isName text = true) {c : Char} (member : c ∈ text) :
    isNameRest c = true := by
  cases text with
  | nil => cases member
  | cons head rest =>
    simp only [isName, Bool.and_eq_true, List.all_eq_true] at nameable
    rcases List.mem_cons.mp member with rfl | later
    · have start := nameable.1
      simp only [isNameStart, Bool.or_eq_true] at start
      simp only [isNameRest, Char.isAlphanum, Bool.or_eq_true]
      exact start.elim (fun letter => .inl (.inl (.inl letter))) fun underscore => .inl (.inr underscore)
    · exact nameable.2 c later

private theorem isBlank_of_isNameRest {c : Char} (nameable : isNameRest c = true) : Text.isBlank c = false := by
  have letters : c.isAlpha = (decide (c.val ≥ 'A'.val ∧ c.val ≤ 'Z'.val) ||
      (decide (c.val ≥ 'a'.val) && decide (c.val ≤ 'z'.val))) := rfl
  simp only [isNameRest, Char.isAlphanum, letters, Char.isDigit, Bool.or_eq_true, Bool.and_eq_true, decide_eq_true_eq,
    UInt32.le_iff_toNat_le, ge_iff_le] at nameable
  change ((((65 ≤ c.toNat ∧ c.toNat ≤ 90) ∨ (97 ≤ c.toNat ∧ c.toNat ≤ 122)) ∨ (48 ≤ c.toNat ∧ c.toNat ≤ 57)) ∨
    c = '_') ∨ c = '.' at nameable
  have range : 0x2E ≤ c.toNat ∧ c.toNat ≤ 0x7A := by
    rcases nameable with (((upper | lower) | digit) | rfl) | rfl
    · omega
    · omega
    · omega
    · decide
    · decide
  have outside (low high : Nat) (member : (low, high) ∈ Text.blankRanges) : c.toNat < low ∨ high < c.toNat := by
    have apart : ∀ bounds ∈ Text.blankRanges, bounds.2 < 0x2E ∨ 0x7A < bounds.1 := by decide
    have := apart _ member
    omega
  simp only [Text.isBlank, List.any_eq_false, Bool.and_eq_true, decide_eq_true_eq]
  rintro ⟨low, high⟩ member inside
  have := outside low high member
  omega

/-- What stands around a name or around brackets: blanks outside, and marks inside of these. A leading
`!` is only permitted in a field. -/
structure Margins (inField : Bool) where
  before : List Char
  required : Bool
  nullable : Bool
  after : List Char
  blank_before : ∀ c ∈ before, Text.isBlank c = true
  blank_after : ∀ c ∈ after, Text.isBlank c = true
  permitted : required = true → inField = true

def Margins.mark {inField : Bool} (margins : Margins inField) (core : List Char) : List Char :=
  (if margins.required then ['!'] else []) ++ (core ++ if margins.nullable then ['?'] else [])

def Margins.around {inField : Bool} (margins : Margins inField) (core : List Char) : List Char :=
  margins.before ++ (margins.mark core ++ margins.after)

/-- How references are spelled. Inside brackets a reference stands in no field. -/
inductive Spelling : (inField : Bool) → Type where
  | named {inField : Bool} (margins : Margins inField) (name : List Char) (nameable : isName name = true) : Spelling inField
  | array {inField : Bool} (margins : Margins inField) (element : Spelling false) : Spelling inField

def inBrackets (inside : List Char) : List Char := '[' :: (inside ++ [']'])

namespace Spelling

def text {inField : Bool} : Spelling inField → List Char
  | .named margins name _ => margins.around name
  | .array margins element => margins.around (inBrackets element.text)

def spec {inField : Bool} : Spelling inField → TypeSpec
  | .named margins name _ => .named (String.ofList name) margins.required margins.nullable
  | .array margins element => .array element.spec margins.required margins.nullable

end Spelling

structure Bounded (core : List Char) : Prop where
  begins : ∃ c rest, core = c :: rest ∧ Text.isBlank c = false ∧ c ≠ '!'
  ends : ∃ front c, core = front ++ [c] ∧ Text.isBlank c = false ∧ c ≠ '?'

theorem bounded_brackets (inside : List Char) : Bounded (inBrackets inside) where
  begins := ⟨'[', inside ++ [']'], rfl, by decide, by decide⟩
  ends := ⟨'[' :: inside, ']', rfl, by decide, by decide⟩

theorem bounded_name {name : List Char} (nameable : isName name = true) : Bounded name := by
  have plain {c : Char} (member : c ∈ name) := isNameRest_of_isName nameable member
  have unmarked {c : Char} (member : c ∈ name) (mark : Char) (outside : isNameRest mark = false) : c ≠ mark := by
    rintro rfl
    exact absurd (plain member) (by simp [outside])
  have present : name ≠ [] := by
    rintro rfl
    cases nameable
  constructor
  · obtain ⟨c, rest, rfl⟩ := List.exists_cons_of_ne_nil present
    have member : c ∈ c :: rest := List.mem_cons_self
    exact ⟨c, rest, rfl, isBlank_of_isNameRest (plain member), unmarked member '!' (by decide)⟩
  · have member := List.getLast_mem present
    exact ⟨name.dropLast, name.getLast present, (List.dropLast_concat_getLast present).symm,
      isBlank_of_isNameRest (plain member), unmarked member '?' (by decide)⟩

variable {inField : Bool} {margins : Margins inField} {core : List Char}

theorem Bounded.firm_mark (bounded : Bounded core) : Text.Firm (margins.mark core) := by
  obtain ⟨⟨c, rest, began, first, -⟩, front, d, ended, last, -⟩ := bounded
  unfold Margins.mark
  constructor
  · cases margins.required with
    | true => exact ⟨'!', _, rfl, by decide⟩
    | false => exact ⟨c, _, by rw [began]; rfl, first⟩
  · cases margins.nullable with
    | true => exact ⟨_, '?', (List.append_assoc ..).symm, by decide⟩
    | false =>
      refine ⟨(if margins.required then ['!'] else []) ++ front, d, ?_, last⟩
      simp [ended]

theorem Bounded.strip_around (bounded : Bounded core) : Text.strip (margins.around core) = margins.mark core :=
  bounded.firm_mark.strip_pad margins.blank_before margins.blank_after

theorem takeRequired_mark (bounded : Bounded core) (rest : List Char) (required : Bool) :
    takeRequired ((if required then ['!'] else []) ++ (core ++ rest)) = (required, core ++ rest) := by
  cases required with
  | true => rfl
  | false =>
    obtain ⟨c, tail, rfl, -, unmarked⟩ := bounded.begins
    unfold takeRequired
    split
    next same => exact absurd (List.cons.inj same).1 unmarked
    next => rfl

theorem getLast?_of_bounded (bounded : Bounded core) : core.getLast? ≠ some '?' := by
  obtain ⟨front, c, rfl, -, unmarked⟩ := bounded.ends
  simpa using unmarked

theorem takeLast_mark (bounded : Bounded core) (nullable : Bool) :
    takeLast '?' (core ++ if nullable then ['?'] else []) = (nullable, core) := by
  cases nullable with
  | true => simp [takeLast]
  | false => simp [takeLast, getLast?_of_bounded bounded]

/-- The marks around a core are read as they were spelled. -/
theorem marks_around (bounded : Bounded core) :
    marks inField (margins.around core) = .ok (margins.required, margins.nullable, core) := by
  have allowed : (margins.required && !inField) = false := by
    cases required : margins.required with
    | false => rfl
    | true => simp [margins.permitted required]
  have single : (margins.nullable && decide (core.getLast? = some '?')) = false := by
    simp [getLast?_of_bounded bounded]
  simp only [marks, bounded.strip_around, Margins.mark, takeRequired_mark bounded, takeLast_mark bounded, allowed, single,
    Bool.false_eq_true, if_false]

theorem takeRequired_append (text : List Char) :
    (if (takeRequired text).1 then ['!'] else []) ++ (takeRequired text).2 = text := by
  unfold takeRequired
  split <;> rfl

theorem takeLast_append (mark : Char) (text : List Char) :
    (takeLast mark text).2 ++ (if (takeLast mark text).1 then [mark] else []) = text := by
  unfold takeLast
  split
  next last => exact List.dropLast_append_getLast? mark last
  next => exact List.append_nil text

/-- Whatever marks are read were spelled. -/
theorem exists_margins {text : List Char} {required nullable : Bool}
    (read : marks inField text = .ok (required, nullable, core)) :
    ∃ margins : Margins inField, margins.required = required ∧ margins.nullable = nullable ∧ margins.around core = text := by
  obtain ⟨before, after, blankBefore, blankAfter, padded⟩ := Text.exists_pad_strip text
  have first := takeRequired_append (Text.strip text)
  have last := takeLast_append '?' (takeRequired (Text.strip text)).2
  simp only [marks] at read
  split at read
  next => cases read
  next allowed =>
    split at read
    next => cases read
    next =>
      cases read
      refine ⟨⟨before, _, _, after, blankBefore, blankAfter, ?_⟩, rfl, rfl, ?_⟩
      · intro required
        simpa [required] using allowed
      · rw [Margins.around, Margins.mark, last, first, ← padded]

theorem core_name {name : List Char} (nameable : isName name = true) : TypeSpec.core name = .ok (.name name) := by
  have closes : isNameRest ']' = false := by decide
  have unclosed : name.getLast? ≠ some ']' := by
    intro last
    rw [isNameRest_of_isName nameable (List.mem_of_getLast? last)] at closes
    cases closes
  unfold TypeSpec.core
  split
  next => cases nameable
  next =>
    cases name with
    | nil => cases nameable
    | cons => rw [if_neg unclosed, if_neg (by simp), if_pos nameable]

theorem core_inBrackets (inside : List Char) : TypeSpec.core (inBrackets inside) = .ok (.brackets inside) := by
  simp [inBrackets, TypeSpec.core]

theorem core_eq_name {text name : List Char} (read : TypeSpec.core text = .ok (.name name)) :
    text = name ∧ isName name = true := by
  unfold TypeSpec.core at read
  split at read
  next => split at read <;> cases read
  next =>
    repeat' split at read
    · cases read
    · cases read
    · cases read
      exact ⟨rfl, ‹_›⟩
    · cases read

theorem core_eq_brackets {text inside : List Char} (read : TypeSpec.core text = .ok (.brackets inside)) :
    text = inBrackets inside := by
  unfold TypeSpec.core at read
  split at read
  next rest =>
    split at read
    next closed =>
      cases read
      rw [inBrackets, List.dropLast_append_getLast? ']' closed]
    next => cases read
  next =>
    repeat' split at read
    all_goals cases read

theorem readChars_eq (inField : Bool) (text : List Char) :
    readChars inField text =
      match marks inField text with
      | .error fault => .error ⟨.text (String.ofList text), fault⟩
      | .ok (required, nullable, inner) =>
        match TypeSpec.core inner with
        | .error fault => .error ⟨.text (String.ofList text), fault⟩
        | .ok (.name name) => .ok (.named (String.ofList name) required nullable)
        | .ok (.brackets inside) => (readChars false inside).map fun element => .array element required nullable := by
  rw [readChars]
  split
  next fault marked => rw [marked]
  next required nullable inner marked =>
    simp only [marked]
    split
    next fault cored => simp only [cored]
    next name cored => simp only [cored]
    next inside cored => simp only [cored]

def Margins.marking (required nullable : Bool) (permitted : required = true → inField = true) : Margins inField :=
  ⟨[], required, nullable, [], List.forall_mem_nil _, List.forall_mem_nil _, permitted⟩

def Margins.none (inField : Bool) : Margins inField := .marking false false nofun

theorem Margins.around_none (core : List Char) : (Margins.none inField).around core = core := by
  simp [around, mark, Margins.none, marking]

theorem readChars_inBrackets (inField : Bool) (inside : List Char) :
    readChars inField (inBrackets inside) = (readChars false inside).map fun element => .array element false false := by
  have bare : (Margins.none inField).around (inBrackets inside) = inBrackets inside := Margins.around_none _
  rw [readChars_eq, ← bare, marks_around (bounded_brackets _)]
  simp only [core_inBrackets]
  rfl

theorem Spelling.readChars_text (spelling : Spelling inField) : readChars inField spelling.text = .ok spelling.spec := by
  induction spelling with
  | named margins name nameable =>
    simp only [text, readChars_eq, marks_around (bounded_name nameable), core_name nameable]
    rfl
  | array margins element ih =>
    simp only [text, readChars_eq _ (margins.around _), marks_around (bounded_brackets _), core_inBrackets, ih]
    rfl

/-- A name is read as itself, without marks. -/
theorem read_name {name : String} (nameable : isName name.toList = true) (inField : Bool) :
    read inField (.text name) = .ok (.named name false false) := by
  have spelled := (Spelling.named (Margins.none inField) name.toList nameable).readChars_text
  rw [Spelling.text, Margins.around_none, Spelling.spec, String.ofList_toList] at spelled
  exact spelled

theorem exists_spelling {text : List Char} {spec : TypeSpec} (read : readChars inField text = .ok spec) :
    ∃ spelling : Spelling inField, spelling.text = text ∧ spelling.spec = spec := by
  generalize size : text.length = length
  induction length using Nat.strongRecOn generalizing inField text spec with
  | ind length ih =>
    rw [readChars_eq] at read
    split at read
    next => cases read
    next required nullable inner marked =>
      obtain ⟨margins, rfl, rfl, rfl⟩ := exists_margins marked
      split at read
      next => cases read
      next name cored =>
        cases read
        obtain ⟨rfl, nameable⟩ := core_eq_name cored
        exact ⟨.named margins _ nameable, rfl, rfl⟩
      next inside cored =>
        have shorter := Nat.lt_of_lt_of_le (length_lt_of_core_eq cored) (length_le_of_marks_eq marked)
        cases inner : readChars false inside with
        | error misreading =>
          rw [inner] at read
          cases read
        | ok element =>
          rw [inner] at read
          cases read
          obtain ⟨spelling, rfl, rfl⟩ := ih _ (size ▸ shorter) inner rfl
          exact ⟨.array margins spelling, by rw [core_eq_brackets cored]; rfl, rfl⟩

theorem Margins.around_injective {other : Margins inField} {core otherCore : List Char} (bounded : Bounded core)
    (otherBounded : Bounded otherCore) (same : margins.around core = other.around otherCore) :
    margins = other ∧ core = otherCore := by
  have marked : marks inField (margins.around core) = .ok (margins.required, margins.nullable, core) :=
    marks_around bounded
  rw [same, marks_around otherBounded] at marked
  obtain ⟨before, required, nullable, after, blankBefore, blankAfter, permitted⟩ := margins
  obtain ⟨beforeToo, requiredToo, nullableToo, afterToo, blankBeforeToo, blankAfterToo, permittedToo⟩ := other
  cases marked
  obtain ⟨rfl, rfl⟩ := bounded.firm_mark.pad_injective blankBefore blankBeforeToo same
  exact ⟨rfl, rfl⟩

theorem Spelling.text_injective (first second : Spelling inField) (same : first.text = second.text) : first = second := by
  induction first with
  | named margins name nameable =>
    cases second with
    | named other label labelled =>
      obtain ⟨rfl, rfl⟩ := Margins.around_injective (bounded_name nameable) (bounded_name labelled) same
      rfl
    | array other element =>
      obtain ⟨rfl, rfl⟩ := Margins.around_injective (bounded_name nameable) (bounded_brackets _) same
      cases nameable
  | array margins element ih =>
    cases second with
    | named other label labelled =>
      obtain ⟨rfl, rfl⟩ := Margins.around_injective (bounded_brackets _) (bounded_name labelled) same
      cases labelled
    | array other inside =>
      obtain ⟨rfl, within⟩ := Margins.around_injective (bounded_brackets _) (bounded_brackets _) same
      have inner : element.text = inside.text := by simpa [inBrackets] using within
      rw [ih inside inner]

/-- A text is read exactly if it is spelled by the grammar, and then as the one reference that it spells. A
list of one reference is read as an array of it, and like its brackets if the reference is a text. -/
theorem texts_read_by_grammar :
    (∀ inField (text : String) spec, read inField (.text text) = .ok spec ↔
      ∃ spelling : Spelling inField, spelling.text = text.toList ∧ spelling.spec = spec) ∧
    (∀ inField (first second : Spelling inField), first.text = second.text → first = second) ∧
    (∀ inField value, read inField (.list [value]) =
      (read false value).map fun element => .array element false false) ∧
    ∀ inField (text : String), read inField (.list [.text text]) = read inField (.text ("[" ++ text ++ "]")) := by
  refine ⟨fun inField text spec => ⟨exists_spelling, ?_⟩, fun _ => Spelling.text_injective, fun _ _ => by rw [read], ?_⟩
  · intro spelled
    obtain ⟨spelling, same, rfl⟩ := spelled
    rw [read, ← same, spelling.readChars_text]
  · intro inField text
    have brackets : ("[" ++ text ++ "]").toList = inBrackets text.toList := by simp [inBrackets]
    simp only [read, brackets, readChars_inBrackets]

theorem texts_read_by_grammar_of_blanks :
    read true (.text " ![ Pet? ]") = .ok (.array (.named "Pet" false true) true false) := by
  apply (texts_read_by_grammar.1 true _ _).mpr
  have blank : ∀ c ∈ [' '], Text.isBlank c = true := List.forall_mem_singleton.mpr rfl
  exact ⟨.array ⟨[' '], true, false, [], blank, List.forall_mem_nil _, fun _ => rfl⟩
    (.named ⟨[' '], false, true, [' '], blank, blank, nofun⟩ ['P', 'e', 't'] (by decide)), rfl, rfl⟩

end TypeSpec

end Schemata
