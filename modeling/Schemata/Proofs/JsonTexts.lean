import Schemata.Value.Json
import Mathlib.Data.List.Forall2

/-! What a JSON text says, whoever wrote it: a strict reader, and that it reads what is printed as exactly the data that
was printed. Only the words for what is no number are refused. -/

namespace Schemata

/-- JSON data. A number stays as it is written, and a text is its units of sixteen bits: escapes say no more. -/
inductive Json where
  | null
  | bool (value : Bool)
  | number (literal : List Char)
  | string (units : List UInt16)
  | array (items : List Json)
  | object (members : List (List UInt16 × Json))

namespace Json

def isDigits (text : List Char) : Bool := !text.isEmpty && text.all Char.isDigit

def dropSign : List Char → List Char
  | '+' :: rest | '-' :: rest => rest
  | text => text

def isExponent : List Char → Bool
  | [] => true
  | mark :: rest => (mark = 'e' || mark = 'E') && isDigits (dropSign rest)

def isFraction : List Char → Bool
  | '.' :: rest => isDigits (rest.takeWhile Char.isDigit) && isExponent (rest.dropWhile Char.isDigit)
  | text => isExponent text

/-- No other digit follows a leading zero. -/
def isUnsigned : List Char → Bool
  | [] => false
  | '0' :: rest => isFraction rest
  | c :: rest => c.isDigit && isFraction (rest.dropWhile Char.isDigit)

def isNumber : List Char → Bool
  | '-' :: rest => isUnsigned rest
  | text => isUnsigned text

def isBlank (c : Char) : Bool := c = ' ' || c = '\n' || c = '\r' || c = '\t'

def skip (text : List Char) : List Char := text.dropWhile isBlank

def hexDigit? (c : Char) : Option Nat :=
  if c.isDigit then some (c.toNat - 48)
  else if 'a' ≤ c && c ≤ 'f' then some (c.toNat - 87)
  else if 'A' ≤ c && c ≤ 'F' then some (c.toNat - 55)
  else none

def unit? (digits : List Char) : Option UInt16 :=
  (digits.foldlM (fun sum c => (hexDigit? c).map (sum * 16 + ·)) 0).map UInt16.ofNat

def escaped? (mark : Char) : Option UInt16 :=
  ([('"', 0x22), ('\\', 0x5C), ('/', 0x2F), ('b', 8), ('f', 12), ('n', 10), ('r', 13), ('t', 9)] :
    List (Char × UInt16)).lookup mark

/-- The units of a character: two surrogates, unless one unit holds it. -/
def charUnits (c : Char) : List UInt16 :=
  if c.toNat < 0x10000 then [.ofNat c.toNat]
  else [.ofNat (0xD800 + (c.toNat - 0x10000) / 0x400), .ofNat (0xDC00 + (c.toNat - 0x10000) % 0x400)]

def readString : List Char → Option (List UInt16 × List Char)
  | [] => none
  | c :: rest =>
    if c = '"' then some ([], rest)
    else if c = '\\' then
      match rest with
      | [] => none
      | mark :: rest =>
        if mark = 'u' then
          match rest with
          | a :: b :: c :: d :: rest =>
            (unit? [a, b, c, d]).bind fun unit => (readString rest).map fun read => (unit :: read.1, read.2)
          | _ => none
        else (escaped? mark).bind fun unit => (readString rest).map fun read => (unit :: read.1, read.2)
    else if c.toNat < 0x20 then none
    else (readString rest).map fun read => (charUnits c ++ read.1, read.2)

def isAtomChar (c : Char) : Bool := c.isAlphanum || c = '+' || c = '-' || c = '.'

def atom? (literal : List Char) : Option Json :=
  if literal = ['n', 'u', 'l', 'l'] then some .null
  else if literal = ['t', 'r', 'u', 'e'] then some (.bool true)
  else if literal = ['f', 'a', 'l', 's', 'e'] then some (.bool false)
  else if isNumber literal then some (.number literal)
  else none

def readAtom (text : List Char) : Option (Json × List Char) :=
  (atom? (text.takeWhile isAtomChar)).map fun atom => (atom, text.dropWhile isAtomChar)

variable {α : Type}

/-- Reads parts with commas between them up to the closing mark, in a limited number of steps. -/
def readParts (closing : Char) (part : List Char → Option (α × List Char)) :
    Nat → List Char → Option (List α × List Char)
  | 0, _ => none
  | steps + 1, text =>
    (part text).bind fun first =>
      match skip first.2 with
      | [] => none
      | c :: rest =>
        if c = closing then some ([first.1], rest)
        else if c = ',' then (readParts closing part steps rest).map fun others => (first.1 :: others.1, others.2)
        else none

def readEnclosed (closing : Char) (part : List Char → Option (α × List Char)) (steps : Nat) (text : List Char) :
    Option (List α × List Char) :=
  match skip text with
  | [] => none
  | c :: rest => if c = closing then some ([], rest) else readParts closing part steps text

def readMember (value : List Char → Option (Json × List Char)) (text : List Char) :
    Option ((List UInt16 × Json) × List Char) :=
  match skip text with
  | [] => none
  | c :: rest =>
    if c = '"' then
      (readString rest).bind fun name =>
        match skip name.2 with
        | [] => none
        | c :: rest => if c = ':' then (value rest).map fun read => ((name.1, read.1), read.2) else none
    else none

def readValue : Nat → List Char → Option (Json × List Char)
  | 0, _ => none
  | steps + 1, text =>
    match skip text with
    | [] => none
    | c :: rest =>
      if c = '"' then (readString rest).map fun read => (.string read.1, read.2)
      else if c = '[' then (readEnclosed ']' (readValue steps) steps rest).map fun read => (.array read.1, read.2)
      else if c = '\x7b' then
        (readEnclosed '\x7d' (readMember (readValue steps)) steps rest).map fun read => (.object read.1, read.2)
      else readAtom (c :: rest)

/-- What a text says, if it is one JSON text. Every step of reading it takes a character. -/
def read (text : String) : Option Json :=
  (readValue text.toList.length text.toList).bind fun read => if (skip read.2).isEmpty then some read.1 else none

def unitText (unit : UInt16) : List Char :=
  if 0xD800 ≤ unit.toNat && unit.toNat < 0xE000 then Value.unitEscape unit.toNat
  else Value.jsonChar (Char.ofNat unit.toNat)

def quoted (units : List UInt16) : String := String.ofList ('"' :: units.flatMap unitText ++ ['"'])

mutual

def text (layout : Value.Layout) (depth : Nat) : Json → String
  | .null => "null"
  | .bool value => if value then "true" else "false"
  | .number literal => String.ofList literal
  | .string units => quoted units
  | .array items => layout.enclose depth "[" "]" (texts layout (depth + 1) items)
  | .object members => layout.enclose depth "\x7b" "\x7d" (memberTexts layout (depth + 1) members)

def texts (layout : Value.Layout) (depth : Nat) : List Json → List String
  | [] => []
  | item :: rest => item.text layout depth :: texts layout depth rest

def memberTexts (layout : Value.Layout) (depth : Nat) : List (List UInt16 × Json) → List String
  | [] => []
  | (name, value) :: rest => (quoted name ++ ": " ++ value.text layout depth) :: memberTexts layout depth rest

end

mutual

/-- Whether all that stands where numbers stand is a number. -/
def isStrict : Json → Bool
  | .number literal => isNumber literal
  | .array items => areStrict items
  | .object members => membersAreStrict members
  | _ => true

def areStrict : List Json → Bool
  | [] => true
  | item :: rest => isStrict item && areStrict rest

def membersAreStrict : List (List UInt16 × Json) → Bool
  | [] => true
  | (_, value) :: rest => isStrict value && membersAreStrict rest

end

theorem hexDigit?_digitChar : ∀ {digit : Nat}, digit < 16 → hexDigit? (Nat.digitChar digit) = some digit := by decide

theorem hexDigits_four (number : Nat) : Text.hexDigits 4 number =
    [Nat.digitChar (number / 4096 % 16), Nat.digitChar (number / 256 % 16), Nat.digitChar (number / 16 % 16),
      Nat.digitChar (number % 16)] := by
  simp [Text.hexDigits, Nat.div_div_eq_div_mul]

theorem unit?_hexDigits (unit : UInt16) : unit? (Text.hexDigits 4 unit.toNat) = some unit := by
  have digit (number : Nat) : hexDigit? (Nat.digitChar (number % 16)) = some (number % 16) :=
    hexDigit?_digitChar (Nat.mod_lt _ (by decide))
  have bound := unit.toNat_lt
  have whole : ((unit.toNat / 4096 % 16 * 16 + unit.toNat / 256 % 16) * 16 + unit.toNat / 16 % 16) * 16 +
      unit.toNat % 16 = unit.toNat := by omega
  simp [hexDigits_four, unit?, digit, whole]

theorem readString_unitEscape (unit : UInt16) (rest : List Char) :
    readString (Value.unitEscape unit.toNat ++ rest) = (readString rest).map fun read => (unit :: read.1, read.2) := by
  have own := unit?_hexDigits unit
  rw [hexDigits_four] at own
  rw [Value.unitEscape, hexDigits_four]
  show (unit? _).bind _ = _
  rw [own]
  rfl

/-- A short escape. -/
theorem readString_escaped {mark : Char} {unit : UInt16} (known : escaped? mark = some unit) (rest : List Char) :
    readString ('\\' :: mark :: rest) = (readString rest).map fun read => (unit :: read.1, read.2) := by
  have named : mark ≠ 'u' := by
    rintro rfl
    cases known
  rw [readString.eq_def]
  simp [named, known]

theorem readString_plain {c : Char} (noQuote : c ≠ '"') (noBackslash : c ≠ '\\') (visible : 0x20 ≤ c.toNat)
    (rest : List Char) :
    readString (c :: rest) = (readString rest).map fun read => (charUnits c ++ read.1, read.2) := by
  rw [readString.eq_def]
  simp [noQuote, noBackslash, Nat.not_lt.mpr visible]

theorem readString_unitText (unit : UInt16) (rest : List Char) :
    readString (unitText unit ++ rest) = (readString rest).map fun read => (unit :: read.1, read.2) := by
  unfold unitText
  split
  · exact readString_unitEscape unit rest
  next noSurrogate =>
    have bound := unit.toNat_lt
    have valid : unit.toNat.isValidChar := by
      simp only [Bool.and_eq_true, decide_eq_true_eq, not_and, Nat.not_lt] at noSurrogate
      simp only [Nat.isValidChar]
      omega
    have own : (Char.ofNat unit.toNat).toNat = unit.toNat := Text.CodePoint.toNat_ofNat valid
    generalize Char.ofNat unit.toNat = c at own
    have same : UInt16.ofNat c.toNat = unit := by rw [own, UInt16.ofNat_toNat]
    unfold Value.jsonChar
    iterate 7
      split
      next mark => subst mark; exact same ▸ readString_escaped (by decide) rest
    split
    next noQuote noBackslash _ _ _ _ _ printable =>
      simp only [Bool.and_eq_true, decide_eq_true_eq] at printable
      have units : charUnits c = [unit] := by
        rw [charUnits, if_pos (by omega), same]
      rw [List.cons_append, List.nil_append, readString_plain noQuote noBackslash printable.1, units]
      rfl
    rw [if_pos (by omega), own]
    exact readString_unitEscape unit rest

theorem readString_units (units : List UInt16) (rest : List Char) :
    readString (units.flatMap unitText ++ '"' :: rest) = some (units, rest) := by
  induction units with
  | nil => rw [List.flatMap_nil, List.nil_append, readString.eq_def]; rfl
  | cons unit units ih => rw [List.flatMap_cons, List.append_assoc, readString_unitText, ih]; rfl

theorem skip_append {blanks : List Char} (all : ∀ c ∈ blanks, isBlank c = true) (text : List Char) :
    skip (blanks ++ text) = skip text :=
  List.dropWhile_append_of_pos all

theorem skip_cons {c : Char} (solid : isBlank c = false) (rest : List Char) : skip (c :: rest) = c :: rest :=
  List.dropWhile_cons_of_neg (by simp [solid])

theorem readValue_skip {blanks : List Char} (all : ∀ c ∈ blanks, isBlank c = true) (steps : Nat) (text : List Char) :
    readValue steps (blanks ++ text) = readValue steps text := by
  cases steps with
  | zero => rfl
  | succ steps => rw [readValue, readValue, skip_append all]

theorem readMember_skip {blanks : List Char} (all : ∀ c ∈ blanks, isBlank c = true)
    (value : List Char → Option (Json × List Char)) (text : List Char) :
    readMember value (blanks ++ text) = readMember value text := by
  rw [readMember, readMember, skip_append all]

theorem lead_indented (width depth : Nat) :
    ((Value.Layout.indented width).lead depth).toList = '\n' :: List.replicate (width * depth) ' ' := by
  simp [Value.Layout.lead]

theorem lead_blank (layout : Value.Layout) (depth : Nat) : ∀ c ∈ (layout.lead depth).toList, isBlank c = true := by
  intro c member
  cases layout with
  | line => cases member
  | indented width =>
    rw [lead_indented] at member
    rcases List.mem_cons.mp member with rfl | space
    · rfl
    · cases List.eq_of_mem_replicate space
      rfl

def Stops (rest : List Char) : Prop := ∀ c ∈ rest.head?, isAtomChar c = false

variable {closing : Char} {part : List Char → Option (α × List Char)}

/-- A text is read as a value, whatever it goes on with. It does not begin with a blank or like the end of a
collection. -/
structure Printed (part : List Char → Option (α × List Char)) (text : String) (value : α) : Prop where
  solid : ∃ c rest, text.toList = c :: rest ∧ isBlank c = false ∧ c ≠ ']' ∧ c ≠ '\x7d'
  read : ∀ rest, Stops rest → part (text.toList ++ rest) = some (value, rest)

theorem separator_eq (layout : Value.Layout) :
    ∃ blanks, layout.separator.toList = ',' :: blanks ∧ ∀ c ∈ blanks, isBlank c = true := by
  cases layout with
  | line => exact ⟨[' '], by simp [Value.Layout.separator], List.all_eq_true.mp rfl⟩
  | indented => exact ⟨[], by simp [Value.Layout.separator], List.all_eq_true.mp rfl⟩

theorem stops_lead (layout : Value.Layout) (depth : Nat) (ends : closing = ']' ∨ closing = '\x7d') (rest : List Char) :
    Stops ((layout.lead depth).toList ++ closing :: rest) := by
  intro c member
  cases layout with
  | line =>
    cases member
    rcases ends with rfl | rfl <;> rfl
  | indented width =>
    rw [lead_indented] at member
    cases member
    rfl

section Parts

variable (layout : Value.Layout) (depth : Nat) (ends : closing = ']' ∨ closing = '\x7d')
  (skips : ∀ blanks text, (∀ c ∈ blanks, isBlank c = true) → part (blanks ++ text) = part text)

def joined (texts : List String) : String := layout.separator.intercalate (texts.map (layout.lead depth ++ ·))

theorem joined_cons_cons (first second : String) (rest : List String) : joined layout depth (first :: second :: rest) =
    layout.lead depth ++ first ++ layout.separator ++ joined layout depth (second :: rest) := by
  rw [joined, List.map_cons, List.map_cons, String.intercalate_cons_cons]
  rfl

theorem joined_cons (first : String) (rest : List String) :
    ∃ more, joined layout depth (first :: rest) = layout.lead depth ++ (first ++ more) := by
  cases rest with
  | nil => exact ⟨"", by simp [joined]⟩
  | cons second rest =>
    refine ⟨layout.separator ++ joined layout depth (second :: rest), ?_⟩
    simp only [joined_cons_cons, String.append_assoc]

/-- What is joined is at least as long as each part, and longer than their number. -/
theorem length_joined (texts : List String) :
    (∀ text ∈ texts, text.toList.length ≤ (joined layout depth texts).toList.length) ∧
      ((∀ text ∈ texts, 0 < text.toList.length) → texts.length ≤ (joined layout depth texts).toList.length) := by
  induction texts with
  | nil => exact ⟨nofun, fun _ => Nat.zero_le _⟩
  | cons text texts ih =>
    obtain ⟨each, count⟩ := ih
    cases texts with
    | nil =>
      simp only [joined, List.map_cons, List.map_nil, String.intercalate_singleton, String.toList_append,
        List.length_append, List.mem_singleton, forall_eq, List.length_singleton]
      omega
    | cons next texts =>
      rw [joined_cons_cons]
      simp only [String.toList_append, List.length_append]
      refine ⟨fun other member => ?_, fun solid => ?_⟩
      · rcases List.mem_cons.mp member with rfl | later
        · omega
        · have := each other later
          omega
      · have first := solid text List.mem_cons_self
        have others := count fun other member => solid other (List.mem_cons_of_mem _ member)
        rw [List.length_cons]
        omega

include skips in
theorem readParts_skip {blanks : List Char} (all : ∀ c ∈ blanks, isBlank c = true) (steps : Nat) (text : List Char) :
    readParts closing part steps (blanks ++ text) = readParts closing part steps text := by
  cases steps with
  | zero => rfl
  | succ steps => rw [readParts, readParts, skips _ _ all]

include ends skips

theorem readParts_joined {texts : List String} {values : List α} (all : List.Forall₂ (Printed part) texts values)
    (given : texts ≠ []) {steps : Nat} (enough : texts.length ≤ steps) (rest : List Char) :
    readParts closing part steps
      ((joined layout (depth + 1) texts).toList ++ ((layout.lead depth).toList ++ closing :: rest)) =
      some (values, rest) := by
  have blank := lead_blank layout
  have solid : isBlank closing = false := by rcases ends with rfl | rfl <;> rfl
  have noComma : closing ≠ ',' := by rcases ends with rfl | rfl <;> decide
  induction all generalizing steps with
  | nil => exact absurd rfl given
  | @cons text value texts values first others ih =>
    cases steps with
    | zero => exact absurd enough (by simp)
    | succ steps =>
      cases others with
      | nil =>
        rw [readParts, joined, List.map_cons, List.map_nil, String.intercalate_singleton, String.toList_append,
          List.append_assoc, skips _ _ (blank _), first.read _ (stops_lead layout depth ends rest)]
        simp [skip_append (blank depth), skip_cons solid]
      | @cons next _ later _ second others =>
        obtain ⟨blanks, separator, areBlank⟩ := separator_eq layout
        have stops (text : List Char) : Stops (layout.separator.toList ++ text) := by
          rw [separator]
          intro c member
          cases member
          rfl
        have more := ih (List.cons_ne_nil _ _) (Nat.le_of_succ_le_succ enough)
        rw [readParts, joined_cons_cons]
        simp only [String.toList_append, List.append_assoc]
        rw [skips _ _ (blank _), first.read _ (stops _), separator, Option.bind_some, List.cons_append, skip_cons rfl]
        dsimp only
        rw [if_neg noComma.symm, if_pos rfl, readParts_skip skips areBlank, more]
        rfl

theorem readEnclosed_enclose {texts : List String} {values : List α} (all : List.Forall₂ (Printed part) texts values)
    {steps : Nat} (enough : texts.length ≤ steps) (opening : String) {mark : String}
    (closes : mark.toList = [closing]) :
    ∃ inside, (layout.enclose depth opening mark texts).toList = opening.toList ++ inside ∧
      ∀ rest, readEnclosed closing part steps (inside ++ rest) = some (values, rest) := by
  have solid : isBlank closing = false := by rcases ends with rfl | rfl <;> rfl
  cases texts with
  | nil =>
    cases all
    refine ⟨[closing], by simp [Value.Layout.enclose, closes], fun rest => ?_⟩
    rw [readEnclosed, List.cons_append, List.nil_append, skip_cons solid]
    dsimp only
    rw [if_pos rfl]
  | cons text texts =>
    refine ⟨(joined layout (depth + 1) (text :: texts)).toList ++ ((layout.lead depth).toList ++ [closing]), ?_,
      fun rest => ?_⟩
    · simp [Value.Layout.enclose, joined, closes]
    have read := readParts_joined layout depth ends skips all (List.cons_ne_nil _ _) enough rest
    obtain ⟨more, front⟩ := joined_cons layout (depth + 1) text texts
    obtain ⟨value, _, first, -, -⟩ := List.forall₂_cons_left_iff.mp all
    obtain ⟨c, tail, own, visible, noBracket, noBrace⟩ := first.solid
    have begins : skip
        ((joined layout (depth + 1) (text :: texts)).toList ++ ((layout.lead depth).toList ++ closing :: rest)) =
        c :: (tail ++ more.toList ++ ((layout.lead depth).toList ++ closing :: rest)) := by
      rw [front]
      simp only [String.toList_append, own, List.append_assoc, List.cons_append]
      rw [skip_append (lead_blank layout _), skip_cons visible]
    have noEnd : c ≠ closing := by rcases ends with rfl | rfl <;> assumption
    simp only [List.append_assoc, List.cons_append, List.nil_append]
    rw [readEnclosed, begins]
    dsimp only
    rw [if_neg noEnd, read]

end Parts

theorem length_enclose (layout : Value.Layout) (depth : Nat) {opening mark : String} (opens : opening.toList.length = 1)
    (closes : mark.toList.length = 1) (texts : List String) :
    2 ≤ (layout.enclose depth opening mark texts).toList.length ∧
      (∀ text ∈ texts, text.toList.length + 2 ≤ (layout.enclose depth opening mark texts).toList.length) ∧
      ((∀ text ∈ texts, 0 < text.toList.length) →
        texts.length + 2 ≤ (layout.enclose depth opening mark texts).toList.length) := by
  cases texts with
  | nil => simp [Value.Layout.enclose, opens, closes]
  | cons text texts =>
    obtain ⟨each, count⟩ := length_joined layout (depth + 1) (text :: texts)
    have length : (layout.enclose depth opening mark (text :: texts)).toList.length =
        1 + (joined layout (depth + 1) (text :: texts)).toList.length + (layout.lead depth).toList.length + 1 := by
      simp only [Value.Layout.enclose, joined, List.isEmpty_cons, Bool.false_eq_true, if_false, String.toList_append,
        List.length_append, opens, closes]
    refine ⟨by omega, fun other member => ?_, fun solid => ?_⟩
    · have := each other member
      omega
    · have := count solid
      omega

/-- Reading the texts takes fewer steps than reading what encloses them. -/
theorem room_of_enclose {layout : Value.Layout} {depth steps : Nat} {opening mark : String} {texts : List String}
    (opens : opening.toList.length = 1) (closes : mark.toList.length = 1)
    (enough : (layout.enclose depth opening mark texts).toList.length ≤ steps) :
    ∃ room, steps = room + 1 ∧ ∀ text ∈ texts, text.toList.length ≤ room := by
  obtain ⟨two, each, -⟩ := length_enclose layout depth opens closes texts
  obtain ⟨room, rfl⟩ : ∃ room, steps = room + 1 := Nat.exists_eq_add_one_of_ne_zero (by omega)
  refine ⟨room, rfl, fun text member => ?_⟩
  have := each text member
  omega

theorem isAtomChar_of_isDigit {c : Char} (digit : c.isDigit = true) : isAtomChar c = true := by
  simp [isAtomChar, Char.isAlphanum, digit]

theorem isAtomChar_of_isDigits {text : List Char} (digits : isDigits text = true) :
    ∀ c ∈ text, isAtomChar c = true := by
  intro c member
  rw [isDigits, Bool.and_eq_true] at digits
  exact isAtomChar_of_isDigit (List.all_eq_true.mp digits.2 c member)

theorem isAtomChar_of_behind {text : List Char}
    (behind : ∀ c ∈ text.dropWhile Char.isDigit, isAtomChar c = true) : ∀ c ∈ text, isAtomChar c = true := by
  intro c member
  rw [← List.takeWhile_append_dropWhile (p := Char.isDigit) (l := text)] at member
  rcases List.mem_append.mp member with digit | later
  · exact isAtomChar_of_isDigit (List.all_eq_true.mp List.all_takeWhile c digit)
  · exact behind c later

theorem isAtomChar_of_isExponent {text : List Char} (exponent : isExponent text = true) :
    ∀ c ∈ text, isAtomChar c = true := by
  cases text with
  | nil => exact nofun
  | cons mark rest =>
    simp only [isExponent, Bool.and_eq_true, Bool.or_eq_true, decide_eq_true_eq] at exponent
    obtain ⟨named, digits⟩ := exponent
    have behind := isAtomChar_of_isDigits digits
    rw [List.forall_mem_cons]
    refine ⟨by rcases named with rfl | rfl <;> rfl, ?_⟩
    unfold dropSign at behind
    split at behind
    · exact List.forall_mem_cons.mpr ⟨rfl, behind⟩
    · exact List.forall_mem_cons.mpr ⟨rfl, behind⟩
    · exact behind

theorem isAtomChar_of_isFraction {text : List Char} (fraction : isFraction text = true) :
    ∀ c ∈ text, isAtomChar c = true := by
  unfold isFraction at fraction
  split at fraction
  · rw [Bool.and_eq_true] at fraction
    exact List.forall_mem_cons.mpr ⟨rfl, isAtomChar_of_behind (isAtomChar_of_isExponent fraction.2)⟩
  · exact isAtomChar_of_isExponent fraction

/-- A number is made of the characters of numbers. -/
theorem atoms_of_isNumber {literal : List Char} (number : isNumber literal = true) :
    (∀ c ∈ literal, isAtomChar c = true) ∧ literal ≠ [] := by
  have unsigned {text : List Char} (own : isUnsigned text = true) : (∀ c ∈ text, isAtomChar c = true) ∧ text ≠ [] := by
    unfold isUnsigned at own
    split at own
    · cases own
    · exact ⟨List.forall_mem_cons.mpr ⟨rfl, isAtomChar_of_isFraction own⟩, List.cons_ne_nil _ _⟩
    · rw [Bool.and_eq_true] at own
      exact ⟨List.forall_mem_cons.mpr ⟨isAtomChar_of_isDigit own.1,
        isAtomChar_of_behind (isAtomChar_of_isFraction own.2)⟩, List.cons_ne_nil _ _⟩
  unfold isNumber at number
  split at number
  · exact ⟨List.forall_mem_cons.mpr ⟨rfl, (unsigned number).1⟩, List.cons_ne_nil _ _⟩
  · exact unsigned number

theorem readAtom_append {literal : List Char} {json : Json} (known : atom? literal = some json)
    (atoms : ∀ c ∈ literal, isAtomChar c = true) {rest : List Char} (stops : Stops rest) :
    readAtom (literal ++ rest) = some (json, rest) := by
  have ends : rest.takeWhile isAtomChar = [] ∧ rest.dropWhile isAtomChar = rest := by
    cases rest with
    | nil => exact ⟨rfl, rfl⟩
    | cons c rest => simp [stops c rfl]
  rw [readAtom, List.takeWhile_append_of_pos atoms, List.dropWhile_append_of_pos atoms, ends.1, ends.2,
    List.append_nil, known]
  rfl

theorem solid_of_isAtomChar {c : Char} (atom : isAtomChar c = true) :
    isBlank c = false ∧ c ≠ '"' ∧ c ≠ '[' ∧ c ≠ '\x7b' ∧ c ≠ ']' ∧ c ≠ '\x7d' := by
  refine ⟨?_, ?_, ?_, ?_, ?_, ?_⟩
  · rw [Bool.eq_false_iff]
    intro blank
    simp only [isBlank, Bool.or_eq_true, decide_eq_true_eq] at blank
    rcases blank with ((rfl | rfl) | rfl) | rfl <;> cases atom
  all_goals
    rintro rfl
    cases atom

theorem given_of_printed {texts : List String} {values : List α} (all : List.Forall₂ (Printed part) texts values) :
    ∀ text ∈ texts, 0 < text.toList.length := by
  induction all with
  | nil => exact nofun
  | cons first _ ih =>
    obtain ⟨c, rest, own, -⟩ := first.solid
    exact List.forall_mem_cons.mpr ⟨by rw [own]; exact Nat.succ_pos _, ih⟩

theorem printed_atom {steps : Nat} {text : String} {json : Json} (known : atom? text.toList = some json)
    (all : ∀ c ∈ text.toList, isAtomChar c = true) (given : text.toList ≠ []) (enough : text.toList.length ≤ steps) :
    Printed (readValue steps) text json := by
  obtain ⟨c, tail, own⟩ := List.exists_cons_of_ne_nil given
  obtain ⟨visible, noQuote, noBracket, noBrace, noEnd, noEndToo⟩ := solid_of_isAtomChar (all c (by simp [own]))
  refine ⟨⟨c, tail, own, visible, noEnd, noEndToo⟩, fun rest stops => ?_⟩
  have more : steps ≠ 0 := Nat.ne_of_gt (Nat.lt_of_lt_of_le (List.length_pos_of_ne_nil given) enough)
  obtain ⟨steps, rfl⟩ := Nat.exists_eq_add_one_of_ne_zero more
  have read := readAtom_append known all stops
  rw [own, List.cons_append] at read
  rw [own, List.cons_append, readValue, skip_cons visible]
  dsimp only
  rw [if_neg noQuote, if_neg noBracket, if_neg noBrace, read]

theorem quoted_toList (units : List UInt16) : (quoted units).toList = '"' :: (units.flatMap unitText ++ ['"']) := by
  simp [quoted]

theorem printed_quoted (units : List UInt16) {steps : Nat} (enough : (quoted units).toList.length ≤ steps) :
    Printed (readValue steps) (quoted units) (.string units) := by
  rw [quoted_toList, List.length_cons] at enough
  obtain ⟨steps, rfl⟩ : ∃ room, steps = room + 1 := Nat.exists_eq_add_one_of_ne_zero (by omega)
  refine ⟨⟨_, _, quoted_toList units, rfl, by decide, by decide⟩, fun rest stops => ?_⟩
  rw [quoted_toList, List.cons_append, readValue, skip_cons rfl]
  dsimp only
  rw [if_pos rfl, List.append_assoc, List.cons_append, List.nil_append, readString_units]
  rfl

theorem printed_member {value : List Char → Option (Json × List Char)}
    (skips : ∀ blanks text, (∀ c ∈ blanks, isBlank c = true) → value (blanks ++ text) = value text)
    {text : String} {json : Json} (own : Printed value text json) (name : List UInt16) :
    Printed (readMember value) (quoted name ++ ": " ++ text) (name, json) := by
  have whole : (quoted name ++ ": " ++ text).toList =
      '"' :: (name.flatMap unitText ++ '"' :: ':' :: ([' '] ++ text.toList)) := by
    simp [quoted_toList]
  refine ⟨⟨_, _, whole, rfl, by decide, by decide⟩, fun rest stops => ?_⟩
  rw [whole, List.cons_append, readMember, skip_cons rfl]
  dsimp only
  rw [if_pos rfl, List.append_assoc, List.cons_append, readString_units, Option.bind_some, List.cons_append,
    skip_cons rfl]
  dsimp only
  rw [if_pos rfl, List.append_assoc, skips _ _ (List.all_eq_true.mp rfl), own.read rest stops]
  rfl

theorem printed_number {steps : Nat} {literal : List Char} (number : isNumber literal = true)
    (enough : (String.ofList literal).toList.length ≤ steps) :
    Printed (readValue steps) (String.ofList literal) (.number literal) := by
  have atoms := atoms_of_isNumber number
  have known : atom? literal = some (.number literal) := by
    unfold atom?
    split
    next same => rw [same] at number; cases number
    split
    next same => rw [same] at number; cases number
    split
    next same => rw [same] at number; cases number
    rfl
  refine printed_atom ?_ ?_ ?_ enough
  · rwa [String.toList_ofList]
  · rw [String.toList_ofList]; exact atoms.1
  · rw [String.toList_ofList]; exact atoms.2

theorem readValue_bracket (steps : Nat) (rest : List Char) : readValue (steps + 1) ('[' :: rest) =
    (readEnclosed ']' (readValue steps) steps rest).map fun read => (.array read.1, read.2) := by
  rw [readValue, skip_cons rfl]
  dsimp only
  rw [if_neg (by decide), if_pos rfl]

theorem readValue_brace (steps : Nat) (rest : List Char) : readValue (steps + 1) ('\x7b' :: rest) =
    (readEnclosed '\x7d' (readMember (readValue steps)) steps rest).map fun read => (.object read.1, read.2) := by
  rw [readValue, skip_cons rfl]
  dsimp only
  rw [if_neg (by decide), if_neg (by decide), if_pos rfl]

/-- A collection of printed parts is printed itself. -/
theorem printed_enclosed {layout : Value.Layout} {depth steps : Nat} {opening : Char} {front mark : String}
    {wrap : List α → Json} {texts : List String} {values : List α} (ends : closing = ']' ∨ closing = '\x7d')
    (skips : ∀ blanks text, (∀ c ∈ blanks, isBlank c = true) → part (blanks ++ text) = part text)
    (reads : ∀ rest, readValue (steps + 1) (opening :: rest) =
      (readEnclosed closing part steps rest).map fun read => (wrap read.1, read.2))
    (solid : isBlank opening = false ∧ opening ≠ ']' ∧ opening ≠ '\x7d') (opens : front.toList = [opening])
    (closes : mark.toList = [closing]) (enough : (layout.enclose depth front mark texts).toList.length ≤ steps + 1)
    (all : List.Forall₂ (Printed part) texts values) :
    Printed (readValue (steps + 1)) (layout.enclose depth front mark texts) (wrap values) := by
  obtain ⟨-, -, count⟩ := length_enclose layout depth (congrArg List.length opens) (congrArg List.length closes) texts
  have few := count (given_of_printed all)
  have room : texts.length ≤ steps := by omega
  obtain ⟨inside, same, read⟩ := readEnclosed_enclose layout depth ends skips all room front closes
  rw [opens] at same
  refine ⟨⟨opening, inside, same, solid⟩, fun rest _ => ?_⟩
  rw [same, List.append_assoc, List.cons_append, List.nil_append, reads, read]
  rfl

mutual

/-- Printed data is read again. -/
theorem printed_text (layout : Value.Layout) (depth : Nat) (json : Json) (strict : json.isStrict = true) {steps : Nat}
    (enough : (json.text layout depth).toList.length ≤ steps) :
    Printed (readValue steps) (json.text layout depth) json := by
  cases json with
  | null =>
    change Printed (readValue steps) "null" .null
    exact printed_atom rfl (List.all_eq_true.mp rfl) (by decide) enough
  | bool value =>
    cases value with
    | false =>
      change Printed (readValue steps) "false" (.bool false)
      exact printed_atom rfl (List.all_eq_true.mp rfl) (by decide) enough
    | true =>
      change Printed (readValue steps) "true" (.bool true)
      exact printed_atom rfl (List.all_eq_true.mp rfl) (by decide) enough
  | number literal => exact printed_number strict enough
  | string units => exact printed_quoted units enough
  | array items =>
    rw [text] at enough ⊢
    obtain ⟨steps, rfl, short⟩ := room_of_enclose (by decide) (by decide) enough
    exact printed_enclosed (.inl rfl) (fun _ _ blank => readValue_skip blank steps _) (readValue_bracket steps)
      (by decide) (by decide) (by decide) enough (printed_texts layout (depth + 1) items strict short)
  | object members =>
    rw [text] at enough ⊢
    obtain ⟨steps, rfl, short⟩ := room_of_enclose (by decide) (by decide) enough
    exact printed_enclosed (.inr rfl) (fun _ _ blank => readMember_skip blank _ _) (readValue_brace steps)
      (by decide) (by decide) (by decide) enough (printed_memberTexts layout (depth + 1) members strict short)

theorem printed_texts (layout : Value.Layout) (depth : Nat) (items : List Json) (strict : areStrict items = true)
    {steps : Nat} (enough : ∀ text ∈ texts layout depth items, text.toList.length ≤ steps) :
    List.Forall₂ (Printed (readValue steps)) (texts layout depth items) items := by
  cases items with
  | nil => exact .nil
  | cons item rest =>
    rw [areStrict, Bool.and_eq_true] at strict
    rw [texts, List.forall_mem_cons] at enough
    rw [texts]
    exact .cons (printed_text layout depth item strict.1 enough.1) (printed_texts layout depth rest strict.2 enough.2)

theorem printed_memberTexts (layout : Value.Layout) (depth : Nat) (members : List (List UInt16 × Json))
    (strict : membersAreStrict members = true) {steps : Nat}
    (enough : ∀ text ∈ memberTexts layout depth members, text.toList.length ≤ steps) :
    List.Forall₂ (Printed (readMember (readValue steps))) (memberTexts layout depth members) members := by
  cases members with
  | nil => exact .nil
  | cons member rest =>
    obtain ⟨name, value⟩ := member
    rw [membersAreStrict, Bool.and_eq_true] at strict
    rw [memberTexts, List.forall_mem_cons] at enough
    rw [memberTexts]
    have short : (value.text layout depth).toList.length ≤ steps := by
      refine Nat.le_trans ?_ enough.1
      simp only [String.toList_append, List.length_append]
      omega
    have own := printed_text layout depth value strict.1 short
    exact .cons (printed_member (fun _ _ blank => readValue_skip blank steps _) own name)
      (printed_memberTexts layout depth rest strict.2 enough.2)

end

/-- A printed text says what was printed. -/
theorem read_text {json : Json} (strict : json.isStrict = true) (layout : Value.Layout) :
    read (json.text layout 0 ++ "\n") = some json := by
  have length : (json.text layout 0).toList.length ≤ (json.text layout 0 ++ "\n").toList.length := by
    simp only [String.toList_append, List.length_append]
    omega
  have stops : Stops ['\n'] := by
    intro c member
    cases member
    rfl
  have printed := (printed_text layout 0 json strict length).read _ stops
  have whole : (json.text layout 0 ++ "\n").toList = (json.text layout 0).toList ++ ['\n'] := String.toList_append
  rw [whole] at printed
  rw [read, whole]
  rw [printed]
  rfl

theorem areStrict_iff {items : List Json} : areStrict items = true ↔ ∀ item ∈ items, item.isStrict = true := by
  induction items with
  | nil => simp [areStrict]
  | cons item rest ih => rw [areStrict, Bool.and_eq_true, ih, List.forall_mem_cons]

theorem membersAreStrict_iff {members : List (List UInt16 × Json)} :
    membersAreStrict members = true ↔ ∀ member ∈ members, member.2.isStrict = true := by
  induction members with
  | nil => simp [membersAreStrict]
  | cons member rest ih =>
    obtain ⟨name, value⟩ := member
    rw [membersAreStrict, Bool.and_eq_true, ih, List.forall_mem_cons]

section Sound

variable {good : α → Prop} (sound : ∀ {text value rest}, part text = some (value, rest) → good value)

include sound

theorem readParts_sound {steps : Nat} {text rest : List Char} {values : List α}
    (read : readParts closing part steps text = some (values, rest)) : ∀ value ∈ values, good value := by
  induction steps generalizing text values rest with
  | zero => cases read
  | succ steps ih =>
    rw [readParts, Option.bind_eq_some_iff] at read
    obtain ⟨first, own, read⟩ := read
    split at read
    · cases read
    split at read
    · cases read
      exact List.forall_mem_singleton.mpr (sound own)
    split at read
    · obtain ⟨others, later, same⟩ := Option.map_eq_some_iff.mp read
      cases same
      exact List.forall_mem_cons.mpr ⟨sound own, ih later⟩
    · cases read

theorem readEnclosed_sound {steps : Nat} {text rest : List Char} {values : List α}
    (read : readEnclosed closing part steps text = some (values, rest)) : ∀ value ∈ values, good value := by
  rw [readEnclosed] at read
  split at read
  · cases read
  split at read
  · cases read
    exact nofun
  · exact readParts_sound sound read

end Sound

theorem readMember_sound {value : List Char → Option (Json × List Char)} {good : Json → Prop}
    (sound : ∀ {text json rest}, value text = some (json, rest) → good json) {text rest : List Char}
    {member : List UInt16 × Json} (read : readMember value text = some (member, rest)) : good member.2 := by
  rw [readMember] at read
  split at read
  · cases read
  split at read
  · obtain ⟨name, -, read⟩ := Option.bind_eq_some_iff.mp read
    split at read
    · cases read
    split at read
    · obtain ⟨json, own, same⟩ := Option.map_eq_some_iff.mp read
      cases same
      exact sound own
    · cases read
  · cases read

theorem strict_of_atom? {literal : List Char} {json : Json} (known : atom? literal = some json) :
    json.isStrict = true := by
  unfold atom? at known
  split at known
  · cases known; rfl
  split at known
  · cases known; rfl
  split at known
  · cases known; rfl
  split at known
  next number => cases known; exact number
  next => cases known

theorem readValue_sound {steps : Nat} {text rest : List Char} {json : Json}
    (read : readValue steps text = some (json, rest)) : json.isStrict = true := by
  induction steps generalizing text json rest with
  | zero => cases read
  | succ steps ih =>
    rw [readValue] at read
    split at read
    · cases read
    split at read
    · obtain ⟨units, -, same⟩ := Option.map_eq_some_iff.mp read
      cases same
      rfl
    split at read
    · obtain ⟨items, own, same⟩ := Option.map_eq_some_iff.mp read
      cases same
      exact areStrict_iff.mpr (readEnclosed_sound ih own)
    split at read
    · obtain ⟨members, own, same⟩ := Option.map_eq_some_iff.mp read
      cases same
      exact membersAreStrict_iff.mpr (readEnclosed_sound (readMember_sound ih) own)
    · obtain ⟨atom, known, same⟩ := Option.map_eq_some_iff.mp read
      cases same
      exact strict_of_atom? known

/-- A printed text says what was printed, unless something that is no number stands for one. -/
theorem read_text_iff {json : Json} {layout : Value.Layout} :
    read (json.text layout 0 ++ "\n") = some json ↔ json.isStrict = true := by
  refine ⟨fun same => ?_, fun strict => read_text strict layout⟩
  obtain ⟨found, own, ends⟩ := Option.bind_eq_some_iff.mp same
  split at ends
  · cases ends
    exact readValue_sound own
  · cases ends

end Json

end Schemata
