/-!
Code points of texts. Nearly all are characters, but a text may also hold surrogates: the numbers
that UTF-16 keeps for the halves of a pair and that are no characters on their own. A `String` can
hold a surrogate as two characters, the last of all characters and a stand-in; that last character
itself is written twice. Nothing is lost this way: `read_write`.
-/

namespace Schemata.Text

inductive CodePoint where
  | char (c : Char)
  /-- A surrogate, counted from the first one. -/
  | surrogate (index : Fin 2048)
  deriving DecidableEq

namespace CodePoint

def firstSurrogate : Nat := 0xD800

def number : CodePoint → Nat
  | .char c => c.toNat
  | .surrogate index => firstSurrogate + index

/-- The code point with a number; numbers from `0x110000` on belong to none. -/
def ofNumber? (number : Nat) : Option CodePoint :=
  if inside : firstSurrogate ≤ number ∧ number < firstSurrogate + 2048 then
    some (.surrogate ⟨number - firstSurrogate, by omega⟩)
  else if number < 0x110000 then some (.char (Char.ofNat number))
  else none

/-- The character that announces a stand-in. -/
def mark : Char := Char.ofNat 0x10FFFF

def firstStandIn : Nat := 0x100000

/-- The character that stands for a surrogate behind the mark. -/
def standIn (index : Fin 2048) : Char := Char.ofNat (firstStandIn + index)

/-- What a character behind the mark stands for. -/
def ofStandIn (c : Char) : CodePoint :=
  if inside : c.toNat - firstStandIn < 2048 then .surrogate ⟨c.toNat - firstStandIn, inside⟩
  else .char c

def write : List CodePoint → List Char
  | [] => []
  | .char c :: rest => if c = mark then mark :: mark :: write rest else c :: write rest
  | .surrogate index :: rest => mark :: standIn index :: write rest

def read : List Char → List CodePoint
  | [] => []
  | [c] => [.char c]
  | c :: d :: rest =>
    if c = mark then ofStandIn d :: read rest else .char c :: read (d :: rest)

theorem toNat_ofNat {n : Nat} (valid : n.isValidChar) : (Char.ofNat n).toNat = n := by
  rw [Char.ofNat, dif_pos valid]
  rfl

theorem ofStandIn_standIn (index : Fin 2048) : ofStandIn (standIn index) = .surrogate index := by
  have valid : (firstStandIn + index.val).isValidChar := by
    simp only [firstStandIn, Nat.isValidChar]
    omega
  simp [ofStandIn, standIn, toNat_ofNat valid]

theorem ofStandIn_mark : ofStandIn mark = .char mark := by
  have outside : ¬ mark.toNat - firstStandIn < 2048 := by decide
  simp only [ofStandIn, dif_neg outside]

theorem read_cons_char {c : Char} (plain : c ≠ mark) (rest : List Char) :
    read (c :: rest) = .char c :: read rest := by
  cases rest with
  | nil => rfl
  | cons d rest => simp [read, plain]

/-- Writing code points loses nothing. -/
theorem read_write (points : List CodePoint) : read (write points) = points := by
  induction points with
  | nil => rfl
  | cons point rest ih =>
    cases point with
    | char c =>
      by_cases announced : c = mark
      · subst announced
        simp [write, read, ofStandIn_mark, ih]
      · simp [write, announced, read_cons_char announced, ih]
    | surrogate index => simp [write, read, ofStandIn_standIn, ih]

end CodePoint

def codePoints (text : String) : List CodePoint := CodePoint.read text.toList

def ofCodePoints (points : List CodePoint) : String := String.ofList (CodePoint.write points)

/-- Characters as they are held in a text. -/
def held (chars : List Char) : List Char := CodePoint.write (chars.map .char)

/-- A text of characters only. -/
def ofChars (chars : List Char) : String := String.ofList (held chars)

/-- The characters of a text, unless some of its code points are none. -/
def chars? (text : String) : Option (List Char) :=
  (codePoints text).mapM fun
    | .char c => some c
    | .surrogate _ => none

end Schemata.Text
