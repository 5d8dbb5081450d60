/-!
A place in a YAML document: the text from there on, with the line and the column. The end of the
text reads as the character NUL, which no document holds.
-/

namespace Schemata.Yaml

/-- Why a document gives no data. -/
inductive Trouble where
  /-- It is not well formed, or asks for something that is not plain data. -/
  | malformed
  /-- A scalar that denotes no value, such as a day that no month has. -/
  | impossible
  /-- A number that is too large to compute with. -/
  | tooLarge
  /-- A truth value that is no word for one. -/
  | unknownWord
  /-- A number without any characters. -/
  | emptyNumber
  /-- A moment that is not written like one. -/
  | notMoment
  /-- A moment that is a mapping. -/
  | notText
  /-- A scalar whose text is looked for in the scalar itself. -/
  | endless
  deriving DecidableEq

structure Cursor where
  rest : List Char
  /-- The length of the rest. -/
  left : Nat
  index : Nat
  line : Nat
  column : Nat

def atEnd (c : Char) : Bool := c = '\x00'

def isBreak (c : Char) : Bool :=
  c = '\n' || c = '\r' || c = '\x85' || c = '\u2028' || c = '\u2029'

def isBreakOrEnd (c : Char) : Bool := isBreak c || atEnd c

/-- The end of a word: a space, a line break or the end. -/
def isSpaceOrEnd (c : Char) : Bool := c = ' ' || isBreakOrEnd c

/-- The end of a word where tabs count as blanks. -/
def isBlankOrEnd (c : Char) : Bool := c = '\t' || isSpaceOrEnd c

/-- Characters that a document may hold. -/
def isAllowed (c : Char) : Bool :=
  c = '\t' || c = '\n' || c = '\r' || ('\x20' ≤ c && c ≤ '\x7e') || c = '\x85'
    || ('\xa0' ≤ c && c ≤ '\ufffd') || 0x10000 ≤ c.toNat

namespace Cursor

def start (text : List Char) : Cursor := ⟨text, text.length, 0, 0, 0⟩

def ahead (cursor : Cursor) (distance : Nat) : Char := (cursor.rest[distance]?).getD '\x00'

def peek (cursor : Cursor) : Char := cursor.ahead 0

/-- Moves behind one character. A line break begins a line; a byte order mark takes no column. -/
def step (cursor : Cursor) : Cursor :=
  match cursor.rest with
  | [] => cursor
  | c :: rest =>
    let broken := if c = '\r' then rest.head? ≠ some '\n' else isBreak c
    { rest
      left := cursor.left - 1
      index := cursor.index + 1
      line := if broken then cursor.line + 1 else cursor.line
      column :=
        if broken then 0 else if c = '\ufeff' then cursor.column else cursor.column + 1 }

def advance : Nat → Cursor → Cursor
  | 0, cursor => cursor
  | count + 1, cursor => advance count cursor.step

/-- Takes the characters in front that pass a test. -/
def takeWhile (cursor : Cursor) (test : Char → Bool) : List Char × Cursor :=
  let taken := cursor.rest.takeWhile test
  (taken, cursor.advance taken.length)

def skipWhile (cursor : Cursor) (test : Char → Bool) : Cursor := (cursor.takeWhile test).2

/-- Moves behind a line break, if there is one, and says how it reads: as a newline, unless it is
one of the two separators. -/
def lineBreak (cursor : Cursor) : List Char × Cursor :=
  match cursor.rest with
  | '\r' :: '\n' :: _ => (['\n'], cursor.advance 2)
  | c :: _ =>
    if c = '\u2028' || c = '\u2029' then ([c], cursor.step)
    else if isBreak c then (['\n'], cursor.step)
    else ([], cursor)
  | [] => ([], cursor)

/-- Whether three marks of one sort stand here as a word. -/
def isRule (cursor : Cursor) (mark : Char) : Bool :=
  cursor.ahead 0 = mark && cursor.ahead 1 = mark && cursor.ahead 2 = mark
    && isBlankOrEnd (cursor.ahead 3)

def isDocumentMark (cursor : Cursor) : Bool := cursor.isRule '-' || cursor.isRule '.'

def skipComment (cursor : Cursor) : Cursor :=
  if cursor.peek = '#' then cursor.skipWhile fun c => !isBreakOrEnd c else cursor

/-- Skips the rest of a line that must hold nothing but a comment. -/
def endLine (cursor : Cursor) : Except Trouble Cursor :=
  let cursor := (cursor.skipWhile (· = ' ')).skipComment
  if isBreakOrEnd cursor.peek then .ok cursor.lineBreak.2 else .error .malformed

end Cursor

end Schemata.Yaml
