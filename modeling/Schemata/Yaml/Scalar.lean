import Schemata.Text.CodePoint
import Schemata.Yaml.Cursor

/-!
The texts of scalars: plain, between quotes, and in blocks. Line breaks inside the first two are
folded: one becomes a space, and of several all but the first are kept. Escapes between double
quotes may name any code point, so that quoted scalars are read as characters that hold code points.
-/

namespace Schemata.Yaml.Scalar

/-- A scalar that was read, and where it ends. `broken` says whether a line break was passed last,
so that a key may follow. -/
structure Reading where
  text : List Char
  cursor : Cursor
  broken : Bool

/-- Marks that end a plain scalar inside brackets and braces. -/
def isFlowMark (c : Char) : Bool :=
  c = ',' || c = '?' || c = '[' || c = ']' || c = '{' || c = '}'

/-- Whether a colon before this character ends a plain scalar. -/
def endsColon (flow : Bool) (c : Char) : Bool :=
  isBlankOrEnd c || (flow && isFlowMark c && c ≠ '?')

/-- The characters of a plain scalar up to a blank, or a mark that ends it. -/
def plainRun (flow : Bool) : List Char → List Char
  | [] => []
  | c :: rest =>
    if isBlankOrEnd c || (c = ':' && endsColon flow (rest.head?.getD '\x00'))
      || (flow && isFlowMark c) then []
    else c :: plainRun flow rest

/-- Blank lines and the indentation after a line break: the breaks that were passed, or nothing if
a document begins or ends there. -/
def breaksAfter : Nat → List Char → Cursor → Option (List Char) × Cursor
  | 0, passed, cursor => (some passed, cursor)
  | steps + 1, passed, cursor =>
    if cursor.peek = ' ' then breaksAfter steps passed cursor.step
    else if isBreak cursor.peek then
      let (read, cursor) := cursor.lineBreak
      if cursor.isDocumentMark then (none, cursor) else breaksAfter steps (passed ++ read) cursor
    else (some passed, cursor)

/-- What line breaks read as: a single newline as a space. -/
def folded (first later : List Char) : List Char :=
  (if first = ['\n'] then (if later.isEmpty then [' '] else []) else first) ++ later

/-- The space between two parts of a plain scalar; nothing if the scalar ends here. -/
def plainSpace (cursor : Cursor) : Reading :=
  let (spaces, cursor) := cursor.takeWhile (· = ' ')
  if isBreak cursor.peek then
    let (first, cursor) := cursor.lineBreak
    if cursor.isDocumentMark then ⟨[], cursor, true⟩
    else
      match breaksAfter cursor.left [] cursor with
      | (some later, cursor) => ⟨folded first later, cursor, true⟩
      | (none, cursor) => ⟨[], cursor, true⟩
  else ⟨spaces, cursor, false⟩

/-- Reads a plain scalar part by part, each with the space before it. `indent` is the least column of
later lines. -/
def plain (flow : Bool) (indent : Int) : Nat → Reading → Reading
  | 0, space => { space with text := [] }
  | steps + 1, space =>
    let run := plainRun flow space.cursor.rest
    if run.isEmpty then { space with text := [] }
    else
      let after := plainSpace (space.cursor.advance run.length)
      if after.text.isEmpty || after.cursor.peek = '#'
        || (!flow && (after.cursor.column : Int) < indent) then
        { after with text := space.text ++ run }
      else
        let later := plain flow indent steps after
        { later with text := space.text ++ run ++ later.text }

def readPlain (flow : Bool) (indent : Int) (cursor : Cursor) : Reading :=
  plain flow indent cursor.left ⟨[], cursor, false⟩

/-- What the character after a backslash stands for. -/
def escaped? : Char → Option Char
  | '0' => some '\x00'
  | 'a' => some '\x07'
  | 'b' => some '\x08'
  | 't' | '\t' => some '\t'
  | 'n' => some '\n'
  | 'v' => some '\x0b'
  | 'f' => some '\x0c'
  | 'r' => some '\r'
  | 'e' => some '\x1b'
  | ' ' => some ' '
  | '"' => some '"'
  | '\\' => some '\\'
  | '/' => some '/'
  | 'N' => some '\x85'
  | '_' => some '\xa0'
  | 'L' => some '\u2028'
  | 'P' => some '\u2029'
  | _ => none

def escapeWidth? : Char → Option Nat
  | 'x' => some 2
  | 'u' => some 4
  | 'U' => some 8
  | _ => none

def hexValue? (c : Char) : Option Nat :=
  if '0' ≤ c && c ≤ '9' then some (c.toNat - 48)
  else if 'a' ≤ c && c ≤ 'f' then some (c.toNat - 87)
  else if 'A' ≤ c && c ≤ 'F' then some (c.toNat - 55)
  else none

def hexNumber? (digits : List Char) : Option Nat :=
  digits.foldl (fun sum c => sum.bind fun sum => (hexValue? c).map (sum * 16 + ·)) (some 0)

/-- The code point of a numeric escape, as characters hold it. -/
def numericEscape (width : Nat) (cursor : Cursor) : Except Trouble (List Char × Cursor) :=
  let digits := cursor.rest.take width
  if digits.length < width then .error .malformed
  else
    match hexNumber? digits with
    | none => .error .malformed
    | some code =>
      match Text.CodePoint.ofNumber? code with
      | some point => .ok (Text.CodePoint.write [point], cursor.advance width)
      | none => .error (if code < 0x80000000 then .impossible else .tooLarge)

/-- Blank lines inside quotes: the breaks that were passed. -/
def quotedBreaks : Nat → List Char → Cursor → Except Trouble (List Char × Cursor)
  | 0, passed, cursor => .ok (passed, cursor)
  | steps + 1, passed, cursor =>
    if cursor.isDocumentMark then .error .malformed
    else
      let cursor := cursor.skipWhile fun c => c = ' ' || c = '\t'
      if isBreak cursor.peek then
        let (read, cursor) := cursor.lineBreak
        quotedBreaks steps (passed ++ read) cursor
      else .ok (passed, cursor)

def quotedSpace (cursor : Cursor) : Except Trouble (List Char × Cursor) := do
  let (spaces, cursor) := cursor.takeWhile fun c => c = ' ' || c = '\t'
  if atEnd cursor.peek then throw .malformed
  else if isBreak cursor.peek then
    let (first, cursor) := cursor.lineBreak
    let (later, cursor) ← quotedBreaks (cursor.left + 1) [] cursor
    return (folded first later, cursor)
  else return (spaces, cursor)

/-- Characters that stand for themselves inside quotes of both sorts. -/
def isOrdinary (c : Char) : Bool := !(c = '\'' || c = '"' || c = '\\' || isBlankOrEnd c)

/-- What a backslash inside double quotes makes of the characters after it. -/
def escape (cursor : Cursor) : Except Trouble (List Char × Cursor) :=
  let c := cursor.peek
  match escaped? c, escapeWidth? c with
  | some meant, _ => .ok ([meant], cursor.step)
  | none, some width => numericEscape width cursor.step
  | none, none =>
    if isBreak c then
      let after := cursor.lineBreak.2
      quotedBreaks (after.left + 1) [] after
    else .error .malformed

/-- Text between quotes in front of what is read at a later place. -/
def before (text : List Char) (later : Except Trouble (List Char × Cursor)) :
    Except Trouble (List Char × Cursor) :=
  later.map fun (rest, cursor) => (text ++ rest, cursor)

/-- Reads on to the closing quote, which is passed. -/
def quotedRest (double : Bool) : Nat → Cursor → Except Trouble (List Char × Cursor)
  | 0, _ => .error .malformed
  | steps + 1, cursor =>
    let c := cursor.peek
    if double && c = '"' then .ok ([], cursor.step)
    else if !double && c = '\'' then
      if cursor.ahead 1 = '\'' then before ['\''] (quotedRest double steps (cursor.advance 2))
      else .ok ([], cursor.step)
    else if double && c = '\\' then do
      let (meant, cursor) ← escape cursor.step
      before meant (quotedRest double steps cursor)
    else if isBlankOrEnd c then do
      let (space, cursor) ← quotedSpace cursor
      before space (quotedRest double steps cursor)
    else if isOrdinary c then
      let (run, cursor) := cursor.takeWhile isOrdinary
      before (Text.held run) (quotedRest double steps cursor)
    else before [c] (quotedRest double steps cursor.step)

def readQuoted (double : Bool) (cursor : Cursor) : Except Trouble (List Char × Cursor) :=
  quotedRest double (cursor.left + 1) cursor.step

/-- What becomes of the line breaks at the end of a block. -/
inductive Chomping where
  | clip | strip | keep

def chomping? : Char → Option Chomping
  | '+' => some .keep
  | '-' => some .strip
  | _ => none

def takeChomping (cursor : Cursor) : Option Chomping × Cursor :=
  match chomping? cursor.peek with
  | some chomping => (some chomping, cursor.step)
  | none => (none, cursor)

/-- Takes a digit for the indentation off, if there is one. It is not zero. -/
def takeIncrement (cursor : Cursor) : Except Trouble (Option Nat × Cursor) :=
  let c := cursor.peek
  if c = '0' then .error .malformed
  else if '1' ≤ c && c ≤ '9' then .ok (some (c.toNat - 48), cursor.step)
  else .ok (none, cursor)

/-- The marks in the head of a block, in either order. -/
def blockMarks (cursor : Cursor) : Except Trouble (Chomping × Option Nat × Cursor) := do
  let (before, cursor) := takeChomping cursor
  let (increment, cursor) ← takeIncrement cursor
  let (chomping, cursor) :=
    match before, increment with
    | none, some _ => takeChomping cursor
    | _, _ => (before, cursor)
  if isSpaceOrEnd cursor.peek then return (chomping.getD .clip, increment, cursor)
  else throw .malformed

/-- Leading blank lines of a block whose indentation is not given: the breaks, and the widest
indentation seen. -/
def blockLead : Nat → List Char → Nat → Cursor → List Char × Nat × Cursor
  | 0, breaks, width, cursor => (breaks, width, cursor)
  | steps + 1, breaks, width, cursor =>
    if cursor.peek = ' ' then
      let cursor := cursor.step
      blockLead steps breaks (max width cursor.column) cursor
    else if isBreak cursor.peek then
      let (read, cursor) := cursor.lineBreak
      blockLead steps (breaks ++ read) width cursor
    else (breaks, width, cursor)

/-- Moves over spaces, at most to the indentation of the block. -/
def toIndent (indent : Nat) (cursor : Cursor) : Cursor :=
  let spaces := (cursor.rest.takeWhile (· = ' ')).length
  cursor.advance (min spaces (indent - cursor.column))

/-- Blank lines inside a block. -/
def blockBreaks (indent : Nat) : Nat → List Char → Cursor → List Char × Cursor
  | 0, breaks, cursor => (breaks, cursor)
  | steps + 1, breaks, cursor =>
    let cursor := toIndent indent cursor
    if isBreak cursor.peek then
      let (read, cursor) := cursor.lineBreak
      blockBreaks indent steps (breaks ++ read) cursor
    else (breaks, cursor)

def isLineBlank (c : Char) : Bool := c = ' ' || c = '\t'

/-- The lines of a block, behind the breaks of blank lines: the text, the break after the last line,
the blank lines behind it. -/
def blockLines (fold : Bool) (indent : Nat) :
    Nat → List Char → Cursor → List Char × List Char × List Char × Cursor
  | 0, breaks, cursor => ([], [], breaks, cursor)
  | steps + 1, breaks, cursor =>
    let flush := !isLineBlank cursor.peek
    let (line, cursor) := cursor.takeWhile fun c => !isBreakOrEnd c
    let (last, cursor) := cursor.lineBreak
    let (blank, cursor) := blockBreaks indent (cursor.left + 1) [] cursor
    if cursor.column = indent && !atEnd cursor.peek then
      let between :=
        if fold && last = ['\n'] && flush && !isLineBlank cursor.peek then
          (if blank.isEmpty then [' '] else [])
        else last
      let (text, last, blank, cursor) := blockLines fold indent steps blank cursor
      (breaks ++ line ++ between ++ text, last, blank, cursor)
    else (breaks ++ line, last, blank, cursor)

/-- Reads a block scalar whose head begins here. `parent` is the indentation of what holds it. -/
def readBlock (fold : Bool) (parent : Int) (cursor : Cursor) :
    Except Trouble (List Char × Cursor) := do
  let (chomping, increment, cursor) ← blockMarks cursor.step
  let cursor ← cursor.endLine
  let least := max 1 (parent + 1).toNat
  let steps := cursor.left + 1
  let (breaks, indent, cursor) :=
    match increment with
    | none =>
      let (breaks, width, cursor) := blockLead steps [] 0 cursor
      (breaks, max least width, cursor)
    | some increment =>
      let indent := least + increment - 1
      let (breaks, cursor) := blockBreaks indent steps [] cursor
      (breaks, indent, cursor)
  let (text, last, breaks, cursor) :=
    if cursor.column = indent && !atEnd cursor.peek then blockLines fold indent steps breaks cursor
    else ([], [], breaks, cursor)
  let tail :=
    match chomping with
    | .strip => []
    | .clip => last
    | .keep => last ++ breaks
  return (text ++ tail, cursor)

end Schemata.Yaml.Scalar
