import Schemata.Text.Numeral
import Schemata.Yaml.Scalar

/-!
The tokens of a YAML document: its scalars and marks, and the beginnings and ends of blocks, which
show only in the indentation. A key without a mark of its own is known when its colon comes, so
its place in the tokens is kept until then.
-/

namespace Schemata.Yaml

/-- A tag as written: a handle with a suffix, or a whole tag. -/
structure TagName where
  handle : Option String
  suffix : String

inductive Directive where
  | version (major : Nat)
  | tag (handle start : String)
  | other

inductive Token where
  | directive (directive : Directive)
  | documentStart
  | documentEnd
  | blockSequenceStart
  | blockMappingStart
  | blockEnd
  | flowSequenceStart
  | flowMappingStart
  | flowSequenceEnd
  | flowMappingEnd
  | blockEntry
  | flowEntry
  | key
  | value
  | alias (name : String)
  | anchor (name : String)
  | tag (name : TagName)
  | scalar (text : String) (plain : Bool)

def isWordChar (c : Char) : Bool := c.isAlphanum || c = '-' || c = '_'

def isTagChar (c : Char) : Bool := c.isAlphanum || "-;/?:@&=+$,_.!~*'()[]%".toList.contains c

def percentBytes : Nat → Cursor → Except Trouble (List UInt8 × Cursor)
  | 0, cursor => .ok ([], cursor)
  | steps + 1, cursor =>
    if cursor.peek = '%' then
      match Scalar.hexNumber? [cursor.ahead 1, cursor.ahead 2] with
      | none => .error .malformed
      | some code => do
        let (later, cursor) ← percentBytes steps (cursor.advance 3)
        return (UInt8.ofNat code :: later, cursor)
    else .ok ([], cursor)

/-- The text of a tag up to a character that cannot be part of it. -/
def tagText : Nat → List Char → Cursor → Except Trouble (List Char × Cursor)
  | 0, text, cursor => .ok (text, cursor)
  | steps + 1, text, cursor =>
    let c := cursor.peek
    if c = '%' then do
      let (bytes, cursor) ← percentBytes cursor.left cursor
      match String.fromUTF8? ⟨bytes.toArray⟩ with
      | some decoded => tagText steps (text ++ decoded.toList) cursor
      | none => throw .malformed
    else if isTagChar c then tagText steps (text ++ [c]) cursor.step
    else .ok (text, cursor)

def readTagText (cursor : Cursor) : Except Trouble (String × Cursor) := do
  let (text, cursor) ← tagText (cursor.left + 1) [] cursor
  if text.isEmpty then throw .malformed
  return (String.ofList text, cursor)

/-- Reads the handle of a tag: one mark, or a word between two marks. -/
def readHandle (cursor : Cursor) : Except Trouble (String × Cursor) :=
  if cursor.peek ≠ '!' then .error .malformed
  else
    let after := cursor.step
    if after.peek = ' ' then .ok ("!", after)
    else
      let (word, after) := after.takeWhile isWordChar
      if after.peek = '!' then .ok (String.ofList ('!' :: word ++ ['!']), after.step)
      else .error .malformed

/-- Whether a second mark comes before the end of the word. -/
def hasHandle (cursor : Cursor) : Bool :=
  (cursor.step.rest.takeWhile fun c => !isSpaceOrEnd c).contains '!'

def readTag (cursor : Cursor) : Except Trouble (TagName × Cursor) := do
  let c := cursor.ahead 1
  let (name, cursor) ←
    if c = '<' then do
      let (text, cursor) ← readTagText (cursor.advance 2)
      if cursor.peek ≠ '>' then throw .malformed
      pure (TagName.mk none text, cursor.step)
    else if isBlankOrEnd c then pure (TagName.mk none "!", cursor.step)
    else if hasHandle cursor then do
      let (handle, cursor) ← readHandle cursor
      let (text, cursor) ← readTagText cursor
      pure (TagName.mk (some handle) text, cursor)
    else do
      let (text, cursor) ← readTagText cursor.step
      pure (TagName.mk (some "!") text, cursor)
  if isSpaceOrEnd cursor.peek then return (name, cursor) else throw .malformed

def readName (cursor : Cursor) : Except Trouble (String × Cursor) :=
  let (word, cursor) := cursor.step.takeWhile isWordChar
  let c := cursor.peek
  if word.isEmpty then .error .malformed
  else if isBlankOrEnd c || "?:,]\x7d%@".toList.contains c || c = '\x60' then
    .ok (String.ofList word, cursor)
  else .error .malformed

def readNumber (cursor : Cursor) : Except Trouble (Nat × Cursor) :=
  let (digits, cursor) := cursor.takeWhile Char.isDigit
  if digits.isEmpty then .error .malformed
  else if Text.isTooLong 10 digits then .error .impossible
  else .ok (digits.foldl (fun sum c => sum * 10 + (c.toNat - 48)) 0, cursor)

def readDirective (cursor : Cursor) : Except Trouble (Directive × Cursor) := do
  let (name, cursor) := cursor.step.takeWhile isWordChar
  if name.isEmpty || !isSpaceOrEnd cursor.peek then throw .malformed
  let (directive, cursor) ←
    match String.ofList name with
    | "YAML" => do
      let (major, cursor) ← readNumber (cursor.skipWhile (· = ' '))
      if cursor.peek ≠ '.' then throw .malformed
      let (_, cursor) ← readNumber cursor.step
      if !isSpaceOrEnd cursor.peek then throw .malformed
      pure (Directive.version major, cursor)
    | "TAG" => do
      let (handle, cursor) ← readHandle (cursor.skipWhile (· = ' '))
      if cursor.peek ≠ ' ' then throw .malformed
      let (start, cursor) ← readTagText (cursor.skipWhile (· = ' '))
      if !isSpaceOrEnd cursor.peek then throw .malformed
      pure (Directive.tag handle start, cursor)
    | _ => pure (Directive.other, cursor.skipWhile fun c => !isBreakOrEnd c)
  return (directive, ← cursor.endLine)

/-- A place that a key may turn out to begin at. A required one must turn out so, since nothing
else may begin at the indentation of its block. -/
structure PossibleKey where
  place : Nat
  required : Bool
  index : Nat
  line : Nat
  column : Nat

structure Scanner where
  cursor : Cursor
  /-- The tokens so far, the latest first. -/
  read : List Token
  /-- Their number. -/
  count : Nat
  /-- Depth of brackets and braces. -/
  flow : Nat
  /-- Column of the block, or -1 outside all blocks. -/
  indent : Int
  /-- Columns of the blocks around it. -/
  outer : List Int
  /-- Whether a key may begin here. -/
  keyAllowed : Bool
  /-- Possible keys by depth. -/
  possible : List (Nat × PossibleKey)

namespace Scanner

def start (text : List Char) : Scanner :=
  { cursor := .start text, read := [], count := 0, flow := 0, indent := -1, outer := []
    keyAllowed := true, possible := [] }

def push (scanner : Scanner) (token : Token) : Scanner :=
  { scanner with read := token :: scanner.read, count := scanner.count + 1 }

/-- Puts a token before the one at a place. -/
def insert (scanner : Scanner) (place : Nat) (token : Token) : Scanner :=
  let behind := scanner.count - place
  { scanner with
    read := scanner.read.take behind ++ token :: scanner.read.drop behind
    count := scanner.count + 1 }

/-- A possible key ends with its line, and after 1024 characters. -/
def isStale (scanner : Scanner) (key : PossibleKey) : Bool :=
  key.line ≠ scanner.cursor.line || key.index + 1024 < scanner.cursor.index

def dropStale (scanner : Scanner) : Except Trouble Scanner :=
  if scanner.possible.any fun (_, key) => scanner.isStale key && key.required then
    .error .malformed
  else
    .ok { scanner with possible := scanner.possible.filter fun (_, key) => !scanner.isStale key }

/-- The tokens that stay as they are: no mark of a key can be put before them any more. -/
def settled (scanner : Scanner) : List Token :=
  let fresh := scanner.possible.filter fun (_, key) => !scanner.isStale key
  let count := fresh.foldl (fun count (_, key) => min count key.place) scanner.count
  scanner.read.reverse.take count

/-- Gives the possible key of this depth up. -/
def dropPossible (scanner : Scanner) : Except Trouble Scanner :=
  if scanner.possible.any fun (depth, key) => depth = scanner.flow && key.required then
    .error .malformed
  else
    .ok { scanner with possible := scanner.possible.filter fun (depth, _) => depth ≠ scanner.flow }

/-- Remembers that a key may begin here. -/
def savePossible (scanner : Scanner) : Except Trouble Scanner :=
  if scanner.keyAllowed then do
    let scanner ← scanner.dropPossible
    let key : PossibleKey :=
      { place := scanner.count
        required := scanner.flow = 0 && scanner.indent = scanner.cursor.column
        index := scanner.cursor.index, line := scanner.cursor.line
        column := scanner.cursor.column }
    return { scanner with possible := (scanner.flow, key) :: scanner.possible }
  else .ok scanner

/-- Ends the blocks that are indented further than a column. -/
def unwind (scanner : Scanner) (column : Int) : Scanner :=
  if scanner.flow = 0 then go (scanner.outer.length + 1) scanner else scanner
where
  go : Nat → Scanner → Scanner
    | 0, scanner => scanner
    | steps + 1, scanner =>
      if column < scanner.indent then
        let scanner := scanner.push .blockEnd
        match scanner.outer with
        | [] => { scanner with indent := -1 }
        | indent :: outer => go steps { scanner with indent, outer }
      else scanner

/-- Begins a block at a column, unless it is there already. -/
def indentTo (scanner : Scanner) (column : Nat) : Bool × Scanner :=
  if scanner.indent < column then
    (true, { scanner with indent := column, outer := scanner.indent :: scanner.outer })
  else (false, scanner)

/-- Begins a block here if one has to begin. -/
def openBlock (scanner : Scanner) (token : Token) : Except Trouble Scanner :=
  if scanner.flow ≠ 0 then .ok scanner
  else if !scanner.keyAllowed then .error .malformed
  else
    match scanner.indentTo scanner.cursor.column with
    | (true, scanner) => .ok (scanner.push token)
    | (false, scanner) => .ok scanner

/-- A mark of one character. -/
def mark (scanner : Scanner) (token : Token) : Scanner :=
  { scanner.push token with cursor := scanner.cursor.step }

/-- A token of content, before which a key may begin and after which none may. -/
def content (scanner : Scanner) (read : Cursor → Except Trouble (Token × Cursor)) :
    Except Trouble Scanner := do
  let scanner ← scanner.savePossible
  let (token, cursor) ← read scanner.cursor
  return { scanner.push token with cursor, keyAllowed := false }

/-- A token that stands between documents. -/
def between (scanner : Scanner) (read : Cursor → Except Trouble (Token × Cursor)) :
    Except Trouble Scanner := do
  let scanner ← (scanner.unwind (-1)).dropPossible
  let (token, cursor) ← read scanner.cursor
  return { scanner.push token with cursor, keyAllowed := false }

def openFlow (scanner : Scanner) (token : Token) : Except Trouble Scanner := do
  let scanner ← scanner.savePossible
  return { scanner.mark token with flow := scanner.flow + 1, keyAllowed := true }

def closeFlow (scanner : Scanner) (token : Token) : Except Trouble Scanner := do
  let scanner ← scanner.dropPossible
  return { scanner.mark token with flow := scanner.flow - 1, keyAllowed := false }

def flowEntry (scanner : Scanner) : Except Trouble Scanner := do
  let scanner ← scanner.dropPossible
  return { scanner.mark .flowEntry with keyAllowed := true }

def blockEntry (scanner : Scanner) : Except Trouble Scanner := do
  let scanner ← scanner.openBlock .blockSequenceStart
  let scanner ← scanner.dropPossible
  return { scanner.mark .blockEntry with keyAllowed := true }

def key (scanner : Scanner) : Except Trouble Scanner := do
  let scanner ← scanner.openBlock .blockMappingStart
  let scanner ← scanner.dropPossible
  return { scanner.mark .key with keyAllowed := scanner.flow = 0 }

/-- A colon. If a key was possible it is one, and its mark is put where it began. -/
def value (scanner : Scanner) : Except Trouble Scanner :=
  match scanner.possible.lookup scanner.flow with
  | some key =>
    let scanner :=
      { scanner with possible := scanner.possible.filter fun (depth, _) => depth ≠ scanner.flow }
    let scanner := scanner.insert key.place .key
    let scanner :=
      if scanner.flow = 0 then
        match scanner.indentTo key.column with
        | (true, scanner) => scanner.insert key.place .blockMappingStart
        | (false, scanner) => scanner
      else scanner
    .ok { scanner.mark .value with keyAllowed := false }
  | none => do
    let scanner ← scanner.openBlock .blockMappingStart
    let scanner ← scanner.dropPossible
    return { scanner.mark .value with keyAllowed := scanner.flow = 0 }

def blockScalar (scanner : Scanner) (fold : Bool) : Except Trouble Scanner := do
  let scanner ← scanner.dropPossible
  let (text, cursor) ← Scalar.readBlock fold scanner.indent scanner.cursor
  return { scanner.push (.scalar (Text.ofChars text) false) with cursor, keyAllowed := true }

def plainScalar (scanner : Scanner) : Except Trouble Scanner := do
  let scanner ← scanner.savePossible
  let read := Scalar.readPlain (scanner.flow ≠ 0) (scanner.indent + 1) scanner.cursor
  return { scanner.push (.scalar (Text.ofChars read.text) true) with
    cursor := read.cursor, keyAllowed := read.broken }

/-- Moves over spaces, comments and line breaks. After a line break a key may begin. -/
def toNextToken (scanner : Scanner) : Scanner :=
  let cursor := scanner.cursor
  let cursor := if cursor.index = 0 && cursor.peek = '\ufeff' then cursor.step else cursor
  go (cursor.left + 1) { scanner with cursor }
where
  go : Nat → Scanner → Scanner
    | 0, scanner => scanner
    | steps + 1, scanner =>
      let cursor := (scanner.cursor.skipWhile (· = ' ')).skipComment
      if isBreak cursor.peek then
        go steps { scanner with
          cursor := cursor.lineBreak.2, keyAllowed := scanner.flow = 0 || scanner.keyAllowed }
      else { scanner with cursor }

/-- Whether a plain scalar may begin here. -/
def beginsPlain (scanner : Scanner) : Bool :=
  let c := scanner.cursor.peek
  let next := scanner.cursor.ahead 1
  !(isBlankOrEnd c || "-?:,[]\x7b\x7d#&*!|>'\"%@".toList.contains c || c = '\x60')
    || (!isBlankOrEnd next && (c = '-' || (scanner.flow = 0 && (c = '?' || c = ':'))))

/-- Reads the next token; nothing at the end of the text. -/
def next (scanner : Scanner) : Except Trouble (Option Scanner) := do
  let scanner ← scanner.toNextToken.dropStale
  let scanner := scanner.unwind scanner.cursor.column
  let cursor := scanner.cursor
  let c := cursor.peek
  let flow := scanner.flow ≠ 0
  let apart := isBlankOrEnd (cursor.ahead 1)
  if atEnd c then return none
  else if c = '%' && cursor.column = 0 then
    scanner.between fun cursor => do
      let (directive, cursor) ← readDirective cursor
      return (.directive directive, cursor)
  else if cursor.column = 0 && cursor.isRule '-' then
    scanner.between fun cursor => .ok (.documentStart, cursor.advance 3)
  else if cursor.column = 0 && cursor.isRule '.' then
    scanner.between fun cursor => .ok (.documentEnd, cursor.advance 3)
  else if c = '[' then scanner.openFlow .flowSequenceStart
  else if c = '{' then scanner.openFlow .flowMappingStart
  else if c = ']' then scanner.closeFlow .flowSequenceEnd
  else if c = '}' then scanner.closeFlow .flowMappingEnd
  else if c = ',' then scanner.flowEntry
  else if c = '-' && apart then scanner.blockEntry
  else if c = '?' && (flow || apart) then scanner.key
  else if c = ':' && (flow || apart) then scanner.value
  else if c = '*' then
    scanner.content fun cursor => (readName cursor).map fun (name, cursor) => (.alias name, cursor)
  else if c = '&' then
    scanner.content fun cursor => (readName cursor).map fun (name, cursor) => (.anchor name, cursor)
  else if c = '!' then
    scanner.content fun cursor => (readTag cursor).map fun (name, cursor) => (.tag name, cursor)
  else if c = '|' && !flow then scanner.blockScalar false
  else if c = '>' && !flow then scanner.blockScalar true
  else if c = '\'' || c = '"' then
    scanner.content fun cursor =>
      (Scalar.readQuoted (c = '"') cursor).map fun (text, cursor) =>
        (.scalar (String.ofList text) false, cursor)
  else if scanner.beginsPlain then scanner.plainScalar
  else throw .malformed

def finish (scanner : Scanner) : Except Trouble Scanner := do
  let scanner ← scanner.toNextToken.dropStale
  (scanner.unwind (-1)).dropPossible

end Scanner

/-- The tokens of a text. A trouble may follow them, which counts only for a reader who gets that
far. -/
structure Tokens where
  ready : List Token
  trouble : Option Trouble

namespace Tokens

def scan : Nat → Scanner → Tokens
  | 0, scanner => ⟨scanner.settled, some .malformed⟩
  | steps + 1, scanner =>
    match scanner.next with
    | .error trouble => ⟨scanner.settled, some trouble⟩
    | .ok (some scanner) => scan steps scanner
    | .ok none =>
      match scanner.finish with
      | .error trouble => ⟨scanner.settled, some trouble⟩
      | .ok scanner => ⟨scanner.read.reverse, none⟩

def ofText (text : List Char) : Tokens :=
  if text.all isAllowed then scan (text.length + 1) (.start text) else ⟨[], some .malformed⟩

end Tokens

end Schemata.Yaml
