import Schemata.Yaml.Token

/-! What scanning a text can fail with. A cursor only moves forward in the text, so that whatever is read at a cursor
stands in the text. Most troubles are that the text is malformed. The others are numbers beyond all bounds: that of an
escape, for which there is no code point, and that of a version, which has too many digits. -/

namespace Schemata.Yaml

inductive OutOfBounds (text : List Char) : Trouble → Prop where
  | escape {front digits back : List Char} {mark : Char} {code : Nat}
      (found : text = front ++ '\\' :: mark :: (digits ++ back))
      (wide : Scalar.escapeWidth? mark = some digits.length) (number : Scalar.hexNumber? digits = some code)
      (noPoint : Text.CodePoint.ofNumber? code = none) :
      OutOfBounds text (if code < 0x80000000 then .impossible else .tooLarge)
  | version {front between digits back : List Char}
      (found : text = front ++ "%YAML".toList ++ between ++ digits ++ back)
      (decimal : ∀ c ∈ digits, c.isDigit = true) (long : Text.longest < digits.length) :
      OutOfBounds text .impossible

def Ends (permitted : Trouble → Prop) (good : α → Prop) : Except Trouble α → Prop
  | .ok result => good result
  | .error trouble => permitted trouble

section Steps

variable {permitted : Trouble → Prop} {good : α → Prop} {goodToo : β → Prop}

theorem Ends.bind {first : Except Trouble α} {next : α → Except Trouble β} (ends : Ends permitted good first)
    (later : ∀ result, good result → Ends permitted goodToo (next result)) : Ends permitted goodToo (first >>= next) := by
  cases first with
  | ok result => exact later result ends
  | error trouble => exact ends

theorem Ends.foldlM {step : α → β → Except Trouble α}
    (each : ∀ current item, good current → Ends permitted good (step current item)) (items : List β) {current : α}
    (start : good current) : Ends permitted good (items.foldlM step current) := by
  induction items generalizing current with
  | nil => exact start
  | cons item rest ih =>
    rw [List.foldlM_cons]
    exact (each current item start).bind fun _ => ih

theorem Ends.imp {other : α → Prop} {result : Except Trouble α} (ends : Ends permitted good result)
    (implies : ∀ result, good result → other result) : Ends permitted other result := by
  cases result with
  | ok result => exact implies result ends
  | error trouble => exact ends

theorem Ends.map {first : Except Trouble α} {function : α → β} (ends : Ends permitted good first)
    (implies : ∀ result, good result → goodToo (function result)) : Ends permitted goodToo (first.map function) := by
  cases first with
  | ok result => exact implies result ends
  | error trouble => exact ends

end Steps

section Actions

variable {permitted : Trouble → Prop} {sound : σ → Prop}

def Keeps (permitted : Trouble → Prop) (sound : σ → Prop) (action : StateT σ (Except Trouble) α) : Prop :=
  ∀ state, sound state → Ends permitted (fun done => sound done.2) (action.run state)

theorem keeps_pure (value : α) : Keeps permitted sound (pure value) := fun _ own => own

theorem Keeps.bind {action : StateT σ (Except Trouble) α} {next : α → StateT σ (Except Trouble) β}
    (keeps : Keeps permitted sound action) (later : ∀ value, Keeps permitted sound (next value)) :
    Keeps permitted sound (action >>= next) :=
  fun state own => Ends.bind (keeps state own) fun done own => later done.1 done.2 own

theorem Keeps.map {action : StateT σ (Except Trouble) α} (keeps : Keeps permitted sound action) (function : α → β) :
    Keeps permitted sound (function <$> action) := keeps.bind fun value => keeps_pure (function value)

theorem keeps_get : Keeps permitted sound get := fun _ own => own

theorem keeps_modify {change : σ → σ} (keeps : ∀ state, sound state → sound (change state)) :
    Keeps permitted sound (modify change) := fun state own => keeps state own

theorem keeps_throw {trouble : Trouble} (allowed : permitted trouble) : Keeps (α := α) permitted sound (throw trouble) :=
  fun _ _ => allowed

end Actions

def MayReport (text : List Char) (trouble : Trouble) : Prop := trouble = .malformed ∨ OutOfBounds text trouble

namespace Cursor

def Within (text : List Char) (cursor : Cursor) : Prop := cursor.rest <:+ text

variable {text : List Char} {cursor : Cursor}

theorem rest_step (cursor : Cursor) : cursor.step.rest = cursor.rest.tail := by
  unfold step
  split
  next empty => rw [empty]; rfl
  next found => rw [found]; rfl

theorem rest_advance (count : Nat) (cursor : Cursor) : (advance count cursor).rest = cursor.rest.drop count := by
  induction count generalizing cursor with
  | zero => rfl
  | succ count ih => rw [advance, ih, rest_step, List.drop_tail]

theorem rest_takeWhile (cursor : Cursor) (test : Char → Bool) :
    (cursor.takeWhile test).2.rest = cursor.rest.dropWhile test := by
  have kept := @List.drop_left _ (cursor.rest.takeWhile test) (cursor.rest.dropWhile test)
  rw [List.takeWhile_append_dropWhile] at kept
  rw [takeWhile, rest_advance, kept]

theorem peek_eq (cursor : Cursor) : cursor.peek = cursor.rest.head?.getD '\x00' := by
  rw [peek, ahead, List.head?_eq_getElem?]

theorem Within.step (within : cursor.Within text) : cursor.step.Within text := by
  unfold Within
  rw [rest_step]
  exact (List.tail_suffix _).trans within

theorem Within.advance (within : cursor.Within text) (count : Nat) : (cursor.advance count).Within text := by
  unfold Within
  rw [rest_advance]
  exact (List.drop_suffix _ _).trans within

theorem Within.takeWhile (within : cursor.Within text) (test : Char → Bool) : (cursor.takeWhile test).2.Within text :=
  within.advance _

theorem Within.skipWhile (within : cursor.Within text) (test : Char → Bool) : (cursor.skipWhile test).Within text :=
  within.advance _

theorem Within.lineBreak (within : cursor.Within text) : cursor.lineBreak.2.Within text := by
  unfold Cursor.lineBreak
  split
  · exact within.advance 2
  · split
    · exact within.step
    · split
      · exact within.step
      · exact within
  · exact within

theorem Within.skipComment (within : cursor.Within text) : cursor.skipComment.Within text := by
  unfold Cursor.skipComment
  split
  · exact within.skipWhile _
  · exact within

theorem Within.endLine (within : cursor.Within text) :
    Ends (MayReport text) (Cursor.Within text) cursor.endLine := by
  unfold Cursor.endLine
  dsimp only
  split
  · exact (within.skipWhile _).skipComment.lineBreak
  · exact .inl rfl

end Cursor

open Cursor

/-- A step that reads at a cursor leaves a cursor of the same text. -/
def Reads (text : List Char) (result : Except Trouble (α × Cursor)) : Prop :=
  Ends (MayReport text) (fun read => read.2.Within text) result

variable {text : List Char} {cursor : Cursor}

theorem Reads.fails : Reads (α := α) text (.error .malformed) := .inl rfl

theorem reads_percentBytes (steps : Nat) (within : cursor.Within text) : Reads text (percentBytes steps cursor) := by
  induction steps generalizing cursor with
  | zero => exact within
  | succ steps ih =>
    unfold percentBytes
    split
    · split
      · exact .fails
      · exact (ih (within.advance 3)).bind fun read own => own
    · exact within

theorem reads_tagText (steps : Nat) (front : List Char) (within : cursor.Within text) :
    Reads text (tagText steps front cursor) := by
  induction steps generalizing cursor front with
  | zero => exact within
  | succ steps ih =>
    unfold tagText
    dsimp only
    split
    · refine (reads_percentBytes _ within).bind fun read own => ?_
      obtain ⟨bytes, after⟩ := read
      dsimp only
      split
      · exact ih _ own
      · exact .inl rfl
    · split
      · exact ih _ within.step
      · exact within

theorem reads_readTagText (within : cursor.Within text) : Reads text (readTagText cursor) := by
  refine (reads_tagText _ [] within).bind fun read own => ?_
  obtain ⟨written, after⟩ := read
  dsimp only
  split
  · exact .inl rfl
  · exact own

theorem reads_readHandle (within : cursor.Within text) : Reads text (readHandle cursor) := by
  unfold readHandle
  split
  · exact .fails
  · dsimp only
    split
    · exact within.step
    · split
      · exact (within.step.takeWhile _).step
      · exact .fails

theorem reads_readTag (within : cursor.Within text) : Reads text (readTag cursor) := by
  have finish {after : Cursor} (name : TagName) (own : after.Within text) :
      Reads text (if isSpaceOrEnd after.peek then pure (name, after) else throw .malformed) := by
    split
    · exact own
    · exact .fails
  unfold readTag
  dsimp only
  split
  · refine (reads_readTagText (within.advance 2)).bind fun read own => ?_
    split
    · exact .inl rfl
    · exact finish _ own.step
  · split
    · exact finish _ within.step
    · split
      · refine (reads_readHandle within).bind fun handle own => ?_
        exact (reads_readTagText own).bind fun read own => finish _ own
      · exact (reads_readTagText within.step).bind fun read own => finish _ own

theorem reads_readName (within : cursor.Within text) : Reads text (readName cursor) := by
  unfold readName
  dsimp only
  split
  · exact .fails
  · split
    · exact within.step.takeWhile _
    · exact .fails

def Cursor.Versioned (text : List Char) (cursor : Cursor) : Prop :=
  ∃ front between, text = front ++ "%YAML".toList ++ between ++ cursor.rest

theorem Cursor.Versioned.advance (versioned : cursor.Versioned text) (count : Nat) :
    (cursor.advance count).Versioned text := by
  obtain ⟨front, between, found⟩ := versioned
  refine ⟨front, between ++ cursor.rest.take count, ?_⟩
  rw [rest_advance, List.append_assoc _ (_ ++ _), List.append_assoc between, List.take_append_drop, ← List.append_assoc]
  exact found

theorem Cursor.Versioned.within (versioned : cursor.Versioned text) : cursor.Within text := by
  obtain ⟨front, between, found⟩ := versioned
  exact ⟨_, found.symm⟩

/-- Past the word for a version, it stands before the cursor. -/
theorem Cursor.Within.versioned (within : cursor.Within text) (percent : cursor.peek = '%')
    (yaml : String.ofList (cursor.step.takeWhile isWordChar).1 = "YAML") :
    (cursor.step.takeWhile isWordChar).2.Versioned text := by
  obtain ⟨front, found⟩ := within
  have name : cursor.rest.tail.takeWhile isWordChar = "YAML".toList := by
    rw [← rest_step, ← yaml]
    simp [Cursor.takeWhile]
  have whole : cursor.rest = '%' :: cursor.rest.tail := by
    rw [peek_eq] at percent
    cases rest : cursor.rest with
    | nil => rw [rest] at percent; cases percent
    | cons c later => rw [rest] at percent; cases percent; rfl
  refine ⟨front, [], ?_⟩
  rw [rest_takeWhile, rest_step, List.append_nil, List.append_assoc, ← found, whole, List.tail_cons]
  have split := List.takeWhile_append_dropWhile (p := isWordChar) (l := cursor.rest.tail)
  rw [name] at split
  exact congrArg (fun later => front ++ '%' :: later) split.symm

theorem readNumber_ends (versioned : cursor.Versioned text) :
    Ends (MayReport text) (fun read => read.2.Versioned text) (readNumber cursor) := by
  unfold readNumber
  dsimp only
  split
  · exact .inl rfl
  · split
    next long =>
      obtain ⟨front, between, found⟩ := versioned
      refine .inr (@OutOfBounds.version text front between (cursor.rest.takeWhile Char.isDigit)
        (cursor.rest.dropWhile Char.isDigit) ?_ (fun c member => ?_) ?_)
      · rw [List.append_assoc, List.takeWhile_append_dropWhile]
        exact found
      · exact List.all_eq_true.mp List.all_takeWhile c member
      · simp only [Text.isTooLong, decide_true, Bool.true_and, decide_eq_true_eq] at long
        exact Nat.lt_of_lt_of_le long List.countP_le_length
    next => exact versioned.advance _

theorem reads_readDirective (within : cursor.Within text) (percent : cursor.peek = '%') :
    Reads text (readDirective cursor) := by
  have finish {after : Cursor} (directive : Directive) (own : after.Within text) :
      Reads text (do return (directive, ← after.endLine)) := own.endLine.bind fun _ done => done
  unfold readDirective
  dsimp only
  split
  · exact .inl rfl
  · split
    next yaml =>
      refine (readNumber_ends ((within.versioned percent yaml).advance _)).bind fun read own => ?_
      split
      · exact .inl rfl
      · refine (readNumber_ends (own.advance 1)).bind fun read own => ?_
        split
        · exact .inl rfl
        · rw [pure_bind]
          exact finish _ own.within
    next tag =>
      refine (reads_readHandle (((within.step.takeWhile _).skipWhile _))).bind fun read own => ?_
      split
      · exact .inl rfl
      · refine (reads_readTagText (own.skipWhile _)).bind fun read own => ?_
        split
        · exact .inl rfl
        · rw [pure_bind]
          exact finish _ own
    next =>
      rw [pure_bind]
      refine finish .other ?_
      exact (within.step.takeWhile isWordChar).skipWhile fun c => !isBreakOrEnd c

namespace Scalar

theorem within_breaksAfter (steps : Nat) (passed : List Char) (within : cursor.Within text) :
    (breaksAfter steps passed cursor).2.Within text := by
  induction steps generalizing cursor passed with
  | zero => exact within
  | succ steps ih =>
    unfold breaksAfter
    dsimp only
    split
    · exact ih _ within.step
    · split
      · split
        · exact within.lineBreak
        · exact ih _ within.lineBreak
      · exact within

theorem within_plainSpace (within : cursor.Within text) : (plainSpace cursor).cursor.Within text := by
  have after := (within.takeWhile (· = ' ')).lineBreak
  have later := within_breaksAfter (((cursor.takeWhile (· = ' ')).2.lineBreak).2.left) [] after
  unfold plainSpace
  dsimp only
  split
  · split
    · exact after
    · split
      next found => rw [found] at later; exact later
      next found => rw [found] at later; exact later
  · exact within.takeWhile _

theorem within_plain (flow : Bool) (indent : Int) (steps : Nat) {space : Reading} (within : space.cursor.Within text) :
    (plain flow indent steps space).cursor.Within text := by
  induction steps generalizing space with
  | zero => exact within
  | succ steps ih =>
    have after := within_plainSpace (within.advance (plainRun flow space.cursor.rest).length)
    unfold plain
    dsimp only
    split
    · exact within
    · split
      · exact after
      · exact ih after

theorem within_readPlain (flow : Bool) (indent : Int) (within : cursor.Within text) :
    (readPlain flow indent cursor).cursor.Within text := within_plain flow indent _ within

/-- The digits of an escape name a code point, or they are out of bounds. -/
theorem reads_numericEscape {front : List Char} {mark : Char} {width : Nat}
    (behind : text = front ++ '\\' :: mark :: cursor.rest) (wide : escapeWidth? mark = some width) :
    Reads text (numericEscape width cursor) := by
  unfold numericEscape
  dsimp only
  split
  · exact .fails
  next enough =>
    have length : (cursor.rest.take width).length = width :=
      Nat.le_antisymm (List.length_take_le _ _) (Nat.not_lt.mp enough)
    split
    · exact .fails
    next code number =>
      split
      next =>
        have within : cursor.Within text := ⟨front ++ ['\\', mark], by simp [behind]⟩
        exact within.advance width
      next noPoint =>
        refine .inr (@OutOfBounds.escape text front (cursor.rest.take width) (cursor.rest.drop width) mark code ?_ ?_
          number noPoint)
        · rw [List.take_append_drop]
          exact behind
        · rw [length]
          exact wide

theorem reads_quotedBreaks (steps : Nat) (passed : List Char) (within : cursor.Within text) :
    Reads text (quotedBreaks steps passed cursor) := by
  induction steps generalizing cursor passed with
  | zero => exact within
  | succ steps ih =>
    unfold quotedBreaks
    dsimp only
    split
    · exact .fails
    · split
      · exact ih _ (within.skipWhile _).lineBreak
      · exact within.skipWhile _

theorem reads_quotedSpace (within : cursor.Within text) : Reads text (quotedSpace cursor) := by
  have after := within.takeWhile fun c => c = ' ' || c = '\t'
  unfold quotedSpace
  dsimp only
  split
  · exact .inl rfl
  · split
    · exact (reads_quotedBreaks _ [] after.lineBreak).bind fun read own => own
    · exact after

/-- A backslash stands before the cursor. -/
theorem reads_escape {front : List Char} (behind : text = front ++ '\\' :: cursor.rest) :
    Reads text (escape cursor) := by
  have within : cursor.Within text := ⟨front ++ ['\\'], by simp [behind]⟩
  unfold escape
  dsimp only
  split
  next => exact within.step
  next width noMeaning wide =>
    cases rest : cursor.rest with
    | nil =>
      rw [peek_eq, rest] at wide
      cases wide
    | cons mark later =>
      rw [peek_eq, rest] at wide
      have mark : text = front ++ '\\' :: mark :: cursor.step.rest := by
        rw [rest_step, rest]
        simpa [rest] using behind
      exact reads_numericEscape mark wide
  next =>
    split
    · exact reads_quotedBreaks _ [] within.lineBreak
    · exact .fails

theorem reads_before {later : Except Trouble (List Char × Cursor)} (front : List Char) (reads : Reads text later) :
    Reads text (before front later) :=
  reads.map fun _ own => own

theorem reads_quotedRest (double : Bool) (steps : Nat) (within : cursor.Within text) :
    Reads text (quotedRest double steps cursor) := by
  induction steps generalizing cursor with
  | zero => exact .fails
  | succ steps ih =>
    unfold quotedRest
    dsimp only
    split
    · exact within.step
    · split
      · split
        · exact reads_before _ (ih (within.advance 2))
        · exact within.step
      · split
        next backslash =>
          have mark : cursor.peek = '\\' := by simpa using (Bool.and_eq_true_iff.mp backslash).2
          obtain ⟨front, found⟩ := within
          have behind : text = front ++ '\\' :: cursor.step.rest := by
            rw [← found, rest_step]
            rw [peek_eq] at mark
            cases rest : cursor.rest with
            | nil => rw [rest] at mark; cases mark
            | cons c later => rw [rest] at mark; cases mark; rfl
          exact (reads_escape behind).bind fun read own => reads_before _ (ih own)
        next =>
          split
          · exact (reads_quotedSpace within).bind fun read own => reads_before _ (ih own)
          · split
            · exact reads_before _ (ih (within.takeWhile _))
            · exact reads_before _ (ih within.step)

theorem reads_readQuoted (double : Bool) (within : cursor.Within text) : Reads text (readQuoted double cursor) :=
  reads_quotedRest double _ within.step

theorem within_takeChomping (within : cursor.Within text) : (takeChomping cursor).2.Within text := by
  unfold takeChomping
  split
  · exact within.step
  · exact within

theorem reads_takeIncrement (within : cursor.Within text) : Reads text (takeIncrement cursor) := by
  unfold takeIncrement
  dsimp only
  split
  · exact .fails
  · split
    · exact within.step
    · exact within

theorem reads_blockMarks (within : cursor.Within text) :
    Ends (MayReport text) (fun marks => marks.2.2.Within text) (blockMarks cursor) := by
  have finish {after : Cursor} (chomping : Option Chomping) (increment : Option Nat) (own : after.Within text) :
      Ends (MayReport text) (fun marks => marks.2.2.Within text)
        (if isSpaceOrEnd after.peek then
          (.ok (chomping.getD .clip, increment, after) : Except Trouble (Chomping × Option Nat × Cursor))
        else .error .malformed) := by
    split
    · exact own
    · exact .inl rfl
  unfold blockMarks
  refine (reads_takeIncrement (within_takeChomping within)).bind fun read own => ?_
  obtain ⟨increment, after⟩ := read
  dsimp only
  split
  · exact finish _ _ (within_takeChomping own)
  · exact finish _ _ own

theorem within_blockLead (steps : Nat) (breaks : List Char) (width : Nat) (within : cursor.Within text) :
    (blockLead steps breaks width cursor).2.2.Within text := by
  induction steps generalizing cursor breaks width with
  | zero => exact within
  | succ steps ih =>
    unfold blockLead
    dsimp only
    split
    · exact ih _ _ within.step
    · split
      · exact ih _ _ within.lineBreak
      · exact within

theorem within_blockBreaks (indent steps : Nat) (breaks : List Char) (within : cursor.Within text) :
    (blockBreaks indent steps breaks cursor).2.Within text := by
  induction steps generalizing cursor breaks with
  | zero => exact within
  | succ steps ih =>
    unfold blockBreaks
    dsimp only
    split
    · exact ih _ (within.advance _).lineBreak
    · exact within.advance _

theorem within_blockLines (fold : Bool) (indent steps : Nat) (breaks : List Char) (within : cursor.Within text) :
    (blockLines fold indent steps breaks cursor).2.2.2.Within text := by
  induction steps generalizing cursor breaks with
  | zero => exact within
  | succ steps ih =>
    unfold blockLines
    dsimp only
    have after := within_blockBreaks indent
      ((((cursor.takeWhile fun c => !isBreakOrEnd c).2).lineBreak).2.left + 1) []
      (within.takeWhile fun c => !isBreakOrEnd c).lineBreak
    split
    · exact ih _ after
    · exact after

theorem reads_readBlock (fold : Bool) (parent : Int) (within : cursor.Within text) :
    Reads text (readBlock fold parent cursor) := by
  unfold readBlock
  refine (reads_blockMarks within.step).bind fun marks own => ?_
  refine own.endLine.bind fun head own => ?_
  have lines {breaks : List Char} {indent : Nat} {start : Cursor} (own : start.Within text) :
      (if start.column = indent && !atEnd start.peek then blockLines fold indent (head.left + 1) breaks start
        else ([], [], breaks, start)).2.2.2.Within text := by
    split
    · exact within_blockLines _ _ _ _ own
    · exact own
  dsimp only
  split
  next =>
    refine lines ?_
    exact within_blockLead _ [] 0 own
  next =>
    refine lines ?_
    exact within_blockBreaks _ _ [] own

end Scalar

namespace Scanner

variable {scanner : Scanner} {token : Token}

def Stays (text : List Char) (scanner : Scanner) (result : Except Trouble Scanner) : Prop :=
  Ends (MayReport text) (fun after => after.cursor = scanner.cursor) result

def Goes (text : List Char) (result : Except Trouble Scanner) : Prop :=
  Ends (MayReport text) (fun after => after.cursor.Within text) result

theorem cursor_unwind (scanner : Scanner) (column : Int) : (scanner.unwind column).cursor = scanner.cursor := by
  have go (steps : Nat) (scanner : Scanner) : (unwind.go column steps scanner).cursor = scanner.cursor := by
    induction steps generalizing scanner with
    | zero => rfl
    | succ steps ih =>
      unfold unwind.go
      split
      · dsimp only
        split
        · rfl
        · exact ih _
      · rfl
  unfold unwind
  split
  · exact go _ _
  · rfl

theorem stays_dropStale (text : List Char) (scanner : Scanner) : Stays text scanner scanner.dropStale := by
  unfold dropStale
  split
  · exact .inl rfl
  · exact rfl

theorem stays_dropPossible (text : List Char) (scanner : Scanner) : Stays text scanner scanner.dropPossible := by
  unfold dropPossible
  split
  · exact .inl rfl
  · exact rfl

theorem stays_savePossible (text : List Char) (scanner : Scanner) : Stays text scanner scanner.savePossible := by
  unfold savePossible
  split
  · exact (stays_dropPossible text scanner).bind fun _ same => same
  · exact rfl

theorem stays_openBlock (text : List Char) (scanner : Scanner) (token : Token) :
    Stays text scanner (scanner.openBlock token) := by
  have indented : (scanner.indentTo scanner.cursor.column).2.cursor = scanner.cursor := by
    unfold indentTo
    split <;> rfl
  unfold openBlock
  split
  · exact rfl
  · split
    · exact .inl rfl
    · split
      next later found => rw [found] at indented; exact indented
      next later found => rw [found] at indented; exact indented

theorem goes_content {read : Cursor → Except Trouble (Token × Cursor)} (reads : Reads text (read scanner.cursor)) :
    Goes text (scanner.content read) :=
  (stays_savePossible text scanner).bind fun saved same => by
    rw [← same] at reads
    exact reads.bind fun _ own => own

theorem goes_between {read : Cursor → Except Trouble (Token × Cursor)} (reads : Reads text (read scanner.cursor)) :
    Goes text (scanner.between read) :=
  (stays_dropPossible text (scanner.unwind (-1))).bind fun dropped same => by
    rw [← cursor_unwind scanner (-1), ← same] at reads
    exact reads.bind fun _ own => own

variable (within : scanner.cursor.Within text)

include within

theorem goes_openFlow : Goes text (scanner.openFlow token) :=
  (stays_savePossible text scanner).bind fun saved same => by
    rw [← same] at within
    exact within.step

theorem goes_closeFlow : Goes text (scanner.closeFlow token) :=
  (stays_dropPossible text scanner).bind fun dropped same => by
    rw [← same] at within
    exact within.step

theorem goes_flowEntry : Goes text scanner.flowEntry :=
  (stays_dropPossible text scanner).bind fun dropped same => by
    rw [← same] at within
    exact within.step

theorem goes_opened {change : Scanner → Scanner} (moves : ∀ after, (change after).cursor = after.cursor.step) :
    Goes text (do
      let opened ← scanner.openBlock token
      let dropped ← opened.dropPossible
      return change dropped) :=
  (stays_openBlock text scanner token).bind fun opened same =>
    (stays_dropPossible text opened).bind fun dropped again => by
      rw [← same, ← again] at within
      show Cursor.Within text (change dropped).cursor
      rw [moves]
      exact within.step

theorem goes_blockEntry : Goes text scanner.blockEntry := goes_opened within fun _ => rfl

theorem goes_key : Goes text scanner.key := goes_opened within fun _ => rfl

theorem goes_value : Goes text scanner.value := by
  unfold value
  split
  next key found =>
    show Cursor.Within text _
    dsimp only
    split
    · unfold indentTo
      split
      next moved =>
        split at moved <;> cases moved
        exact within.step
      next kept =>
        split at kept <;> cases kept
        exact within.step
    · exact within.step
  next => exact goes_opened within fun _ => rfl

theorem goes_blockScalar (fold : Bool) : Goes text (scanner.blockScalar fold) :=
  (stays_dropPossible text scanner).bind fun dropped same => by
    rw [← same] at within
    exact (Scalar.reads_readBlock fold dropped.indent within).bind fun _ own => own

theorem goes_plainScalar : Goes text scanner.plainScalar :=
  (stays_savePossible text scanner).bind fun saved same => by
    rw [← same] at within
    exact Scalar.within_readPlain _ _ within

theorem within_toNextToken : scanner.toNextToken.cursor.Within text := by
  have go (steps : Nat) (scanner : Scanner) (within : scanner.cursor.Within text) :
      (toNextToken.go steps scanner).cursor.Within text := by
    induction steps generalizing scanner with
    | zero => exact within
    | succ steps ih =>
      unfold toNextToken.go
      dsimp only
      split
      · exact ih _ (within.skipWhile _).skipComment.lineBreak
      · exact (within.skipWhile _).skipComment
  unfold toNextToken
  dsimp only
  refine go _ _ ?_
  dsimp only
  split
  · exact within.step
  · exact within

omit within

def Proceeds (text : List Char) (result : Except Trouble (Option Scanner)) : Prop :=
  Ends (MayReport text) (fun after => ∀ later ∈ after, later.cursor.Within text) result

/-- One kind of token is read or else some other. -/
theorem Proceeds.branch {test : Prop} [Decidable test] {result : Except Trouble Scanner}
    {other : Except Trouble (Option Scanner)} (goes : test → Goes text result) (others : Proceeds text other) :
    Proceeds text (if test then do return some (← result) else other) := by
  split
  next holds => exact (goes holds).bind fun after own later found => Option.mem_some.mp found ▸ own
  next => exact others

theorem Proceeds.ended {test : Prop} [Decidable test] {other : Except Trouble (Option Scanner)}
    (others : Proceeds text other) : Proceeds text (if test then pure none else other) := by
  split
  · exact fun later none => nomatch none
  · exact others

include within

/-- The next token, by the character that it begins with. -/
theorem goes_next : Proceeds text scanner.next := by
  unfold next
  replace within := within_toNextToken within
  generalize scanner.toNextToken = moved at within
  have stays := stays_dropStale text moved
  cases dropped : moved.dropStale with
  | error trouble =>
    rw [dropped] at stays
    exact stays
  | ok fresh =>
    rw [dropped] at stays
    replace within : (fresh.unwind fresh.cursor.column).cursor.Within text := by
      rw [cursor_unwind, show fresh.cursor = moved.cursor from stays]
      exact within
    change Proceeds text (if atEnd (fresh.unwind fresh.cursor.column).cursor.peek then pure none else _)
    generalize fresh.unwind fresh.cursor.column = scanner at within
    refine .ended ?_
    refine .branch (fun directive => goes_between ?_) ?_
    · have percent : scanner.cursor.peek = '%' := by simpa using (Bool.and_eq_true_iff.mp directive).1
      exact (reads_readDirective within percent).bind fun _ own => own
    refine .branch (fun _ => goes_between (within.advance 3)) ?_
    refine .branch (fun _ => goes_between (within.advance 3)) ?_
    refine .branch (fun _ => goes_openFlow within) ?_
    refine .branch (fun _ => goes_openFlow within) ?_
    refine .branch (fun _ => goes_closeFlow within) ?_
    refine .branch (fun _ => goes_closeFlow within) ?_
    refine .branch (fun _ => goes_flowEntry within) ?_
    refine .branch (fun _ => goes_blockEntry within) ?_
    refine .branch (fun _ => goes_key within) ?_
    refine .branch (fun _ => goes_value within) ?_
    refine .branch (fun _ => goes_content ((reads_readName within).map fun _ own => own)) ?_
    refine .branch (fun _ => goes_content ((reads_readName within).map fun _ own => own)) ?_
    refine .branch (fun _ => goes_content ((reads_readTag within).map fun _ own => own)) ?_
    refine .branch (fun _ => goes_blockScalar within false) ?_
    refine .branch (fun _ => goes_blockScalar within true) ?_
    refine .branch (fun _ => goes_content ((Scalar.reads_readQuoted _ within).map fun _ own => own)) ?_
    exact .branch (fun _ => goes_plainScalar within) (.inl rfl)

omit within in
theorem reports_finish : Ends (MayReport text) (fun _ => True) scanner.finish := by
  unfold finish
  generalize scanner.toNextToken = moved
  refine (stays_dropStale text moved).bind fun fresh _ => ?_
  exact (stays_dropPossible text (fresh.unwind (-1))).imp fun _ _ => trivial

end Scanner

def Tokens.Report (text : List Char) (tokens : Tokens) : Prop := ∀ trouble ∈ tokens.trouble, MayReport text trouble

theorem Tokens.report_some {ready : List Token} {trouble : Trouble} (permitted : MayReport text trouble) :
    Report text ⟨ready, some trouble⟩ := by
  intro other found
  cases found
  exact permitted

theorem Tokens.report_none {ready : List Token} : Report text ⟨ready, none⟩ := nofun

section Scanning

-- Evaluating a step of the scanner takes very long, and is of no use here.
attribute [local irreducible] Scanner.next Scanner.finish

theorem Tokens.scan_succ (steps : Nat) (scanner : Scanner) :
    scan (steps + 1) scanner =
      match scanner.next with
      | .error trouble => ⟨scanner.settled, some trouble⟩
      | .ok (some after) => scan steps after
      | .ok none =>
        match scanner.finish with
        | .error trouble => ⟨scanner.settled, some trouble⟩
        | .ok last => ⟨last.read.reverse, none⟩ := rfl

theorem Tokens.scan_reports (steps : Nat) {scanner : Scanner} (within : scanner.cursor.Within text) :
    (scan steps scanner).Report text := by
  induction steps generalizing scanner with
  | zero => exact report_some (.inl rfl)
  | succ steps ih =>
    have goes := Scanner.goes_next within
    rw [scan_succ]
    cases read : scanner.next with
    | error trouble =>
      rw [read] at goes
      exact report_some goes
    | ok after =>
      rw [read] at goes
      cases after with
      | some later => exact ih (goes later rfl)
      | none =>
        have ends := @Scanner.reports_finish text scanner
        dsimp only
        cases last : scanner.finish with
        | error trouble =>
          rw [last] at ends
          exact report_some ends
        | ok last => exact report_none

end Scanning

theorem Tokens.ofText_reports (text : List Char) : (ofText text).Report text := by
  unfold ofText
  split
  · exact scan_reports _ (List.suffix_refl text)
  · exact report_some (.inl rfl)

end Schemata.Yaml
