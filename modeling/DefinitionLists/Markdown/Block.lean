/-
Module: DefinitionLists.Markdown.Block
Purpose: The block structure of a document: which lines make up which quote, list, paragraph, block
  of code and so on. A state takes the lines one by one.
Main exports: Block, Frame, OpenLeaf, BlockState, BlockState.takeLine, Document, Document.ofText
-/
import DefinitionLists.Markdown.HtmlBlock
import DefinitionLists.Markdown.Target

namespace DefinitionLists.Markdown

open Text (byteLength trimEndWhile)

/-- A block of a document. A paragraph keeps the task mark that stands in front of it. A closed
heading has number signs after its text. -/
inductive Block where
  | paragraph (span : Span) (task : Option Bool) (content : List Symbol)
  | heading (level : Nat) (closed : Bool) (task : Option Bool) (content : List Symbol)
  | quote (span : Span) (blocks : List Block)
  | list (tight : Bool) (start : Option Nat) (items : List Block)
  | item (task : Option Bool) (blocks : List Block)
  | code (info : Option (List Char)) (text : List Char)
  | html (text : List Char)
  | rule
deriving Inhabited

/-- A container that is open, with the blocks that are done in it, the last one first. -/
inductive Frame where
  | quote (start : Nat) (done : List Block)
  | list (tight : Bool) (char : Char) (number : Nat) (done : List Block)
  | item (indent : Nat) (task : Option Bool) (done : List Block)
deriving Inhabited

/-- A block without blocks in it that is open. Its lines are kept the last one first. -/
inductive OpenLeaf where
  | paragraph (lines : List TextLine)
  | fenced (fence : Fence) (indent : Nat) (info : List Char) (lines : List (List Char))
  /-- Each line with whether it is blank. -/
  | indented (lines : List (List Char × Bool))
  | html (ending : HtmlEnd) (lines : List (List Char))
deriving Inhabited

/-- What is known after some lines of a document. -/
structure BlockState where
  /-- The open containers, the innermost one first. -/
  frames : List Frame := []
  /-- The blocks outside of them that are done, the last one first. -/
  done : List Block := []
  leaf : Option OpenLeaf := none
  /-- Whether the innermost container is an item that begins with a blank line. -/
  freshItem : Bool := false
  lastLineBlank : Bool := false
  /-- A task mark that the next paragraph takes. -/
  nextTask : Option Bool := none
  targets : Targets := []
  /-- Whether a line of code or HTML goes on after a lone carriage return. -/
  inRawLine : Bool := false
deriving Inhabited

namespace Frame

/-- The frame with one more block done in it. -/
def add (block : Block) : Frame → Frame
  | .quote start done => .quote start (block :: done)
  | .list tight char number done => .list tight char number (block :: done)
  | .item indent task done => .item indent task (block :: done)

/-- The block that the container is when it ends at a byte offset. -/
def close (stop : Nat) : Frame → Block
  | .quote start done => .quote ⟨start, stop⟩ done.reverse
  | .list tight char number done =>
    .list tight (if isNumberDelimiter char then some number else none) done.reverse
  | .item _ task done => .item task done.reverse

/-- What is left of a line that goes on with the container. -/
def continue? (cursor : Cursor) : Frame → Option Cursor
  | .quote _ _ => (cursor.takeSpaces 3).2.takeQuoteMark?
  | .list _ _ _ _ => some cursor
  | .item indent _ _ =>
    let (missing, after) := cursor.takeSpaces indent
    if missing = 0 ∨ after.atEnd then some after else none

/-- How many of the frames, given from the outermost one, a line goes on with, and what is left of
the line. -/
def continueAll (cursor : Cursor) : List Frame → Nat × Cursor
  | [] => (0, cursor)
  | frame :: inner =>
    match frame.continue? cursor with
    | some after =>
      let (count, rest) := continueAll after inner
      (count + 1, rest)
    | none => (0, cursor)

/-- The list, no longer tight. Other containers stay as they are. -/
def loosen : Frame → Frame
  | .list _ char number done => .list false char number done
  | frame => frame

/-- Whether the container is a tight list. -/
def isTightList : Frame → Bool
  | .list tight _ _ _ => tight
  | _ => false

end Frame

/-- The definitions of labels at the start of a paragraph, and how many line breaks they take up.
The number bounds how many are read. -/
def leadingDefinitions : Nat → List Symbol → List (List Char × Target) × List Symbol
  | 0, symbols => ([], symbols)
  | bound + 1, symbols =>
    match definition? symbols with
    | some (label, target, rest) =>
      let (more, rest) := leadingDefinitions bound rest
      ((label, target) :: more, rest)
    | none => ([], symbols)

/-- The lines of a paragraph without the definitions of labels that they begin with, and these
definitions. -/
def splitDefinitions (lines : List TextLine) : List (List Char × Target) × List TextLine :=
  let symbols := Symbol.ofLines lines
  let (definitions, rest) := leadingDefinitions lines.length symbols
  let linesLeft := if rest.isEmpty then 0
    else rest.countP (fun symbol => !symbol.isChar (fun _ => true)) + 1
  (definitions, if definitions.isEmpty then lines else lines.drop (lines.length - linesLeft))

/-- The line with one line feed in place of a carriage return and a line feed. -/
def normalizeEnding (raw : List Char) : List Char :=
  match raw.reverse with
  | last :: '\r' :: before => (last :: before).reverse
  | _ => raw

/-- A line of code or HTML: what is left of a tab that was taken in part, and the rest of the line. -/
def rawLine (line : Line) (padding : Nat) (rest : List Char) : List Char :=
  List.replicate padding ' ' ++ normalizeEnding (line.rawFrom rest)

namespace BlockState

/-- Adds a block to the innermost container. -/
def add (state : BlockState) (block : Block) : BlockState :=
  match state.frames with
  | [] => { state with done := block :: state.done }
  | frame :: outer => { state with frames := frame.add block :: outer }

/-- Opens a container. -/
def push (state : BlockState) (frame : Frame) : BlockState :=
  { state with frames := frame :: state.frames }

/-- Closes the innermost container at a byte offset. -/
def pop (state : BlockState) (stop : Nat) : BlockState :=
  match state.frames with
  | [] => state
  | frame :: outer =>
    let fresh := state.freshItem && !frame.isTightList
    ({ state with frames := outer, freshItem := fresh }).add (frame.close stop)

/-- Closes that many of the innermost containers. -/
def popMany (stop : Nat) : Nat → BlockState → BlockState
  | 0, state => state
  | count + 1, state => popMany stop count (state.pop stop)

/-- Adds the paragraph that lines make up, the last one first. Definitions of labels at its start
are not part of it. `heading` is its level if the paragraph is underlined. -/
def addParagraph (state : BlockState) (lines : List TextLine) (heading : Option Nat) : BlockState :=
  let (definitions, text) := splitDefinitions lines.reverse
  let state := { state with
    targets := definitions.foldl (fun targets found => targets.define found.1 found.2) state.targets }
  match text.head?, text.getLast? with
  | some first, some last =>
    let task := state.nextTask
    let content := Symbol.ofLines text
    ({ state with nextTask := none }).add (match heading with
      | some level => .heading level false task content
      | none => .paragraph ⟨first.start, last.stop⟩ task content)
  | _, _ => state

/-- Closes the block without blocks in it that is open. Code has no blank lines at its end if it is
marked by its indentation. -/
def closeLeaf (state : BlockState) : BlockState :=
  let closed := { state with leaf := none }
  match state.leaf with
  | none => closed
  | some (.paragraph lines) => closed.addParagraph lines none
  | some (.fenced _ _ info lines) => closed.add (.code (some info) lines.reverse.flatten)
  | some (.indented lines) =>
    closed.add (.code none ((lines.dropWhile (·.2)).map (·.1)).reverse.flatten)
  | some (.html _ lines) => closed.add (.html lines.reverse.flatten)

/-- An item holds nothing if a blank line follows the blank line that it begins with. -/
def finishEmptyItem (state : BlockState) (stop : Nat) : BlockState :=
  let state := match state.frames with
    | .item _ _ _ :: _ => if state.freshItem && state.lastLineBlank then state.pop stop else state
    | _ => state
  { state with freshItem := false }

/-- Ends the list that a block follows which is no item of it. A blank line before the block makes
the list around the block's item loose. -/
def finishList (state : BlockState) (stop : Nat) : BlockState :=
  let state := state.finishEmptyItem stop
  let state := match state.frames with
    | .list _ _ _ _ :: _ => state.pop stop
    | _ => state
  if state.lastLineBlank then
    let frames := match state.frames with
      | frame :: outer :: more => frame :: outer.loosen :: more
      | frames => frames
    { state with frames, lastLineBlank := false }
  else state

/-- Goes on with the innermost list if the marker is of its kind, and starts a list otherwise. -/
def continueList (state : BlockState) (marker : ListMarker) (stop : Nat) : BlockState :=
  let state := state.finishEmptyItem stop
  let start (state : BlockState) : BlockState :=
    { (state.finishList stop).push (.list true marker.char marker.number []) with
      lastLineBlank := false }
  match state.frames with
  | .list tight char number done :: outer =>
    if char = marker.char then
      if state.lastLineBlank then
        { state with frames := .list false char number done :: outer, lastLineBlank := false }
      else { state with frames := .list tight char number done :: outer }
    else start state
  | _ => start state

/-- Takes a blank line outside of paragraphs, code and HTML. -/
def takeBlank (state : BlockState) : BlockState :=
  match state.frames with
  | .quote _ _ :: _ => state
  | .item indent task done :: outer =>
    let indent := if state.freshItem then 0 else indent
    { state with frames := .item indent task done :: outer, lastLineBlank := true }
  | _ => { state with lastLineBlank := true }

/-- The heading that a line starts, from after its number signs: its text, and whether number signs
close it. -/
def headingText (rest : List Char) : List Char × Bool :=
  let text := trimEndWhile (· == ' ') (rest.dropWhile isInlineSpace)
  let body := trimEndWhile (· == '#') text
  if body.isEmpty then ([], false)
  else if body.getLast? = some ' ' ∧ body.length < text.length then
    (trimEndWhile (· == ' ') body, true)
  else (text, false)

/-- Opens a block with what is left of a line after the marks of its containers. -/
def startLeaf (state : BlockState) (line : Line) (cursor : Cursor) : BlockState :=
  if isBlankRest cursor.rest then state.takeBlank
  else
    let state := state.finishList line.start
    let (missing, content) := cursor.takeSpaces 4
    let rest := content.rest
    if missing = 0 then
      { state with
        leaf := some (.indented [(rawLine line content.pending rest, false)])
        lastLineBlank := false
        inRawLine := line.endsInCarriageReturn }
    else
      let indent := 4 - missing
      match htmlStart? false rest with
      | some ending =>
        let text := rawLine line indent rest
        let state := { state with
          leaf := some (.html ending [text]), inRawLine := line.endsInCarriageReturn }
        match ending with
        | .withText piece => if holdsPiece piece text then state.closeLeaf else state
        | .beforeBlank => state
      | none =>
        if isRule rest then state.add .rule
        else match headingLevel? rest with
          | some level =>
            let (text, closed) := headingText (rest.drop level)
            state.add (.heading level closed none (Symbol.ofChars text))
          | none =>
            let raw := line.rawFrom rest
            match openingFence? raw with
            | some fence =>
              let info := unescape (trimEndWhile isAsciiSpace
                ((raw.drop fence.length).dropWhile isAsciiSpace))
              { state with
                leaf := some (.fenced fence indent info [])
                inRawLine := line.endsInCarriageReturn }
            | none =>
              { state with leaf := some (.paragraph
                [⟨[], [], line.start + content.taken, rest, line.ending, line.stop⟩]) }

/-- Opens the containers whose marks stand at the front of what is left of a line, then the block in
them. The number bounds how many containers are opened. -/
def openContainers (tasks : Bool) (line : Line) : Nat → BlockState → Cursor → BlockState
  | 0, state, cursor => state.startLeaf line cursor
  | bound + 1, state, cursor =>
    let (missing, inner) := cursor.takeSpaces 4
    if missing = 0 then state.startLeaf line cursor
    else match inner.listMarker? (4 - missing) with
      | some (marker, after) =>
        let state := state.continueList marker line.start
        let open? (task : Option Bool) : BlockState := state.push (.item marker.indent task [])
        if isBlankRest after.rest then { open? none with freshItem := true }
        else match if tasks then after.taskMark? !line.ending.isEmpty else none with
          | some (checked, rest) =>
            if isBlankRest rest.rest then { open? (some checked) with freshItem := true }
            else openContainers tasks line bound { open? none with nextTask := some checked } rest
          | none => openContainers tasks line bound (open? none) after
      | none =>
        match inner.takeQuoteMark? with
        | some after =>
          openContainers tasks line bound
            ((state.finishList line.start).push (.quote (line.start + inner.taken) [])) after
        | none => state.startLeaf line cursor

/-- Takes a line that goes on with the outermost `matched` containers and with nothing in them. -/
def takeFresh (tasks : Bool) (state : BlockState) (line : Line) (matched : Nat) (cursor : Cursor) :
    BlockState :=
  let state := state.closeLeaf
  openContainers tasks line (line.text.length + 1)
    (popMany line.start (state.frames.length - matched) state) cursor

/-- Whether a line, from after its indentation, ends the paragraph before it. `current` tells
whether all containers of the paragraph go on. -/
def interrupts (current : Bool) (line : Line) (rest : List Char) : Bool :=
  let nextIsBlank := (line.following.dropWhile isInlineSpace).head?.all (fun c => c == '\n' || c == '\r')
  rest.isEmpty || isRule rest || (headingLevel? rest).isSome ||
    (openingFence? (line.rawFrom rest)).isSome || rest.head? == some '>' ||
    interruptsAsItem current nextIsBlank rest || (htmlStart? true rest).isSome

/-- Takes a line while a paragraph is open. -/
def takeAfterParagraph (tasks : Bool) (state : BlockState) (lines : List TextLine) (line : Line)
    (matched : Nat) (cursor : Cursor) : BlockState :=
  let current := matched == state.frames.length
  let (missing, inner) := cursor.takeSpaces 4
  let text := inner.skipBlanks
  let underline := if missing ≠ 0 ∧ current then underlineLevel? inner.rest else none
  match underline.filter (fun _ => !(splitDefinitions lines.reverse).2.isEmpty) with
  | some level => ({ state with leaf := none }).addParagraph lines (some level)
  | none =>
    if text.atEnd ∨ (missing ≠ 0 ∧ interrupts current line inner.rest) then
      takeFresh tasks state line matched cursor
    else
      let lead := (line.text.drop cursor.taken).take (text.taken - cursor.taken)
      let added : TextLine := ⟨line.text.take cursor.taken, lead, line.start + text.taken, text.rest,
        line.ending, line.stop⟩
      { state with leaf := some (.paragraph (added :: lines)) }

/-- Takes the next line of a document. -/
def takeLine (tasks : Bool) (state : BlockState) (line : Line) : BlockState :=
  if state.inRawLine then { state with inRawLine := line.endsInCarriageReturn }
  else
    let (matched, cursor) := Frame.continueAll (Cursor.ofLine line) state.frames.reverse
    match state.leaf with
    | none => takeFresh tasks state line matched cursor
    | some (.paragraph lines) => state.takeAfterParagraph tasks lines line matched cursor
    | some (.fenced fence indent info lines) =>
      if matched < state.frames.length then
        takeFresh tasks state line matched cursor
      else
        let (_, inner) := cursor.takeSpaces indent
        let (missing, closing) := inner.takeSpaces (4 - indent)
        if 0 < missing ∧ closesFence fence closing.rest then state.closeLeaf
        else
          let text := rawLine line inner.pending inner.rest
          { state with
            leaf := some (.fenced fence indent info (text :: lines))
            inRawLine := line.endsInCarriageReturn }
    | some (.indented lines) =>
      let (missing, inner) := cursor.takeSpaces 4
      if matched < state.frames.length ∨ (0 < missing ∧ !inner.atEnd) then
        takeFresh tasks state line matched cursor
      else
        let blank := isBlankRest inner.rest
        { state with
          leaf := some (.indented ((rawLine line inner.pending inner.rest, blank) :: lines))
          lastLineBlank := blank
          inRawLine := line.endsInCarriageReturn }
    | some (.html ending lines) =>
      if matched < state.frames.length ∨
          (ending = .beforeBlank ∧ (cursor.atEnd ∨ isBlankRest cursor.rest)) then
        takeFresh tasks state line matched cursor
      else
        let text := rawLine line cursor.pending cursor.rest
        let state := { state with
          leaf := some (.html ending (text :: lines)), inRawLine := line.endsInCarriageReturn }
        match ending with
        | .withText piece => if holdsPiece piece text then state.closeLeaf else state
        | .beforeBlank => state

end BlockState

/-- A document: its blocks, and the targets of the labels that it defines. -/
structure Document where
  blocks : List Block
  targets : Targets
deriving Inhabited

/-- The document that a text reads as. `tasks` tells whether items may have task marks. -/
def Document.ofText (tasks : Bool) (text : List Char) : Document :=
  let state := ((Line.split text).foldl (BlockState.takeLine tasks) {}).closeLeaf
  let state := BlockState.popMany (byteLength text) state.frames.length state
  ⟨state.done.reverse, state.targets⟩

end DefinitionLists.Markdown
