/-
Module: DefinitionLists.Markdown.RunningText
Purpose: Reading the text of a paragraph or heading: escapes, entities, code, raw HTML, links,
  images, line breaks and emphasis.
Main exports: Bracket, Reading, Reading.step, Inline.ofSymbols
-/
import DefinitionLists.Markdown.Inline
import DefinitionLists.Markdown.Literal

namespace DefinitionLists.Markdown

open Markdown.Symbol
open Text (entity? isAsciiPunctuation)

/-- An opening bracket that may begin a link or an image. -/
structure Bracket where
  image : Bool
  /-- Whether it may still begin one. A link holds no other link. -/
  live : Bool
  /-- All that follows the bracket. -/
  following : List Symbol
  /-- The pieces before it, the last one first. -/
  before : List Piece
deriving Inhabited

/-- What is known after a part of running text. -/
structure Reading where
  /-- The pieces after the innermost bracket, the last one first. -/
  pieces : List Piece := []
  /-- The brackets that are open, the innermost one first. -/
  brackets : List Bracket := []
  /-- The character before what is left. There is none at the start of a line. -/
  previous : Option Char := none
  /-- Closing brackets that end no link by themselves, each by the number of symbols after it. -/
  barred : List Nat := []
deriving Inhabited

namespace Reading

/-- Adds text, given the last character first. -/
def addText (backwards : List Char) : List Piece → List Piece
  | .text before :: pieces => .text (backwards ++ before) :: pieces
  | pieces => .text backwards :: pieces

/-- Reads characters as text. -/
def text (state : Reading) (chars : List Char) : Reading :=
  { state with pieces := addText chars.reverse state.pieces, previous := chars.getLast? }

/-- Reads a piece that ends in a character. -/
def add (state : Reading) (piece : Piece) (last : Char) : Reading :=
  { state with pieces := piece :: state.pieces, previous := some last }

/-- The pieces with those of a bracket that begins nothing. -/
def giveUp (bracket : Bracket) (pieces : List Piece) : List Piece :=
  let opening := addText (if bracket.image then ['[', '!'] else ['[']) bracket.before
  match pieces.reverse with
  | .text first :: more => more.reverse ++ addText first opening
  | _ => pieces ++ opening

/-- The target that a closing bracket leads to, if it ends a link, and the rest after the link; or
the closing bracket of a label that has no target, by the number of symbols after it. -/
def linkTarget? (targets : Targets) (state : Reading) (bracket : Bracket) (rest : List Symbol) :
    Option (Target × List Symbol) × Option Nat :=
  let shortcut? (rest' : List Symbol) : Option (Target × List Symbol) :=
    if state.barred.contains rest.length then none
    else match label? bracket.following with
      | some (label, after) =>
        if after.length = rest.length then (targets.find? label).map (fun target => (target, rest'))
        else none
      | none => none
  match inlineTarget? rest with
  | some found => (some found, none)
  | none =>
    match rest with
    | .char '[' :: .char ']' :: after => (shortcut? after, none)
    | .char '[' :: inner =>
      match label? inner with
      | some (label, after) =>
        ((targets.find? label).map (fun target => (target, after)), some after.length)
      | none => (shortcut? rest, none)
    | _ => (shortcut? rest, none)

/-- Reads a closing bracket. -/
def closeBracket (targets : Targets) (state : Reading) (rest : List Symbol) :
    Reading × List Symbol :=
  match state.brackets with
  | [] => (state.text [']'], rest)
  | bracket :: outer =>
    let (found, bar) := if bracket.live then linkTarget? targets state bracket rest else (none, none)
    let state := { state with brackets := outer, barred := bar.toList ++ state.barred }
    match found with
    | some (target, after) =>
      let content := Inline.ofPieces state.pieces.reverse
      let inline : Inline := if bracket.image then .image target content else .link target content
      let last := if after.length = rest.length then ']'
        else if rest.head? = some (.char '(') then ')' else ']'
      let brackets := if bracket.image then outer
        else outer.map (fun around => if around.image then around else { around with live := false })
      (({ state with brackets, pieces := bracket.before }).add (.inline inline) last, after)
    | none => (({ state with pieces := giveUp bracket state.pieces }).text [']'], rest)

/-- Reads backticks: code if as many follow later. After a backslash the first of them is text. -/
def backticks (state : Reading) (escaped : Bool) (symbols : List Symbol) : Reading × List Symbol :=
  let count := backtickCount symbols
  let rest := symbols.drop count
  match codeSpan? (if escaped then count - 1 else count) rest with
  | some (code, after) =>
    let state := if escaped then state.text ['`'] else state
    (state.add (.inline (.code code)) '`', after)
  | none => (state.text (List.replicate count '`'), rest)

/-- Reads what an opening angle bracket begins: an address, raw HTML, or text. -/
def angleBracket (state : Reading) (rest : List Symbol) : Reading × List Symbol :=
  match autolink? rest with
  | some (address, after) =>
    (state.add (.inline (.link ⟨address, []⟩ [.text address])) '>', after)
  | none =>
    match inlineHtml? rest with
    | some (html, after) => (state.add (.inline (.html html)) '>', after)
    | none => (state.text ['<'], rest)

/-- Reads a backslash. -/
def backslash (state : Reading) (rest : List Symbol) : Reading × List Symbol :=
  match rest with
  | .char c :: after =>
    if c = '`' then state.backticks true rest
    else if isAsciiPunctuation c then (state.text [c], after)
    else (state.text ['\\'], rest)
  | .lineBreak around :: after =>
    if around.trail.isEmpty then
      ({ state with pieces := .inline .hardBreak :: state.pieces, previous := none }, after)
    else (state.text ['\\'], rest)
  | [] => (state.text ['\\'], rest)

/-- Reads a run of a delimiter character. -/
def delimiters (state : Reading) (c : Char) (symbols : List Symbol) : Reading × List Symbol :=
  let count := (symbols.takeWhile (· == .char c)).length
  let rest := symbols.drop count
  let next : Option Char := match rest with
    | .char c :: _ => some c
    | .lineBreak around :: _ => some (around.trail.headD '\n')
    | [] => none
  match DelimiterRun.between c count state.previous next with
  | some run => (state.add (.run run) c, rest)
  | none => (state.text (List.replicate count c), rest)

/-- Reads what the next symbol begins. `deletions` tells whether tildes are delimiters. -/
def step (deletions : Bool) (targets : Targets) (state : Reading) (symbol : Symbol)
    (rest : List Symbol) : Reading × List Symbol :=
  match symbol with
  | .lineBreak around =>
    let inline : Inline := if 2 ≤ around.trail.length then .hardBreak else .softBreak
    ({ state with pieces := .inline inline :: state.pieces, previous := none }, rest)
  | .char '\\' => state.backslash rest
  | .char '`' => state.backticks false (symbol :: rest)
  | .char '<' => state.angleBracket rest
  | .char ']' => state.closeBracket targets rest
  | .char '[' =>
    ({ state with
      brackets := ⟨false, true, rest, state.pieces⟩ :: state.brackets
      pieces := []
      previous := some '[' }, rest)
  | .char '!' =>
    match rest with
    | .char '[' :: after =>
      ({ state with
        brackets := ⟨true, true, after, state.pieces⟩ :: state.brackets
        pieces := []
        previous := some '[' }, after)
    | _ => (state.text ['!'], rest)
  | .char '&' =>
    match entity? (lineChars rest) with
    | some (chars, length) =>
      ({ state.text chars with previous := some ';' }, rest.drop length)
    | none => (state.text ['&'], rest)
  | .char c =>
    if c = '*' ∨ c = '_' ∨ (c = '~' ∧ deletions) then state.delimiters c (symbol :: rest)
    else (state.text [c], rest)

/-- Reads all symbols. The number bounds the steps; as many as there are symbols suffice. -/
def run (deletions : Bool) (targets : Targets) : Nat → Reading → List Symbol → Reading
  | 0, state, _ => state
  | _ + 1, state, [] => state
  | bound + 1, state, symbol :: rest =>
    let (state, rest) := step deletions targets state symbol rest
    run deletions targets bound state rest

/-- All pieces in order. Brackets that are still open begin nothing. -/
def finish (state : Reading) : List Piece :=
  (state.brackets.foldl (fun pieces bracket => giveUp bracket pieces) state.pieces).reverse

end Reading

/-- The parts of running text. -/
def Inline.ofSymbols (deletions : Bool) (targets : Targets) (symbols : List Symbol) : List Inline :=
  Inline.ofPieces (Reading.run deletions targets symbols.length {} symbols).finish

end DefinitionLists.Markdown
