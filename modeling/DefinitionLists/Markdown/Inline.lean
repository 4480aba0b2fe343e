/-
Module: DefinitionLists.Markdown.Inline
Purpose: The parts of running text, and the pairing of delimiter runs into emphasis.
Main exports: SpanKind, Inline, DelimiterRun, Piece, DelimiterRun.between, Inline.ofPieces
-/
import DefinitionLists.Markdown.Target

namespace DefinitionLists.Markdown

open Text (isBlank isPunctuation)

/-- What delimiter runs mark. -/
inductive SpanKind where
  | emphasis
  | strong
  | deletion
deriving Repr, Inhabited, DecidableEq

/-- A part of running text. -/
inductive Inline where
  | text (value : List Char)
  | code (value : List Char)
  | html (value : List Char)
  | softBreak
  | hardBreak
  | span (kind : SpanKind) (content : List Inline)
  | link (target : Target) (content : List Inline)
  | image (target : Target) (content : List Inline)
deriving Inhabited

/-- A run of one delimiter character, of which `count` are not yet paired. -/
structure DelimiterRun where
  char : Char
  length : Nat
  count : Nat
  /-- Whether it may begin a span. -/
  opens : Bool
  /-- Whether it may end a span. -/
  closes : Bool
deriving Repr, Inhabited, DecidableEq

/-- A part of running text whose delimiter runs are not paired yet. Text is kept the last character
first. -/
inductive Piece where
  | text (backwards : List Char)
  | inline (content : Inline)
  | run (delimiters : DelimiterRun)
deriving Inhabited

namespace DelimiterRun

/-- Whether a run may begin a span, by the characters beside it. An asterisk may between letters, an
underscore may not, a tilde only if it is not alone. -/
def mayOpen (char : Char) (length : Nat) (previous next : Option Char) : Bool :=
  match next, previous with
  | none, _ => false
  | some next, none => !isBlank next
  | some next, some previous =>
    !isBlank next &&
      ((char == '*' && !isPunctuation next) || (char == '~' && 1 < length) ||
        (char == '~' && previous == '~' && !isPunctuation next) ||
        isBlank previous || isPunctuation previous)

/-- Whether a run may end a span, by the characters beside it. -/
def mayClose (char : Char) (length : Nat) (previous next : Option Char) : Bool :=
  match previous, next with
  | none, _ => false
  | some previous, none => !isBlank previous
  | some previous, some next =>
    !isBlank previous &&
      (((char == '*' || (char == '~' && 1 < length)) && !isPunctuation previous) ||
        (char == '~' && previous == '~') || isBlank next || isPunctuation next)

/-- The run between two characters, if it may begin or end a span. There is none before it at the
start of a line. At most two tildes make a run. -/
def between (char : Char) (length : Nat) (previous next : Option Char) : Option DelimiterRun :=
  let opens := mayOpen char length previous next
  let closes := mayClose char length previous next
  if (opens || closes) && (char != '~' || length ≤ 2) then some ⟨char, length, length, opens, closes⟩
  else none

/-- Whether the run may end the span that `opener` begins. -/
def closesSpanOf (closer opener : DelimiterRun) : Bool :=
  closer.char == opener.char && (closer.char != '~' || closer.length == opener.length) &&
    ((!(closer.opens && closer.closes) && !(opener.opens && opener.closes)) ||
      (closer.length + opener.length) % 3 != 0 || closer.length % 3 == 0)

/-- The run as text. -/
def asText (run : DelimiterRun) : Inline := .text (List.replicate run.count run.char)

end DelimiterRun

/-- The content inside that many paired delimiters: two of them mark strong text, one emphasis, and
the odd one stands outside. Tildes mark one deletion. -/
def wrapSpan (char : Char) (count : Nat) (content : List Inline) : List Inline :=
  if char = '~' then [.span .deletion content]
  else
    let strong := (List.range (count / 2)).foldl (fun inner _ => [.span .strong inner]) content
    if count % 2 = 1 then [.span .emphasis strong] else strong

/-- A run that may begin a span, with what follows it, the last part first. -/
structure OpenSpan where
  run : DelimiterRun
  after : List Inline
deriving Inhabited

/-- Pairing under way. -/
structure Pairing where
  /-- What precedes the first open run, the last part first. -/
  before : List Inline := []
  /-- The open runs, the innermost one first. -/
  stack : List OpenSpan := []
  /-- Tildes pair with no run among this many outermost ones. -/
  tildeFloor : Nat := 0
deriving Inhabited

namespace Pairing

/-- Adds a part at the end. -/
def add (state : Pairing) (part : Inline) : Pairing :=
  match state.stack with
  | [] => { state with before := part :: state.before }
  | top :: below => { state with stack := { top with after := part :: top.after } :: below }

/-- Splits the open runs at the innermost one that satisfies `p`: those inside of it, it, and those
around it. -/
def findOpener (p : DelimiterRun → Bool) :
    List OpenSpan → Option (List OpenSpan × OpenSpan × List OpenSpan)
  | [] => none
  | top :: below =>
    if p top.run then some ([], top, below)
    else (findOpener p below).map (fun (inside, found, around) => (top :: inside, found, around))

/-- The parts of open runs that are given up, the innermost one first, and of what follows them. The
last part comes first. -/
def flatten : List OpenSpan → List Inline
  | [] => []
  | top :: below => top.after ++ top.run.asText :: flatten below

/-- Pairs a run that may end spans with open runs, as far as it goes. The number bounds how many of
them it ends. -/
def close : Nat → Pairing → DelimiterRun → Pairing × DelimiterRun
  | 0, state, run => (state, run)
  | bound + 1, state, run =>
    if run.count = 0 then (state, run)
    else
      let height := state.stack.length
      let reachable := if run.char = '~' then state.stack.take (height - state.tildeFloor)
        else state.stack
      match findOpener run.closesSpanOf reachable with
      | some (inside, opener, _) =>
        let around := state.stack.drop (inside.length + 1)
        let paired := min run.count opener.run.count
        let content := (flatten inside ++ opener.after).reverse
        let wrapped := wrapSpan run.char paired content
        let left : DelimiterRun := { opener.run with count := opener.run.count - paired }
        let state : Pairing := { state with
          stack := around, tildeFloor := min state.tildeFloor around.length }
        let state := if left.count = 0 then wrapped.foldl add state
          else { state with stack := ⟨left, wrapped.reverse⟩ :: around }
        close bound state { run with count := run.count - paired }
      | none =>
        (if run.char = '~' then { state with tildeFloor := height } else state, run)

/-- Takes the next part of running text. -/
def take (state : Pairing) : Piece → Pairing
  | .text backwards => state.add (.text backwards.reverse)
  | .inline content => state.add content
  | .run delimiters =>
    let (state, left) := if delimiters.closes then state.close delimiters.count delimiters
      else (state, delimiters)
    if left.count = 0 then state
    else if left.opens then { state with stack := ⟨left, []⟩ :: state.stack }
    else state.add left.asText

/-- All parts in order; runs that are still open are text. -/
def finish (state : Pairing) : List Inline := (flatten state.stack ++ state.before).reverse

end Pairing

/-- The parts that pieces make up once their delimiter runs are paired. -/
def Inline.ofPieces (pieces : List Piece) : List Inline := (pieces.foldl Pairing.take {}).finish

end DefinitionLists.Markdown
