/-
Module: DefinitionLists.Markdown.Event
Purpose: A document as a flat sequence of events: what opens, what closes, and what stands between.
Main exports: Extension, Opening, Event, Inline.events, Block.events, Document.events
-/
import DefinitionLists.Markdown.Block
import DefinitionLists.Markdown.RunningText

namespace DefinitionLists.Markdown

/-- Nodes of dialects with footnotes and tables. -/
inductive Extension where
  | footnoteDefinition
  | table
  | tableRow
  | tableCell
  | unknown
deriving Repr, Inhabited, DecidableEq

/-- What an event may open. -/
inductive Opening where
  | paragraph (span : Span)
  | heading (depth : UInt8)
  | quote (span : Span)
  | code (info : Option String)
  | html
  | list (start : Option UInt64)
  | item
  | emphasis
  | strong
  | deletion
  | link (url title : String)
  | image (url title : String)
  | extension (kind : Extension)
deriving Repr, Inhabited, DecidableEq

/-- A step through a document. -/
inductive Event where
  | start (opening : Opening)
  | close
  | text (value : String)
  | code (value : String)
  | html (value : String)
  | softBreak
  | hardBreak
  | rule
  | taskMark (checked : Bool)
  | footnoteReference (label : String)
  | inlineMath (value : String)
  | displayMath (value : String)
deriving Repr, Inhabited, DecidableEq

/-- The opening of a span. -/
def SpanKind.opening : SpanKind → Opening
  | .emphasis => .emphasis
  | .strong => .strong
  | .deletion => .deletion

mutual

/-- The events of a part of running text. -/
def Inline.events : Inline → List Event
  | .text value => [.text (String.ofList value)]
  | .code value => [.code (String.ofList value)]
  | .html value => [.html (String.ofList value)]
  | .softBreak => [.softBreak]
  | .hardBreak => [.hardBreak]
  | .span kind content => .start kind.opening :: Inline.eventsList content ++ [.close]
  | .link target content =>
    .start (.link (String.ofList target.url) (String.ofList target.title)) ::
      Inline.eventsList content ++ [.close]
  | .image target content =>
    .start (.image (String.ofList target.url) (String.ofList target.title)) ::
      Inline.eventsList content ++ [.close]

/-- The events of parts of running text. -/
def Inline.eventsList : List Inline → List Event
  | [] => []
  | part :: more => Inline.events part ++ Inline.eventsList more

end

/-- What the text of a document is read with. -/
structure Dialect where
  /-- Whether tildes mark deletions. -/
  deletions : Bool
  targets : Targets
deriving Inhabited

/-- The events of a paragraph's or heading's text, after its task mark. -/
def Dialect.textEvents (dialect : Dialect) (task : Option Bool) (content : List Symbol) : List Event :=
  task.toList.map .taskMark ++
    Inline.eventsList (Inline.ofSymbols dialect.deletions dialect.targets content)

mutual

/-- The events of a block. `bare` tells whether it stands in an item of a tight list: there a
paragraph shows its text alone. -/
def Block.events (dialect : Dialect) (bare : Bool) : Block → List Event
  | .paragraph span task content =>
    let text := dialect.textEvents task content
    if bare then text else .start (.paragraph span) :: text ++ [.close]
  | .heading level closed task content =>
    .start (.heading level.toUInt8) :: dialect.textEvents task content ++
      (if closed then [.text "", .close] else [.close])
  | .quote span blocks => .start (.quote span) :: Block.eventsList dialect false blocks ++ [.close]
  | .list tight start items =>
    .start (.list (start.map Nat.toUInt64)) :: Block.eventsList dialect tight items ++ [.close]
  | .item task blocks =>
    .start .item :: task.toList.map .taskMark ++ Block.eventsList dialect bare blocks ++ [.close]
  | .code info text =>
    [.start (.code (info.map String.ofList)), .text (String.ofList text), .close]
  | .html text => [.start .html, .html (String.ofList text), .close]
  | .rule => [.rule]

/-- The events of blocks. -/
def Block.eventsList (dialect : Dialect) (bare : Bool) : List Block → List Event
  | [] => []
  | block :: more => Block.events dialect bare block ++ Block.eventsList dialect bare more

end

/-- The events of a document. -/
def Document.events (deletions : Bool) (document : Document) : List Event :=
  Block.eventsList ⟨deletions, document.targets⟩ false document.blocks

end DefinitionLists.Markdown
