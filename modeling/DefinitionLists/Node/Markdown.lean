/-
Module: DefinitionLists.Node.Markdown
Purpose: Building the tree of a document from its events, and reading Markdown text.
Main exports: Node.ofEvents, Node.ofMarkdown, wrapInlineRuns
-/
import DefinitionLists.Markdown.Event
import DefinitionLists.Node

namespace DefinitionLists

open Markdown (Event Opening Extension)

/-- The name of an extension in written trees. -/
def Markdown.Extension.tag : Extension → String
  | .footnoteDefinition => "footnoteDefinition"
  | .table => "table"
  | .tableRow => "tableRow"
  | .tableCell => "tableCell"
  | .unknown => "unknown"

/-- The title, unless it is empty. -/
def nonEmptyTitle (title : String) : Option String := if title.isEmpty then none else some title

/-- The node that an event opens, with nothing in it. -/
def Markdown.Opening.node : Opening → Node
  | .paragraph span => .branch (.container .paragraph none (some span)) []
  | .heading depth => .branch (.heading depth) []
  | .quote span => .branch (.container .blockquote none (some span)) []
  | .code info =>
    .leaf (.code (info.bind (fun info => (Text.firstWord? info.toList).map String.ofList)) "")
  | .html => .leaf (.html "")
  | .list start => .branch (.list start.isSome start false none) []
  | .item => .branch (.listItem false none none) []
  | .emphasis => .plain .emphasis []
  | .strong => .plain .strong []
  | .deletion => .plain .deletion []
  | .link url title => .branch (.link url (nonEmptyTitle title)) []
  | .image url title => .leaf (.image url (nonEmptyTitle title) "")
  | .extension kind => .branch (.other kind.tag none none) []

/-- Whether the node goes into a paragraph when it stands in a list item. Raw HTML does, for events
do not tell whether it is a block. -/
def joinsRun : Node → Bool
  | .leaf (.html _) => true
  | node => node.isInline

/-- Paragraphs of the consecutive nodes that join a run; other nodes stay in place. `run` is the run
before the nodes. -/
def wrapInlineRuns (run : List Node) : List Node → List Node
  | [] => if run.isEmpty then [] else [.paragraph run]
  | node :: more =>
    if joinsRun node then wrapInlineRuns (pushChild run node) more
    else (if run.isEmpty then [] else [.paragraph run]) ++ node :: wrapInlineRuns [] more

/-- Whether the node is a list item that is spread. -/
def Node.isSpreadItem : Node → Bool
  | .branch (.listItem spread _ _) _ => spread
  | _ => false

namespace Node

/-- The node with one more child. Code, raw HTML and images take the text of the child. -/
def absorb : (node child : Node) → Node
  | .leaf (.code language value), child => .leaf (.code language (value ++ child.plainText))
  | .leaf (.html value), child => .leaf (.html (value ++ child.plainText))
  | .leaf (.image url title alt), child => .leaf (.image url title (alt ++ child.plainText))
  | .leaf content, _ => .leaf content
  | .branch head children, child => .branch head (pushChild children child)

/-- The text without one line feed at its end. -/
def dropLineFeed (text : List Char) : List Char :=
  match text.reverse with
  | '\n' :: rest => rest.reverse
  | _ => text

/-- The node when nothing more goes into it. -/
def finish : Node → Node
  | .branch (.listItem _ checked hint) children =>
    .branch (.listItem (children.any (isContainer .paragraph)) checked hint) (wrapInlineRuns [] children)
  | .branch (.list ordered start _ hint) items =>
    .branch (.list ordered start (items.any isSpreadItem) hint) items
  | .leaf (.code language value) => .leaf (.code language (String.ofList (dropLineFeed value.toList)))
  | .leaf (.html value) =>
    .leaf (.html (String.ofList (Text.trimEndWhile (· == '\n') value.toList)))
  | node => node

/-- The item with a task mark. Other nodes stay as they are. -/
def check (checked : Bool) : Node → Node
  | .branch (.listItem spread _ hint) children => .branch (.listItem spread (some checked) hint) children
  | node => node

/-- An unknown node with a value and no children. -/
def ofValue (tag value : String) : Node := .branch (.other tag (some value) none) []

end Node

/-- The nodes that are open: the innermost one, and those around it from the inside out. -/
structure OpenNodes where
  top : Node
  below : List Node
deriving Inhabited

namespace OpenNodes

/-- Adds a node to the innermost open one. -/
def attach (state : OpenNodes) (child : Node) : OpenNodes :=
  { state with top := state.top.absorb child }

/-- Closes the innermost node, unless it is the only one. -/
def close (state : OpenNodes) : OpenNodes :=
  match state.below with
  | [] => state
  | outer :: below => ⟨outer.absorb state.top.finish, below⟩

/-- Takes an event. -/
def take (state : OpenNodes) : Event → OpenNodes
  | .start opening => ⟨opening.node, state.top :: state.below⟩
  | .close => state.close
  | .text value => state.attach (.text value)
  | .code value => state.attach (.leaf (.inlineCode value))
  | .html value => state.attach (.leaf (.html value))
  | .softBreak => state.attach (.text "\n")
  | .hardBreak => state.attach .lineBreak
  | .rule => state.attach (.leaf .thematicBreak)
  | .taskMark checked => { state with top := state.top.check checked }
  | .footnoteReference label => state.attach (.ofValue "footnoteReference" label)
  | .inlineMath value => state.attach (.ofValue "inlineMath" value)
  | .displayMath value => state.attach (.ofValue "math" value)

/-- The outermost node, when all inside of it are closed. -/
def closeAll (top : Node) : List Node → Node
  | [] => top
  | outer :: below => closeAll (outer.absorb top.finish) below

end OpenNodes

namespace Node

/-- The tree that events build, with a root of that many bytes. Events that close nothing count for
nothing, and what is still open at the end is closed. -/
def ofEvents (length : Nat) (events : List Event) : Node :=
  let root : Node := .branch (.container .root none (some ⟨0, length⟩)) []
  let state := events.foldl OpenNodes.take ⟨root, []⟩
  OpenNodes.closeAll state.top state.below

/-- The tree of a Markdown text. `extended` tells whether deletions and task marks are read. -/
def ofMarkdown (extended : Bool) (text : List Char) : Node :=
  ofEvents (Text.byteLength text) ((Markdown.Document.ofText extended text).events extended)

end Node

end DefinitionLists
