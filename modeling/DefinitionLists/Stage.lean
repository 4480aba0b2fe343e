/-
Module: DefinitionLists.Stage
Purpose: The stages that turn a parsed document into one with definition lists, and what each does.
Main exports: Stage, Stage.all, Variant, Variant.runs, Work, Stage.apply, runStages
-/
import DefinitionLists.Definition.Cleanup
import DefinitionLists.Definition.Details
import DefinitionLists.Definition.Formation
import DefinitionLists.Definition.Neighbours
import DefinitionLists.Prenormalization

namespace DefinitionLists

/-- A stage on the way to definition lists. -/
inductive Stage where
  | prenormalizer
  | builder
  | detailMerger
  | siblingList
  | listKind
  | cleanup
  | orphanAbsorber
  | coalescer
deriving Repr, Inhabited, DecidableEq

/-- Which stages run. -/
inductive Variant where
  | basic
  | advanced
deriving Repr, Inhabited, DecidableEq

namespace Stage

/-- All stages in the order in which they run. -/
def all : List Stage :=
  [.prenormalizer, .builder, .detailMerger, .siblingList, .listKind, .cleanup, .orphanAbsorber,
    .coalescer]

/-- The name of a stage. -/
def name : Stage → String
  | .prenormalizer => "pre-normalizer"
  | .builder => "builder"
  | .detailMerger => "detail-merger"
  | .siblingList => "sibling-list"
  | .listKind => "list-kind"
  | .cleanup => "cleanup"
  | .orphanAbsorber => "orphan-absorber"
  | .coalescer => "coalescer"

/-- What a stage does, in one line. -/
def description : Stage → String
  | .prenormalizer =>
    "Duplicates `: - item` lines as indented items and separates `: ` lines from the text above"
  | .builder => "Turns `: ` lines into definition lists"
  | .detailMerger => "Groups list items and bullet text inside definition details into lists"
  | .siblingList => "Moves a list that follows a definition list into its last details node"
  | .listKind =>
    "Marks lists in definition details as ordered when items are numbered and strips markers"
  | .cleanup => "Cuts trailing `: -` fragments, drops duplicated seed items and empty list items"
  | .orphanAbsorber =>
    "Wraps lists and paragraphs following a definition list into a new details node"
  | .coalescer => "Joins adjacent top-level definition lists into a single list"

/-- Whether only the advanced variant runs the stage. -/
def isAdvanced : Stage → Bool
  | .prenormalizer | .orphanAbsorber => true
  | _ => false

/-- The stages that may be disabled: all but the builder. -/
def optional : List Stage := all.filter (· ≠ .builder)

end Stage

namespace Variant

/-- All variants. -/
def all : List Variant := [.basic, .advanced]

/-- The name of a variant. -/
def name : Variant → String
  | .basic => "basic"
  | .advanced => "advanced"

/-- The variant of a name. -/
def ofName? (name : String) : Option Variant := all.find? (·.name == name)

/-- Whether the variant runs a stage. -/
def runs (variant : Variant) (stage : Stage) : Bool := variant = .advanced || !stage.isAdvanced

/-- The stages of the variant in order. -/
def stages (variant : Variant) : List Stage := Stage.all.filter variant.runs

end Variant

/-- A document between stages. -/
structure Work where
  tree : Node
  /-- The text that positions in the tree refer to. -/
  source : List Char
  /-- Whether the text is that of the prenormalized document. -/
  prenormalized : Bool := false
deriving Inhabited

/-- The document with a tree changed by `f`. -/
def Work.onTree (work : Work) (f : Node → Node) : Work := { work with tree := f work.tree }

/-- What a stage makes of a document, and the fault that stopped it, if one did. `extended` tells
whether the document's text has deletions and task marks. -/
def Stage.apply (extended : Bool) (work : Work) : Stage → Work × Option SpanFault
  | .prenormalizer =>
    let (tree, text) := work.tree.prenormalize extended work.source
    (⟨tree, text.getD work.source, text.isSome⟩, none)
  | .builder =>
    let (tree, fault) := work.tree.formDefinitions extended work.source
    ({ work with tree }, fault)
  | .detailMerger => (work.onTree Node.gatherDetails, none)
  | .siblingList => (work.onTree Node.absorbSiblingLists, none)
  | .listKind => (work.onTree Node.resolveKinds, none)
  | .cleanup => (work.onTree (Node.cleanUp work.prenormalized), none)
  | .orphanAbsorber => (work.onTree Node.absorbOrphans, none)
  | .coalescer => (work.onTree Node.joinAdjacent, none)

/-- Runs stages in order, up to the first fault. -/
def runStages (extended : Bool) (work : Work) : List Stage → Except SpanFault Work
  | [] => .ok work
  | stage :: more =>
    match stage.apply extended work with
    | (work, none) => runStages extended work more
    | (_, some fault) => .error fault

end DefinitionLists
