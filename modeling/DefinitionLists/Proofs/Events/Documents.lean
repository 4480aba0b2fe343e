/-
Module: DefinitionLists.Proofs.Events.Documents
Purpose: The events of a document are well nested: its blocks and their running text as parts of a
  sequence of events, and the items that open there.
Main exports: Inline.tree, Block.trees, Document.trees, Document.eventsList_trees, Block.items,
  Document.itemsIn_trees
-/
import DefinitionLists.Proofs.Events.Items

namespace DefinitionLists.Markdown

open EventTree

/-! ### Running text -/

namespace Inline

mutual

/-- What a part of running text is among the events. -/
def tree : Inline → EventTree
  | .text value => .single (.text (String.ofList value)) rfl
  | .code value => .single (.code (String.ofList value)) rfl
  | .html value => .single (.html (String.ofList value)) rfl
  | .softBreak => .single .softBreak rfl
  | .hardBreak => .single .hardBreak rfl
  | .span kind content => .nest kind.opening (trees content)
  | .link target content =>
    .nest (.link (String.ofList target.url) (String.ofList target.title)) (trees content)
  | .image target content =>
    .nest (.image (String.ofList target.url) (String.ofList target.title)) (trees content)

/-- What parts of running text are among the events. -/
def trees : List Inline → List EventTree
  | [] => []
  | part :: more => tree part :: trees more

end

mutual

/-- Read one after another, the trees of running text are its events. -/
theorem events_tree : ∀ part : Inline, part.tree.events = part.events
  | .text _ | .code _ | .html _ | .softBreak | .hardBreak => rfl
  | .span _ content | .link _ content | .image _ content => by
      rw [tree, EventTree.events, eventsList_trees content, events]

theorem eventsList_trees : ∀ parts : List Inline,
    EventTree.eventsList (trees parts) = eventsList parts
  | [] => rfl
  | part :: more => by
      rw [trees, EventTree.eventsList, events_tree part, eventsList_trees more, eventsList]

end

mutual

/-- No item opens in running text. -/
theorem items_tree : ∀ part : Inline, part.tree.items = []
  | .text _ | .code _ | .html _ | .softBreak | .hardBreak => rfl
  | .span kind content => by
      have hitem : kind.opening ≠ .item := by cases kind <;> simp [SpanKind.opening]
      rw [tree, EventTree.items, itemsIn_trees content, if_neg hitem, ite_self]
  | .link _ content => by
      rw [tree, EventTree.items, itemsIn_trees content]
      rfl
  | .image _ _ => rfl

theorem itemsIn_trees : ∀ parts : List Inline, itemsIn (trees parts) = []
  | [] => rfl
  | part :: more => by rw [trees, itemsIn, items_tree part, itemsIn_trees more, List.append_nil]

end

end Inline

/-! ### Blocks -/

/-- A task mark among the events, if there is one. -/
def taskTrees (task : Option Bool) : List EventTree :=
  task.toList.map fun checked => .single (.taskMark checked) rfl

theorem eventsList_taskTrees (task : Option Bool) :
    eventsList (taskTrees task) = task.toList.map .taskMark := by
  cases task <;> rfl

/-- What the text of a paragraph or heading is among the events, with its task mark before it. -/
def Dialect.textTrees (dialect : Dialect) (task : Option Bool) (content : List Symbol) : List EventTree :=
  taskTrees task ++ Inline.trees (Inline.ofSymbols dialect.deletions dialect.targets content)

theorem Dialect.eventsList_textTrees (dialect : Dialect) (task : Option Bool) (content : List Symbol) :
    eventsList (dialect.textTrees task content) = dialect.textEvents task content := by
  rw [textTrees, eventsList_append, eventsList_taskTrees, Inline.eventsList_trees, textEvents]

namespace Block

mutual

/-- What a block is among the events. `bare` tells whether it stands in an item of a tight list. -/
def trees (dialect : Dialect) (bare : Bool) : Block → List EventTree
  | .paragraph span task content =>
    let text := dialect.textTrees task content
    if bare then text else [.nest (.paragraph span) text]
  | .heading level closed task content =>
    [.nest (.heading level.toUInt8)
      (dialect.textTrees task content ++ if closed then [.single (.text "") rfl] else [])]
  | .quote span blocks => [.nest (.quote span) (treesIn dialect false blocks)]
  | .list tight start items => [.nest (.list (start.map Nat.toUInt64)) (treesIn dialect tight items)]
  | .item task blocks => [.nest .item (taskTrees task ++ treesIn dialect bare blocks)]
  | .code info text =>
    [.nest (.code (info.map String.ofList)) [.single (.text (String.ofList text)) rfl]]
  | .html text => [.nest .html [.single (.html (String.ofList text)) rfl]]
  | .rule => [.single .rule rfl]

/-- What blocks are among the events. -/
def treesIn (dialect : Dialect) (bare : Bool) : List Block → List EventTree
  | [] => []
  | block :: more => trees dialect bare block ++ treesIn dialect bare more

end

mutual

/-- Read one after another, the trees of a block are its events. -/
theorem eventsList_trees (dialect : Dialect) (bare : Bool) : ∀ block : Block,
    EventTree.eventsList (block.trees dialect bare) = block.events dialect bare
  | .paragraph span task content => by
      rw [trees, events]
      cases bare with
      | true => exact dialect.eventsList_textTrees task content
      | false => simp [EventTree.eventsList, EventTree.events, dialect.eventsList_textTrees]
  | .heading level closed task content => by
      rw [trees, events]
      cases closed <;>
        simp [EventTree.eventsList, EventTree.events, eventsList_append, dialect.eventsList_textTrees]
  | .quote span blocks => by
      rw [trees, events]
      simp [EventTree.eventsList, EventTree.events, eventsList_treesIn dialect false blocks]
  | .list tight start items => by
      rw [trees, events]
      simp [EventTree.eventsList, EventTree.events, eventsList_treesIn dialect tight items]
  | .item task blocks => by
      rw [trees, events]
      simp [EventTree.eventsList, EventTree.events, eventsList_append, eventsList_taskTrees,
        eventsList_treesIn dialect bare blocks]
  | .code info text | .html text | .rule => rfl

theorem eventsList_treesIn (dialect : Dialect) (bare : Bool) : ∀ blocks : List Block,
    EventTree.eventsList (treesIn dialect bare blocks) = eventsList dialect bare blocks
  | [] => rfl
  | block :: more => by
      rw [treesIn, eventsList_append, eventsList_trees dialect bare block,
        eventsList_treesIn dialect bare more, eventsList]

end

end Block

/-! ### Items -/

/-- An item of a document, with whether the list that it is in is tight. -/
structure Item where
  tight : Bool
  task : Option Bool
  blocks : List Block

/-- What is in an item, among the events. -/
def Item.trees (dialect : Dialect) (item : Item) : List EventTree :=
  taskTrees item.task ++ Block.treesIn dialect item.tight item.blocks

namespace Block

mutual

/-- The items in a block, each before those in it. `tight` tells whether the block is in a tight list. -/
def items (tight : Bool) : Block → List Item
  | .quote _ blocks => itemsIn false blocks
  | .list tight _ items => itemsIn tight items
  | .item task blocks => ⟨tight, task, blocks⟩ :: itemsIn tight blocks
  | .paragraph _ _ _ | .heading _ _ _ _ | .code _ _ | .html _ | .rule => []

/-- The items in blocks. -/
def itemsIn (tight : Bool) : List Block → List Item
  | [] => []
  | block :: more => items tight block ++ itemsIn tight more

end

theorem itemsIn_taskTrees (task : Option Bool) : EventTree.itemsIn (taskTrees task) = [] := by
  cases task <;> rfl

theorem itemsIn_textTrees (dialect : Dialect) (task : Option Bool) (content : List Symbol) :
    EventTree.itemsIn (dialect.textTrees task content) = [] := by
  rw [Dialect.textTrees, itemsIn_append, itemsIn_taskTrees, Inline.itemsIn_trees, List.append_nil]

mutual

/-- The items that open in the events of a block are those of the block. -/
theorem itemsIn_trees (dialect : Dialect) (tight : Bool) : ∀ block : Block,
    EventTree.itemsIn (block.trees dialect tight) = (block.items tight).map (Item.trees dialect)
  | .paragraph span task content => by
      rw [trees, items]
      cases tight with
      | true => exact itemsIn_textTrees dialect task content
      | false => simp [EventTree.itemsIn, EventTree.items, itemsIn_textTrees]
  | .heading level closed task content => by
      rw [trees, items]
      cases closed <;>
        simp [EventTree.itemsIn, EventTree.items, itemsIn_append, itemsIn_textTrees]
  | .quote span blocks => by
      rw [trees, items]
      simp [EventTree.itemsIn, EventTree.items, Opening.holdsNodes, itemsIn_treesIn dialect false blocks]
  | .list tight' start items' => by
      rw [trees, items]
      simp [EventTree.itemsIn, EventTree.items, Opening.holdsNodes, itemsIn_treesIn dialect tight' items']
  | .item task blocks => by
      rw [trees, items]
      simp [EventTree.itemsIn, EventTree.items, Opening.holdsNodes, itemsIn_append, itemsIn_taskTrees,
        itemsIn_treesIn dialect tight blocks, Item.trees]
  | .code info text | .html text | .rule => rfl

/-- The items of blocks are those of each block, in order. -/
theorem itemsIn_treesIn (dialect : Dialect) (tight : Bool) : ∀ blocks : List Block,
    EventTree.itemsIn (treesIn dialect tight blocks) = (itemsIn tight blocks).map (Item.trees dialect)
  | [] => rfl
  | block :: more => by
      rw [treesIn, itemsIn_append, itemsIn_trees dialect tight block, itemsIn_treesIn dialect tight more,
        itemsIn, List.map_append]

end

end Block

/-! ### Documents -/

namespace Document

/-- What a document is among the events. -/
def trees (deletions : Bool) (document : Document) : List EventTree :=
  Block.treesIn ⟨deletions, document.targets⟩ false document.blocks

/-- The items of a document, each before those in it. -/
def items (document : Document) : List Item := Block.itemsIn false document.blocks

/-- The events of a document are well nested. -/
theorem eventsList_trees (deletions : Bool) (document : Document) :
    eventsList (document.trees deletions) = document.events deletions :=
  Block.eventsList_treesIn _ false document.blocks

theorem itemsIn_trees (deletions : Bool) (document : Document) :
    itemsIn (document.trees deletions) =
      document.items.map (Item.trees ⟨deletions, document.targets⟩) :=
  Block.itemsIn_treesIn _ false document.blocks

end Document

end DefinitionLists.Markdown
