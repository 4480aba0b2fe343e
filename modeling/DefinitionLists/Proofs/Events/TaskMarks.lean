/-
Module: DefinitionLists.Proofs.Events.TaskMarks
Purpose: Which task marks reach the items that they stand in. An item has the last mark that comes
  directly in it; one in its first paragraph, where an item of a loose list has it, is lost.
Main exports: EventTree.ownMarks, KeepsMarks, keepsMarks_iff, Block.firstTask?,
  checked_last_direct_mark, not_forall_keepsMarks
-/
import DefinitionLists.Proofs.Events.Documents

namespace DefinitionLists

open Markdown
open Markdown.EventTree

/-- The state of an item, if it is one and has one. -/
def Node.checked? : Node → Option Bool
  | .branch (.listItem _ checked _) _ => checked
  | _ => none

namespace Markdown.EventTree

mutual

/-- The task marks in a part for which no item opens there, in whatever else they stand. -/
def reaching : EventTree → List Bool
  | .single event _ => event.mark?.toList
  | .nest opening inner => if opening = .item then [] else reachingIn inner

/-- The task marks in parts for which no item opens there. -/
def reachingIn : List EventTree → List Bool
  | [] => []
  | tree :: more => tree.reaching ++ reachingIn more

end

/-- The task marks of the item that the parts are in: those directly in the item and those in the first
paragraph that opens directly in it. -/
def ownMarks : List EventTree → List Bool
  | [] => []
  | .nest (.paragraph _) content :: more => reachingIn content ++ marks more
  | tree :: more => tree.mark?.toList ++ ownMarks more

theorem marks_append (first second : List EventTree) :
    marks (first ++ second) = marks first ++ marks second :=
  List.filterMap_append

theorem reachingIn_append (first second : List EventTree) :
    reachingIn (first ++ second) = reachingIn first ++ reachingIn second := by
  induction first with
  | nil => rfl
  | cons tree more ih => rw [List.cons_append, reachingIn, ih, reachingIn, List.append_assoc]

/-- In an item without paragraphs of its own the marks are those directly in it. -/
theorem ownMarks_of_not_any {inner : List EventTree} (h : inner.any isParagraph = false) :
    ownMarks inner = marks inner := by
  fun_induction ownMarks inner with
  | case1 => rfl
  | case2 span content more => cases h
  | case3 tree more hparagraph ih =>
      rw [List.any_cons, Bool.or_eq_false_iff] at h
      rw [marks_cons, ih h.2]

/-- Before the first paragraph of an item the marks are those directly in it. -/
theorem ownMarks_append {first : List EventTree} (h : first.any isParagraph = false)
    (second : List EventTree) : ownMarks (first ++ second) = marks first ++ ownMarks second := by
  fun_induction ownMarks first with
  | case1 => rfl
  | case2 span content more => cases h
  | case3 tree more hparagraph ih =>
      rw [List.any_cons, Bool.or_eq_false_iff] at h
      rw [List.cons_append, ownMarks, ih h.2, marks_cons, List.append_assoc]
      exact hparagraph

end Markdown.EventTree

/-- Whether each item of the tree that well nested events build has the last of the marks that are its
own, and none if it has no such mark. -/
def KeepsMarks (length : Nat) (trees : List EventTree) : Prop :=
  List.Forall₂ (fun inner item => item.checked? = (ownMarks inner).getLast?) (itemsIn trees)
    (Node.ofEvents length (eventsList trees)).items

/-- An item has the last of all marks that stand directly in it, in whichever paragraph. -/
theorem checked?_itemNode (inner : List EventTree) :
    (itemNode inner).checked? = (marks inner).getLast? := by
  rw [itemNode_eq, Node.checked?]

/-- An item has the last of the marks that come directly in it, so no other mark may count. -/
theorem keepsMarks_iff (length : Nat) (trees : List EventTree) : KeepsMarks length trees ↔
    ∀ inner ∈ itemsIn trees, (marks inner).getLast? = (ownMarks inner).getLast? := by
  rw [KeepsMarks, Node.items_ofEvents, List.forall₂_map_right_iff, List.forall₂_same]
  simp only [checked?_itemNode]

/-! ### Marks of documents -/

namespace Markdown

namespace Inline

mutual

/-- No task mark stands in running text. -/
theorem reaching_tree : ∀ part : Inline, part.tree.reaching = []
  | .text _ | .code _ | .html _ | .softBreak | .hardBreak => rfl
  | .span _ content | .link _ content | .image _ content => by
      rw [tree, reaching, reachingIn_trees content, ite_self]

theorem reachingIn_trees : ∀ parts : List Inline, reachingIn (trees parts) = []
  | [] => rfl
  | part :: more => by
      rw [trees, reachingIn, reaching_tree part, reachingIn_trees more, List.append_nil]

end

theorem any_isParagraph_trees (parts : List Inline) : (trees parts).any isParagraph = false := by
  induction parts with
  | nil => rfl
  | cons part more ih =>
      rw [trees, List.any_cons, ih, Bool.or_false]
      cases part with
      | span kind content => cases kind <;> rfl
      | _ => rfl

end Inline

section Tasks

variable (dialect : Dialect) (task : Option Bool) (content : List Symbol)

theorem marks_taskTrees : marks (taskTrees task) = task.toList := by
  cases task <;> rfl

theorem any_isParagraph_taskTrees : (taskTrees task).any isParagraph = false := by
  cases task <;> rfl

/-- Of the text of a paragraph only the mark before it reaches the item. -/
theorem reachingIn_textTrees : reachingIn (dialect.textTrees task content) = task.toList := by
  rw [Dialect.textTrees, reachingIn_append, Inline.reachingIn_trees, List.append_nil]
  cases task <;> rfl

theorem any_isParagraph_textTrees : (dialect.textTrees task content).any isParagraph = false := by
  rw [Dialect.textTrees, List.any_append, any_isParagraph_taskTrees, Inline.any_isParagraph_trees,
    Bool.or_false]

end Tasks

namespace Block

variable (dialect : Dialect)

/-- The task mark that the first of the paragraphs among blocks begins with, if it does. -/
def firstTask? : List Block → Option Bool
  | [] => none
  | .paragraph _ task _ :: _ => task
  | _ :: more => firstTask? more

/-- Paragraphs show their text alone in the items of a tight list. -/
theorem any_isParagraph_treesIn (blocks : List Block) :
    (treesIn dialect true blocks).any isParagraph = false := by
  induction blocks with
  | nil => rfl
  | cons block more ih =>
      rw [treesIn, List.any_append, ih, Bool.or_false]
      cases block with
      | paragraph span task content => exact any_isParagraph_textTrees dialect task content
      | _ => rfl

/-- The blocks of an item of a loose list have their task marks in them, not beside them. -/
theorem marks_treesIn (blocks : List Block) : marks (treesIn dialect false blocks) = [] := by
  induction blocks with
  | nil => rfl
  | cons block more ih =>
      rw [treesIn, marks_append, ih, List.append_nil]
      cases block <;> rfl

/-- In a loose list the paragraphs of an item open, and the first one ends what is the item's own. -/
theorem ownMarks_treesIn (blocks : List Block) :
    ownMarks (treesIn dialect false blocks) = (firstTask? blocks).toList := by
  induction blocks with
  | nil => rfl
  | cons block more ih =>
      cases block with
      | paragraph span task content =>
          have htree : (paragraph span task content).trees dialect false =
              [.nest (.paragraph span) (dialect.textTrees task content)] := rfl
          rw [treesIn, htree, List.singleton_append, ownMarks, reachingIn_textTrees, marks_treesIn,
            List.append_nil, firstTask?]
      | _ => exact ih

end Block

/-- The mark of an item of a tight list always reaches it. That of an item of a loose list does if it does
not stand in the first paragraph. -/
theorem Item.getLast?_marks_iff (dialect : Dialect) (item : Item) :
    (marks (item.trees dialect)).getLast? = (ownMarks (item.trees dialect)).getLast? ↔
      (item.tight = false → Block.firstTask? item.blocks = none ∨
        Block.firstTask? item.blocks = item.task) := by
  obtain ⟨tight, task, blocks⟩ := item
  cases tight with
  | true =>
      have hnone : (Item.trees dialect ⟨true, task, blocks⟩).any isParagraph = false := by
        rw [trees, List.any_append, any_isParagraph_taskTrees, Block.any_isParagraph_treesIn,
          Bool.or_false]
      rw [ownMarks_of_not_any hnone]
      simp
  | false =>
      rw [trees, marks_append, ownMarks_append (any_isParagraph_taskTrees task), Block.marks_treesIn,
        Block.ownMarks_treesIn, marks_taskTrees, List.append_nil]
      cases task <;> cases Block.firstTask? blocks <;> simp [eq_comm]

end Markdown

/-- An item has the last of the task marks that come directly in it. So all items have the last of those
that are their own exactly if no other one counts: in a document, if no item of a loose list has a first
paragraph that begins with a mark. -/
theorem checked_last_direct_mark (length : Nat) (trees : List EventTree) (extended : Bool)
    (text : List Char) : let document := Document.ofText extended text
    (List.Forall₂ (fun inner item => item.checked? = (marks inner).getLast?) (itemsIn trees)
        (Node.ofEvents length (eventsList trees)).items ∧
      (KeepsMarks length trees ↔
        ∀ inner ∈ itemsIn trees, (marks inner).getLast? = (ownMarks inner).getLast?)) ∧
    Node.ofMarkdown extended text =
        Node.ofEvents (Text.byteLength text) (eventsList (document.trees extended)) ∧
      (KeepsMarks (Text.byteLength text) (document.trees extended) ↔
        ∀ item ∈ document.items, item.tight = false →
          Block.firstTask? item.blocks = none ∨ Block.firstTask? item.blocks = item.task) := by
  refine ⟨⟨?_, keepsMarks_iff length trees⟩, ?_, ?_⟩
  · rw [Node.items_ofEvents, List.forall₂_map_right_iff, List.forall₂_same]
    exact fun inner _ => checked?_itemNode inner
  · rw [Document.eventsList_trees]
    rfl
  · rw [keepsMarks_iff, Document.itemsIn_trees, List.forall_mem_map]
    simp only [Item.getLast?_marks_iff]

/-- In a loose list the mark of a task comes in the paragraph of its item, and the item goes without. -/
theorem not_forall_keepsMarks : ¬ ∀ (text : List Char) (trees : List EventTree),
    (Document.ofText true text).events true = eventsList trees →
      KeepsMarks (Text.byteLength text) trees := by
  intro h
  have hkeeps := h "- [x] a\n\n- [ ] b\n".toList
    [.nest (.list none)
      [.nest .item [.nest (.paragraph ⟨6, 8⟩) [.single (.taskMark true) rfl, .single (.text "a") rfl]],
        .nest .item
          [.nest (.paragraph ⟨15, 17⟩) [.single (.taskMark false) rfl, .single (.text "b") rfl]]]]
    (by decide +kernel)
  have hitems := (keepsMarks_iff _ _).1 hkeeps _ (List.mem_cons_self)
  exact absurd hitems (by decide)

end DefinitionLists
