/-
Module: DefinitionLists.Proofs.Heads
Purpose: Trees of which each node with children is of some kind, and the kinds that Markdown text reads
  as.
Main exports: Node.allHeads, Branch.isMarkdown, Branch.AllowsLists, OpenNodes.Below,
  Node.ofMarkdown_heads
-/
import DefinitionLists.Node.Markdown

namespace DefinitionLists

namespace Node

mutual

/-- Whether `good` holds of each node with children in the tree, whatever its children are. -/
def allHeads (good : Branch → Bool) : Node → Bool
  | .leaf _ => true
  | .branch head children => good head && allHeadsIn good children

/-- Whether `good` holds of each node with children in the trees. -/
def allHeadsIn (good : Branch → Bool) : List Node → Bool
  | [] => true
  | node :: more => allHeads good node && allHeadsIn good more

end

variable {good : Branch → Bool}

@[simp] theorem allHeads_leaf (content : Leaf) : (Node.leaf content).allHeads good = true := by
  simp [allHeads]

@[simp] theorem allHeads_branch (head : Branch) (children : List Node) :
    (Node.branch head children).allHeads good = true ↔
      good head = true ∧ allHeadsIn good children = true := by
  simp [allHeads]

@[simp] theorem allHeadsIn_nil : allHeadsIn good [] = true := by simp [allHeadsIn]

@[simp] theorem allHeadsIn_cons (node : Node) (more : List Node) :
    allHeadsIn good (node :: more) = true ↔
      node.allHeads good = true ∧ allHeadsIn good more = true := by
  simp [allHeadsIn]

theorem allHeadsIn_iff {nodes : List Node} :
    allHeadsIn good nodes = true ↔ ∀ node ∈ nodes, node.allHeads good = true := by
  induction nodes with
  | nil => simp
  | cons node more ih => simp [ih]

theorem allHeadsIn_append {first second : List Node} :
    allHeadsIn good (first ++ second) = true ↔
      allHeadsIn good first = true ∧ allHeadsIn good second = true := by
  simp only [allHeadsIn_iff, List.forall_mem_append]

theorem allHeadsIn_of_subset {part whole : List Node} (h : allHeadsIn good whole = true)
    (hsub : ∀ node ∈ part, node ∈ whole) : allHeadsIn good part = true :=
  allHeadsIn_iff.2 fun node hn => allHeadsIn_iff.1 h node (hsub node hn)

mutual

/-- What holds of all heads of a tree holds of all heads of the trees in it. -/
theorem allHeads_of_mem_preorder : ∀ {node : Node}, node.allHeads good = true →
    ∀ inner ∈ node.preorder, inner.allHeads good = true
  | .leaf _, h, inner, hi => by
      rw [List.mem_singleton.1 hi]
      exact h
  | .branch head children, h, inner, hi => by
      rcases List.mem_cons.1 hi with rfl | hi
      · exact h
      · exact allHeads_of_mem_preorderList ((allHeads_branch _ _).1 h).2 inner hi

theorem allHeads_of_mem_preorderList : ∀ {nodes : List Node}, allHeadsIn good nodes = true →
    ∀ inner ∈ preorderList nodes, inner.allHeads good = true
  | [], _, inner, hi => by simp [preorderList] at hi
  | node :: more, h, inner, hi => by
      obtain ⟨hnode, hmore⟩ := (allHeadsIn_cons _ _).1 h
      rcases List.mem_append.1 hi with hi | hi
      · exact allHeads_of_mem_preorder hnode inner hi
      · exact allHeads_of_mem_preorderList hmore inner hi

end

mutual

/-- What holds of all heads of a kind holds of the heads of a tree of that kind. -/
theorem allHeads_mono {better : Branch → Bool} (h : ∀ head, good head = true → better head = true) :
    ∀ {node : Node}, node.allHeads good = true → node.allHeads better = true
  | .leaf content, _ => allHeads_leaf content
  | .branch head children, hn => by
      obtain ⟨hhead, hchildren⟩ := (allHeads_branch head children).1 hn
      exact (allHeads_branch head children).2 ⟨h head hhead, allHeadsIn_mono h hchildren⟩

theorem allHeadsIn_mono {better : Branch → Bool}
    (h : ∀ head, good head = true → better head = true) :
    ∀ {nodes : List Node}, allHeadsIn good nodes = true → allHeadsIn better nodes = true
  | [], _ => allHeadsIn_nil
  | node :: more, hn => by
      obtain ⟨hnode, hmore⟩ := (allHeadsIn_cons node more).1 hn
      exact (allHeadsIn_cons node more).2 ⟨allHeads_mono h hnode, allHeadsIn_mono h hmore⟩

end

end Node

open Node (allHeads allHeadsIn)

/-! ### The nodes of Markdown text -/

/-- Whether a container is the root of a document or a part of a definition list. -/
def Container.isSpecial : Container → Bool
  | .root | .descriptionList | .descriptionTerm | .descriptionDetails => true
  | .paragraph | .blockquote | .emphasis | .strong | .deletion => false

/-- The names of unknown nodes that Markdown text has. -/
def Markdown.unknownTags : List String :=
  ["footnoteDefinition", "table", "tableRow", "tableCell", "unknown", "footnoteReference",
    "inlineMath", "math"]

/-- Whether Markdown text may have such a node below its root. -/
def Branch.isMarkdown : Branch → Bool
  | .container kind _ _ => !kind.isSpecial
  | .other tag _ _ => Markdown.unknownTags.contains tag
  | _ => true

/-- Whether all nodes below a node are of Markdown text, and it is itself. -/
def Node.isMarkdown (node : Node) : Bool := node.allHeads Branch.isMarkdown

/-- Joining texts makes no node with children. -/
theorem allHeadsIn_pushChild {good : Branch → Bool} {siblings : List Node} {child : Node}
    (hs : allHeadsIn good siblings = true) (hc : child.allHeads good = true) :
    allHeadsIn good (pushChild siblings child) = true := by
  fun_induction pushChild siblings child with
  | case1 child => simpa using hc
  | case2 last value => simp
  | case3 last child => simp_all
  | case4 child first second rest ih =>
      simp only [Node.allHeadsIn_cons] at hs ⊢
      exact ⟨hs.1, ih (by simpa using hs.2) hc⟩

/-! ### Lists -/

/-- A kind of nodes that lists, their items, and paragraphs without a position are of, whatever else
is. -/
structure Branch.AllowsLists (good : Branch → Bool) : Prop where
  list : ∀ ordered start spread hint, good (.list ordered start spread hint) = true
  item : ∀ spread checked hint, good (.listItem spread checked hint) = true
  paragraph : good (.container .paragraph none none) = true

theorem Branch.allowsLists_isMarkdown : AllowsLists isMarkdown :=
  ⟨fun _ _ _ _ => rfl, fun _ _ _ => rfl, rfl⟩

section Lists

variable {good : Branch → Bool} (hg : Branch.AllowsLists good)
include hg

theorem allHeads_paragraph {children : List Node} (h : allHeadsIn good children = true) :
    (Node.paragraph children).allHeads good = true :=
  (Node.allHeads_branch _ children).2 ⟨hg.paragraph, h⟩

/-- The paragraphs around runs are of an allowed kind, and what is in them stays. -/
theorem allHeadsIn_wrapInlineRuns {run nodes : List Node} (hr : allHeadsIn good run = true)
    (hn : allHeadsIn good nodes = true) : allHeadsIn good (wrapInlineRuns run nodes) = true := by
  have hparagraph {run : List Node} (hr : allHeadsIn good run = true) :
      allHeadsIn good (if run.isEmpty then [] else [.paragraph run]) = true := by
    split
    · exact Node.allHeadsIn_nil
    · simpa using allHeads_paragraph hg hr
  induction nodes generalizing run with
  | nil => exact hparagraph hr
  | cons node more ih =>
      simp only [Node.allHeadsIn_cons] at hn
      unfold wrapInlineRuns
      split
      · exact ih (allHeadsIn_pushChild hr hn.1) hn.2
      · have hrest := ih Node.allHeadsIn_nil hn.2
        split
        · simp [hn.1, hrest]
        · simp [allHeads_paragraph hg hr, hn.1, hrest]

end Lists

namespace Node

theorem allHeads_absorb {good : Branch → Bool} {node child : Node} (hn : node.allHeads good = true)
    (hc : child.allHeads good = true) : (node.absorb child).allHeads good = true := by
  cases node with
  | leaf content => cases content <;> simp [absorb]
  | branch head children =>
      rw [allHeads_branch] at hn
      simp [absorb, hn.1, allHeadsIn_pushChild hn.2 hc]

theorem allHeads_foldl_absorb {good : Branch → Bool} {nodes : List Node} {top : Node}
    (ht : top.allHeads good = true) (hn : allHeadsIn good nodes = true) :
    (nodes.foldl absorb top).allHeads good = true := by
  induction nodes generalizing top with
  | nil => exact ht
  | cons node more ih =>
      obtain ⟨hnode, hmore⟩ := (allHeadsIn_cons node more).1 hn
      exact ih (allHeads_absorb ht hnode) hmore

section Lists

variable {good : Branch → Bool} (hg : Branch.AllowsLists good) {node : Node}
include hg

theorem allHeads_finish (h : node.allHeads good = true) : node.finish.allHeads good = true := by
  unfold finish
  split
  · rw [allHeads_branch] at h
    simp [hg.item, allHeadsIn_wrapInlineRuns hg allHeadsIn_nil h.2]
  · rw [allHeads_branch] at h
    simp [hg.list, h.2]
  · simp
  · simp
  · exact h

theorem allHeads_check (checked : Bool) (h : node.allHeads good = true) :
    (node.check checked).allHeads good = true := by
  unfold check
  split
  · rw [allHeads_branch] at h
    simp [hg.item, h.2]
  · exact h

end Lists

theorem isMarkdown_ofValue {tag : String} (value : String) (h : tag ∈ Markdown.unknownTags) :
    (ofValue tag value).isMarkdown = true := by
  simp [isMarkdown, ofValue, Branch.isMarkdown, h]

end Node

theorem isMarkdown_opening (opening : Markdown.Opening) : opening.node.isMarkdown = true := by
  cases opening with
  | extension kind =>
      cases kind <;> simp [Node.isMarkdown, Markdown.Opening.node, Branch.isMarkdown,
        Markdown.unknownTags, Markdown.Extension.tag]
  | _ =>
      simp [Node.isMarkdown, Markdown.Opening.node, Node.plain, Branch.isMarkdown,
        Container.isSpecial]

/-! ### Open nodes

While events are taken the outermost open node is a root of a fixed kind, and all that is open or
done inside of it is of Markdown text. -/

/-- The open nodes, from the inside out, are of Markdown text down to a root. -/
inductive OpenNodes.Below (root : Branch) : (top : Node) → (below : List Node) → Prop where
  | root {blocks : List Node} (done : allHeadsIn Branch.isMarkdown blocks = true) :
      Below root (.branch root blocks) []
  | inside {top outer : Node} {below : List Node} (markdown : top.isMarkdown = true)
      (around : Below root outer below) : Below root top (outer :: below)

namespace OpenNodes

variable {root : Branch} {top : Node} {below : List Node}

theorem Below.absorb (h : Below root top below) {child : Node} (hc : child.isMarkdown = true) :
    Below root (top.absorb child) below := by
  cases h with
  | root done => exact .root (allHeadsIn_pushChild done hc)
  | inside markdown around => exact .inside (Node.allHeads_absorb markdown hc) around

/-- A node that closes goes into the one around it, as a child like the others. -/
theorem Below.close {state : OpenNodes} (h : Below root state.top state.below) :
    Below root state.close.top state.close.below := by
  obtain ⟨top, below⟩ := state
  cases h with
  | root done => exact .root done
  | inside markdown around =>
      exact around.absorb (Node.allHeads_finish Branch.allowsLists_isMarkdown markdown)

/-- A task mark changes nothing but an item, so it leaves a root as it is. -/
theorem Below.check (hr : ∀ spread checked hint, root ≠ .listItem spread checked hint)
    (h : Below root top below) (checked : Bool) : Below root (top.check checked) below := by
  cases h with
  | root done =>
      rw [Node.check]
      · exact .root done
      · rintro spread checked hint children heq
        exact hr spread checked hint (Node.branch.inj heq).1
  | inside markdown around =>
      exact .inside (Node.allHeads_check Branch.allowsLists_isMarkdown checked markdown) around

/-- Every event keeps the open nodes as they should be. The root is no item, so that no mark is put on
it. -/
theorem Below.take (hr : ∀ spread checked hint, root ≠ .listItem spread checked hint)
    {state : OpenNodes} (h : Below root state.top state.below) (event : Markdown.Event) :
    Below root (state.take event).top (state.take event).below := by
  cases event with
  | start opening => exact .inside (isMarkdown_opening opening) h
  | close => exact h.close
  | taskMark checked => exact h.check hr checked
  | footnoteReference _ | inlineMath _ | displayMath _ =>
      exact h.absorb (Node.isMarkdown_ofValue _ (by simp [Markdown.unknownTags]))
  | text _ | code _ | html _ | softBreak | hardBreak | rule =>
      exact h.absorb (by simp [Node.isMarkdown])

theorem Below.takeAll (hr : ∀ spread checked hint, root ≠ .listItem spread checked hint)
    (events : List Markdown.Event) {state : OpenNodes} (h : Below root state.top state.below) :
    Below root (events.foldl OpenNodes.take state).top (events.foldl OpenNodes.take state).below := by
  induction events generalizing state with
  | nil => exact h
  | cons event more ih => exact ih (h.take hr event)

/-- When all is closed, only the root is left, with what was built in it. -/
theorem Below.closeAll (h : Below root top below) :
    ∃ blocks, closeAll top below = .branch root blocks ∧
      allHeadsIn Branch.isMarkdown blocks = true := by
  induction below generalizing top with
  | nil =>
      cases h with
      | root done => exact ⟨_, rfl, done⟩
  | cons outer below ih =>
      cases h with
      | inside markdown around =>
          have houter := Node.allHeads_finish Branch.allowsLists_isMarkdown markdown
          exact ih (around.absorb houter)

end OpenNodes

namespace Node

/-- Events build a root over nodes of Markdown text, whatever they are and however they nest. -/
theorem ofEvents_heads (length : Nat) (events : List Markdown.Event) :
    ∃ blocks, ofEvents length events = .branch (.container .root none (some ⟨0, length⟩)) blocks ∧
      allHeadsIn Branch.isMarkdown blocks = true := by
  have hstart : OpenNodes.Below (.container .root none (some ⟨0, length⟩))
      (.branch (.container .root none (some ⟨0, length⟩)) []) [] := .root allHeadsIn_nil
  exact (hstart.takeAll (by simp) events).closeAll

/-- Markdown text reads as a root over nodes of Markdown text. -/
theorem ofMarkdown_heads (extended : Bool) (text : List Char) :
    ∃ blocks, ofMarkdown extended text =
        .branch (.container .root none (some ⟨0, Text.byteLength text⟩)) blocks ∧
      allHeadsIn Branch.isMarkdown blocks = true :=
  ofEvents_heads _ _

theorem ofMarkdown_eq_children (extended : Bool) (text : List Char) : ofMarkdown extended text =
    .branch (.container .root none (some ⟨0, Text.byteLength text⟩))
      (ofMarkdown extended text).children := by
  obtain ⟨blocks, heq, -⟩ := ofMarkdown_heads extended text
  rw [heq]
  rfl

end Node

end DefinitionLists
