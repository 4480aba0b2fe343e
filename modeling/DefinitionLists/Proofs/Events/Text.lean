/-
Module: DefinitionLists.Proofs.Events.Text
Purpose: The text of the tree that events build, whether these are well nested or not: it is what the
  events hold, in their order, apart from line feeds.
Main exports: Event.content, Text.withoutLineFeeds, Node.plainText_ofEvents
-/
import DefinitionLists.Proofs.Events.Nesting
import DefinitionLists.Proofs.Prose

namespace DefinitionLists

open Markdown
open Node (plainTexts leafText)

/-- The text of an event, if it stands for some. -/
def Markdown.Event.content : Event → List Char
  | .text value | .code value | .html value | .footnoteReference value | .inlineMath value
  | .displayMath value => value.toList
  | _ => []

/-! ### Line feeds -/

namespace Text

/-- The text with its line feeds left out. -/
def withoutLineFeeds (text : List Char) : List Char := text.filter (· != '\n')

theorem withoutLineFeeds_append (first second : List Char) :
    withoutLineFeeds (first ++ second) = withoutLineFeeds first ++ withoutLineFeeds second :=
  List.filter_append first second

theorem withoutLineFeeds_dropLineFeed (text : List Char) :
    withoutLineFeeds (Node.dropLineFeed text) = withoutLineFeeds text := by
  unfold Node.dropLineFeed
  split
  · next rest h =>
      have htext : text = rest.reverse ++ ['\n'] := by
        rw [← List.reverse_cons, ← h, List.reverse_reverse]
      rw [htext, withoutLineFeeds_append]
      exact (List.append_nil _).symm
  · rfl

/-- What is cut from the end are line feeds only. -/
theorem withoutLineFeeds_trimEndWhile (text : List Char) :
    withoutLineFeeds (trimEndWhile (· == '\n') text) = withoutLineFeeds text := by
  have hfeeds : withoutLineFeeds (text.reverse.takeWhile (· == '\n')) = [] := by
    refine List.filter_eq_nil_iff.2 fun c hc => ?_
    have hfeed := List.all_eq_true.1 List.all_takeWhile c hc
    simpa using hfeed
  have hdrop : withoutLineFeeds (text.reverse.dropWhile (· == '\n')) = withoutLineFeeds text.reverse := by
    conv => rhs; rw [← List.takeWhile_append_dropWhile (p := (· == '\n')) (l := text.reverse)]
    rw [withoutLineFeeds_append, hfeeds, List.nil_append]
  rw [trimEndWhile, withoutLineFeeds, List.filter_reverse]
  rw [withoutLineFeeds, withoutLineFeeds, List.filter_reverse] at hdrop
  rw [hdrop, List.reverse_reverse, withoutLineFeeds]

end Text

open Text (withoutLineFeeds)

/-! ### Nodes that close -/

namespace Node

/-- Nothing but line feeds is lost when nothing more goes into a node. -/
theorem plainText_finish (node : Node) :
    withoutLineFeeds node.finish.plainText.toList = withoutLineFeeds node.plainText.toList := by
  fun_cases finish node with
  | case1 spread checked hint children =>
      have hwrapped : (wrapInlineRuns [] children).flatMap (fun node => node.plainText.toList) =
          children.flatMap fun node => node.plainText.toList :=
        flatMap_wrapInlineRuns (fun first second => by simp [plainText, leafText]) toList_plainTexts [] _
      have hitem (spread : Bool) (children : List Node) :
          (branch (.listItem spread checked hint) children).plainText = plainTexts children := rfl
      rw [hitem, hitem, toList_plainTexts, toList_plainTexts, hwrapped]
  | case2 => rfl
  | case3 language value => simp [plainText, leafText, Text.withoutLineFeeds_dropLineFeed]
  | case4 value => simp [plainText, leafText, Text.withoutLineFeeds_trimEndWhile]
  | case5 => rfl

end Node

/-- A node has the text of all that went into it, as an item has, a container, and code. -/
theorem Markdown.Opening.plainText_holding (opening : Opening) (marks : List Bool) (nodes : List Node) :
    (opening.holding marks nodes).plainText.toList = (plainTexts nodes).toList := by
  cases hholds : opening.holdsNodes with
  | false =>
      obtain ⟨content, heq, htext⟩ := exists_holding_of_not_holdsNodes hholds marks nodes
      rw [heq]
      exact congrArg String.toList htext
  | true =>
      obtain ⟨head, heq, hvalue⟩ := exists_holding_of_holdsNodes hholds marks nodes
      rw [heq, Node.plainText_branch _ _ hvalue, Node.plainTexts_foldl_pushChild]

/-! ### Events -/

namespace Markdown

/-- Completing events takes no text away. -/
theorem Event.flatMap_content_complete (depth : Nat) (events : List Event) :
    (complete depth events).flatMap content = events.flatMap content := by
  fun_induction complete depth events with
  | case1 depth => simp [List.flatMap_replicate, content]
  | case2 depth opening more ih => rw [List.flatMap_cons, List.flatMap_cons, ih]
  | case3 more ih => exact ih
  | case4 more depth ih => rw [List.flatMap_cons, List.flatMap_cons, ih]
  | case5 depth event more hstart hzero hclose ih => rw [List.flatMap_cons, List.flatMap_cons, ih]

namespace EventTree

theorem plainTexts_node? (event : Event) : withoutLineFeeds (plainTexts event.node?.toList).toList =
    withoutLineFeeds event.content := by
  cases event with
  | softBreak => rfl
  | _ => simp [Event.node?, Event.content, Node.plainText, leafText, Node.ofValue]

mutual

/-- The nodes of well nested events have the text of the events, in the same order. -/
theorem plainTexts_nodes : ∀ tree : EventTree, withoutLineFeeds (plainTexts tree.nodes).toList =
    withoutLineFeeds (tree.events.flatMap Event.content)
  | .single event plain => by
      rw [nodes, events, plainTexts_node?, List.flatMap_singleton]
  | .nest opening inner => by
      have hinner := plainTexts_nodesIn inner
      rw [nodes, events, Node.plainTexts_cons, Node.plainTexts_nil, String.append_empty,
        Node.plainText_finish, opening.plainText_holding, hinner]
      simp [Event.content]

/-- What is built from events has the text of these, in order, up to line feeds. -/
theorem plainTexts_nodesIn : ∀ trees : List EventTree,
    withoutLineFeeds (plainTexts (nodesIn trees)).toList =
      withoutLineFeeds ((eventsList trees).flatMap Event.content)
  | [] => rfl
  | tree :: more => by
      rw [nodesIn, eventsList, Node.plainTexts_append, String.toList_append, List.flatMap_append,
        Text.withoutLineFeeds_append, Text.withoutLineFeeds_append, plainTexts_nodes tree,
        plainTexts_nodesIn more]

end

end EventTree

end Markdown

namespace Node

open EventTree

/-- Whatever the events are, the tree has their texts, none of them lost and all in order, apart from line
feeds. Closing events beyond those that close something count for nothing and what is left open is closed
in the end, as if the events were well nested, so that a root comes out, over nodes that are no roots. -/
theorem plainText_ofEvents (length : Nat) (events : List Event) :
    withoutLineFeeds (ofEvents length events).plainText.toList =
        withoutLineFeeds (events.flatMap Event.content) ∧
      (∃ trees, Event.complete 0 events = eventsList trees) ∧
      ofEvents length (Event.complete 0 events) = ofEvents length events ∧
      ∃ children, ofEvents length events =
          .branch (.container .root none (some ⟨0, length⟩)) children ∧
        ∀ child ∈ children, ∀ node ∈ child.preorder, node.isContainer .root = false := by
  obtain ⟨trees, htrees⟩ := exists_complete_eq events
  refine ⟨?_, ⟨trees, htrees⟩, ofEvents_complete length events, ?_⟩
  · rw [← ofEvents_complete, htrees, ofEvents_eventsList, plainText_container,
      plainTexts_foldl_pushChild, plainTexts_nodesIn, ← htrees, Event.flatMap_content_complete]
  · obtain ⟨children, heq, hkinds⟩ := ofEvents_heads length events
    refine ⟨children, heq, fun child hc node hn => ?_⟩
    have hprose : child.isProse = true := allProse_iff.1 (allProse_of_isMarkdown hkinds) child hc
    exact isContainer_of_isProse (allHeads_of_mem_preorder hprose node hn) rfl

end Node

end DefinitionLists
