/-
Module: DefinitionLists.Proofs.Events.Nesting
Purpose: Well nested sequences of events as trees, the nodes that these build, and the well nested
  sequence that stands for any sequence of events.
Main exports: EventTree, EventTree.eventsList, EventTree.nodesIn, Event.complete,
  EventTree.exists_complete_eq, Node.ofEvents_eventsList, Node.ofEvents_complete
-/
import DefinitionLists.Proofs.Markdown.Collected

namespace DefinitionLists

open Markdown

namespace Markdown

/-- Whether the event neither opens nor closes anything. -/
def Event.isPlain : Event → Bool
  | .start _ | .close => false
  | _ => true

theorem Event.opens_or_closes_or_isPlain (event : Event) :
    (∃ opening, event = .start opening) ∨ event = .close ∨ event.isPlain = true := by
  cases event with
  | start opening => exact .inl ⟨opening, rfl⟩
  | close => exact .inr (.inl rfl)
  | _ => exact .inr (.inr rfl)

/-- A part of a well nested sequence of events: an event by itself, or one that opens something, with all
that comes before the event that closes it. -/
inductive EventTree where
  | single (event : Event) (plain : event.isPlain = true)
  | nest (opening : Opening) (inner : List EventTree)

namespace EventTree

mutual

/-- The events of a part, from the first to the last. -/
def events : EventTree → List Event
  | .single event _ => [event]
  | .nest opening inner => .start opening :: eventsList inner ++ [.close]

/-- The events of parts, one part after the other. -/
def eventsList : List EventTree → List Event
  | [] => []
  | tree :: more => tree.events ++ eventsList more

end

theorem eventsList_append (first second : List EventTree) :
    eventsList (first ++ second) = eventsList first ++ eventsList second := by
  induction first with
  | nil => rfl
  | cons tree more ih => rw [List.cons_append, eventsList, ih, eventsList, List.append_assoc]

end EventTree

/-- The events without those that close nothing, and with one more that closes for each node that is left
open. `depth` tells how many nodes are open before the events. -/
def Event.complete : (depth : Nat) → List Event → List Event
  | depth, [] => List.replicate depth .close
  | depth, .start opening :: more => .start opening :: complete (depth + 1) more
  | 0, .close :: more => complete 0 more
  | depth + 1, .close :: more => .close :: complete depth more
  | depth, event :: more => event :: complete depth more

theorem Event.complete_cons_of_isPlain {event : Event} (h : event.isPlain = true) (depth : Nat)
    (more : List Event) : complete depth (event :: more) = event :: complete depth more := by
  cases event with
  | start opening => cases h
  | close => cases h
  | _ => rw [complete] <;> simp

namespace EventTree

/-- Completed events are well nested up to the closes of what was open before them. -/
theorem exists_complete_eq_append (events : List Event) (depth : Nat) :
    ∃ (trees : List EventTree) (outer : List (List EventTree)), outer.length = depth ∧
      Event.complete depth events =
        eventsList trees ++ outer.flatMap fun trees => .close :: eventsList trees := by
  induction events generalizing depth with
  | nil =>
      refine ⟨[], List.replicate depth [], List.length_replicate, ?_⟩
      simp [Event.complete, eventsList, List.flatMap_replicate]
  | cons event more ih =>
      rcases event.opens_or_closes_or_isPlain with ⟨opening, rfl⟩ | rfl | hplain
      · -- the first close that is left over after it closes what opens here
        obtain ⟨inner, outer, hlength, heq⟩ := ih (depth + 1)
        obtain ⟨trees, outer, rfl⟩ := List.exists_cons_of_length_eq_add_one hlength
        refine ⟨.nest opening inner :: trees, outer, by simpa using hlength, ?_⟩
        simp [Event.complete, heq, eventsList, EventTree.events]
      · cases depth with
        | zero => exact ih 0
        | succ depth =>
            obtain ⟨trees, outer, hlength, heq⟩ := ih depth
            refine ⟨[], trees :: outer, by simp [hlength], ?_⟩
            simp [Event.complete, heq, eventsList]
      · obtain ⟨trees, outer, hlength, heq⟩ := ih depth
        refine ⟨.single event hplain :: trees, outer, hlength, ?_⟩
        rw [Event.complete_cons_of_isPlain hplain, heq, eventsList, EventTree.events]
        rfl

/-- Completed events are well nested. -/
theorem exists_complete_eq (events : List Event) :
    ∃ trees, Event.complete 0 events = eventsList trees := by
  obtain ⟨trees, outer, hlength, heq⟩ := exists_complete_eq_append events 0
  rw [List.length_eq_zero_iff.1 hlength, List.flatMap_nil, List.append_nil] at heq
  exact ⟨trees, heq⟩

end EventTree

/-! ### The nodes of events -/

/-- The node that an event adds to the one that is open, if it adds any. -/
def Event.node? : Event → Option Node
  | .text value => some (.text value)
  | .code value => some (.leaf (.inlineCode value))
  | .html value => some (.leaf (.html value))
  | .softBreak => some (.text "\n")
  | .hardBreak => some .lineBreak
  | .rule => some (.leaf .thematicBreak)
  | .footnoteReference label => some (.ofValue "footnoteReference" label)
  | .inlineMath value => some (.ofValue "inlineMath" value)
  | .displayMath value => some (.ofValue "math" value)
  | .start _ | .close | .taskMark _ => none

/-- The task mark that an event is, if it is one. -/
def Event.mark? : Event → Option Bool
  | .taskMark checked => some checked
  | _ => none

end Markdown

/-- The node with task marks, the last of which counts. -/
def Node.checkAll (node : Node) (marks : List Bool) : Node :=
  marks.foldl (fun node checked => node.check checked) node

namespace Markdown

/-- What opens, as a node with task marks and other nodes in it. -/
def Opening.holding (opening : Opening) (marks : List Bool) (nodes : List Node) : Node :=
  nodes.foldl Node.absorb (opening.node.checkAll marks)

namespace EventTree

/-- The task mark that a part is, if it is one. -/
def mark? : EventTree → Option Bool
  | .single event _ => event.mark?
  | .nest _ _ => none

/-- The task marks among parts, apart from those inside of what opens there. -/
def marks (trees : List EventTree) : List Bool := trees.filterMap mark?

mutual

/-- The nodes that a part adds to the one that is open: at most one. -/
def nodes : EventTree → List Node
  | .single event _ => event.node?.toList
  | .nest opening inner => [(opening.holding (marks inner) (nodesIn inner)).finish]

/-- The nodes that parts add. Texts side by side are not joined yet. -/
def nodesIn : List EventTree → List Node
  | [] => []
  | tree :: more => tree.nodes ++ nodesIn more

end

end EventTree

end Markdown

/-! ### Task marks -/

namespace Node

/-- A mark and a child may come in any order. -/
theorem check_absorb (node child : Node) (checked : Bool) :
    (node.absorb child).check checked = (node.check checked).absorb child := by
  cases node with
  | leaf content => cases content <;> rfl
  | branch head children => cases head <;> rfl

/-- Marks may be put on a node before others go into it. -/
theorem checkAll_foldl_absorb (nodes : List Node) (top : Node) (marks : List Bool) :
    (nodes.foldl absorb top).checkAll marks = nodes.foldl absorb (top.checkAll marks) := by
  have hcheck (checked : Bool) (top : Node) :
      (nodes.foldl absorb top).check checked = nodes.foldl absorb (top.check checked) := by
    induction nodes generalizing top with
    | nil => rfl
    | cons node more ih => rw [List.foldl_cons, ih, check_absorb, List.foldl_cons]
  induction marks generalizing top with
  | nil => rfl
  | cons checked more ih =>
      rw [checkAll, List.foldl_cons, hcheck]
      exact ih (top.check checked)

theorem checkAll_append (node : Node) (first second : List Bool) :
    node.checkAll (first ++ second) = (node.checkAll first).checkAll second :=
  List.foldl_append

/-- Of the marks of an item the last one counts. -/
theorem checkAll_listItem (spread : Bool) (checked : Option Bool) (hint : Option String)
    (children : List Node) (marks : List Bool) :
    (Node.branch (.listItem spread checked hint) children).checkAll marks =
      .branch (.listItem spread (marks.getLast?.or checked) hint) children := by
  induction marks generalizing checked with
  | nil => rfl
  | cons mark more ih =>
      rw [checkAll, List.foldl_cons, List.getLast?_cons, Option.some_or]
      refine (ih (some mark)).trans ?_
      cases more.getLast? <;> rfl

/-- Task marks change no node but an item. -/
theorem checkAll_of_tag {node : Node} (h : node.tag ≠ "listItem") (marks : List Bool) :
    node.checkAll marks = node := by
  induction marks with
  | nil => rfl
  | cons checked more ih =>
      rw [checkAll, List.foldl_cons, check_of_tag h]
      exact ih

end Node

/-! ### What is in the nodes that open -/

/-- Whether a leaf takes up the texts of the nodes that go into it. -/
def Leaf.takesText : Leaf → Bool
  | .code _ _ | .html _ | .image _ _ _ => true
  | _ => false

theorem Node.exists_foldl_absorb_leaf {content : Leaf} (h : content.takesText = true)
    (nodes : List Node) : ∃ content' : Leaf, nodes.foldl absorb (.leaf content) = .leaf content' ∧
      leafText content' = leafText content ++ plainTexts nodes := by
  induction nodes generalizing content with
  | nil => exact ⟨content, rfl, by simp⟩
  | cons node more ih =>
      obtain ⟨next, hnext, htakes, htext⟩ : ∃ next : Leaf, (Node.leaf content).absorb node = .leaf next ∧
          next.takesText = true ∧ leafText next = leafText content ++ node.plainText := by
        cases content with
        | code | html | image => exact ⟨_, rfl, rfl, rfl⟩
        | _ => cases h
      obtain ⟨content', heq, htext'⟩ := ih htakes
      refine ⟨content', by rw [List.foldl_cons, hnext, heq], ?_⟩
      rw [htext', htext, plainTexts_cons, String.append_assoc]

namespace Markdown.Opening

/-- Whether what opens keeps the nodes that go into it, and not only their texts. -/
def holdsNodes : Opening → Bool
  | .code _ | .html | .image _ _ => false
  | _ => true

/-- What keeps nodes, an item apart, opens as an empty branch that has no value of its own. -/
theorem exists_node_of_holdsNodes {opening : Opening} (h : opening.holdsNodes = true)
    (hi : opening ≠ .item) : ∃ head, opening.node = .branch head [] ∧
      (Node.branch head []).tag ≠ "listItem" ∧ head.hasValue = false := by
  cases opening with
  | item => exact absurd rfl hi
  | code | html | image => cases h
  | extension kind => exact ⟨_, rfl, by cases kind <;> decide, rfl⟩
  | _ => exact ⟨_, rfl, by simp [Node.tag, Branch.tag, Container.tag], rfl⟩

/-- What keeps texts only opens as a leaf without text. -/
theorem exists_node_of_not_holdsNodes {opening : Opening} (h : opening.holdsNodes = false) :
    ∃ content : Leaf, opening.node = .leaf content ∧ content.takesText = true ∧
      Node.leafText content = "" := by
  cases opening with
  | code | html | image => exact ⟨_, rfl, rfl, rfl⟩
  | _ => cases h

theorem holding_item (marks : List Bool) (nodes : List Node) : Opening.item.holding marks nodes =
    .branch (.listItem false marks.getLast? none) (nodes.foldl pushChild []) := by
  rw [holding, node, Node.checkAll_listItem, Node.foldl_absorb_branch, Option.or_none]

theorem holding_of_node {opening : Opening} {head : Branch} (h : opening.node = .branch head [])
    (ht : (Node.branch head []).tag ≠ "listItem") (marks : List Bool) (nodes : List Node) :
    opening.holding marks nodes = .branch head (nodes.foldl pushChild []) := by
  rw [holding, h, Node.checkAll_of_tag ht, Node.foldl_absorb_branch]

theorem exists_holding_of_holdsNodes {opening : Opening} (h : opening.holdsNodes = true)
    (marks : List Bool) (nodes : List Node) : ∃ head : Branch,
      opening.holding marks nodes = .branch head (nodes.foldl pushChild []) ∧
        head.hasValue = false := by
  by_cases hitem : opening = .item
  · exact ⟨_, by rw [hitem, holding_item], rfl⟩
  · obtain ⟨head, hnode, htag, hvalue⟩ := exists_node_of_holdsNodes h hitem
    exact ⟨head, holding_of_node hnode htag marks nodes, hvalue⟩

theorem exists_holding_of_not_holdsNodes {opening : Opening} (h : opening.holdsNodes = false)
    (marks : List Bool) (nodes : List Node) : ∃ content : Leaf,
      opening.holding marks nodes = .leaf content ∧ Node.leafText content = Node.plainTexts nodes := by
  obtain ⟨content, hnode, htakes, hempty⟩ := exists_node_of_not_holdsNodes h
  obtain ⟨content', heq, htext⟩ := Node.exists_foldl_absorb_leaf htakes nodes
  have htag : (Node.leaf content).tag ≠ "listItem" := by
    cases content <;> simp [Node.tag, Leaf.tag]
  refine ⟨content', by rw [holding, hnode, Node.checkAll_of_tag htag, heq], ?_⟩
  rw [htext, hempty, String.empty_append]

end Markdown.Opening

/-! ### Taking events -/

namespace Markdown.EventTree

theorem marks_cons (tree : EventTree) (more : List EventTree) :
    marks (tree :: more) = tree.mark?.toList ++ marks more := by
  cases h : tree.mark? <;> simp [marks, h]

/-- A plain event checks the node that is open or adds one to it. -/
theorem take_of_isPlain {event : Event} (h : event.isPlain = true) (top : Node) (below : List Node) :
    OpenNodes.take ⟨top, below⟩ event =
      ⟨event.node?.toList.foldl Node.absorb (top.checkAll event.mark?.toList), below⟩ := by
  cases event with
  | start opening => cases h
  | close => cases h
  | _ => rfl

mutual

/-- A well nested part changes the innermost open node alone. -/
theorem foldl_take_tree : ∀ (tree : EventTree) (top : Node) (below : List Node),
    tree.events.foldl OpenNodes.take ⟨top, below⟩ =
      ⟨tree.nodes.foldl Node.absorb (top.checkAll tree.mark?.toList), below⟩
  | .single event plain, top, below => by
      rw [events, List.foldl_cons, take_of_isPlain plain]
      rfl
  | .nest opening inner, top, below => by
      rw [events, nodes]
      exact foldl_take_wrap (fun below => foldl_take_trees inner opening.node below) top below

/-- Well nested events leave open what was open before them, with the nodes that they add in it. -/
theorem foldl_take_trees : ∀ (trees : List EventTree) (top : Node) (below : List Node),
    (eventsList trees).foldl OpenNodes.take ⟨top, below⟩ =
      ⟨(nodesIn trees).foldl Node.absorb (top.checkAll (marks trees)), below⟩
  | [], top, below => rfl
  | tree :: more, top, below => by
      rw [eventsList, nodesIn, marks_cons, List.foldl_append, foldl_take_tree tree,
        foldl_take_trees more, List.foldl_append, Node.checkAll_foldl_absorb, Node.checkAll_append]

end

end Markdown.EventTree

namespace Node

open EventTree

/-- Well nested events build a root over the nodes that they add. -/
theorem ofEvents_eventsList (length : Nat) (trees : List EventTree) :
    ofEvents length (eventsList trees) =
      .branch (.container .root none (some ⟨0, length⟩)) ((nodesIn trees).foldl pushChild []) := by
  have hroot : (Node.branch (.container .root none (some ⟨0, length⟩)) []).tag ≠ "listItem" := by
    simp [tag, Branch.tag, Container.tag]
  rw [ofEvents]
  simp only [foldl_take_trees, checkAll_of_tag hroot, foldl_absorb_branch]
  rfl

/-- To close a node first makes no difference to what closing all of them makes. -/
theorem closeAll_close (state : OpenNodes) :
    OpenNodes.closeAll state.close.top state.close.below =
      OpenNodes.closeAll state.top state.below := by
  obtain ⟨top, below⟩ := state
  cases below <;> rfl

/-- Completing events changes nothing about what is built when all is closed at the end. -/
theorem closeAll_foldl_complete (events : List Event) (state : OpenNodes) :
    let complete := (Event.complete state.below.length events).foldl OpenNodes.take state
    let plain := events.foldl OpenNodes.take state
    OpenNodes.closeAll complete.top complete.below = OpenNodes.closeAll plain.top plain.below := by
  induction events generalizing state with
  | nil =>
      generalize hlength : state.below.length = depth
      -- the events are over: what is added closes, one by one, what closing all closes anyway
      induction depth generalizing state with
      | zero => rfl
      | succ depth ih =>
          have hclose : state.close.below.length = depth := by
            obtain ⟨top, below⟩ := state
            cases below with
            | nil => cases hlength
            | cons outer below => exact Nat.succ.inj hlength
          exact (ih state.close hclose).trans (closeAll_close state)
  | cons event more ih =>
      rcases event.opens_or_closes_or_isPlain with ⟨opening, rfl⟩ | rfl | hplain
      · exact ih (state.take (.start opening))
      · -- a close that closes nothing is left out, and changed nothing
        obtain ⟨top, below⟩ := state
        cases below with
        | nil => exact ih ⟨top, []⟩
        | cons outer below => exact ih (OpenNodes.close ⟨top, outer :: below⟩)
      · have hbelow : (state.take event).below = state.below := by
          rw [take_of_isPlain hplain]
        rw [Event.complete_cons_of_isPlain hplain, ← hbelow]
        exact ih (state.take event)

/-- Events that close nothing count for nothing, and what is left open at the end is closed. -/
theorem ofEvents_complete (length : Nat) (events : List Event) :
    ofEvents length (Event.complete 0 events) = ofEvents length events :=
  closeAll_foldl_complete events ⟨.branch (.container .root none (some ⟨0, length⟩)) [], []⟩

end Node

end DefinitionLists
