/-
Module: DefinitionLists.Proofs.Visit.Calls
Purpose: How often a visit that changes siblings calls its visitor: once for each node below the tree that
  it leaves, in pre-order, for all visits by which definition lists are repaired.
Main exports: Node.placesBelow, CalledFor, Course.calledFor, Node.VisitTakes, Shrinks.visitTakes,
  Node.VisitedOnce, Shrinks.visitedOnce, Node.repairs_visit_once
-/
import Mathlib.Data.List.Forall2
import DefinitionLists.Proofs.Details.ListKinds
import DefinitionLists.Proofs.Neighbours.Orphans
import DefinitionLists.Proofs.Neighbours.SiblingLists

namespace DefinitionLists

open Node (preorderList sizeList tag)

/-! ### The places in a tree -/

mutual

/-- The places of all nodes below the node, each before those below it. -/
def Node.placesBelow : Node → List Place
  | .leaf _ => []
  | .branch head children => placesAmong head [] children

/-- The places of the nodes and of all below them, each before those below it. `before` holds the
siblings that come before the nodes, the nearest first. -/
def Node.placesAmong (parent : Branch) (before : List Node) : List Node → List Place
  | [] => []
  | node :: after => ⟨parent, before, node :: after⟩ ::
      (placesBelow node ++ placesAmong parent (node :: before) after)

end

open Node (placesAmong placesBelow)

mutual

/-- At the places in a tree stand the nodes below it, each once and in pre-order. -/
theorem Node.map_head?_placesBelow : ∀ node : Node,
    node.placesBelow.map (·.here.head?) = (preorderList node.children).map some
  | .leaf _ => rfl
  | .branch head children => by
      rw [placesBelow, children_branch]
      exact map_head?_placesAmong head [] children

theorem Node.map_head?_placesAmong (parent : Branch) (before : List Node) : ∀ nodes : List Node,
    (placesAmong parent before nodes).map (·.here.head?) = (preorderList nodes).map some
  | [] => rfl
  | node :: after => by
      rw [placesAmong, List.map_cons, List.map_append, map_head?_placesBelow node,
        map_head?_placesAmong parent (node :: before) after, preorderList, preorder_eq_cons,
        List.map_append, List.map_cons]
      rfl

end

/-- There are as many places in a tree as nodes, itself apart. -/
theorem Node.length_placesBelow (node : Node) : node.placesBelow.length + 1 = node.size := by
  have hlength := congrArg List.length node.map_head?_placesBelow
  rw [List.length_map, List.length_map, length_preorderList] at hlength
  rw [hlength]
  cases node with
  | leaf content => rfl
  | branch head children => rw [children_branch, size, Nat.add_comm]

/-! ### The calls of a visitor -/

/-- A call of the visitor is the one for the node at a place in the tree that the visit leaves: it comes
where this node stands, under the same parent and after the same siblings, all visited, and is for a node
of the same kind, of which it makes this node but for what is below it. -/
structure CalledFor (change : Place → List Node) (called left : Place) : Prop where
  parent : called.parent = left.parent
  before : called.before = left.before
  tag : called.here.head?.map Node.tag = left.here.head?.map Node.tag
  node : (change called).head?.map Node.bare = left.here.head?.map Node.bare

/-- The places that a course comes to are those of the nodes that it leaves, one by one. -/
theorem Course.calledFor {change : Place → List Node}
    (hkind : ∀ place, (change place).head?.map tag = place.here.head?.map tag) {place : Place}
    {places : List Place} {result : List Node} (h : Course change place places result) :
    List.Forall₂ (CalledFor change) places (placesAmong place.parent place.before result) := by
  induction h with
  | done => exact .nil
  | @leaf parent before rest after result node content places step _ ih =>
      have htag := hkind ⟨parent, before, node :: rest⟩
      rw [step] at htag
      refine .cons ⟨rfl, rfl, htag.symm, by rw [step]; rfl⟩ ?_
      rwa [placesBelow, List.nil_append]
  | @branch parent head before rest children inside after result node below places step _ _ ihi ihl =>
      have htag := hkind ⟨parent, before, node :: rest⟩
      rw [step] at htag
      refine .cons ⟨rfl, rfl, htag.symm, by rw [step]; rfl⟩ ?_
      rw [placesBelow]
      exact List.rel_append ihi ihl

/-- The course of a visit of all that is below a tree, without any bound: from the tree, over the places
that it comes to, to the tree that it leaves. -/
inductive Node.VisitTakes (change : Place → List Node) : Node → List Place → Node → Prop where
  | leaf (content : Leaf) : VisitTakes change (.leaf content) [] (.leaf content)
  | branch {head : Branch} {children inside : List Node} {places : List Place}
      (course : Course change ⟨head, [], children⟩ places inside) :
      VisitTakes change (.branch head children) places (.branch head inside)

namespace Node.VisitTakes

variable {change : Place → List Node} {tree result : Node} {places : List Place}

/-- There is no other course from the same tree. -/
theorem deterministic {places' : List Place} {result' : Node}
    (h : tree.VisitTakes change places result) (h' : tree.VisitTakes change places' result') :
    places = places' ∧ result = result' := by
  cases h with
  | leaf content =>
      cases h'
      exact ⟨rfl, rfl⟩
  | branch course =>
      cases h' with
      | branch course' =>
          obtain ⟨rfl, rfl⟩ := course.deterministic course'
          exact ⟨rfl, rfl⟩

/-- If the visitor keeps the kind of the node at its place, each call is for one node of the tree that
is left. -/
theorem calledFor (hkind : ∀ place, (change place).head?.map tag = place.here.head?.map tag)
    (h : tree.VisitTakes change places result) :
    List.Forall₂ (CalledFor change) places result.placesBelow := by
  cases h with
  | leaf content => exact .nil
  | branch course =>
      rw [placesBelow]
      exact course.calledFor hkind

end Node.VisitTakes

/-- The bound of a visit is not what ends it, if each change leaves less to visit than there was. -/
theorem Shrinks.visitTakes {change : Place → List Node} {measure : List Node → Nat}
    (h : Shrinks change measure) (hm : ∀ nodes, measure nodes ≤ 2 * sizeList nodes) (tree : Node) :
    tree.VisitTakes change (tree.placesVisited change) (tree.edit change) := by
  cases tree with
  | leaf content => exact .leaf content
  | branch head children =>
      have hcourse := h.course_edit hm head children
      rw [Node.edit_branch] at hcourse ⊢
      exact .branch hcourse

/-- A visit of a tree comes to its end without any bound, and calls its visitor once for each node below
the tree that it leaves, in pre-order. -/
structure Node.VisitedOnce (change : Place → List Node) (tree : Node) : Prop where
  ends : ∀ places result, tree.VisitTakes change places result ↔
    places = tree.placesVisited change ∧ result = tree.edit change
  calls : List.Forall₂ (CalledFor change) (tree.placesVisited change) (tree.edit change).placesBelow
  count : (tree.placesVisited change).length + 1 = (tree.edit change).size

/-- Changes that leave less to visit than there was, and the kind of the node at their place, make a visit
of this sort. -/
theorem Shrinks.visitedOnce {change : Place → List Node} {measure : List Node → Nat}
    (h : Shrinks change measure) (hm : ∀ nodes, measure nodes ≤ 2 * sizeList nodes)
    (hkind : ∀ place, (change place).head?.map tag = place.here.head?.map tag) (tree : Node) :
    tree.VisitedOnce change := by
  have htakes := h.visitTakes hm tree
  have hcalls := htakes.calledFor hkind
  refine ⟨fun places result => ⟨fun htakes' => htakes'.deterministic htakes, ?_⟩, hcalls, ?_⟩
  · rintro ⟨rfl, rfl⟩
    exact htakes
  · rw [hcalls.length_eq, Node.length_placesBelow]

/-! ### The visits that repair definition lists -/

theorem map_tag_head?_absorbSiblingList (here : List Node) :
    (absorbSiblingList here).head?.map tag = here.head?.map tag := by
  have hbare := congrArg (Option.map tag) (takes_absorbSiblingList here).map_bare_head?
  rw [Option.map_map, Option.map_map] at hbare
  simpa only [Function.comp_def, Node.tag_bare] using hbare

theorem TakesRun.map_tag_head? {here changed : List Node} (h : TakesRun here changed) :
    changed.head?.map tag = here.head?.map tag := by
  cases h <;> rfl

theorem map_tag_head?_absorbOrphanRun (here : List Node) :
    (absorbOrphanRun here).head?.map tag = here.head?.map tag := by
  cases here with
  | nil => rfl
  | cons node rest => exact (takesRun_absorbOrphanRun node rest).map_tag_head?

theorem map_tag_head?_inDetails {rewrite : Bool → Node → Node}
    (h : ∀ opens node, (rewrite opens node).tag = node.tag) (place : Place) :
    (inDetails rewrite place).head?.map tag = place.here.head?.map tag := by
  unfold inDetails
  split
  · next node after heq =>
      rw [heq]
      split
      · exact congrArg some (h _ node)
      · rfl
  · next heq => rw [heq]

/-- A node in details that is not made larger leaves less to visit below it and after it. -/
theorem RewritesLists.shrinks {rewrite : Bool → Node → Node} (h : RewritesLists rewrite) :
    Shrinks (inDetails rewrite) sizeList := by
  intro parent before node rest
  obtain ⟨first, hfirst, hsize⟩ : ∃ first,
      inDetails rewrite ⟨parent, before, node :: rest⟩ = first :: rest ∧ first.size ≤ node.size := by
    unfold inDetails
    simp only
    split
    · exact ⟨_, rfl, h.size_le _ node⟩
    · exact ⟨node, rfl, Nat.le_refl _⟩
  have hpositive := node.size_pos
  have hchildren : sizeList first.children < first.size := by
    cases first with
    | leaf content => exact Nat.zero_lt_one
    | branch head children =>
        rw [Node.children_branch, Node.size]
        omega
  refine ⟨first, rest, hfirst, ?_, ?_⟩
  · rw [sizeList]
    omega
  · rw [sizeList]
    omega

theorem tag_resolveKind (node : Node) : (resolveKind node).tag = node.tag := by
  unfold resolveKind
  split <;> rfl

theorem tag_cleanList (seeded : Bool) (node : Node) : (cleanList seeded node).tag = node.tag := by
  unfold cleanList
  split <;> rfl

/-- All visits that repair definition lists come to their ends and call their visitors once for each node
below the trees that they leave, in pre-order: the one that moves lists into details before it, the one
that wraps runs of lists and paragraphs in new details, the one that settles the kinds of lists, and the
one that cleans lists before empty items are removed. -/
theorem Node.repairs_visit_once (seeded : Bool) (tree : Node) :
    (tree.absorbSiblingLists = tree.edit (fun place => absorbSiblingList place.here) ∧
      tree.VisitedOnce fun place => absorbSiblingList place.here) ∧
    (tree.absorbOrphans = tree.edit (fun place => absorbOrphanRun place.here) ∧
      tree.VisitedOnce fun place => absorbOrphanRun place.here) ∧
    (tree.resolveKinds = tree.edit (inDetails fun _ => resolveKind) ∧
      tree.VisitedOnce (inDetails fun _ => resolveKind)) ∧
    (tree.cleanUp seeded =
        (removeEmptyItems (tree.edit (inDetails fun opens => cleanList (seeded && opens)))).1 ∧
      tree.VisitedOnce (inDetails fun opens => cleanList (seeded && opens))) := by
  have hsize (nodes : List Node) : sizeList nodes ≤ 2 * sizeList nodes := by omega
  refine ⟨⟨rfl, ?_⟩, ⟨rfl, ?_⟩, ⟨rfl, ?_⟩, ⟨Node.cleanUp_eq seeded tree, ?_⟩⟩
  · exact shrinks_absorbSiblingList.visitedOnce hsize
      (fun place => map_tag_head?_absorbSiblingList place.here) tree
  · exact shrinks_absorbOrphanRun.visitedOnce runLoad_le
      (fun place => map_tag_head?_absorbOrphanRun place.here) tree
  · exact rewritesLists_resolveKind.shrinks.visitedOnce hsize
      (map_tag_head?_inDetails fun _ => tag_resolveKind) tree
  · exact (rewritesLists_cleanList seeded).shrinks.visitedOnce hsize
      (map_tag_head?_inDetails fun _ => tag_cleanList _) tree

/-- The new details are visited, and in them all that was moved there. -/
example : ((Node.branch (.container .root none none)
      [.descriptionList [], .paragraph [.text "a"], .bulletList [], .leaf .thematicBreak]).placesVisited
        fun place => absorbOrphanRun place.here).map
      (fun place => (absorbOrphanRun place.here).head?.map tag) =
    [some "descriptionlist", some "descriptiondetails", some "paragraph", some "text", some "list",
      some "thematicBreak"] := by
  decide +kernel

end DefinitionLists
