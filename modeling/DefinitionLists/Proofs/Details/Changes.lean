/-
Module: DefinitionLists.Proofs.Details.Changes
Purpose: Functions that change nothing of a node but what stands directly in it, if it has the name of
  details. Applied to every node of a tree, they change neither the text that an item opens with, nor
  which items hold nothing.
Main exports: Node.firstText_eq, Node.mapBottomUp_mapBottomUp, ChangesDetails,
  Node.mapBottomUp_of_not_details, Node.firstText_mapBottomUp, Node.mapFirstText_mapBottomUp,
  Node.isHollow_mapBottomUp, Node.firstText_without_mapBottomUp
-/
import DefinitionLists.Proofs.Details.ItemLines
import DefinitionLists.Proofs.HollowItems

namespace DefinitionLists

namespace Node

/-! ### The way to a first text -/

/-- The text of a text leaf. -/
def text? : Node → Option String
  | .text value => some value
  | _ => none

/-- The text that a paragraph opens with. -/
def openingText? (node : Node) : Option String :=
  if node.isContainer .paragraph then node.children.head?.bind text? else none

theorem exists_of_openingText {node : Node} {value : String} (h : node.openingText? = some value) :
    ∃ hint span inlines, node = .branch (.container .paragraph hint span) (.text value :: inlines) := by
  unfold openingText? at h
  split at h
  · next hparagraph =>
      obtain ⟨hint, span, inlines, rfl⟩ := eq_branch_of_isContainer hparagraph
      obtain ⟨first, hfirst, htext⟩ := Option.bind_eq_some_iff.1 h
      obtain ⟨more, rfl⟩ := List.head?_eq_some_iff.1 hfirst
      unfold text? at htext
      split at htext
      · obtain rfl := Option.some.inj htext
        exact ⟨hint, span, more, rfl⟩
      · cases htext
  · cases h

/-- An item opens with the text that its first child opens with, if that is a paragraph. -/
theorem firstText_eq (node : Node) :
    node.firstText? = if node.isListItem then node.children.head?.bind openingText? else none := by
  fun_cases firstText? node with
  | case1 => rfl
  | case2 node hnone =>
      split
      · next hitem =>
          refine (Option.eq_none_iff_forall_ne_some.2 fun value hvalue => ?_).symm
          obtain ⟨first, hfirst, hopening⟩ := Option.bind_eq_some_iff.1 hvalue
          obtain ⟨hint, span, inlines, rfl⟩ := exists_of_openingText hopening
          obtain ⟨blocks, hchildren⟩ := List.head?_eq_some_iff.1 hfirst
          obtain ⟨spread, checked, outer, children, rfl⟩ := eq_item_of_isListItem hitem
          obtain rfl : children = _ := hchildren
          exact hnone _ _ _ _ _ _ _ _ rfl
      · rfl

theorem not_isDetails_of_isContainer {node : Node} {kind : Container}
    (h : node.isContainer kind = true) (hk : kind ≠ .descriptionDetails) :
    node.isNamed .descriptionDetails = false := by
  obtain ⟨hint, span, children, rfl⟩ := eq_branch_of_isContainer h
  simpa [isNamed] using hk

theorem not_isDetails_of_isListItem {node : Node} (h : node.isListItem = true) :
    node.isNamed .descriptionDetails = false := by
  obtain ⟨spread, checked, hint, children, rfl⟩ := eq_item_of_isListItem h
  rfl

/-- Where there are details, there is more than items. -/
theorem isHollow_of_isDetails {head : Branch} (h : head.isNamed .descriptionDetails = true)
    (children : List Node) : (branch head children).isHollow = false := by
  refine Bool.eq_false_iff.2 fun hhollow => ?_
  have hitem := ((isHollow_branch head children).1 hhollow).1
  exact absurd (h.symm.trans (not_isDetails_of_isListItem hitem)) (by decide)

theorem not_isDetails_of_isList {node : Node} (h : node.isList = true) :
    node.isNamed .descriptionDetails = false := by
  obtain ⟨ordered, start, spread, hint, items, rfl⟩ := eq_list_of_isList h
  rfl

/-- The first node that stays is the first one that is not gone. -/
theorem head?_withoutAmong (gone : Node → Bool) (nodes : List Node) :
    (withoutAmong gone nodes).head? = (nodes.find? (fun node => !gone node)).map (without gone) := by
  rw [withoutAmong_eq, List.head?_map, List.head?_filter]

theorem children_without (gone : Node → Bool) (node : Node) :
    (node.without gone).children = withoutAmong gone node.children := by
  cases node <;> rfl

/-- What a paragraph opens with once nodes are gone. -/
theorem openingText_without (gone : Node → Bool) (node : Node) : (node.without gone).openingText? =
    if node.isContainer .paragraph then (node.children.find? (fun child => !gone child)).bind text?
    else none := by
  have hkind : (node.without gone).isContainer .paragraph = node.isContainer .paragraph := by
    cases node <;> rfl
  have htext : text? ∘ without gone = text? := by
    funext child
    cases child <;> rfl
  rw [openingText?, hkind, children_without, head?_withoutAmong, Option.bind_map, htext]

/-- What an item opens with once nodes are gone. -/
theorem firstText_without (gone : Node → Bool) (node : Node) : (node.without gone).firstText? =
    if node.isListItem then
      (node.children.find? (fun child => !gone child)).bind (openingText? ∘ without gone)
    else none := by
  have hitem : (node.without gone).isListItem = node.isListItem := by
    cases node with
    | leaf content => rfl
    | branch head children => cases head <;> rfl
  rw [firstText_eq, hitem, children_without, head?_withoutAmong, Option.bind_map]

end Node

/-! ### One function after another -/

namespace Node

/-- The node with its children changed. -/
def mapChildren (f : Node → Node) : Node → Node
  | .leaf content => .leaf content
  | .branch head children => .branch head (children.map f)

theorem mapBottomUp_eq (f : Node → Node) (node : Node) :
    node.mapBottomUp f = f (node.mapChildren (mapBottomUp f)) := by
  cases node with
  | leaf content => rfl
  | branch head children => rw [mapBottomUp, mapBottomUpList_eq_map, mapChildren]

/-- Two functions are applied to all nodes one after another, or at once, if the one that comes first
does not mind what the other makes of children. -/
theorem mapBottomUp_mapBottomUp {f g : Node → Node}
    (h : ∀ node, (g node).mapChildren (mapBottomUp f) = g (node.mapChildren (mapBottomUp f)))
    (tree : Node) : (tree.mapBottomUp g).mapBottomUp f = tree.mapBottomUp (f ∘ g) := by
  rw [mapBottomUp_eq g, mapBottomUp_eq f, h, mapBottomUp_eq (f ∘ g), Function.comp_apply]
  cases tree with
  | leaf content => rfl
  | branch head children =>
      simp only [mapChildren, List.map_map]
      refine congrArg (fun nodes => f (g (branch head nodes))) (List.map_congr_left fun child hc => ?_)
      exact mapBottomUp_mapBottomUp h child

end Node

/-! ### Changes in details -/

/-- Whether a function on nodes changes nothing but the children of details. What goes by their name
counts as details too. -/
structure ChangesDetails (change : Node → Node) : Prop where
  leaf : ∀ content, change (.leaf content) = .leaf content
  branch : ∀ head children, ∃ children', change (.branch head children) = .branch head children'
  other : ∀ {head : Branch}, head.isNamed .descriptionDetails = false →
    ∀ children, change (.branch head children) = .branch head children

theorem ChangesDetails.of_children {change : Node → Node} (among : List Node → List Node)
    (hleaf : ∀ content, change (.leaf content) = .leaf content)
    (hbranch : ∀ head children, change (.branch head children) =
      if head.isNamed .descriptionDetails then .branch head (among children)
      else .branch head children) : ChangesDetails change where
  leaf := hleaf
  branch head children := by
    rw [hbranch]
    split
    · exact ⟨among children, rfl⟩
    · exact ⟨children, rfl⟩
  other hd children := by simp [hbranch, hd]

namespace Node

variable {change : Node → Node} (h : ChangesDetails change)

include h

theorem mapBottomUp_leaf (content : Leaf) :
    (Node.leaf content).mapBottomUp change = .leaf content :=
  h.leaf content

theorem mapBottomUp_of_not_details {head : Branch}
    (hd : head.isNamed .descriptionDetails = false) (children : List Node) :
    (Node.branch head children).mapBottomUp change =
      .branch head (children.map (mapBottomUp change)) := by
  rw [mapBottomUp, mapBottomUpList_eq_map, h.other hd]

theorem mapBottomUp_list (ordered : Bool) (start : Option UInt64) (spread : Bool)
    (hint : Option String) (items : List Node) :
    (Node.branch (.list ordered start spread hint) items).mapBottomUp change =
      .branch (.list ordered start spread hint) (items.map (mapBottomUp change)) :=
  mapBottomUp_of_not_details h rfl items

/-- Nothing changes that can be told of a node without its children. -/
theorem eq_of_ignores_children {α : Type} {read : Node → α}
    (hr : ∀ head children children', read (.branch head children) = read (.branch head children'))
    (node : Node) : read (node.mapBottomUp change) = read node := by
  cases node with
  | leaf content => rw [mapBottomUp_leaf h]
  | branch head children =>
      obtain ⟨children', heq⟩ := h.branch head (mapBottomUpList change children)
      rw [mapBottomUp, heq]
      exact hr head children' children

theorem isList_mapBottomUp (node : Node) : (node.mapBottomUp change).isList = node.isList :=
  eq_of_ignores_children h (fun head _ _ => by cases head <;> rfl) node

theorem isListItem_mapBottomUp (node : Node) :
    (node.mapBottomUp change).isListItem = node.isListItem :=
  eq_of_ignores_children h (fun head _ _ => by cases head <;> rfl) node

theorem isContainer_mapBottomUp (kind : Container) (node : Node) :
    (node.mapBottomUp change).isContainer kind = node.isContainer kind :=
  @eq_of_ignores_children change h Bool (isContainer kind) (fun _ _ _ => rfl) node

theorem isNamed_mapBottomUp (kind : Container) (node : Node) :
    (node.mapBottomUp change).isNamed kind = node.isNamed kind :=
  @eq_of_ignores_children change h Bool (isNamed kind) (fun _ _ _ => rfl) node

theorem text_mapBottomUp (node : Node) : (node.mapBottomUp change).text? = node.text? :=
  eq_of_ignores_children h (fun _ _ _ => rfl) node

theorem children_mapBottomUp {node : Node} (hd : node.isNamed .descriptionDetails = false) :
    (node.mapBottomUp change).children = node.children.map (mapBottomUp change) := by
  cases node with
  | leaf content =>
      rw [mapBottomUp_leaf h]
      rfl
  | branch head children =>
      rw [mapBottomUp_of_not_details h hd]
      rfl

/-! ### First texts -/

/-- A paragraph and its text are no details, so that the text stands where it was. -/
theorem openingText_mapBottomUp (node : Node) :
    (node.mapBottomUp change).openingText? = node.openingText? := by
  rw [openingText?, openingText?, isContainer_mapBottomUp h]
  split
  · next hparagraph =>
      rw [children_mapBottomUp h (not_isDetails_of_isContainer hparagraph (by decide)), List.head?_map,
        Option.bind_map]
      exact congrArg _ (funext (text_mapBottomUp h))
  · rfl

/-- The way to the text that an item opens with leads through no details. -/
theorem firstText_mapBottomUp (node : Node) :
    (node.mapBottomUp change).firstText? = node.firstText? := by
  rw [firstText_eq, firstText_eq, isListItem_mapBottomUp h]
  split
  · next hitem =>
      rw [children_mapBottomUp h (not_isDetails_of_isListItem hitem), List.head?_map, Option.bind_map]
      exact congrArg _ (funext (openingText_mapBottomUp h))
  · rfl

theorem mapFirstText_mapBottomUp (f : String → String) (node : Node) :
    (node.mapBottomUp change).mapFirstText f = (node.mapFirstText f).mapBottomUp change := by
  cases htext : node.firstText? with
  | none =>
      have hmapped := (firstText_mapBottomUp h node).trans htext
      rw [mapFirstText_of_none htext, mapFirstText_of_none hmapped]
  | some text =>
      obtain ⟨spread, checked, hint, inner, span, inlines, blocks, rfl⟩ := exists_of_firstText htext
      have hitem : (Branch.listItem spread checked hint).isNamed .descriptionDetails = false := rfl
      have hparagraph : (Branch.container .paragraph inner span).isNamed .descriptionDetails = false :=
          rfl
      simp only [mapFirstText, mapBottomUp_of_not_details h hitem,
        mapBottomUp_of_not_details h hparagraph, mapBottomUp_leaf h, List.map_cons]

theorem map_mapFirstText_mapBottomUp (f : String → String) (items : List Node) :
    (items.map (mapFirstText f)).map (mapBottomUp change) =
      (items.map (mapBottomUp change)).map (mapFirstText f) := by
  rw [List.map_map, List.map_map]
  exact List.map_congr_left fun item _ => (mapFirstText_mapBottomUp h f item).symm

/-! ### Items that hold nothing -/

theorem isHollow_mapBottomUp (node : Node) :
    (node.mapBottomUp change).isHollow = node.isHollow := by
  cases node with
  | leaf content => rw [mapBottomUp_leaf h]
  | branch head children =>
      cases hd : head.isNamed .descriptionDetails with
      | true =>
          obtain ⟨children', heq⟩ := h.branch head (mapBottomUpList change children)
          rw [mapBottomUp, heq, isHollow_of_isDetails hd, isHollow_of_isDetails hd]
      | false =>
          rw [mapBottomUp_of_not_details h hd, Bool.eq_iff_iff, isHollow_branch, isHollow_branch,
            List.forall_mem_map]
          have hitem : (Node.branch head (children.map (mapBottomUp change))).isListItem =
              (Node.branch head children).isListItem := by
            cases head <;> rfl
          rw [hitem]
          refine and_congr_right fun _ => forall₂_congr fun child hchild => ?_
          rw [isHollow_mapBottomUp child]

/-- The first node that holds anything is the same before and after such a change. -/
theorem find?_map_mapBottomUp (nodes : List Node) :
    (nodes.map (mapBottomUp change)).find? (fun node => !node.isHollow) =
      (nodes.find? (fun node => !node.isHollow)).map (mapBottomUp change) := by
  rw [List.find?_map]
  refine congrArg (fun test => Option.map _ (nodes.find? test)) (funext fun node => ?_)
  exact congrArg _ (isHollow_mapBottomUp h node)

/-- What the text of a node begins with once hollow items are gone is not changed either. -/
theorem openingText_without_mapBottomUp (node : Node) :
    ((node.mapBottomUp change).without isHollow).openingText? =
      (node.without isHollow).openingText? := by
  rw [openingText_without, openingText_without, isContainer_mapBottomUp h]
  split
  · next hparagraph =>
      rw [children_mapBottomUp h (not_isDetails_of_isContainer hparagraph (by decide)),
        find?_map_mapBottomUp h, Option.bind_map]
      exact congrArg _ (funext (text_mapBottomUp h))
  · rfl

/-- Nor does the way lead through details to a text that only hollow items stand before. -/
theorem firstText_without_mapBottomUp (node : Node) :
    ((node.mapBottomUp change).without isHollow).firstText? = (node.without isHollow).firstText? := by
  rw [firstText_without, firstText_without, isListItem_mapBottomUp h]
  split
  · next hitem =>
      rw [children_mapBottomUp h (not_isDetails_of_isListItem hitem), find?_map_mapBottomUp h,
        Option.bind_map]
      exact congrArg _ (funext (openingText_without_mapBottomUp h))
  · rfl

end Node

end DefinitionLists
