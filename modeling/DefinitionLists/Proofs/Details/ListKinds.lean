/-
Module: DefinitionLists.Proofs.Details.ListKinds
Purpose: What settling the kinds of lists makes of a tree, place by place: a list in details is numbered
  if it was, or if a text of its items says so; these texts lose their markers; nothing else changes.
Main exports: Node.at?, Node.IsListInDetails, Node.IsFirstTextInDetails, resolveKinds_eq_mapBottomUp,
  resolveKinds_settles_lists
-/
import DefinitionLists.Proofs.Cleaning.Sweep
import DefinitionLists.Proofs.Markers

namespace DefinitionLists

open Node (mapBottomUp)

/-! ### Places in a tree -/

namespace Node

/-- The node that a path leads to. Each step of the path is the index of a child. -/
def at? (tree : Node) : List Nat → Option Node
  | [] => some tree
  | index :: path => tree.children[index]?.bind fun child => child.at? path

@[simp] theorem at?_nil (tree : Node) : tree.at? [] = some tree := rfl

theorem at?_cons (tree : Node) (index : Nat) (path : List Nat) :
    tree.at? (index :: path) = tree.children[index]?.bind fun child => child.at? path :=
  rfl

theorem at?_cons_of_child {tree child : Node} {index : Nat} (h : tree.children[index]? = some child)
    (path : List Nat) : tree.at? (index :: path) = child.at? path := by
  rw [at?_cons, h, Option.bind_some]

/-- A path goes on from where another one ends. -/
theorem at?_append (tree : Node) (path path' : List Nat) :
    tree.at? (path ++ path') = (tree.at? path).bind fun inner => inner.at? path' := by
  induction path generalizing tree with
  | nil => rfl
  | cons index path ih =>
      rw [List.cons_append, at?_cons, at?_cons]
      cases tree.children[index]? with
      | none => rfl
      | some child => exact ih child

/-- Whether the path leads to that list, and the list stands directly in a node with the name of details.
-/
def IsListInDetails (tree : Node) (path : List Nat) (list : Node) : Prop :=
  list.isList = true ∧ ∃ outer index details, path = outer ++ [index] ∧
    tree.at? outer = some details ∧ details.isNamed .descriptionDetails = true ∧
    details.children[index]? = some list

/-- Whether the path leads to the text that an item of a list in details opens with. -/
def IsFirstTextInDetails (tree : Node) (path : List Nat) : Prop :=
  ∃ outer index list item, path = outer ++ [index, 0, 0] ∧ tree.IsListInDetails outer list ∧
    list.children[index]? = some item ∧ item.firstText? ≠ none

/-- What is below a child is below its parent. -/
theorem IsListInDetails.cons {tree child list : Node} {index : Nat} {path : List Nat}
    (hc : tree.children[index]? = some child) (h : child.IsListInDetails path list) :
    tree.IsListInDetails (index :: path) list := by
  obtain ⟨hlist, outer, last, details, rfl, hat, hdetails, hchild⟩ := h
  exact ⟨hlist, index :: outer, last, details, rfl, (at?_cons_of_child hc outer).trans hat, hdetails,
    hchild⟩

theorem IsFirstTextInDetails.cons {tree child : Node} {index : Nat} {path : List Nat}
    (hc : tree.children[index]? = some child) (h : child.IsFirstTextInDetails path) :
    tree.IsFirstTextInDetails (index :: path) := by
  obtain ⟨outer, last, list, item, rfl, hlist, hitem, htext⟩ := h
  exact ⟨index :: outer, last, list, item, rfl, hlist.cons hc, hitem, htext⟩

/-- Changing the text that an item opens with changes nothing elsewhere in it. -/
theorem map_bare_at?_mapFirstText (f : String → String) (item : Node) {path : List Nat}
    (h : path = [0, 0] → item.firstText? = none) :
    ((item.mapFirstText f).at? path).map bare = (item.at? path).map bare := by
  cases htext : item.firstText? with
  | none => rw [mapFirstText_of_none htext]
  | some text =>
      obtain ⟨spread, checked, hint, inner, span, inlines, blocks, rfl⟩ := exists_of_firstText htext
      match path with
      | [] | [0] | (_ + 1) :: _ | 0 :: (_ + 1) :: _ | 0 :: 0 :: _ :: _ => rfl
      | [0, 0] => cases htext.symm.trans (h rfl)

/-- Nor does it change what is at a place where details stand. -/
theorem at?_mapFirstText_of_details (f : String → String) (item : Node) {path : List Nat}
    {details : Node} (h : item.at? path = some details)
    (hd : details.isNamed .descriptionDetails = true) :
    (item.mapFirstText f).at? path = some details := by
  cases htext : item.firstText? with
  | none => rwa [mapFirstText_of_none htext]
  | some text =>
      obtain ⟨spread, checked, hint, inner, span, inlines, blocks, rfl⟩ := exists_of_firstText htext
      match path with
      | [] | [0] | [0, 0] =>
          cases h
          cases hd
      | (_ + 1) :: _ | 0 :: (_ + 1) :: _ => exact h
      | 0 :: 0 :: _ :: _ => cases h

/-- The text that was changed is still the one that the item opens with. -/
theorem mapFirstText_mapFirstText (f g : String → String) (node : Node) :
    (node.mapFirstText f).mapFirstText g = node.mapFirstText (g ∘ f) := by
  cases htext : node.firstText? with
  | none => rw [mapFirstText_of_none htext, mapFirstText_of_none htext, mapFirstText_of_none htext]
  | some text =>
      obtain ⟨spread, checked, hint, inner, span, inlines, blocks, rfl⟩ := exists_of_firstText htext
      rfl

end Node

/-! ### One list -/

/-- The text without the markers that it starts with. -/
def withoutMarkers (text : String) : String := String.ofList (stripMarkers .any text.toList)

/-- Whether the text of an item numbers its list. -/
def numbersList (item : Node) : Bool := item.firstText?.any fun text => isOrdinalItem text.toList

theorem resolveKind_list (ordered : Bool) (start : Option UInt64) (spread : Bool)
    (hint : Option String) (items : List Node) :
    resolveKind (.branch (.list ordered start spread hint) items) =
      .branch (.list (ordered || items.any numbersList) start spread hint)
        (items.map (Node.mapFirstText withoutMarkers)) :=
  rfl

/-- The reader of markers finds a number exactly where the text opens with one. -/
theorem numbersList_iff {item : Node} : numbersList item = true ↔
    ∃ text, item.firstText? = some text ∧ OpensWithNumber text.toList := by
  simp only [numbersList, Option.any_eq_true, isOrdinalItem_iff]

/-- A text without markers is no numbered item. -/
theorem numbersList_mapFirstText (item : Node) :
    numbersList (item.mapFirstText withoutMarkers) = false := by
  rw [numbersList, Node.firstText_mapFirstText, Option.any_map]
  cases item.firstText? with
  | none => rfl
  | some text =>
      rw [Option.any_some, withoutMarkers, String.toList_ofList]
      exact isOrdinalItem_stripMarkers text.toList

/-- Markers are taken off until none is left. -/
theorem withoutMarkers_withoutMarkers (text : String) :
    withoutMarkers (withoutMarkers text) = withoutMarkers text := by
  rw [withoutMarkers, withoutMarkers, String.toList_ofList, stripMarkers_stripMarkers]

/-- A list whose texts lost their markers is numbered by none of them. -/
theorem resolveKind_resolveKind (node : Node) : resolveKind (resolveKind node) = resolveKind node := by
  cases hlist : node.isList with
  | false => rw [resolveKind_of_isList hlist, resolveKind_of_isList hlist]
  | true =>
      obtain ⟨ordered, start, spread, hint, items, rfl⟩ := Node.eq_list_of_isList hlist
      have hnumbers : (items.map (Node.mapFirstText withoutMarkers)).any numbersList = false := by
        rw [List.any_map, List.any_eq_false]
        intro item _
        rw [Function.comp_apply, numbersList_mapFirstText]
        exact Bool.false_ne_true
      have hitems : (items.map (Node.mapFirstText withoutMarkers)).map
          (Node.mapFirstText withoutMarkers) = items.map (Node.mapFirstText withoutMarkers) := by
        rw [List.map_map]
        refine List.map_congr_left fun item _ => ?_
        rw [Function.comp_apply, Node.mapFirstText_mapFirstText]
        exact congrArg (Node.mapFirstText · item) (funext withoutMarkers_withoutMarkers)
      rw [resolveKind_list, resolveKind_list, hnumbers, hitems, Bool.or_false]

theorem size_resolveKind (node : Node) : (resolveKind node).size = node.size := by
  cases hlist : node.isList with
  | false => rw [resolveKind_of_isList hlist]
  | true =>
      obtain ⟨ordered, start, spread, hint, items, rfl⟩ := Node.eq_list_of_isList hlist
      rw [resolveKind_list, Node.size, Node.size, Node.sizeList_map_mapFirstText]

/-- The kind of a list is the same before and after a change inside of details in its items. -/
theorem resolveKind_mapBottomUp {change : Node → Node} (h : ChangesDetails change) (node : Node) :
    (resolveKind node).mapBottomUp change = resolveKind (node.mapBottomUp change) := by
  cases hlist : node.isList with
  | false =>
      have hmapped := (Node.isList_mapBottomUp h node).trans hlist
      rw [resolveKind_of_isList hlist, resolveKind_of_isList hmapped]
  | true =>
      obtain ⟨ordered, start, spread, hint, items, rfl⟩ := Node.eq_list_of_isList hlist
      have hnumbers : numbersList ∘ mapBottomUp change = numbersList := by
        funext item
        rw [Function.comp_apply, numbersList, Node.firstText_mapBottomUp h, numbersList]
      rw [Node.mapBottomUp_list h, resolveKind_list, resolveKind_list, Node.mapBottomUp_list h,
        Node.map_mapFirstText_mapBottomUp h, List.any_map, hnumbers]

/-! ### All lists -/

/-- Settling a list changes the texts that its items open with, and these are not in details of their
own. -/
theorem rewritesLists_resolveKind : RewritesLists fun _ => resolveKind where
  isList _ := isList_resolveKind
  size_le _ node := (size_resolveKind node).le
  comm _ := resolveKind_mapBottomUp (changesDetails_rewritePart _)

/-- The lists in all details are settled from the inside out. -/
theorem resolveKinds_eq_mapBottomUp (tree : Node) :
    tree.resolveKinds = tree.mapBottomUp (rewritePart fun _ => resolveKind) :=
  edit_inDetails rewritesLists_resolveKind tree

theorem resolveKinds_resolveKinds (tree : Node) :
    tree.resolveKinds.resolveKinds = tree.resolveKinds := by
  rw [resolveKinds_eq_mapBottomUp, resolveKinds_eq_mapBottomUp,
    mapBottomUp_rewritePart_rewritePart rewritesLists_resolveKind.isList rewritesLists_resolveKind.comm]
  exact congrArg (fun rewrite => tree.mapBottomUp (rewritePart rewrite))
    (funext₂ fun _ => resolveKind_resolveKind)

/-- Below an item no list in details is its first text. -/
theorem firstText_resolveKinds (node : Node) : node.resolveKinds.firstText? = node.firstText? := by
  rw [resolveKinds_eq_mapBottomUp, Node.firstText_mapBottomUp (changesDetails_rewritePart _)]

theorem isList_resolveKinds (node : Node) : node.resolveKinds.isList = node.isList := by
  rw [resolveKinds_eq_mapBottomUp, Node.isList_mapBottomUp (changesDetails_rewritePart _)]

theorem bare_resolveKinds (node : Node) : node.resolveKinds.bare = node.bare := by
  rw [resolveKinds_eq_mapBottomUp]
  exact Node.eq_of_ignores_children (changesDetails_rewritePart _) (fun _ _ _ => rfl) node

/-- What becomes of a node, told from whether it stands in details. -/
def settled (inDetails : Bool) (node : Node) : Node :=
  if inDetails then resolveKind node.resolveKinds else node.resolveKinds

/-- The children of details settle as lists do there, and all others settle inside only. -/
theorem children_resolveKinds (tree : Node) : tree.resolveKinds.children =
    tree.children.map (settled (tree.isNamed .descriptionDetails)) := by
  cases tree with
  | leaf content => rfl
  | branch head children =>
      rw [resolveKinds_eq_mapBottomUp, mapBottomUp_rewritePart]
      refine List.map_congr_left fun child _ => ?_
      rw [settled, resolveKinds_eq_mapBottomUp]
      rfl

theorem settled_of_not_isList {node : Node} (h : node.isList = false) (inDetails : Bool) :
    settled inDetails node = node.resolveKinds := by
  rw [settled, resolveKind_of_isList ((isList_resolveKinds node).trans h), ite_self]

theorem resolveKinds_list (ordered : Bool) (start : Option UInt64) (spread : Bool)
    (hint : Option String) (items : List Node) :
    (Node.branch (.list ordered start spread hint) items).resolveKinds =
      .branch (.list ordered start spread hint) (items.map Node.resolveKinds) := by
  rw [resolveKinds_eq_mapBottomUp,
    Node.mapBottomUp_of_not_details (changesDetails_rewritePart _) rfl]
  exact congrArg (Node.branch _) (List.map_congr_left fun item _ =>
    (resolveKinds_eq_mapBottomUp item).symm)

/-- A list in details is settled by the texts that its items had before. -/
theorem settled_list (ordered : Bool) (start : Option UInt64) (spread : Bool) (hint : Option String)
    (items : List Node) : settled true (.branch (.list ordered start spread hint) items) =
      .branch (.list (ordered || items.any numbersList) start spread hint)
        (items.map fun item => item.resolveKinds.mapFirstText withoutMarkers) := by
  have hnumbers : numbersList ∘ Node.resolveKinds = numbersList := by
    funext item
    rw [Function.comp_apply, numbersList, firstText_resolveKinds, numbersList]
  rw [settled, if_pos rfl, resolveKinds_list, resolveKind_list, List.any_map, hnumbers, List.map_map]
  rfl

/-- The children of what a node becomes. -/
theorem children_settled (inDetails : Bool) (node : Node) : (settled inDetails node).children =
    node.children.map fun child =>
      if inDetails && node.isList then child.resolveKinds.mapFirstText withoutMarkers
      else settled (node.isNamed .descriptionDetails) child := by
  cases hlist : inDetails && node.isList with
  | false =>
      have hsettled : settled inDetails node = node.resolveKinds := by
        cases inDetails with
        | false => rfl
        | true => exact settled_of_not_isList hlist true
      rw [hsettled, children_resolveKinds]
      rfl
  | true =>
      obtain ⟨rfl, hnode⟩ := (Bool.and_eq_true _ _).mp hlist
      obtain ⟨ordered, start, spread, hint, items, rfl⟩ := Node.eq_list_of_isList hnode
      rw [settled_list]
      rfl

/-- Where details stand, what is below them is settled and nothing else. -/
theorem at?_settled_of_details {inDetails : Bool} {node details : Node} {path : List Nat}
    (h : node.at? path = some details) (hd : details.isNamed .descriptionDetails = true) :
    (settled inDetails node).at? path = some details.resolveKinds := by
  induction path generalizing inDetails node with
  | nil =>
      obtain rfl : node = details := Option.some.inj h
      have hlist : node.isList = false := by
        rw [Bool.eq_false_iff]
        intro hlist
        rw [Node.not_isDetails_of_isList hlist] at hd
        cases hd
      rw [settled_of_not_isList hlist, Node.at?_nil]
  | cons index path ih =>
      obtain ⟨child, hchild, hat⟩ := Option.bind_eq_some_iff.1 h
      rw [Node.at?_cons, children_settled, List.getElem?_map, hchild, Option.map_some,
        Option.bind_some]
      -- the path may go through an item whose first text changed, but a text has no details in it
      split
      · have hdetails : details.resolveKinds.isNamed .descriptionDetails = true := by
          rw [resolveKinds_eq_mapBottomUp, Node.isNamed_mapBottomUp (changesDetails_rewritePart _)]
          exact hd
        exact Node.at?_mapFirstText_of_details _ _ (@ih false child hat) hdetails
      · exact ih hat

/-- A list in details becomes what its own items make of it. -/
theorem at?_resolveKinds_of_list {tree list : Node} {path : List Nat}
    (h : tree.IsListInDetails path list) : tree.resolveKinds.at? path = some (settled true list) := by
  obtain ⟨-, outer, index, details, rfl, hat, hdetails, hchild⟩ := h
  have houter : tree.resolveKinds.at? outer = some details.resolveKinds :=
    @at?_settled_of_details false tree details outer hat hdetails
  rw [Node.at?_append, houter, Option.bind_some, Node.at?_cons, children_resolveKinds, hdetails,
    List.getElem?_map, hchild]
  rfl

/-- All other nodes stay as they are, apart from what is below them. -/
theorem map_bare_at?_settled {inDetails : Bool} {node : Node} {path : List Nat}
    (hhere : inDetails = true → node.isList = true → path ≠ [] ∧
      ∀ index item, path = [index, 0, 0] → node.children[index]? = some item → item.firstText? = none)
    (hlists : ∀ list, ¬ node.IsListInDetails path list) (htexts : ¬ node.IsFirstTextInDetails path) :
    ((settled inDetails node).at? path).map Node.bare = (node.at? path).map Node.bare := by
  induction path generalizing inDetails node with
  | nil =>
      have hsettled : settled inDetails node = node.resolveKinds := by
        cases hlist : node.isList with
        | false => exact settled_of_not_isList hlist inDetails
        | true =>
            cases inDetails with
            | false => rfl
            | true => exact absurd rfl (hhere rfl hlist).1
      rw [hsettled, Node.at?_nil, Node.at?_nil, Option.map_some, Option.map_some, bare_resolveKinds]
  | cons index path ih =>
      rw [Node.at?_cons, Node.at?_cons, children_settled, List.getElem?_map]
      cases hchild : node.children[index]? with
      | none => rfl
      | some child =>
          rw [Option.map_some, Option.bind_some, Option.bind_some]
          have hlists' (list : Node) (h : child.IsListInDetails path list) : False :=
            hlists list (h.cons hchild)
          have htexts' (h : child.IsFirstTextInDetails path) : False := htexts (h.cons hchild)
          split
          · next hitem =>
              -- an item of a list in details: its first text is the one place that may change
              obtain ⟨rfl, hnode⟩ := (Bool.and_eq_true _ _).mp hitem
              have hfirst (hpath : path = [0, 0]) : child.resolveKinds.firstText? = none := by
                rw [firstText_resolveKinds]
                exact (hhere rfl hnode).2 index child (by rw [hpath]) hchild
              rw [Node.map_bare_at?_mapFirstText _ _ hfirst]
              exact @ih false child nofun hlists' htexts'
          · -- for a child, being a list in details and having such a text are the two cases left out
            refine ih (fun hd hlist => ⟨?_, ?_⟩) hlists' htexts'
            · rintro rfl
              exact hlists child ⟨hlist, [], index, node, rfl, rfl, hd, hchild⟩
            · rintro last item rfl hitem
              by_contra htext
              exact htexts ⟨[index], last, child, item, rfl,
                ⟨hlist, [], index, node, rfl, rfl, hd, hchild⟩, hitem, htext⟩

/-- Settling the kinds of lists settles those of all lists that stand directly in details, at any depth:
such a list is numbered afterwards exactly if it was before, or if an item of it opened with a text that
opens with a number; the texts that its items open with lose the run of markers in front of them, and
start with no marker then. Nothing else of the list changes, and no other node of the tree. To do it
again changes nothing. -/
theorem resolveKinds_settles_lists (tree : Node) :
    (∀ path ordered start spread hint items,
      tree.IsListInDetails path (.branch (.list ordered start spread hint) items) →
        ∃ ordered' items',
          tree.resolveKinds.at? path = some (.branch (.list ordered' start spread hint) items') ∧
          (ordered' = true ↔ ordered = true ∨
            ∃ item ∈ items, ∃ text, item.firstText? = some text ∧ OpensWithNumber text.toList) ∧
          List.Forall₂ (fun item item' =>
            Option.Rel (fun text text' => StripsTo .any text.toList text'.toList)
              item.firstText? item'.firstText?) items items') ∧
      (∀ path, (∀ list, ¬ tree.IsListInDetails path list) → ¬ tree.IsFirstTextInDetails path →
        (tree.resolveKinds.at? path).map Node.bare = (tree.at? path).map Node.bare) ∧
      tree.resolveKinds.resolveKinds = tree.resolveKinds := by
  refine ⟨fun path ordered start spread hint items hlist => ?_, fun path hlists htexts => ?_,
    resolveKinds_resolveKinds tree⟩
  · have hat := at?_resolveKinds_of_list hlist
    rw [settled_list] at hat
    refine ⟨_, _, hat, ?_, ?_⟩
    · simp only [Bool.or_eq_true, List.any_eq_true, numbersList_iff]
    · rw [List.forall₂_map_right_iff, List.forall₂_same]
      intro item _
      rw [Node.firstText_mapFirstText, firstText_resolveKinds]
      cases item.firstText? with
      | none => exact .none
      | some text =>
          refine .some ?_
          rw [withoutMarkers, String.toList_ofList]
          exact stripsTo_stripMarkers .any text.toList
  · exact @map_bare_at?_settled false tree path nofun hlists htexts

/-- One numbered item numbers a list, also one that loses its bullet too; an indented number does not.
What is named like details counts as details. -/
example : (Node.descriptionDetails [
      .bulletList [.itemOfText "- a", .itemOfText "1. + b"],
      .bulletList [.itemOfText " 1. c", .branch (.listItem false none none)
        [.branch (.other "descriptiondetails" none none)
          [.bulletList [.itemOfText "2. d"]]]]]).resolveKinds =
    .descriptionDetails [
      .branch (.list true none false none) [.itemOfText "a", .itemOfText "b"],
      .bulletList [.itemOfText "c", .branch (.listItem false none none)
        [.branch (.other "descriptiondetails" none none)
          [.branch (.list true none false none) [.itemOfText "d"]]]]] := by
  decide +kernel

end DefinitionLists
