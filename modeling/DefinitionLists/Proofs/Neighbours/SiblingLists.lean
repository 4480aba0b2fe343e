/-
Module: DefinitionLists.Proofs.Neighbours.SiblingLists
Purpose: What becomes of the lists that come right after definition lists: each definition list takes in
  at most one, and no node is lost or made, but for the lists whose items join another list.
Main exports: Meeting, Joining, joinings, TakenIn, Takes, takes_absorbSiblingList,
  shrinks_absorbSiblingList, Takes.perm_bares, absorbSiblingLists_keeps_nodes
-/
import Mathlib.Data.List.TakeWhile
import DefinitionLists.Definition.Neighbours
import DefinitionLists.Proofs.Details.Content
import DefinitionLists.Proofs.Visit.Course

namespace DefinitionLists

open Node (bare preorderList sizeList)

/-! ### A list after a definition list -/

/-- A definition list that ends in details, a list right after it, and what comes after that. -/
structure Meeting where
  hint : Option String
  span : Option Span
  parts : List Node
  detailsHint : Option String
  detailsSpan : Option Span
  children : List Node
  list : Node
  isList : list.isList = true
  after : List Node

namespace Meeting

/-- The definition list, with these children in its last details. -/
def holding (meeting : Meeting) (children : List Node) : Node :=
  .branch (.container .descriptionList meeting.hint meeting.span)
    (meeting.parts ++
      [.branch (.container .descriptionDetails meeting.detailsHint meeting.detailsSpan) children])

/-- The siblings from the definition list on. -/
def here (meeting : Meeting) : List Node :=
  meeting.holding meeting.children :: meeting.list :: meeting.after

/-- The siblings from the definition list on when it holds these children, and the list after it is
gone. -/
def left (meeting : Meeting) (children : List Node) : List Node :=
  meeting.holding children :: meeting.after

end Meeting

theorem takeIntoLastDetails_append (list : Node) (parts : List Node) (hint : Option String)
    (span : Option Span) (children : List Node) :
    takeIntoLastDetails? list
        (parts ++ [.branch (.container .descriptionDetails hint span) children]) =
      some (parts ++
        [.branch (.container .descriptionDetails hint span) (takeInList list children)]) := by
  induction parts with
  | nil => rfl
  | cons part more ih =>
      obtain ⟨second, rest, heq⟩ := List.exists_cons_of_ne_nil
        (List.append_ne_nil_of_right_ne_nil more (List.cons_ne_nil
          (Node.branch (.container .descriptionDetails hint span) children) []))
      rw [List.cons_append, heq, takeIntoLastDetails?, ← heq, ih]
      rfl

theorem exists_of_takeIntoLastDetails {list : Node} {parts parts' : List Node}
    (h : takeIntoLastDetails? list parts = some parts') : ∃ front hint span children,
      parts = front ++ [.branch (.container .descriptionDetails hint span) children] := by
  fun_induction takeIntoLastDetails? list parts generalizing parts' with
  | case1 => cases h
  | case2 hint span children => exact ⟨[], hint, span, children, rfl⟩
  | case3 => cases h
  | case4 first second more ih =>
      obtain ⟨rest', hrest, -⟩ := Option.map_eq_some_iff.1 h
      obtain ⟨front, hint, span, children, heq⟩ := ih hrest
      exact ⟨first :: front, hint, span, children, by rw [heq, List.cons_append]⟩

theorem absorbSiblingList_here (meeting : Meeting) : absorbSiblingList meeting.here =
    meeting.left (takeInList meeting.list meeting.children) := by
  simp only [Meeting.here, Meeting.left, Meeting.holding, absorbSiblingList, meeting.isList, if_true,
    takeIntoLastDetails_append]

theorem absorbSiblingList_of_no_meeting {here : List Node}
    (h : ∀ meeting : Meeting, here ≠ meeting.here) : absorbSiblingList here = here := by
  unfold absorbSiblingList
  split
  · next hint span parts next after =>
      simp only
      split
      · next hlist =>
          split
          · next parts' htaken =>
              obtain ⟨front, detailsHint, detailsSpan, children, rfl⟩ :=
                exists_of_takeIntoLastDetails htaken
              exact absurd rfl
                (h ⟨hint, span, front, detailsHint, detailsSpan, children, next, hlist, after⟩)
          · rfl
      · rfl
  · rfl

/-! ### Taking a list in -/

/-- A list that joins another one, and what comes after that other list in its details: the items of
the first list come before these nodes from then on. -/
structure Joining where
  list : Node
  passed : List Node
deriving DecidableEq

/-- The list that joins another one if children of details take it in, if it does. -/
def joiningsIn (list : Node) (children : List Node) : List Joining :=
  match children.dropWhile (fun child => !child.isList) with
  | [] => []
  | _ :: passed => [⟨list, passed⟩]

/-- The list that joins another one as the change at a place takes it in, if there is one. -/
def joinings : List Node → List Joining
  | .branch (.container .descriptionList _ _) parts :: next :: _ =>
    match parts.getLast? with
    | some (.branch (.container .descriptionDetails _ _) children) =>
      if next.isList then joiningsIn next children else []
    | _ => []
  | _ => []

/-- The children of details before and after a list is taken in. It comes last if no list is there, or
else its items come last in the first list there. -/
inductive TakenIn (list : Node) : List Node → List Joining → List Node → Prop where
  | last {children : List Node} (none : ∀ child ∈ children, child.isList = false) :
      TakenIn list children [] (children ++ [list])
  | joined {front own passed : List Node} {head : Branch}
      (none : ∀ child ∈ front, child.isList = false) (first : (Node.branch head own).isList = true) :
      TakenIn list (front ++ .branch head own :: passed) [⟨list, passed⟩]
        (front ++ .branch head (own ++ list.children) :: passed)

/-- What may happen at a place: the last details of a definition list take in the one list that comes
right after it, and all else stays as it is. -/
inductive Takes : List Node → List Joining → List Node → Prop where
  | nothing {here : List Node} (none : ∀ meeting : Meeting, here ≠ meeting.here) : Takes here [] here
  | list {meeting : Meeting} {joined : List Joining} {children : List Node}
      (taken : TakenIn meeting.list meeting.children joined children) :
      Takes meeting.here joined (meeting.left children)

/-- Nodes have no list among them, or a first one. -/
theorem exists_first_list (nodes : List Node) : (∀ node ∈ nodes, node.isList = false) ∨
    ∃ front head own passed, nodes = front ++ .branch head own :: passed ∧
      (∀ node ∈ front, node.isList = false) ∧ (Node.branch head own).isList = true := by
  induction nodes with
  | nil => exact .inl (by simp)
  | cons node more ih =>
      cases hlist : node.isList with
      | true =>
          obtain ⟨ordered, start, spread, hint, own, rfl⟩ := Node.eq_list_of_isList hlist
          exact .inr ⟨[], _, own, more, rfl, by simp, rfl⟩
      | false =>
          rcases ih with hnone | ⟨front, head, own, passed, rfl, hnone, hfirst⟩
          · exact .inl (List.forall_mem_cons.2 ⟨hlist, hnone⟩)
          · exact .inr ⟨node :: front, head, own, passed, rfl,
              List.forall_mem_cons.2 ⟨hlist, hnone⟩, hfirst⟩

theorem extendFirstList_of_none {items nodes : List Node} (h : ∀ node ∈ nodes, node.isList = false) :
    extendFirstList? items nodes = none := by
  induction nodes with
  | nil => rfl
  | cons node more ih =>
      obtain ⟨hnode, hmore⟩ := List.forall_mem_cons.1 h
      unfold extendFirstList?
      split
      · next heq => cases heq
      · next heq =>
          cases heq
          cases hnode
      · next heq =>
          cases heq
          rw [ih hmore]
          rfl

theorem extendFirstList_of_first {front own : List Node} {head : Branch}
    (h : ∀ node ∈ front, node.isList = false) (hl : (Node.branch head own).isList = true)
    (items passed : List Node) :
    extendFirstList? items (front ++ .branch head own :: passed) =
      some (front ++ .branch head (own ++ items) :: passed) := by
  induction front with
  | nil =>
      obtain ⟨ordered, start, spread, hint, own, heq⟩ := Node.eq_list_of_isList hl
      cases heq
      rfl
  | cons node more ih =>
      obtain ⟨hnode, hmore⟩ := List.forall_mem_cons.1 h
      rw [List.cons_append]
      unfold extendFirstList?
      split
      · next heq => cases heq
      · next heq =>
          cases heq
          cases hnode
      · next heq =>
          cases heq
          rw [ih hmore]
          rfl

/-- What details become when they take in a list is one of the two things they may become. -/
theorem takenIn_takeInList (list : Node) (children : List Node) :
    TakenIn list children (joiningsIn list children) (takeInList list children) := by
  rcases exists_first_list children with hnone | ⟨front, head, own, passed, rfl, hnone, hfirst⟩
  · have hjoining : joiningsIn list children = [] := by
      have hdrop : children.dropWhile (fun child => !child.isList) = [] :=
        List.dropWhile_eq_nil_iff.2 fun child hchild => by simp [hnone child hchild]
      rw [joiningsIn, hdrop]
    rw [hjoining, takeInList, extendFirstList_of_none hnone]
    exact .last hnone
  · have hjoining : joiningsIn list (front ++ .branch head own :: passed) = [⟨list, passed⟩] := by
      have hdrop : (front ++ .branch head own :: passed).dropWhile (fun child => !child.isList) =
          .branch head own :: passed := by
        rw [List.dropWhile_append_of_pos fun child hchild => by simp [hnone child hchild],
          List.dropWhile_cons_of_neg (by simp [hfirst])]
      rw [joiningsIn, hdrop]
    rw [hjoining, takeInList, extendFirstList_of_first hnone hfirst]
    exact .joined hnone hfirst

theorem joinings_here (meeting : Meeting) :
    joinings meeting.here = joiningsIn meeting.list meeting.children := by
  simp only [Meeting.here, Meeting.holding, joinings, List.getLast?_concat, meeting.isList, if_true]

theorem joinings_of_no_meeting {here : List Node} (h : ∀ meeting : Meeting, here ≠ meeting.here) :
    joinings here = [] := by
  unfold joinings
  split
  · next hint span parts next after =>
      split
      · next detailsHint detailsSpan children hlast =>
          split
          · next hlist =>
              obtain ⟨front, rfl⟩ := List.getLast?_eq_some_iff.1 hlast
              exact absurd rfl
                (h ⟨hint, span, front, detailsHint, detailsSpan, children, next, hlist, after⟩)
          · rfl
      · rfl
  · rfl

/-- The change at a place does one of the two. -/
theorem takes_absorbSiblingList (here : List Node) :
    Takes here (joinings here) (absorbSiblingList here) := by
  by_cases hmeeting : ∃ meeting : Meeting, here = meeting.here
  · obtain ⟨meeting, rfl⟩ := hmeeting
    rw [absorbSiblingList_here, joinings_here]
    exact .list (takenIn_takeInList _ _)
  · have hnone : ∀ meeting : Meeting, here ≠ meeting.here := fun meeting heq =>
      hmeeting ⟨meeting, heq⟩
    rw [absorbSiblingList_of_no_meeting hnone, joinings_of_no_meeting hnone]
    exact .nothing hnone

/-! ### What there is to visit -/

theorem TakenIn.sizeList_le {list : Node} {children children' : List Node} {joined : List Joining}
    (h : TakenIn list children joined children') :
    sizeList children' ≤ sizeList children + list.size := by
  cases h with
  | last => simp [Node.sizeList_append, sizeList]
  | joined none first =>
      have hlist : sizeList list.children ≤ list.size := by
        cases list with
        | leaf content => exact Nat.zero_le _
        | branch head items => exact Nat.le_add_left _ _
      simp only [Node.sizeList_append, sizeList, Node.size]
      omega

/-- A list is taken in whole or without its own node, so nothing that there is to visit is made. -/
theorem Takes.shrinks {node : Node} {rest changed : List Node} {joined : List Joining}
    (h : Takes (node :: rest) joined changed) : ∃ first after, changed = first :: after ∧
      sizeList first.children < sizeList (node :: rest) ∧ sizeList after < sizeList (node :: rest) := by
  generalize hhere : node :: rest = here at h
  cases h with
  | nothing =>
      have hnode := node.size_pos
      refine ⟨node, rest, hhere.symm, ?_⟩
      rw [← hhere, sizeList]
      cases node with
      | leaf content =>
          simp only [Node.children, sizeList]
          omega
      | branch head children =>
          simp only [Node.children, Node.size]
          omega
  | list taken =>
      have hle := taken.sizeList_le
      refine ⟨_, _, rfl, ?_⟩
      simp only [Meeting.here, Meeting.holding, Node.children, sizeList, Node.size,
        Node.sizeList_append]
      omega

/-- A list that moves into details leaves its place, so that the visit ends. -/
theorem shrinks_absorbSiblingList : Shrinks (fun place => absorbSiblingList place.here) sizeList :=
  fun _ _ _ _ => (takes_absorbSiblingList _).shrinks

/-! ### What is kept -/

namespace Node

/-- The nodes and all below them, each before its children and without them. -/
def bares (nodes : List Node) : List Node := (preorderList nodes).map bare

@[simp] theorem bare_branch (head : Branch) (children : List Node) :
    (branch head children).bare = .branch head [] := rfl

@[simp] theorem children_branch (head : Branch) (children : List Node) :
    (branch head children).children = children := rfl

@[simp] theorem bares_nil : bares [] = [] := rfl

@[simp] theorem bares_cons (node : Node) (more : List Node) :
    bares (node :: more) = node.bare :: (bares node.children ++ bares more) := by
  rw [bares, preorderList, List.map_append]
  cases node <;> rfl

@[simp] theorem bares_append (first second : List Node) :
    bares (first ++ second) = bares first ++ bares second := by
  rw [bares, preorderList_append, List.map_append, bares, bares]

theorem map_bare_preorder (node : Node) : node.preorder.map bare = bares [node] := by
  rw [bares, preorderList, preorderList, List.append_nil]

theorem tag_bare (node : Node) : node.bare.tag = node.tag := by
  cases node <;> rfl

theorem tag_of_isList {node : Node} (h : node.isList = true) : node.tag = "list" := by
  obtain ⟨ordered, start, spread, hint, items, rfl⟩ := eq_list_of_isList h
  rfl

end Node

open Node (bares)

/-- Where items join another list, the node of their own list is all that goes. -/
theorem TakenIn.perm_bares {list : Node} {children children' : List Node} {joined : List Joining}
    (h : TakenIn list children joined children') :
    (bares children ++ bares [list]).Perm (bares children' ++ joined.map (·.list.bare)) := by
  cases h with
  | last => simp
  | joined =>
      rw [List.perm_iff_count]
      intro node
      simp only [Node.bares_append, Node.bares_cons, Node.bares_nil, Node.bare_branch,
        Node.children_branch, List.map_cons, List.map_nil, List.count_append, List.count_cons,
        List.count_nil]
      omega

/-- No node is lost but the lists that join others, and none is added. -/
theorem Takes.perm_bares {here changed : List Node} {joined : List Joining}
    (h : Takes here joined changed) :
    (bares here).Perm (bares changed ++ joined.map (·.list.bare)) := by
  cases h with
  | nothing => simp
  | @list meeting joined children taken =>
      have hcount := List.perm_iff_count.1 taken.perm_bares
      rw [List.perm_iff_count]
      intro node
      have hnode := hcount node
      simp only [Node.bares_cons, Node.bares_nil, List.count_append, List.count_cons,
        List.count_nil] at hnode
      simp only [Meeting.here, Meeting.left, Meeting.holding, Node.bares_append, Node.bares_cons,
        Node.bares_nil, Node.bare_branch, Node.children_branch, List.count_append, List.count_cons,
        List.count_nil]
      omega

theorem TakenIn.list_of_mem {list : Node} {children children' : List Node} {joined : List Joining}
    (h : TakenIn list children joined children') {joining : Joining} (hm : joining ∈ joined) :
    joining.list = list := by
  cases h with
  | last => cases hm
  | joined => rw [List.mem_singleton.1 hm]

theorem Takes.isList_of_mem {here changed : List Node} {joined : List Joining}
    (h : Takes here joined changed) {joining : Joining} (hm : joining ∈ joined) :
    joining.list.isList = true := by
  cases h with
  | nothing => cases hm
  | @list meeting joined children taken =>
      rw [taken.list_of_mem hm]
      exact meeting.isList

theorem Takes.map_bare_head? {here changed : List Node} {joined : List Joining}
    (h : Takes here joined changed) : changed.head?.map bare = here.head?.map bare := by
  cases h <;> rfl

/-- A visit that moves lists keeps all nodes but those of the lists that join others. -/
theorem Course.perm_bares {place : Place} {places : List Place} {result : List Node}
    (h : Course (fun place => absorbSiblingList place.here) place places result) :
    (bares place.here).Perm
      (bares result ++ (places.flatMap fun place => joinings place.here).map (·.list.bare)) := by
  induction h with
  | done => exact .refl []
  | @leaf parent before rest after result node content places step _ ih =>
      have htakes := (takes_absorbSiblingList (node :: rest)).perm_bares
      simp only at step
      rw [step] at htakes
      rw [List.perm_iff_count] at htakes ih ⊢
      intro inner
      have hstep := htakes inner
      have hlater := ih inner
      simp only [Node.bares_cons, List.flatMap_cons, List.map_append, List.count_append,
        List.count_cons] at hstep hlater ⊢
      omega
  | @branch parent head before rest children inside after result node below places step _ _ ihi ihl =>
      have htakes := (takes_absorbSiblingList (node :: rest)).perm_bares
      simp only at step
      rw [step] at htakes
      rw [List.perm_iff_count] at htakes ihi ihl ⊢
      intro inner
      have hstep := htakes inner
      have hinner := ihi inner
      have hlater := ihl inner
      simp only [Node.bares_cons, Node.bare_branch, Node.children_branch, List.flatMap_cons,
        List.flatMap_append, List.map_append, List.count_append, List.count_cons] at hstep hinner hlater ⊢
      omega

namespace Node

/-- The places that the visit comes to that moves lists to the definition lists before them. -/
def listPlaces (tree : Node) : List Place :=
  tree.placesVisited fun place => absorbSiblingList place.here

/-- The lists that join others as lists are moved to the definition lists before them, in the order in
which they do. -/
def listsJoined (tree : Node) : List Joining := tree.listPlaces.flatMap fun place => joinings place.here

theorem course_absorbSiblingLists (head : Branch) (children : List Node) :
    Course (fun place => absorbSiblingList place.here) ⟨head, [], children⟩
      (branch head children).listPlaces (branch head children).absorbSiblingLists.children :=
  shrinks_absorbSiblingList.course_edit (fun _ => by omega) head children

/-- The whole visit loses no node but the lists that join others. -/
theorem bares_absorbSiblingLists (tree : Node) :
    (bares [tree]).Perm (bares [tree.absorbSiblingLists] ++ tree.listsJoined.map (·.list.bare)) := by
  cases tree with
  | leaf content => exact .refl _
  | branch head children =>
      have hcourse := (course_absorbSiblingLists head children).perm_bares
      have hbare : (branch head children).absorbSiblingLists.bare = .branch head [] := by
        rw [absorbSiblingLists, edit_branch]
        rfl
      rw [bares_cons, bares_cons, hbare, bare_branch, children_branch, bares_nil, List.append_nil,
        List.append_nil, List.cons_append, listsJoined]
      exact hcourse.cons _

theorem isList_of_mem_listsJoined {tree : Node} {joining : Joining}
    (h : joining ∈ tree.listsJoined) : joining.list.isList = true := by
  obtain ⟨place, -, hm⟩ := List.mem_flatMap.1 h
  exact (takes_absorbSiblingList place.here).isList_of_mem hm

/-- The leaf that a node is, if it is one. -/
def leaf? : Node → Option Leaf
  | .leaf content => some content
  | .branch _ _ => none

theorem leaves_eq_filterMap_bares (tree : Node) : tree.leaves = (bares [tree]).filterMap leaf? := by
  rw [← map_bare_preorder, List.filterMap_map, leaves]
  exact List.filterMap_congr fun node _ => by cases node <;> rfl

theorem leaf_bare_of_isList {node : Node} (h : node.isList = true) : node.bare.leaf? = none := by
  obtain ⟨ordered, start, spread, hint, items, rfl⟩ := eq_list_of_isList h
  rfl

/-- No leaf is lost or added, as no list is a leaf. -/
theorem leaves_absorbSiblingLists (tree : Node) :
    tree.absorbSiblingLists.leaves.Perm tree.leaves := by
  have hkept := tree.bares_absorbSiblingLists.filterMap leaf?
  have hnone : (tree.listsJoined.map (·.list.bare)).filterMap leaf? = [] := by
    refine List.filterMap_eq_nil_iff.2 (List.forall_mem_map.2 fun joining hjoining => ?_)
    exact leaf_bare_of_isList (isList_of_mem_listsJoined hjoining)
  rw [List.filterMap_append, hnone, List.append_nil] at hkept
  rw [leaves_eq_filterMap_bares, leaves_eq_filterMap_bares]
  exact hkept.symm

theorem countP_tag_preorder (tag : String) (tree : Node) :
    tree.preorder.countP (·.tag = tag) = (bares [tree]).countP (·.tag = tag) := by
  rw [← map_bare_preorder, List.countP_map]
  exact List.countP_congr fun node _ => by simp [tag_bare]

/-- Only lists may get fewer. -/
theorem countP_tag_absorbSiblingLists {tag : String} (h : tag ≠ "list") (tree : Node) :
    tree.absorbSiblingLists.preorder.countP (·.tag = tag) = tree.preorder.countP (·.tag = tag) := by
  have hcount := tree.bares_absorbSiblingLists.countP_eq (·.tag = tag)
  have hnone : (tree.listsJoined.map (·.list.bare)).countP (·.tag = tag) = 0 := by
    refine List.countP_eq_zero.2 (List.forall_mem_map.2 fun joining hjoining => ?_)
    simpa [tag_bare, tag_of_isList (isList_of_mem_listsJoined hjoining)] using h.symm
  rw [List.countP_append, hnone, Nat.add_zero] at hcount
  rw [countP_tag_preorder, countP_tag_preorder, hcount]

/-- Each node that is left below the top is visited once. -/
theorem map_bare_listPlaces (tree : Node) :
    tree.listPlaces.map (fun place => place.here.head?.map bare) =
      (preorderList tree.absorbSiblingLists.children).map (fun node => some node.bare) := by
  cases tree with
  | leaf content => rfl
  | branch head children =>
      rw [← (course_absorbSiblingLists head children).map_bare]
      exact List.map_congr_left fun place _ =>
        (takes_absorbSiblingList place.here).map_bare_head?.symm

end Node

/-- Moving lists to the definition lists before them keeps every node, whatever it is, but for the nodes
of those lists that join another list; in particular all leaves stay, and as many nodes of each other
kind. Each node that is left is visited once, and if it is a definition list that ends in details, these
take in the one list right after it: its items come last in the first list that the details hold, or if
they hold none it comes last itself. -/
theorem absorbSiblingLists_keeps_nodes (tree : Node) :
    (tree.preorder.map bare).Perm
        (tree.absorbSiblingLists.preorder.map bare ++ tree.listsJoined.map (·.list.bare)) ∧
      tree.absorbSiblingLists.leaves.Perm tree.leaves ∧
      (∀ tag, tag ≠ "list" → tree.absorbSiblingLists.preorder.countP (·.tag = tag) =
        tree.preorder.countP (·.tag = tag)) ∧
      tree.listPlaces.map (fun place => place.here.head?.map bare) =
        (preorderList tree.absorbSiblingLists.children).map (fun node => some node.bare) ∧
      ∀ place ∈ tree.listPlaces,
        Takes place.here (joinings place.here) (absorbSiblingList place.here) := by
  refine ⟨?_, tree.leaves_absorbSiblingLists, fun tag htag => ?_, tree.map_bare_listPlaces,
    fun place _ => takes_absorbSiblingList place.here⟩
  · rw [Node.map_bare_preorder, Node.map_bare_preorder]
    exact tree.bares_absorbSiblingLists
  · exact Node.countP_tag_absorbSiblingLists htag tree

/-- A list joins one that is taken in itself after that, by a definition list in the same details. -/
theorem absorbSiblingLists_keeps_nodes_of_lists_in_details :
    let inner := Node.descriptionList [.descriptionDetails [.bulletList [.itemOfText "a"]]]
    let tree := Node.plain .root
      [.descriptionList [.descriptionDetails [inner, .bulletList [.itemOfText "b"]]],
        .bulletList [.itemOfText "c"], .bulletList []]
    tree.absorbSiblingLists = .plain .root [.descriptionList [.descriptionDetails
        [.descriptionList [.descriptionDetails
          [.bulletList [.itemOfText "a", .itemOfText "b", .itemOfText "c"]]]]], .bulletList []] ∧
      tree.listsJoined = [⟨.bulletList [.itemOfText "c"], []⟩,
        ⟨.bulletList [.itemOfText "b", .itemOfText "c"], []⟩] ∧
      "listItem" ≠ "list" ∧ tree.absorbSiblingLists.preorder.countP (·.tag = "listItem") = 3 := by
  intro inner tree
  have hitem : "listItem" ≠ "list" := by decide
  refine ⟨by decide +kernel, by decide +kernel, hitem, ?_⟩
  rw [(absorbSiblingLists_keeps_nodes tree).2.2.1 "listItem" hitem]
  decide +kernel

end DefinitionLists
