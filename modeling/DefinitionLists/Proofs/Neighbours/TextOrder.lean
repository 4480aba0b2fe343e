/-
Module: DefinitionLists.Proofs.Neighbours.TextOrder
Purpose: How moving lists to the definition lists before them changes the text of a tree: each list that
  joins another one comes before what stood between them, and nothing else changes its place. With it,
  when the text stays the same.
Main exports: Overtaken, Joining.IsSilent, Node.legible, Course.overtaken, plainText_absorbSiblingLists
-/
import DefinitionLists.Proofs.Neighbours.SiblingLists
import DefinitionLists.Proofs.Seeds.Text

namespace DefinitionLists

open Node (mapBottomUp plainTexts)

/-! ### Pieces of a text that change places -/

/-- The second text is the first one after lists joined others: one after another, the text of each such
list is moved before the text of what stood between it and the list that it joins. -/
inductive Overtaken : List Joining → String → String → Prop where
  | none (text : String) : Overtaken [] text text
  | one {joining : Joining} {more : List Joining} {text : String} (before after : String)
      (rest : Overtaken more
        (before ++ joining.list.plainText ++ plainTexts joining.passed ++ after) text) :
      Overtaken (joining :: more)
        (before ++ plainTexts joining.passed ++ joining.list.plainText ++ after) text

/-- Whether the text of a list that joins another one and the text of what stood between them read the
same in either order. -/
def Joining.IsSilent (joining : Joining) : Prop :=
  plainTexts joining.passed ++ joining.list.plainText =
    joining.list.plainText ++ plainTexts joining.passed

instance (joining : Joining) : Decidable joining.IsSilent :=
  inferInstanceAs (Decidable (_ = _))

theorem Joining.isSilent_iff (joining : Joining) (before after : String) :
    before ++ joining.list.plainText ++ plainTexts joining.passed ++ after =
        before ++ plainTexts joining.passed ++ joining.list.plainText ++ after ↔
      joining.IsSilent := by
  rw [String.append_left_inj, String.append_assoc, String.append_assoc, String.append_right_inj,
    eq_comm, IsSilent]

namespace Overtaken

variable {first second : List Joining} {text text' text'' : String}

/-- What stands around the pieces does not matter. -/
theorem within (h : Overtaken first text text') (before after : String) :
    Overtaken first (before ++ text ++ after) (before ++ text' ++ after) := by
  induction h with
  | none => exact .none _
  | @one joining more text inner outer rest ih =>
      have hone := @one joining more _ (before ++ inner) (outer ++ after)
        (by simpa only [String.append_assoc] using ih)
      simpa only [String.append_assoc] using hone

theorem behind (h : Overtaken first text text') (before : String) :
    Overtaken first (before ++ text) (before ++ text') := by
  simpa only [String.append_empty] using h.within before ""

theorem ahead (h : Overtaken first text text') (after : String) :
    Overtaken first (text ++ after) (text' ++ after) := by
  simpa only [String.empty_append] using h.within "" after

/-- One order after another. -/
theorem append (h : Overtaken first text text') (h' : Overtaken second text' text'') :
    Overtaken (first ++ second) text text'' := by
  induction h with
  | none => exact h'
  | one before after _ ih => exact one before after (ih h')

theorem exists_of_append (h : Overtaken (first ++ second) text text'') :
    ∃ text', Overtaken first text text' ∧ Overtaken second text' text'' := by
  induction first generalizing text with
  | nil => exact ⟨text, .none text, h⟩
  | cons joining more ih =>
      cases h with
      | one before after rest =>
          obtain ⟨text', hmore, hsecond⟩ := ih rest
          exact ⟨text', one before after hmore, hsecond⟩

/-- Lists that read the same before and after what they pass change nothing in the text. -/
theorem eq_of_silent (h : Overtaken first text text')
    (hs : ∀ joining ∈ first, joining.IsSilent) : text' = text := by
  induction h with
  | none => rfl
  | @one joining more text before after _ ih =>
      obtain ⟨hjoining, hmore⟩ := List.forall_mem_cons.1 hs
      rw [ih hmore, joining.isSilent_iff]
      exact hjoining

/-- One piece whose move can be seen is seen if it is the only one. -/
theorem eq_iff_of_silent {joining : Joining}
    (h : Overtaken (first ++ joining :: second) text text')
    (hs : ∀ other ∈ first ++ second, other.IsSilent) : text' = text ↔ joining.IsSilent := by
  obtain ⟨reached, hfirst, hrest⟩ := h.exists_of_append
  have hbefore := hfirst.eq_of_silent fun other ho => hs other (List.mem_append_left _ ho)
  cases hrest with
  | one before after rest =>
      have hafter := rest.eq_of_silent fun other ho => hs other (List.mem_append_right _ ho)
      rw [hafter, ← hbefore, joining.isSilent_iff]

end Overtaken

/-! ### What the text leaves out -/

/-- The node without its children if its value stands for them. -/
def dropUnread : Node → Node
  | .branch head children => .branch head (if head.hasValue then [] else children)
  | node => node

namespace Node

/-- The tree without what has no part in its text. -/
def legible (tree : Node) : Node := tree.mapBottomUp dropUnread

theorem legible_branch (head : Branch) (children : List Node) : (branch head children).legible =
    .branch head (if head.hasValue then [] else children.map legible) := by
  have hchildren : mapBottomUpList dropUnread children = children.map legible :=
    mapBottomUpList_eq_map dropUnread children
  rw [legible, mapBottomUp, hchildren, dropUnread]

mutual

/-- Children that are not read do not count in the text. -/
theorem plainText_legible : ∀ node : Node, node.legible.plainText = node.plainText
  | .leaf _ => rfl
  | .branch head children => by
      rw [legible_branch]
      cases hvalue : head.hasValue with
      | true => exact plainText_of_hasValue hvalue _ _
      | false => exact plainText_branch_congr (plainTexts_map_legible children)

theorem plainTexts_map_legible : ∀ nodes : List Node, plainTexts (nodes.map legible) = plainTexts nodes
  | [] => rfl
  | node :: more => by
      rw [List.map_cons, plainTexts_cons, plainTexts_cons, plainText_legible node,
        plainTexts_map_legible more]

end

theorem isList_legible (node : Node) : node.legible.isList = node.isList := by
  cases node with
  | leaf content => rfl
  | branch head children =>
      rw [legible_branch]
      cases head <;> rfl

/-- A node that is read with its children is made of one of the same kind. -/
theorem exists_of_legible_eq {node : Node} {head : Branch} {children' : List Node}
    (h : node.legible = .branch head children') (hv : head.hasValue = false) :
    ∃ children, node = .branch head children ∧ children.map legible = children' := by
  cases node with
  | leaf content => cases h
  | branch head' children =>
      rw [legible_branch] at h
      cases h
      exact ⟨children, rfl, by rw [hv]; rfl⟩

end Node

/-! ### Moving lists in what is read -/

theorem takeInList_map_legible {list : Node} (hl : list.isList = true) (children : List Node) :
    takeInList list.legible (children.map Node.legible) =
      (takeInList list children).map Node.legible := by
  obtain ⟨ordered, start, spread, hint, items, rfl⟩ := Node.eq_list_of_isList hl
  have hlist : (Node.branch (.list ordered start spread hint) items).legible =
      .branch (.list ordered start spread hint) (items.map Node.legible) := Node.legible_branch _ _
  have hnone {nodes : List Node} (h : ∀ node ∈ nodes, node.isList = false) :
      ∀ node ∈ nodes.map Node.legible, node.isList = false :=
    List.forall_mem_map.2 fun node hnode => (Node.isList_legible node).trans (h node hnode)
  rcases exists_first_list children with hchildren | ⟨front, head, own, passed, rfl, hfront, hfirst⟩
  · rw [takeInList, takeInList, extendFirstList_of_none hchildren,
      extendFirstList_of_none (hnone hchildren)]
    simp
  · obtain ⟨ordered, start, spread, hint, own', heq⟩ := Node.eq_list_of_isList hfirst
    cases heq
    have hown (nodes : List Node) : (Node.branch (.list ordered start spread hint) nodes).legible =
        .branch (.list ordered start spread hint) (nodes.map Node.legible) := Node.legible_branch _ _
    rw [takeInList, takeInList, hlist, List.map_append, List.map_cons, hown,
      extendFirstList_of_first hfront hfirst, extendFirstList_of_first (hnone hfront) rfl]
    simp only [Option.getD_some, List.map_append, List.map_cons, hown, Node.children]

namespace Meeting

/-- The same meeting without what has no part in its text. -/
def legible (meeting : Meeting) : Meeting where
  hint := meeting.hint
  span := meeting.span
  parts := meeting.parts.map Node.legible
  detailsHint := meeting.detailsHint
  detailsSpan := meeting.detailsSpan
  children := meeting.children.map Node.legible
  list := meeting.list.legible
  isList := (Node.isList_legible _).trans meeting.isList
  after := meeting.after.map Node.legible

theorem legible_holding (meeting : Meeting) (children : List Node) :
    (meeting.holding children).legible = meeting.legible.holding (children.map Node.legible) := by
  have hdetails : (Node.branch (.container .descriptionDetails meeting.detailsHint
      meeting.detailsSpan) children).legible = .branch (.container .descriptionDetails
        meeting.detailsHint meeting.detailsSpan) (children.map Node.legible) := Node.legible_branch _ _
  rw [holding, Node.legible_branch]
  simp [holding, legible, Branch.hasValue, hdetails]

theorem map_legible_here (meeting : Meeting) :
    meeting.here.map Node.legible = meeting.legible.here := by
  rw [here, List.map_cons, legible_holding, List.map_cons]
  rfl

theorem map_legible_left (meeting : Meeting) (children : List Node) :
    (meeting.left children).map Node.legible = meeting.legible.left (children.map Node.legible) := by
  rw [left, List.map_cons, legible_holding]
  rfl

/-- A definition list and a list meet in what is read only if they do in all there is. -/
theorem exists_of_map_legible_eq {nodes : List Node} {meeting : Meeting}
    (h : nodes.map Node.legible = meeting.here) : ∃ whole : Meeting, nodes = whole.here := by
  obtain ⟨first, more, rfl, hfirst, hmore⟩ := List.map_eq_cons_iff.1 h
  obtain ⟨list, after, rfl, hlist, -⟩ := List.map_eq_cons_iff.1 hmore
  obtain ⟨parts, rfl, hparts⟩ := Node.exists_of_legible_eq hfirst rfl
  obtain ⟨front, last, rfl, -, hlast⟩ := List.map_eq_append_iff.1 hparts
  obtain ⟨details, rest, rfl, hdetails, hrest⟩ := List.map_eq_cons_iff.1 hlast
  obtain rfl := List.map_eq_nil_iff.1 hrest
  obtain ⟨children, rfl, -⟩ := Node.exists_of_legible_eq hdetails rfl
  have hislist : list.isList = true := by
    rw [← Node.isList_legible, hlist]
    exact meeting.isList
  exact ⟨⟨_, _, front, _, _, children, list, hislist, after⟩, rfl⟩

end Meeting

/-- What has no part in the text does not decide what becomes of lists. -/
theorem absorbSiblingList_map_legible (here : List Node) :
    absorbSiblingList (here.map Node.legible) = (absorbSiblingList here).map Node.legible := by
  by_cases hmeeting : ∃ meeting : Meeting, here = meeting.here
  · obtain ⟨meeting, rfl⟩ := hmeeting
    have htaken := takeInList_map_legible meeting.isList meeting.children
    rw [Meeting.map_legible_here, absorbSiblingList_here, absorbSiblingList_here,
      Meeting.map_legible_left]
    exact congrArg meeting.legible.left htaken
  · rw [absorbSiblingList_of_no_meeting fun meeting heq => hmeeting ⟨meeting, heq⟩,
      absorbSiblingList_of_no_meeting fun meeting heq =>
        hmeeting (Meeting.exists_of_map_legible_eq heq)]

/-! ### The text -/

theorem Node.plainText_of_isList {node : Node} (h : node.isList = true) :
    node.plainText = plainTexts node.children := by
  obtain ⟨ordered, start, spread, hint, items, rfl⟩ := eq_list_of_isList h
  rfl

/-- A list that joins another one passes what stood between them. -/
theorem TakenIn.overtaken {list : Node} (hl : list.isList = true) {children children' : List Node}
    {joined : List Joining} (h : TakenIn list children joined children') :
    Overtaken joined (plainTexts children ++ list.plainText) (plainTexts children') := by
  cases h with
  | last =>
      rw [Node.plainTexts_append, Node.plainTexts_cons, Node.plainTexts_nil, String.append_empty]
      exact .none _
  | @joined front own passed head none first =>
      have hone := @Overtaken.one ⟨list, passed⟩ [] _
        (plainTexts front ++ plainTexts own) "" (.none _)
      have hjoined (items : List Node) : (Node.branch head items).plainText = plainTexts items := by
        obtain ⟨ordered, start, spread, hint, own', heq⟩ := Node.eq_list_of_isList first
        cases heq
        rfl
      simpa only [Node.plainTexts_append, Node.plainTexts_cons, hjoined,
        ← Node.plainText_of_isList hl, String.append_assoc, String.append_empty] using hone

theorem Takes.overtaken {here changed : List Node} {joined : List Joining}
    (h : Takes here joined changed) : Overtaken joined (plainTexts here) (plainTexts changed) := by
  cases h with
  | nothing => exact .none _
  | @list meeting joined children taken =>
      have htaken := (taken.overtaken meeting.isList).within (plainTexts meeting.parts)
        (plainTexts meeting.after)
      simpa [Meeting.here, Meeting.left, Meeting.holding, String.append_assoc] using htaken

/-- The lists that join others among the nodes as they are read account for the change of the text: a node
with a value is read without its children. -/
theorem overtaken_absorbSiblingList (here : List Node) :
    Overtaken (joinings (here.map Node.legible)) (plainTexts here)
      (plainTexts (absorbSiblingList here)) := by
  have htakes := (takes_absorbSiblingList (here.map Node.legible)).overtaken
  rwa [absorbSiblingList_map_legible, Node.plainTexts_map_legible, Node.plainTexts_map_legible] at htakes

/-- What is read changes like the whole, and each list that joins another one there is moved before the
text of what stood between them. -/
theorem Course.overtaken {place : Place} {places : List Place} {result : List Node}
    (h : Course (fun place => absorbSiblingList place.here) place places result) :
    ∀ parent before, ∃ places', Course (fun place => absorbSiblingList place.here)
        ⟨parent, before, place.here.map Node.legible⟩ places' (result.map Node.legible) ∧
      Overtaken (places'.flatMap fun place => joinings place.here) (plainTexts place.here)
        (plainTexts result) := by
  induction h with
  | done =>
      intro parent before
      exact ⟨[], .done parent before, .none _⟩
  | @leaf _ _ rest after result node content places step _ ih =>
      intro parent before
      obtain ⟨places', hcourse, hlater⟩ := ih parent (.leaf content :: before)
      have hstep := overtaken_absorbSiblingList (node :: rest)
      have hchange := absorbSiblingList_map_legible (node :: rest)
      simp only at step hlater
      rw [step] at hstep hchange
      refine ⟨_, .leaf hchange hcourse, ?_⟩
      rw [List.flatMap_cons]
      exact hstep.append (hlater.behind (Node.leaf content).plainText)
  | @branch _ head _ rest children inside after result node below places step inner _ ihi ihl =>
      intro parent before
      obtain ⟨places', hcourse, hlater⟩ := ihl parent ((Node.branch head inside).legible :: before)
      obtain ⟨below', hbelow, hinner⟩ := ihi head []
      have hstep := overtaken_absorbSiblingList (node :: rest)
      have hchange := absorbSiblingList_map_legible (node :: rest)
      simp only at step hlater hinner hbelow
      rw [step] at hstep hchange
      rw [List.map_cons, List.map_cons, Node.legible_branch] at hchange
      rw [Node.legible_branch] at hcourse
      have hresult : (Node.branch head inside :: result).map Node.legible =
          .branch head (if head.hasValue then [] else inside.map Node.legible) ::
            result.map Node.legible := by
        rw [List.map_cons, Node.legible_branch]
      have hbehind := hlater.behind (Node.branch head inside).plainText
      rw [hresult]
      cases hvalue : head.hasValue with
      | true =>
          -- the value is read in place of the children, so that no list below counts
          simp only [hvalue, if_true] at hchange hcourse ⊢
          refine ⟨_, .branch hchange (.done head []) hcourse, ?_⟩
          have hsame : plainTexts (.branch head children :: after) =
              (Node.branch head inside).plainText ++ plainTexts after := by
            rw [Node.plainTexts_cons, Node.plainText_of_hasValue hvalue children inside]
          rw [hsame] at hstep
          rw [List.flatMap_cons, List.nil_append]
          exact hstep.append hbehind
      | false =>
          simp only [hvalue, Bool.false_eq_true, if_false] at hchange hcourse ⊢
          refine ⟨_, .branch hchange hbelow hcourse, ?_⟩
          have hinside := hinner.ahead (plainTexts after)
          rw [← Node.plainText_branch head children hvalue,
            ← Node.plainText_branch head inside hvalue] at hinside
          rw [List.flatMap_cons, List.flatMap_append]
          exact hstep.append (hinside.append hbehind)

/-- The text of a tree changes by the lists that join others, in the order in which they do. -/
theorem Node.overtaken_absorbSiblingLists (tree : Node) :
    Overtaken tree.legible.listsJoined tree.plainText tree.absorbSiblingLists.plainText := by
  cases tree with
  | leaf content => exact .none _
  | branch head children =>
      have hresult : (branch head children).absorbSiblingLists =
          .branch head (branch head children).absorbSiblingLists.children := by
        rw [absorbSiblingLists, edit_branch]
        rfl
      obtain ⟨places, hcourse, hovertaken⟩ :=
        (course_absorbSiblingLists head children).overtaken head []
      rw [hresult]
      cases hvalue : head.hasValue with
      | true =>
          have hplaces := (course_absorbSiblingLists head []).deterministic (.done head [])
          rw [legible_branch, if_pos hvalue, listsJoined, hplaces.1, List.flatMap_nil,
            plainText_of_hasValue hvalue children]
          exact .none _
      | false =>
          have hplaces :=
            (course_absorbSiblingLists head (children.map legible)).deterministic hcourse
          rw [legible_branch, hvalue, if_neg Bool.false_ne_true, listsJoined, hplaces.1,
            plainText_branch head _ hvalue, plainText_branch head _ hvalue]
          exact hovertaken

/-- Moving lists to the definition lists before them changes the text of a tree in this way alone: each
list that joins another one, in what the text reads, comes before the text of what stood between them.
So the text stays the same if none of these moves can be seen, as where nothing stands after the first
list in details that take in another one; and it does not if all but one of them cannot be seen. -/
theorem plainText_absorbSiblingLists (tree : Node) :
    Overtaken tree.legible.listsJoined tree.plainText tree.absorbSiblingLists.plainText ∧
      ((∀ joining ∈ tree.legible.listsJoined, joining.IsSilent) →
        tree.absorbSiblingLists.plainText = tree.plainText) ∧
      ∀ first joining second, tree.legible.listsJoined = first ++ joining :: second →
        (∀ other ∈ first ++ second, other.IsSilent) →
          (tree.absorbSiblingLists.plainText = tree.plainText ↔ joining.IsSilent) := by
  have hovertaken := tree.overtaken_absorbSiblingLists
  refine ⟨hovertaken, hovertaken.eq_of_silent, fun first joining second heq hsilent => ?_⟩
  rw [heq] at hovertaken
  exact hovertaken.eq_iff_of_silent hsilent

/-- One list joins another one with an empty paragraph after it, and a second one joins a list with a
break in a paragraph after it: both moves change nothing of the text. -/
theorem plainText_absorbSiblingLists_of_silent_moves :
    let tree := Node.plain .root
      [.descriptionList [.descriptionDetails [.bulletList [.itemOfText "a"], .paragraph []]],
        .bulletList [.itemOfText "b"], .paragraph [.text "c"],
        .descriptionList [.descriptionDetails
          [.bulletList [.itemOfText "d"], .paragraph [.lineBreak]]],
        .bulletList [.itemOfText "e"]]
    (∀ joining ∈ tree.legible.listsJoined, joining.IsSilent) ∧
      tree.legible.listsJoined.length = 2 ∧ tree.absorbSiblingLists.plainText = "abcde" := by
  intro tree
  have hsilent : ∀ joining ∈ tree.legible.listsJoined, joining.IsSilent := by
    decide +kernel
  exact ⟨hsilent, by decide +kernel,
    ((plainText_absorbSiblingLists tree).2.1 hsilent).trans (by decide +kernel)⟩

/-- A list joins the one that details open with, and so comes before the paragraph after that. -/
theorem not_forall_plainText_absorbSiblingLists :
    ¬ ∀ tree : Node, tree.absorbSiblingLists.plainText = tree.plainText := by
  intro hall
  have hsame := hall (.plain .root
    [.descriptionList [.descriptionDetails
      [.bulletList [.itemOfText "a"], .paragraph [.text "b"]]],
      .bulletList [.itemOfText "c"]])
  revert hsame
  decide +kernel

end DefinitionLists
