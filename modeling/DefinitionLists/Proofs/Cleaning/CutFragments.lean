/-
Module: DefinitionLists.Proofs.Cleaning.CutFragments
Purpose: What cleaning leaves of the lines that items in details open with: of the fragments at the end
  of a line, one is cut off. Hence which trees hold no fragments after it, and which are left as they
  are when it is done again.
Main exports: EndsInFragment, endsInFragment_cutFragment_iff, Node.listedItems, Node.leftItem,
  Node.leftText?, Node.FreeOfFragments, Node.FragmentsApart, cleanUp_cuts_fragments
-/
import Mathlib.Data.List.TakeWhile
import DefinitionLists.Proofs.Cleaning.Sweep

namespace DefinitionLists

open Node (isHollow mapBottomUp withoutAmong)
open Text (joinLines splitLines)

/-! ### Lines -/

/-- Whether the text is a colon, a space, a bullet, and then whatever holds no other colon. -/
def IsFragment (text : List Char) : Prop :=
  ∃ bullet rest, text = ':' :: ' ' :: bullet :: rest ∧
    (bullet = '-' ∨ bullet = '+' ∨ bullet = '*') ∧ ':' ∉ rest

/-- Whether the line ends in a fragment. -/
def EndsInFragment (line : List Char) : Prop :=
  ∃ before fragment, line = before ++ fragment ∧ IsFragment fragment

/-- Whether the line ends in two fragments, one right after the other. -/
def EndsInTwoFragments (line : List Char) : Prop :=
  ∃ before fragment, line = before ++ fragment ∧ IsFragment fragment ∧ EndsInFragment before

/-- Only what follows the last colon decides whether a line is cut. -/
theorem cutFragment_colon (before after : List Char) : ':' ∉ after →
    cutFragment (before ++ ':' :: after) =
      match after with
      | ' ' :: c :: _ =>
        if c = '-' ∨ c = '+' ∨ c = '*' then before else before ++ ':' :: after
      | _ => before ++ ':' :: after := by
  intro h
  have hafter : ∀ c ∈ after.reverse, decide (c ≠ ':') = true := by
    intro c hc
    rw [decide_eq_true_eq]
    rintro rfl
    exact h (List.mem_reverse.1 hc)
  have hreverse : (before ++ ':' :: after).reverse = after.reverse ++ ':' :: before.reverse := by simp
  have htake : (before ++ ':' :: after).reverse.takeWhile (· ≠ ':') = after.reverse := by
    rw [hreverse, List.takeWhile_append_of_pos hafter]
    simp
  have hdrop : (before ++ ':' :: after).reverse.dropWhile (· ≠ ':') = ':' :: before.reverse := by
    rw [hreverse, List.dropWhile_append_of_pos hafter]
    simp
  -- what is read backwards up to the first colon is what follows the last one
  rw [cutFragment, htake, hdrop, List.reverse_reverse]
  split
  · next heq =>
      obtain ⟨-, rfl⟩ := List.cons.inj heq
      simp only [List.reverse_reverse]
  · next hother =>
      split
      · exact absurd rfl (hother _ _ _ _ rfl)
      · rfl

theorem cutFragment_of_not_mem {line : List Char} (h : ':' ∉ line) : cutFragment line = line := by
  have hdrop : line.reverse.dropWhile (· ≠ ':') = [] := by
    rw [List.dropWhile_eq_nil_iff]
    intro c hc
    rw [decide_eq_true_eq]
    rintro rfl
    exact h (List.mem_reverse.1 hc)
  rw [cutFragment, hdrop]

theorem exists_last_colon {line : List Char} (h : ':' ∈ line) :
    ∃ before after, line = before ++ ':' :: after ∧ ':' ∉ after := by
  obtain ⟨after, before, hline, hafter⟩ := List.eq_append_cons_of_mem (List.mem_reverse.2 h)
  refine ⟨before.reverse, after.reverse, ?_, by simpa using hafter⟩
  rw [← List.reverse_reverse line, hline]
  simp

/-- A fragment at the end of a line is cut off. -/
theorem cutFragment_append {fragment : List Char} (h : IsFragment fragment) (before : List Char) :
    cutFragment (before ++ fragment) = before := by
  obtain ⟨bullet, rest, rfl, hbullet, hrest⟩ := h
  have hafter : ':' ∉ ' ' :: bullet :: rest := by
    rintro hmem
    rcases hbullet with rfl | rfl | rfl <;> simp [hrest] at hmem
  rw [cutFragment_colon before _ hafter]
  exact if_pos hbullet

/-- A line that does not end in a fragment stays. -/
theorem cutFragment_of_not {line : List Char} (h : ¬ EndsInFragment line) :
    cutFragment line = line := by
  by_cases hcolon : ':' ∈ line
  · obtain ⟨before, after, rfl, hafter⟩ := exists_last_colon hcolon
    rw [cutFragment_colon before _ hafter]
    split
    · next bullet rest =>
        have hbullet : ¬ (bullet = '-' ∨ bullet = '+' ∨ bullet = '*') := fun hbullet =>
          h ⟨before, _, rfl, bullet, rest, rfl, hbullet, fun hmem => hafter (by simp [hmem])⟩
        exact if_neg hbullet
    · rfl
  · exact cutFragment_of_not_mem hcolon

/-- A line that ends in a fragment loses it, and no other line loses anything. -/
theorem endsInFragment_iff {line : List Char} : EndsInFragment line ↔ cutFragment line ≠ line := by
  constructor
  · rintro ⟨before, fragment, rfl, hfragment⟩ hcut
    rw [cutFragment_append hfragment] at hcut
    obtain ⟨bullet, rest, rfl, -⟩ := hfragment
    simp at hcut
  · exact fun h => not_not.1 fun hnot => h (cutFragment_of_not hnot)

theorem mem_of_mem_cutFragment {line : List Char} {c : Char} (h : c ∈ cutFragment line) :
    c ∈ line := by
  by_cases hends : EndsInFragment line
  · obtain ⟨before, fragment, rfl, hfragment⟩ := hends
    rw [cutFragment_append hfragment] at h
    exact List.mem_append_left fragment h
  · rwa [cutFragment_of_not hends] at h

/-- Where a fragment was cut off, there is another one if there were two. -/
theorem endsInFragment_cutFragment_iff {line : List Char} :
    EndsInFragment (cutFragment line) ↔ EndsInTwoFragments line := by
  constructor
  · intro h
    by_cases hline : EndsInFragment line
    · obtain ⟨before, fragment, rfl, hfragment⟩ := hline
      rw [cutFragment_append hfragment] at h
      exact ⟨before, fragment, rfl, hfragment, h⟩
    · rw [cutFragment_of_not hline] at h
      exact absurd h hline
  · rintro ⟨before, fragment, rfl, hfragment, hbefore⟩
    rwa [cutFragment_append hfragment]

/-- Fragments are cut off line by line. -/
theorem splitLines_cutFragments (text : List Char) :
    splitLines (cutFragments text) = (splitLines text).map cutFragment := by
  refine Text.splitLines_joinLines (by simp [Text.splitLines_ne_nil]) ?_
  simp only [List.forall_mem_map]
  exact fun line hline hmem =>
    Text.not_mem_of_mem_splitLines hline (mem_of_mem_cutFragment hmem)

/-- The text with the fragment at the end of each line cut off. -/
def cutText (text : String) : String := String.ofList (cutFragments text.toList)

/-- The lines of a text that was cut are its lines, each of them cut. -/
theorem forall_lines_cutText {good : List Char → Prop} (text : String) :
    (∀ line ∈ splitLines (cutText text).toList, good line) ↔
      ∀ line ∈ splitLines text.toList, good (cutFragment line) := by
  rw [cutText, String.toList_ofList, splitLines_cutFragments, List.forall_mem_map]

/-- A text in which no line ends in a fragment stays as it is, and no other text does. -/
theorem cutText_eq_self_iff {text : String} :
    cutText text = text ↔ ∀ line ∈ splitLines text.toList, ¬ EndsInFragment line := by
  constructor
  · intro h
    have hlines := splitLines_cutFragments text.toList
    have htext : cutFragments text.toList = text.toList := by
      rw [← String.toList_ofList (l := cutFragments text.toList)]
      exact congrArg String.toList h
    rw [htext] at hlines
    have hsame := List.map_inj_left.1 (hlines.symm.trans (List.map_id _).symm)
    exact fun line hline hends => endsInFragment_iff.1 hends (hsame line hline)
  · intro h
    have hsame : (splitLines text.toList).map cutFragment = splitLines text.toList :=
      (List.map_congr_left fun line hline => cutFragment_of_not (h line hline)).trans (List.map_id _)
    rw [cutText, cutFragments, hsame, Text.joinLines_splitLines, String.ofList_toList]

/-! ### Items in details -/

namespace Node

/-- The items of the lists that stand right in the node, if it has the name of details. -/
def itemsOfLists (node : Node) : List Node :=
  if node.isNamed .descriptionDetails then (node.children.filter isList).flatMap children else []

/-- The items of all lists that stand right in details. -/
def listedItems (tree : Node) : List Node := tree.preorder.flatMap itemsOfLists

theorem listedItems_branch (head : Branch) (children : List Node) :
    (branch head children).listedItems =
      (branch head children).itemsOfLists ++ children.flatMap listedItems := by
  rw [listedItems, preorder, List.flatMap_cons, preorderList_eq_flatMap, List.flatMap_assoc]
  rfl

theorem listedItems_of_not_details {head : Branch}
    (h : head.isNamed .descriptionDetails = false) (children : List Node) :
    (branch head children).listedItems = children.flatMap listedItems := by
  have hown : (branch head children).itemsOfLists = [] := by simp [itemsOfLists, isNamed, h]
  rw [listedItems_branch, hown, List.nil_append]

/-- The text that an item opens with is in no other item. -/
theorem listedItems_mapFirstText (f : String → String) (node : Node) :
    (node.mapFirstText f).listedItems = node.listedItems := by
  cases h : node.firstText? with
  | none => rw [mapFirstText_of_none h]
  | some text =>
      obtain ⟨spread, checked, hint, inner, span, inlines, blocks, rfl⟩ := exists_of_firstText h
      have hitem : (Branch.listItem spread checked hint).isNamed .descriptionDetails = false := rfl
      have hparagraph : (Branch.container .paragraph inner span).isNamed .descriptionDetails =
          false := rfl
      simp only [mapFirstText, listedItems_of_not_details hitem,
        listedItems_of_not_details hparagraph, List.flatMap_cons]
      rfl

/-- Cutting goes no deeper than an item's first text, so that the items below are the same. -/
theorem listedItems_cleanList (node : Node) :
    (cleanList false node).listedItems = node.listedItems := by
  cases hlist : node.isList with
  | false => rw [cleanList_of_isList false hlist]
  | true =>
      obtain ⟨ordered, start, spread, hint, items, rfl⟩ := eq_list_of_isList hlist
      have hhead : (Branch.list ordered start spread hint).isNamed .descriptionDetails = false :=
        rfl
      rw [cleanList_list, if_neg (by simp), listedItems_of_not_details hhead,
        listedItems_of_not_details hhead, List.flatMap_map]
      exact List.flatMap_congr fun item _ => listedItems_mapFirstText _ item

/-- What cleaning makes of the items of a list in details, before any of them goes. -/
theorem children_cleanList_sweep {node : Node} (h : node.isList = true) :
    (cleanList false (node.sweep false)).children =
      node.children.map fun item => cutItem (item.sweep false) := by
  obtain ⟨ordered, start, spread, hint, items, rfl⟩ := eq_list_of_isList h
  have hswept : (branch (.list ordered start spread hint) items).sweep false =
      .branch (.list ordered start spread hint) (items.map (sweep false)) :=
    mapBottomUp_list (changesDetails_rewritePart _) ordered start spread hint items
  rw [hswept, cleanList_list, if_neg (by simp), children, children, List.map_map]
  rfl

/-- Each item in details is cut, and what is inside of it is cleaned. -/
theorem listedItems_sweep (tree : Node) : (tree.sweep false).listedItems =
    tree.listedItems.map fun item => cutItem (item.sweep false) := by
  cases tree with
  | leaf content => rfl
  | branch head children =>
      have hinner : ∀ child ∈ children, (child.sweep false).listedItems =
          child.listedItems.map fun item => cutItem (item.sweep false) :=
        fun child _ => listedItems_sweep child
      rw [sweep_branch]
      cases hd : head.isNamed .descriptionDetails with
      | false =>
          simp only [Bool.false_eq_true, if_false]
          rw [listedItems_of_not_details hd, listedItems_of_not_details hd, List.flatMap_map,
            List.map_flatMap]
          exact List.flatMap_congr hinner
      | true =>
          -- cleaning may change what is in a list, but not which children are lists
          have hlist (child : Node) : (cleanList false (child.sweep false)).isList = child.isList :=
            (isList_cleanList false _).trans (isList_mapBottomUp (changesDetails_rewritePart _) child)
          simp only [Bool.false_and, if_true]
          rw [listedItems_branch, listedItems_branch, List.map_append]
          congr 1
          · -- the items of the lists among the children, then those further down
            have hfilter : (isList ∘ fun child : Node => cleanList false (child.sweep false)) =
                isList := funext hlist
            simp only [itemsOfLists, isNamed, hd, if_true, Node.children]
            rw [List.filter_map, hfilter, List.flatMap_map, List.map_flatMap]
            exact List.flatMap_congr fun child hchild =>
              children_cleanList_sweep (List.mem_filter.1 hchild).2
          · rw [List.flatMap_map, List.map_flatMap]
            exact List.flatMap_congr fun child hchild =>
              (listedItems_cleanList _).trans (hinner child hchild)

theorem listedItems_of_isHollow {node : Node} (h : node.isHollow = true) : node.listedItems = [] := by
  refine List.flatMap_eq_nil_iff.2 fun inner hinner => ?_
  have hitem := List.all_eq_true.1 h inner hinner
  simp [itemsOfLists, not_isDetails_of_isListItem hitem]

theorem isList_without (gone : Node → Bool) (node : Node) :
    (node.without gone).isList = node.isList := by
  cases node with
  | leaf content => rfl
  | branch head children => cases head <;> rfl

/-- No list goes. -/
theorem filter_isList_withoutAmong (nodes : List Node) :
    (withoutAmong isHollow nodes).filter isList = (nodes.filter isList).map (without isHollow) := by
  have hlist : isList ∘ without isHollow = isList := funext (isList_without isHollow)
  rw [withoutAmong_eq, List.filter_map, hlist, List.filter_filter]
  refine congrArg (List.map _) (List.filter_congr fun node _ => ?_)
  cases h : node.isList with
  | false => rfl
  | true => simp [isHollow_of_isList h]

/-- Nothing is lost with the hollow nodes. -/
theorem flatMap_listedItems_withoutAmong (nodes : List Node) :
    (withoutAmong isHollow nodes).flatMap listedItems =
      nodes.flatMap fun node => (node.without isHollow).listedItems := by
  induction nodes with
  | nil => rfl
  | cons node more ih =>
      rw [withoutAmong, List.flatMap_cons]
      split
      · next hgone =>
          cases node with
          | leaf content => cases hgone
          | branch head children =>
              -- an item without its children is still an item, and hollow: nothing is listed in it
              have hitem : (branch head []).isListItem = (branch head children).isListItem := by
                cases head <;> rfl
              have hleft : (branch head []).isHollow = true := (isHollow_branch head []).2
                ⟨hitem.trans ((isHollow_branch head children).1 hgone).1, by simp⟩
              rw [without_of_isHollow hgone, listedItems_of_isHollow hleft, List.nil_append, ih]
      · rw [List.flatMap_cons, ih]

/-- The items that are left in details are those that are not hollow. -/
theorem listedItems_without (tree : Node) : (tree.without isHollow).listedItems =
    (tree.listedItems.filter (fun item => !item.isHollow)).map (without isHollow) := by
  cases tree with
  | leaf content => rfl
  | branch head children =>
      have hinner : ∀ child ∈ children, (child.without isHollow).listedItems =
          (child.listedItems.filter (fun item => !item.isHollow)).map (without isHollow) :=
        fun child _ => listedItems_without child
      -- the lists among the children are not hollow themselves, so none of them is lost
      have hown : (branch head (withoutAmong isHollow children)).itemsOfLists =
          ((branch head children).itemsOfLists.filter (fun item => !item.isHollow)).map
            (without isHollow) := by
        cases hd : head.isNamed .descriptionDetails with
        | false => simp [itemsOfLists, isNamed, hd]
        | true =>
            simp only [itemsOfLists, isNamed, hd, if_true, Node.children]
            rw [filter_isList_withoutAmong, List.flatMap_map, List.filter_flatMap, List.map_flatMap]
            exact List.flatMap_congr fun list _ => (children_without _ _).trans (withoutAmong_eq _ _)
      rw [without, listedItems_branch, listedItems_branch, List.filter_append, List.map_append, hown,
        flatMap_listedItems_withoutAmong, List.filter_flatMap, List.map_flatMap]
      exact congrArg _ (List.flatMap_congr hinner)

/-! ### The items that cleaning leaves -/

/-- What cleaning leaves of an item in details: what it makes of the item as a tree of its own, with the
fragments cut off the text that the item opened with before. -/
def leftItem (item : Node) : Node :=
  match item.firstText? with
  | some _ => cutItem (item.cleanUp false)
  | none => item.cleanUp false

/-- The text that an item opens with after cleaning: its own with fragments cut off, or else one that
only hollow items stood before. -/
def leftText? (item : Node) : Option String :=
  match item.firstText? with
  | some value => some (cutText value)
  | none => (item.without isHollow).firstText?

theorem firstText_sweep (item : Node) (seeded : Bool) :
    (item.sweep seeded).firstText? = item.firstText? :=
  firstText_mapBottomUp (changesDetails_rewritePart _) item

/-- An item still opens with its text when the hollow nodes are gone. -/
theorem without_mapFirstText (f : String → String) {item : Node} {value : String}
    (h : item.firstText? = some value) :
    (item.mapFirstText f).without isHollow = (item.without isHollow).mapFirstText f := by
  obtain ⟨spread, checked, hint, inner, span, inlines, blocks, rfl⟩ := exists_of_firstText h
  rfl

theorem without_cutItem_sweep (item : Node) :
    (cutItem (item.sweep false)).without isHollow = item.leftItem := by
  have hswept := item.firstText_sweep false
  rw [leftItem, cleanUp_eq_sweep, cutItem]
  cases htext : item.firstText? with
  | none => rw [mapFirstText_of_none (hswept.trans htext)]
  | some value => exact without_mapFirstText _ (hswept.trans htext)

theorem firstText_without_cutItem (item : Node) :
    ((cutItem item).without isHollow).firstText? = item.leftText? := by
  unfold leftText?
  cases h : item.firstText? with
  | none => rw [cutItem, mapFirstText_of_none h]
  | some value =>
      obtain ⟨spread, checked, hint, inner, span, inlines, blocks, rfl⟩ := exists_of_firstText h
      rfl

theorem firstText_leftItem (item : Node) : item.leftItem.firstText? = item.leftText? := by
  have hchanges := changesDetails_rewritePart fun opens => cleanList (false && opens)
  rw [← without_cutItem_sweep, cutItem, sweep, mapFirstText_mapBottomUp hchanges,
    firstText_without_mapBottomUp hchanges]
  exact firstText_without_cutItem item

/-- The tree without the items that are dropped as repeated ones, if any are. -/
def withoutSeeds (seeded : Bool) (tree : Node) : Node := if seeded then tree.dropSeeds true else tree

/-- Cleaning is three rewrites, one after another: repeated items go, fragments are cut, and what is then
hollow is removed. -/
theorem cleanUp_eq_withoutSeeds (seeded : Bool) (tree : Node) :
    tree.cleanUp seeded = ((tree.withoutSeeds seeded).sweep false).without isHollow := by
  rw [cleanUp_eq_sweep]
  cases seeded with
  | false => rfl
  | true => rw [withoutSeeds, if_pos rfl, sweep_dropSeeds]

theorem isHollow_mapFirstText (f : String → String) (node : Node) :
    (node.mapFirstText f).isHollow = node.isHollow := by
  cases h : node.firstText? with
  | none => rw [mapFirstText_of_none h]
  | some text =>
      obtain ⟨spread, checked, hint, inner, span, inlines, blocks, rfl⟩ := exists_of_firstText h
      rfl

/-- Of the items in details those stay that hold anything, each as cleaning leaves it. -/
theorem listedItems_cleanUp (tree : Node) (seeded : Bool) :
    (tree.cleanUp seeded).listedItems =
      ((tree.withoutSeeds seeded).listedItems.filter (fun item => !item.isHollow)).map leftItem := by
  have hhollow (item : Node) : (cutItem (item.sweep false)).isHollow = item.isHollow :=
    (isHollow_mapFirstText _ _).trans (isHollow_mapBottomUp (changesDetails_rewritePart _) item)
  have hfilter : ((fun item => !item.isHollow) ∘ fun item : Node => cutItem (item.sweep false)) =
      fun item => !item.isHollow := funext fun item => congrArg _ (hhollow item)
  rw [cleanUp_eq_withoutSeeds, listedItems_without, listedItems_sweep, List.filter_map, List.map_map,
    hfilter]
  exact List.map_congr_left fun item _ => without_cutItem_sweep item

/-- The items in details open with the texts that cleaning leaves of them. -/
theorem map_firstText_cleanUp (tree : Node) (seeded : Bool) :
    (tree.cleanUp seeded).listedItems.map firstText? =
      ((tree.withoutSeeds seeded).listedItems.filter (fun item => !item.isHollow)).map leftText? := by
  rw [listedItems_cleanUp, List.map_map]
  exact List.map_congr_left fun item _ => firstText_leftItem item

/-! ### Trees without fragments -/

/-- Whether no line of a text that an item in details opens with ends in a fragment. -/
def FreeOfFragments (tree : Node) : Prop :=
  ∀ item ∈ tree.listedItems, ∀ text ∈ item.firstText?, ∀ line ∈ splitLines text.toList,
    ¬ EndsInFragment line

/-- Whether no line that an item in details opens with ends in two fragments, and none ends in one in a
text that only hollow items stand before. -/
def FragmentsApart (tree : Node) : Prop :=
  ∀ item ∈ tree.listedItems,
    (∀ text ∈ item.firstText?, ∀ line ∈ splitLines text.toList, ¬ EndsInTwoFragments line) ∧
      (item.firstText? = none → ∀ text ∈ (item.without isHollow).firstText?,
        ∀ line ∈ splitLines text.toList, ¬ EndsInFragment line)

/-- A first text is left free of fragments if none of its lines ends in two of them. Where hollow items
stand before it, nothing is cut, so that none may end in one. -/
theorem forall_leftText_iff (item : Node) :
    (∀ text ∈ item.leftText?, ∀ line ∈ splitLines text.toList, ¬ EndsInFragment line) ↔
      (∀ text ∈ item.firstText?, ∀ line ∈ splitLines text.toList, ¬ EndsInTwoFragments line) ∧
        (item.firstText? = none → ∀ text ∈ (item.without isHollow).firstText?,
          ∀ line ∈ splitLines text.toList, ¬ EndsInFragment line) := by
  unfold leftText?
  cases item.firstText? with
  | none => simp
  | some value =>
      simp only [Option.mem_some_iff, forall_eq', forall_lines_cutText,
        endsInFragment_cutFragment_iff, reduceCtorEq, false_imp_iff, and_true]

theorem leftText_of_isHollow {item : Node} (h : item.isHollow = true) : item.leftText? = none := by
  unfold leftText?
  cases htext : item.firstText? with
  | some value =>
      obtain ⟨spread, checked, hint, inner, span, inlines, blocks, rfl⟩ := exists_of_firstText htext
      cases h
  | none =>
      cases item with
      | leaf content => cases h
      | branch head children =>
          rw [without_of_isHollow h]
          cases head <;> rfl

/-- Cleaning leaves no fragments exactly if none stood behind others. -/
theorem freeOfFragments_cleanUp_iff (tree : Node) (seeded : Bool) :
    (tree.cleanUp seeded).FreeOfFragments ↔ (tree.withoutSeeds seeded).FragmentsApart := by
  have hfree : (tree.cleanUp seeded).FreeOfFragments ↔
      ∀ found ∈ (tree.cleanUp seeded).listedItems.map firstText?, ∀ text ∈ found,
        ∀ line ∈ splitLines text.toList, ¬ EndsInFragment line := by
    rw [FreeOfFragments, List.forall_mem_map]
  rw [hfree, map_firstText_cleanUp, List.forall_mem_map]
  constructor
  · intro h item hitem
    refine (forall_leftText_iff item).1 ?_
    cases hhollow : item.isHollow with
    | true => simp [leftText_of_isHollow hhollow]
    | false => exact h item (List.mem_filter.2 ⟨hitem, by simp [hhollow]⟩)
  · exact fun h item hitem => (forall_leftText_iff item).2 (h item (List.mem_filter.1 hitem).1)

/-! ### Cleaning again -/

theorem cutItem_of_free {item : Node} (h : ∀ text ∈ item.firstText?,
    ∀ line ∈ splitLines text.toList, ¬ EndsInFragment line) : cutItem item = item := by
  cases htext : item.firstText? with
  | none => exact mapFirstText_of_none htext _
  | some value =>
      have hvalue : cutText value = value := cutText_eq_self_iff.2 (h value htext)
      obtain ⟨spread, checked, hint, inner, span, inlines, blocks, rfl⟩ := exists_of_firstText htext
      exact congrArg (fun value => branch (.listItem spread checked hint)
        (.branch (.container .paragraph inner span) (.text value :: inlines) :: blocks)) hvalue

theorem cleanList_of_cutItem {node : Node}
    (h : node.isList = true → ∀ item ∈ node.children, cutItem item = item) :
    cleanList false node = node := by
  cases hlist : node.isList with
  | false => exact cleanList_of_isList false hlist
  | true =>
      obtain ⟨ordered, start, spread, hint, items, rfl⟩ := eq_list_of_isList hlist
      have hcut : items.map cutItem = items := (List.map_congr_left (h rfl)).trans (List.map_id _)
      rw [cleanList_list, if_neg (by simp), hcut]

/-- Where no fragments are left, there is nothing to cut. -/
theorem sweep_of_freeOfFragments {tree : Node} (h : tree.FreeOfFragments) :
    tree.sweep false = tree := by
  cases tree with
  | leaf content => rfl
  | branch head children =>
      -- the items here and those below are free of fragments separately
      have hfree : ∀ item ∈ (branch head children).itemsOfLists ++ children.flatMap listedItems,
          ∀ text ∈ item.firstText?, ∀ line ∈ splitLines text.toList, ¬ EndsInFragment line := by
        rw [← listedItems_branch]
        exact h
      have hchildren : ∀ child ∈ children, child.sweep false = child := fun child hchild =>
        sweep_of_freeOfFragments fun item hitem =>
          hfree item (List.mem_append_right _ (List.mem_flatMap.2 ⟨child, hchild, hitem⟩))
      rw [sweep_branch]
      refine congrArg (branch head) ((List.map_congr_left fun child hchild => ?_).trans
        (List.map_id _))
      rw [hchildren child hchild]
      cases hd : head.isNamed .descriptionDetails with
      | false => rfl
      | true =>
          refine cleanList_of_cutItem fun hlist item hitem =>
            cutItem_of_free (hfree item (List.mem_append_left _ ?_))
          have hdetails : (branch head children).isNamed .descriptionDetails = true := hd
          rw [itemsOfLists, if_pos hdetails]
          exact List.mem_flatMap.2 ⟨child, List.mem_filter.2 ⟨hchild, hlist⟩, hitem⟩

theorem without_of_filled {node : Node} (h : node.Filled) : node.without isHollow = node := by
  rw [← removeEmptyItems_eq_without, removeEmptyItems_of_filled h]

theorem not_isHollow_of_filled {node : Node} (h : node.Filled)
    (hc : node.isListItem = true → node.children ≠ []) : node.isHollow = false := by
  by_contra hhollow
  rw [Bool.not_eq_false] at hhollow
  cases node with
  | leaf content => cases hhollow
  | branch head children =>
      have hleft := (without_of_isHollow hhollow).symm.trans (without_of_filled h)
      exact hc ((isHollow_branch head children).1 hhollow).1 (branch.inj hleft).2.symm

/-- Where no item is empty, none in details is, and there is nothing to remove in it. -/
theorem filled_of_mem_listedItems {tree item : Node} (h : tree.Filled)
    (hi : item ∈ tree.listedItems) : item.Filled ∧ item.isHollow = false := by
  cases tree with
  | leaf content => cases hi
  | branch head children =>
      have hchildren := allFilled_iff.1 h
      rw [listedItems_branch] at hi
      rcases List.mem_append.1 hi with hi | hi
      · unfold itemsOfLists at hi
        split at hi
        · obtain ⟨list, hlist, hi⟩ := List.mem_flatMap.1 hi
          have hitems : AllFilled list.children := (hchildren list (List.mem_filter.1 hlist).1).2
          obtain ⟨hitem, hfilled⟩ := allFilled_iff.1 hitems item hi
          exact ⟨hfilled, not_isHollow_of_filled hfilled hitem⟩
        · cases hi
      · obtain ⟨child, hchild, hi⟩ := List.mem_flatMap.1 hi
        exact filled_of_mem_listedItems (hchildren child hchild).2 hi

theorem leftText_of_filled {item : Node} (h : item.Filled) :
    item.leftText? = item.firstText?.map cutText := by
  unfold leftText?
  cases htext : item.firstText? with
  | none => rw [without_of_filled h, htext, Option.map_none]
  | some value => rfl

/-- A tree without empty items is left as it is exactly if there are no fragments in it. -/
theorem cleanUp_eq_self_iff {tree : Node} (h : tree.Filled) :
    tree.cleanUp false = tree ↔ tree.FreeOfFragments := by
  have hwithout : tree.withoutSeeds false = tree := rfl
  constructor
  · intro hsame item hitem text htext
    have hkept : tree.listedItems.filter (fun item => !item.isHollow) = tree.listedItems :=
      List.filter_eq_self.2 fun item hitem => by simp [(filled_of_mem_listedItems h hitem).2]
    have htexts := map_firstText_cleanUp tree false
    rw [hsame, hwithout, hkept] at htexts
    have hcut := List.map_inj_left.1 htexts item hitem
    rw [leftText_of_filled (filled_of_mem_listedItems h hitem).1, htext] at hcut
    exact cutText_eq_self_iff.1 (Option.some.inj hcut).symm
  · intro hfree
    rw [cleanUp_eq_withoutSeeds, hwithout, sweep_of_freeOfFragments hfree, without_of_filled h]

end Node

/-- Cleaning leaves the items in details that hold anything, in their order, each as it would be left by
itself but for one fragment cut off each line of the text that it opens with; a text that only empty items
stand before is brought out and not cut. So no such line ends in a fragment then, and cleaning what it
left once more changes nothing, exactly if no line ended in two fragments before, and none in one that is
in a text brought out. -/
theorem cleanUp_cuts_fragments (tree : Node) (seeded : Bool) :
    tree.cleanUp seeded = ((tree.withoutSeeds seeded).sweep false).without isHollow ∧
      (tree.cleanUp seeded).listedItems =
        ((tree.withoutSeeds seeded).listedItems.filter (fun item => !item.isHollow)).map
          Node.leftItem ∧
      (∀ item ∈ (tree.withoutSeeds seeded).listedItems,
        item.leftItem.firstText? = item.leftText?) ∧
      ((tree.cleanUp seeded).FreeOfFragments ↔ (tree.withoutSeeds seeded).FragmentsApart) ∧
      ((tree.cleanUp seeded).cleanUp false = tree.cleanUp seeded ↔
        (tree.withoutSeeds seeded).FragmentsApart) := by
  refine ⟨Node.cleanUp_eq_withoutSeeds seeded tree, Node.listedItems_cleanUp tree seeded,
    fun item _ => item.firstText_leftItem, Node.freeOfFragments_cleanUp_iff tree seeded, ?_⟩
  rw [Node.cleanUp_eq_self_iff (Node.filled_cleanUp _ _)]
  exact Node.freeOfFragments_cleanUp_iff tree seeded

/-- Of two fragments at the end of a line, the first stays, to go when cleaning is done again. -/
theorem not_forall_freeOfFragments_cleanUp :
    (¬ ∀ (tree : Node) (seeded : Bool), (tree.cleanUp seeded).FreeOfFragments) ∧
      ¬ ∀ tree : Node, (tree.cleanUp false).cleanUp false = tree.cleanUp false := by
  have hcleaned : (Node.descriptionDetails [.bulletList [.itemOfText "a: - b: - c"]]).cleanUp false =
      .descriptionDetails [.bulletList [.itemOfText "a: - b"]] := by
    decide +kernel
  have hagain : (Node.descriptionDetails [.bulletList [.itemOfText "a: - b"]]).cleanUp false =
      .descriptionDetails [.bulletList [.itemOfText "a"]] := by
    decide +kernel
  have hlines : "a: - b".toList ∈ splitLines "a: - b".toList := by decide +kernel
  refine ⟨fun hall => ?_, fun hall => ?_⟩
  · have hfree := hall (.descriptionDetails [.bulletList [.itemOfText "a: - b: - c"]]) false
    rw [hcleaned] at hfree
    refine hfree (.itemOfText "a: - b") ?_ "a: - b" rfl _ hlines
      ⟨['a'], ": - b".toList, by decide, '-', [' ', 'b'], by decide, .inl rfl, by decide⟩
    decide +kernel
  · have hsame := hall (.descriptionDetails [.bulletList [.itemOfText "a: - b: - c"]])
    rw [hcleaned, hagain] at hsame
    revert hsame
    decide +kernel

end DefinitionLists
