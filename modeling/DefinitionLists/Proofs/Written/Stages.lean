/-
Module: DefinitionLists.Proofs.Written.Stages
Purpose: What the stages after the builder make of a definition list of words and of a list after it.
Main exports: wordList, definitionDocument, IsWordBlock, gatherDetails_words, absorbSiblingLists_list,
  resolveKinds_words, cleanUp_words, afterCleanup_words
-/
import Mathlib.Data.List.TakeWhile
import DefinitionLists.Proofs.FilledItems
import DefinitionLists.Proofs.Seeds
import DefinitionLists.Proofs.Unchanged
import DefinitionLists.Proofs.Written.Trees

namespace DefinitionLists

open Node (allHeads allHeadsIn allProse edit_branch editFrom editFrom_cons editWithin)

/-- A tight list of words. -/
def wordList (ordered : Bool) (start : Option UInt64) (words : List Word) : Node :=
  .branch (.list ordered start false none) (wordItems words)

/-- A document that defines a word by the blocks of a body. Other nodes may come after the
definition. -/
def definitionDocument (span : Span) (term : Word) (body after : List Node) : Node :=
  .branch (.container .root none (some span))
    (.descriptionList [.descriptionTerm [.text term.string], .descriptionDetails body] :: after)

/-- Whether the node is a paragraph of one word or a list of words. -/
inductive IsWordBlock : Node → Prop where
  | paragraph (span : Span) (word : Word) : IsWordBlock (wordParagraph span word)
  | list (ordered : Bool) (start : Option UInt64) (words : List Word) :
      IsWordBlock (wordList ordered start words)

/-! ### Blocks of words -/

/-- A word has no marker. -/
theorem Word.match_eq_none (word : Word) : Marker.match? word.chars = none := by
  obtain ⟨c, rest, heq, hc, -⟩ := word.exists_cons
  rw [heq]
  exact Marker.match_of_opensText (opensText_of_isAlpha hc) (isDigit_of_isAlpha hc) rest

/-- A word has no fragment at its end. -/
theorem Word.cutFragments_eq (word : Word) : cutFragments word.chars = word.chars := by
  have hcolon : ∀ c ∈ word.chars, c ≠ ':' := by
    intro c hc
    exact ne_of_class (word.letters c hc) (by decide)
  have hdrop : word.chars.reverse.dropWhile (· ≠ ':') = [] := by
    simpa [List.dropWhile_eq_nil_iff] using hcolon
  have hcut : cutFragment word.chars = word.chars := by
    unfold cutFragment
    simp only [hdrop]
  rw [cutFragments, splitLines_of_unbroken (Markdown.unbroken_word word), List.map_singleton, hcut]
  rfl

/-- A change of first texts that keeps words keeps their items. -/
theorem map_mapFirstText_wordItems {f : String → String}
    (h : ∀ word : Word, f word.string = word.string) (words : List Word) :
    (wordItems words).map (Node.mapFirstText f) = wordItems words := by
  rw [wordItems, List.map_map]
  refine List.map_congr_left fun word _ => ?_
  show Node.itemOfText (f word.string) = .itemOfText word.string
  rw [h]

theorem allProse_wordItems (words : List Word) : allProse (wordItems words) = true := by
  rw [Node.allProse_iff]
  intro node hnode
  obtain ⟨word, -, rfl⟩ := List.mem_map.1 hnode
  exact Node.isProse_itemOfText _

/-- Lists of words keep their kind, for no word is a numbered item. -/
theorem resolveKind_wordList (ordered : Bool) (start : Option UInt64) (words : List Word) :
    resolveKind (wordList ordered start words) = wordList ordered start words := by
  have hstrip (word : Word) :
      String.ofList (stripMarkers .any word.string.toList) = word.string := by
    have hmatch := word.match_eq_none
    rw [Word.string, String.toList_ofList, stripMarkers]
    split
    · next heq =>
        rw [hmatch] at heq
        cases heq
    · rfl
  have hnumbered : (wordItems words).any (fun item =>
      item.firstText?.any fun text => isOrdinalItem text.toList) = false := by
    rw [List.any_eq_false]
    intro node hnode
    obtain ⟨word, -, rfl⟩ := List.mem_map.1 hnode
    simp [Node.itemOfText, Node.paragraph, Node.plain, Node.firstText?, Word.string, isOrdinalItem,
      word.match_eq_none]
  rw [wordList, resolveKind, hnumbered, Bool.or_false, map_mapFirstText_wordItems hstrip]

/-- Cleaning takes nothing from a list of words but the first item of one that got it twice. -/
theorem cleanList_wordList (seeded ordered : Bool) (start : Option UInt64) (words : List Word) :
    cleanList seeded (wordList ordered start words) =
      wordList ordered start (if seeded then words.drop 1 else words) := by
  have hcut (word : Word) : String.ofList (cutFragments word.string.toList) = word.string := by
    rw [Word.string, String.toList_ofList, word.cutFragments_eq]
  have hitems : (wordItems words).map cutItem = wordItems words := map_mapFirstText_wordItems hcut words
  rw [wordList, cleanList_list, hitems, wordList]
  cases seeded with
  | false => rfl
  | true => simp [wordItems]

theorem cleanList_wordParagraph (seeded : Bool) (span : Span) (word : Word) :
    cleanList seeded (wordParagraph span word) = wordParagraph span word := rfl

theorem isList_wordList (ordered : Bool) (start : Option UInt64) (words : List Word) :
    (wordList ordered start words).isList = true := rfl

theorem isList_wordParagraph (span : Span) (word : Word) :
    (wordParagraph span word).isList = false := rfl

namespace IsWordBlock

variable {node : Node}

theorem isProse (h : IsWordBlock node) : node.isProse = true := by
  cases h with
  | paragraph span word => simp [wordParagraph, Branch.isSpecial, Container.isSpecial]
  | list ordered start words => simp [wordList, Branch.isSpecial, allProse_wordItems]

theorem looseItems_eq_none (h : IsWordBlock node) : looseItems? node = none := by
  cases h <;> rfl

theorem resolveKind_eq (h : IsWordBlock node) : resolveKind node = node := by
  cases h with
  | paragraph span word => rfl
  | list ordered start words => exact resolveKind_wordList ordered start words

theorem cleanList (h : IsWordBlock node) (seeded : Bool) :
    IsWordBlock (DefinitionLists.cleanList seeded node) := by
  cases h with
  | paragraph span word =>
      rw [cleanList_wordParagraph]
      exact .paragraph span word
  | list ordered start words =>
      rw [cleanList_wordList]
      exact .list _ _ _

theorem allFilled (h : IsWordBlock node) : Node.AllFilled [node] := by
  cases h with
  | paragraph span word =>
      exact Node.allFilled_container.2 ⟨Node.allFilled_leaf _, Node.allFilled_nil⟩
  | list ordered start words =>
      refine Node.allFilled_branch_cons.2 ⟨by simp [Node.isListItem], ?_, Node.allFilled_nil⟩
      induction words with
      | nil => exact Node.allFilled_nil
      | cons word more ih =>
          have hparagraph : Node.AllFilled [.paragraph [.text word.string]] :=
            Node.allFilled_container.2 ⟨Node.allFilled_leaf _, Node.allFilled_nil⟩
          exact Node.allFilled_branch_cons.2 ⟨by simp, hparagraph, ih⟩

end IsWordBlock

theorem allProse_of_isWordBlock {body : List Node} (h : ∀ block ∈ body, IsWordBlock block) :
    allProse body = true :=
  Node.allProse_iff.2 fun block hb => (h block hb).isProse

/-- A definition of blocks of words is a whole definition list. -/
theorem isBlock_of_isWordBlock (term : Word) {body : List Node}
    (h : ∀ block ∈ body, IsWordBlock block) :
    IsBlock (.descriptionList [.descriptionTerm [.text term.string], .descriptionDetails body]) :=
  .definitions (.term (by simp) (by simp) (.details (by simp) (allProse_of_isWordBlock h) .done))

theorem filled_definitionDocument (span : Span) (term : Word) {body : List Node}
    (h : ∀ block ∈ body, IsWordBlock block) : (definitionDocument span term body []).Filled := by
  have hbody : Node.AllFilled body := by
    induction body with
    | nil => exact Node.allFilled_nil
    | cons block more ih =>
        obtain ⟨hblock, hmore⟩ := List.forall_mem_cons.1 h
        rw [← List.singleton_append, Node.allFilled_append]
        exact ⟨hblock.allFilled, ih hmore⟩
  have hdetails : Node.AllFilled [.descriptionDetails body] :=
    Node.allFilled_container.2 ⟨hbody, Node.allFilled_nil⟩
  have hparts : Node.AllFilled [.descriptionTerm [.text term.string], .descriptionDetails body] :=
    Node.allFilled_container.2 ⟨Node.allFilled_leaf _, hdetails⟩
  exact Node.allFilled_container.2 ⟨hparts, Node.allFilled_nil⟩

/-! ### Visits that change a definition -/

/-- A visit that only changes siblings after definition lists changes them once in a document that it
leaves as one definition. -/
theorem edit_definitionDocument {change : Place → List Node}
    (hchange : ∀ place : Place, allHeadsIn Branch.isNoDefinitionList place.here = true →
      change place = place.here)
    {span : Span} {term : Word} {body body' after : List Node}
    (hbody : ∀ block ∈ body', IsWordBlock block)
    (h : change ⟨.container .root none (some span), [],
        .descriptionList [.descriptionTerm [.text term.string], .descriptionDetails body] :: after⟩ =
      [.descriptionList [.descriptionTerm [.text term.string], .descriptionDetails body']]) :
    (definitionDocument span term body after).edit change = definitionDocument span term body' [] := by
  have hblocks : allHeadsIn Branch.isNoDefinitionList body' = true :=
    allHeadsIn_isNoDefinitionList (allProse_of_isWordBlock hbody)
  -- no definition list stands below the one that is left, so the visit does nothing there
  have hparts : allHeadsIn Branch.isNoDefinitionList
      [.descriptionTerm [.text term.string], .descriptionDetails body'] = true := by
    simp [Node.descriptionTerm, Node.descriptionDetails, Branch.isNoDefinitionList, Branch.isContainer,
      hblocks]
  have hwithin (fuel : Nat) : editWithin change fuel
      (.descriptionList [.descriptionTerm [.text term.string], .descriptionDetails body']) =
      .descriptionList [.descriptionTerm [.text term.string], .descriptionDetails body'] :=
    congrArg (Node.branch _) (editFrom_of_allHeads hchange fuel ⟨_, [], _⟩ hparts)
  rw [definitionDocument, edit_branch, Node.visitBudget, editFrom_cons h, hwithin,
    editFrom_of_allHeads hchange _ _ Node.allHeadsIn_nil]
  rfl

/-! ### Stages -/

section Stages

variable {span : Span} {term : Word} {body : List Node} (h : ∀ block ∈ body, IsWordBlock block)

include h

theorem gatherItems_of_isWordBlock : gatherItems [] body = body := by
  induction body with
  | nil => rfl
  | cons block more ih =>
      obtain ⟨hblock, hmore⟩ := List.forall_mem_cons.1 h
      rw [gatherItems, hblock.looseItems_eq_none]
      simp only [listOf, List.isEmpty_nil, if_true, List.nil_append]
      rw [ih hmore]

/-- There are no loose items among blocks of words. -/
theorem gatherDetails_words {after : List Node} (ha : allProse after = true) :
    (definitionDocument span term body after).gatherDetails =
      definitionDocument span term body after := by
  have hbody := mapBottomUpList_gatherHere_of_allProse (allProse_of_isWordBlock h)
  have hafter := mapBottomUpList_gatherHere_of_allProse ha
  simp [definitionDocument, Node.gatherDetails, Node.descriptionList, Node.descriptionTerm,
    Node.descriptionDetails, Node.mapBottomUp, Node.mapBottomUpList, gatherHere, Branch.isContainer, hbody,
    hafter, gatherItems_of_isWordBlock h]

theorem absorbSiblingLists_alone :
    (definitionDocument span term body []).absorbSiblingLists = definitionDocument span term body [] :=
  edit_definitionDocument absorbSiblingList_of_allHeads h rfl

/-- A visit that rewrites in details rewrites the blocks of the definition. -/
theorem edit_inDetails_words {rewrite : Bool → Node → Node}
    (hlist : ∀ opens node, (rewrite opens node).isList = node.isList)
    (hprose : ∀ opens {node : Node}, node.isProse = true → (rewrite opens node).isProse = true) :
    (definitionDocument span term body []).edit (inDetails rewrite) =
      definitionDocument span term (body.map (rewrite (opensWithList body))) [] := by
  have hblocks := List.forall_mem_singleton.2 (isBlock_of_isWordBlock term h)
  rw [definitionDocument, edit_root rewrite hlist hprose hblocks]
  rfl

/-- No list of words is numbered by its texts. -/
theorem resolveKinds_words :
    (definitionDocument span term body []).resolveKinds = definitionDocument span term body [] := by
  have hresolve : body.map resolveKind = body := by
    rw [List.map_congr_left fun block hb => (h block hb).resolveKind_eq, List.map_id']
  have hedit := @edit_inDetails_words span term body h (fun _ => resolveKind)
    (fun _ => isList_resolveKind) (fun _ _ hnode => isProse_resolveKind hnode)
  rw [hresolve] at hedit
  exact hedit

/-- Cleaning takes the items that lists got twice from a definition that opens with a list, and nothing
else. -/
theorem cleanUp_words (seeded : Bool) : (definitionDocument span term body []).cleanUp seeded =
    definitionDocument span term (body.map (cleanList (seeded && opensWithList body))) [] := by
  have hedit := @edit_inDetails_words span term body h (fun opens => cleanList (seeded && opens))
    (fun _ node => isList_cleanList _ node) (fun _ _ hnode => isProse_cleanList hnode)
  have hcleaned : ∀ block ∈ body.map (cleanList (seeded && opensWithList body)), IsWordBlock block := by
    intro block hb
    obtain ⟨old, hold, rfl⟩ := List.mem_map.1 hb
    exact (h old hold).cleanList _
  have hfilled := filled_definitionDocument span term hcleaned
  rw [Node.cleanUp_eq, hedit, Node.removeEmptyItems_of_filled hfilled]

/-- A definition that nothing comes after stays as it is after cleaning. -/
theorem afterCleanup_words (variant : Variant) :
    afterCleanup variant (definitionDocument span term body []) =
      definitionDocument span term body [] := by
  have horphans : (definitionDocument span term body []).absorbOrphans =
      definitionDocument span term body [] :=
    edit_definitionDocument absorbOrphanRun_of_allHeads h rfl
  have hjoin : (definitionDocument span term body []).joinAdjacent =
      definitionDocument span term body [] := rfl
  cases variant with
  | basic => exact hjoin
  | advanced => rw [afterCleanup, horphans, hjoin]

end Stages

/-- A list after a definition comes into it. -/
theorem absorbSiblingLists_list {span : Span} {term : Word} {body body' : List Node} {list : Node}
    (hl : list.isList = true) (h : takeInList list body = body')
    (hbody : ∀ block ∈ body', IsWordBlock block) :
    (definitionDocument span term body [list]).absorbSiblingLists =
      definitionDocument span term body' [] := by
  refine edit_definitionDocument absorbSiblingList_of_allHeads hbody ?_
  simp [absorbSiblingList, Node.descriptionList, hl, takeIntoLastDetails?, Node.descriptionTerm,
    Node.descriptionDetails, h]

end DefinitionLists
