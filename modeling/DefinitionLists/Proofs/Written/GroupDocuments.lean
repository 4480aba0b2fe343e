/-
Module: DefinitionLists.Proofs.Written.GroupDocuments
Purpose: Every document of terms with one definition or more is processed to one definition list of all
  of them, in either variant, with or without blank lines between them.
Main exports: SpacedGroup, groupDocument, WordParagraph.Cut, cut_groups, cut_rewritten,
  process_groupDocument
-/
import DefinitionLists.Proofs.Written.Groups

namespace DefinitionLists

open Markdown
open Node (allHeadsIn edit_branch editFrom editFrom_cons editWithin)
open Text (byteLength)

/-- A group that others come before, maybe with a blank line between. -/
structure SpacedGroup where
  spaced : Bool
  group : WordGroup

/-- The lines of the group, after the blank line if there is one. -/
def SpacedGroup.lines (spaced : SpacedGroup) : List (List Char) :=
  (if spaced.spaced then [[]] else []) ++ spaced.group.lines

/-- The document of groups in order. -/
def groupDocument (closed : Bool) (first : WordGroup) (later : List SpacedGroup) : List Char :=
  writeLines closed (first.lines ++ later.flatMap SpacedGroup.lines)

example : groupDocument true ⟨.ofLetter 'T' rfl, .ofLetter 'a' rfl, [.ofLetter 'b' rfl]⟩
    [⟨true, ⟨.ofLetter 'U' rfl, .ofLetter 'c' rfl, []⟩⟩] = "T\n: a\n: b\n\nU\n: c\n".toList := rfl

/-! ### Paragraphs -/

namespace WordParagraph

/-- Whether lines are those of paragraphs that fit what the builder made last, and one after the other.
The nodes are those that the paragraphs add to definition lists. -/
def Cut (last : LastMade) (written : List (List Char)) (nodes : List Node) : Prop :=
  ∃ paragraphs, paragraphs ≠ [] ∧ Fit last paragraphs ∧
    apart (paragraphs.map WordParagraph.lines) = written ∧
    paragraphs.flatMap WordParagraph.nodes = nodes

variable {last : LastMade} {paragraph : WordParagraph}

/-- A paragraph that no term waits in may be the last. -/
theorem Cut.one (h : paragraph.Fits last) (hl : paragraph.last = .list) :
    Cut last paragraph.lines paragraph.nodes :=
  ⟨[paragraph], by simp, ⟨h, hl⟩, rfl, by simp⟩

/-- A blank line sets a paragraph apart from the others. -/
theorem Cut.cons (h : paragraph.Fits last) {written : List (List Char)} {nodes : List Node}
    (hc : Cut paragraph.last written nodes) :
    Cut last (paragraph.lines ++ [] :: written) (paragraph.nodes ++ nodes) := by
  obtain ⟨paragraphs, hne, hfit, rfl, rfl⟩ := hc
  obtain ⟨next, more, rfl⟩ := List.exists_cons_of_ne_nil hne
  exact ⟨paragraph :: next :: more, by simp, ⟨h, hfit⟩, rfl, by simp⟩

end WordParagraph

open WordParagraph (Cut)

/-- The blank lines between groups cut them into paragraphs of whole groups. -/
theorem cut_groups {last : LastMade} (hl : last ≠ .term) (first : WordGroup) (more : List WordGroup)
    (later : List SpacedGroup) :
    Cut last ((WordParagraph.groups first more).lines ++ later.flatMap SpacedGroup.lines)
      ((WordParagraph.groups first more).nodes ++ later.flatMap (·.group.nodes)) := by
  -- `more` are the groups that the paragraph has after the first so far
  have hfits {more : List WordGroup} : (WordParagraph.groups first more).Fits last := by
    cases last with
    | term => exact hl rfl
    | other | list => exact trivial
  induction later generalizing last first more with
  | nil =>
      rw [List.flatMap_nil, List.flatMap_nil, List.append_nil, List.append_nil]
      exact Cut.one hfits rfl
  | cons spaced later ih =>
      obtain ⟨gap, group⟩ := spaced
      cases gap with
      | false =>
          have hmore := ih hl first (more ++ [group]) hfits
          simpa [SpacedGroup.lines, WordParagraph.lines, WordParagraph.nodes] using hmore
      | true =>
          have hmore := Cut.cons (@hfits more) (@ih .list (by decide) group [] trivial)
          simpa [SpacedGroup.lines, WordParagraph.lines, WordParagraph.nodes] using hmore

/-! ### Rewriting -/

namespace LineState

/-- What is known after a definition line. -/
def afterDefinition : LineState := ⟨false, true, true⟩

theorem take_word {state : LineState} (h : state.inFence = false) (word : Word) :
    state.take word.chars = ([word.chars], ⟨false, state.inDefinition, false⟩) := by
  obtain ⟨hfence, hmarker, hplain⟩ := leftAlone_word word
  have hwritten : (Text.trim word.chars).isEmpty = false := by
    obtain ⟨c, rest, heq, hc, -⟩ := word.exists_cons
    have hblank := isBlank_of_opensText (opensText_of_isAlpha hc)
    rw [Text.trim, trimStart_word, heq, Text.trimEnd, Text.trimEndWhile_cons hblank rest]
    rfl
  simp [take, hfence, hmarker, hplain, h, hwritten]

theorem take_line {state : LineState} (h : state.inFence = false) (word : Word) :
    state.take word.line =
      (if state.inDefinition && !state.previousIsDefinition then [word.line] else [[], word.line],
        afterDefinition) := by
  have hfence : isFenceLine word.line = false := isFenceLine_definitionLine word.chars
  have hmarker : definitionMarker? word.line = none := definitionMarker_word word
  have hplain : [':', ' '].isPrefixOf word.line = true := rfl
  simp [take, hfence, hmarker, hplain, h, afterDefinition]

section Group

variable (group : WordGroup) (rest : List (List Char))

/-- A definition after another one is set apart from it. -/
theorem takeAll_line (word : Word) : afterDefinition.takeAll (word.line :: rest) =
    [] :: word.line :: afterDefinition.takeAll rest := by
  have htake : afterDefinition.take word.line = ([[], word.line], afterDefinition) := take_line rfl word
  rw [takeAll_cons htake, List.cons_append, List.singleton_append]

/-- The first definition of a group stays with its term if a definition comes right before that. -/
theorem takeAll_group : afterDefinition.takeAll (group.lines ++ rest) =
    group.term.chars :: group.first.line ::
      afterDefinition.takeAll (group.others.map Word.line ++ rest) := by
  have hterm : afterDefinition.take group.term.chars = ([group.term.chars], ⟨false, true, false⟩) :=
    take_word rfl group.term
  have hfirst : take ⟨false, true, false⟩ group.first.line = ([group.first.line], afterDefinition) :=
    take_line rfl group.first
  rw [WordGroup.lines, List.map_cons, List.cons_append, List.cons_append, takeAll_cons hterm,
    takeAll_cons hfirst, List.singleton_append, List.singleton_append]

/-- It is set apart from its term otherwise. -/
theorem takeAll_first_group : LineState.takeAll {} (group.lines ++ rest) =
    group.term.chars :: [] :: group.first.line ::
      afterDefinition.takeAll (group.others.map Word.line ++ rest) := by
  have hterm : LineState.take {} group.term.chars = ([group.term.chars], {}) := take_word rfl group.term
  have hfirst : LineState.take {} group.first.line = ([[], group.first.line], afterDefinition) :=
    take_line rfl group.first
  rw [WordGroup.lines, List.map_cons, List.cons_append, List.cons_append, takeAll_cons hterm,
    takeAll_cons hfirst, List.singleton_append, List.cons_append, List.singleton_append]

end Group

end LineState

open LineState (afterDefinition)

/-- The rewriting of lines sets apart each definition that comes after another one, and that of each term
after a blank line. -/
theorem cut_rewritten (others : List Word) (later : List SpacedGroup) (word : Word)
    (more : List WordGroup) {last : LastMade} (hl : last ≠ .other) :
    Cut last ((WordParagraph.definition word more).lines ++
        afterDefinition.takeAll (others.map Word.line ++ later.flatMap SpacedGroup.lines))
      ((WordParagraph.definition word more).nodes ++
        (others.map Word.detailsNode ++ later.flatMap (·.group.nodes))) := by
  -- the paragraph so far opens with `word`, and `others` are more definitions of the last term in it
  have hfits {more : List WordGroup} : (WordParagraph.definition word more).Fits last := by
    cases last with
    | other => exact hl rfl
    | term | list => exact trivial
  match others, later with
  | [], [] =>
      have hone := Cut.one (@hfits more) rfl
      rwa [← List.append_nil (WordParagraph.definition word more).lines,
        ← List.append_nil (WordParagraph.definition word more).nodes] at hone
  | next :: others, later =>
      have hlater := cut_rewritten others later next [] (show LastMade.list ≠ .other by decide)
      have hcut := Cut.cons (@hfits more) hlater
      rw [List.map_cons, List.cons_append, LineState.takeAll_line]
      simpa [WordParagraph.lines, WordParagraph.nodes] using hcut
  | [], ⟨false, group⟩ :: later =>
      have hcut := cut_rewritten group.others later word (more ++ [⟨group.term, group.first, []⟩]) hl
      have hstart : WordGroup.lines ⟨group.term, group.first, []⟩ =
        [group.term.chars, group.first.line] := rfl
      have hlines := LineState.takeAll_group group (later.flatMap SpacedGroup.lines)
      simpa [WordParagraph.lines, WordParagraph.nodes, SpacedGroup.lines, hlines, hstart,
        WordGroup.nodes] using hcut
  | [], ⟨true, group⟩ :: later =>
      have hlater := cut_rewritten group.others later group.first []
        (show LastMade.term ≠ .other by decide)
      have hterm : (WordParagraph.term group.term).Fits .list := trivial
      have hcut := Cut.cons (@hfits more) (Cut.cons hterm hlater)
      have hblank : afterDefinition.take [] = ([[]], {}) := rfl
      have hlines := LineState.takeAll_first_group group (later.flatMap SpacedGroup.lines)
      simpa [WordParagraph.lines, WordParagraph.nodes, SpacedGroup.lines,
        LineState.takeAll_cons hblank, hlines, WordGroup.nodes] using hcut
termination_by (later.length, others.length)

/-- The lines of a document, rewritten, are paragraphs that fit one after the other. -/
theorem cut_takeAll (first : WordGroup) (later : List SpacedGroup) :
    Cut .other (LineState.takeAll {} (first.lines ++ later.flatMap SpacedGroup.lines))
      (first.nodes ++ later.flatMap (·.group.nodes)) := by
  have hlater := cut_rewritten first.others later first.first []
    (show LastMade.term ≠ .other by decide)
  have hterm : (WordParagraph.term first.term).Fits .other := trivial
  have hcut := Cut.cons hterm hlater
  rw [LineState.takeAll_first_group]
  simpa [WordParagraph.lines, WordParagraph.nodes, WordGroup.nodes] using hcut

/-- So are the lines themselves. -/
theorem cut_lines (first : WordGroup) (later : List SpacedGroup) :
    Cut .other (first.lines ++ later.flatMap SpacedGroup.lines)
      (first.nodes ++ later.flatMap (·.group.nodes)) := by
  have hcut := cut_groups (show LastMade.other ≠ .term by decide) first [] later
  simpa [WordParagraph.lines, WordParagraph.nodes] using hcut

/-! ### Definition lists of words -/

/-- Whether the node is the term or the details of a word. -/
def IsWordPart (node : Node) : Prop := ∃ word : Word, node = word.termNode ∨ node = word.detailsNode

theorem WordGroup.isWordPart_of_mem_nodes {group : WordGroup} : ∀ node ∈ group.nodes, IsWordPart node :=
  List.forall_mem_cons.2
    ⟨⟨group.term, .inl rfl⟩, List.forall_mem_map.2 fun word _ => ⟨word, .inr rfl⟩⟩

namespace IsWordPart

variable {node : Node} (h : IsWordPart node)

include h

theorem allHeads : node.allHeads Branch.isAnyContainer = true := by
  obtain ⟨word, rfl | rfl⟩ := h <;>
    simp [Word.termNode, Word.detailsNode, Node.descriptionTerm, Node.descriptionDetails, wordParagraph,
      Branch.isAnyContainer]

theorem isNoDefinitionList : node.allHeads Branch.isNoDefinitionList = true := by
  obtain ⟨word, rfl | rfl⟩ := h <;>
    simp [Word.termNode, Word.detailsNode, Node.descriptionTerm, Node.descriptionDetails, wordParagraph,
      Branch.isNoDefinitionList, Branch.isContainer]

theorem gather_eq : node.mapBottomUp gatherHere = node := by
  obtain ⟨word, rfl | rfl⟩ := h <;> rfl

end IsWordPart

section Lists

variable {hint : Option String} {span : Option Span} {lists : List (List Node)}
  (h : ∀ node ∈ lists.flatten, IsWordPart node)

/-- A root that holds definition lists. -/
def listsRoot (hint : Option String) (span : Option Span) (lists : List (List Node)) : Node :=
  .branch (.container .root hint span) (lists.map .descriptionList)

include h

theorem allHeadsIn_lists :
    allHeadsIn Branch.isAnyContainer (lists.map .descriptionList) = true := by
  refine Node.allHeadsIn_iff.2 (List.forall_mem_map.2 fun own hown => ?_)
  have hparts : allHeadsIn Branch.isAnyContainer own = true :=
    Node.allHeadsIn_iff.2 fun node hn => (h node (List.mem_flatten_of_mem hown hn)).allHeads
  exact (Node.allHeads_branch _ _).2 ⟨rfl, hparts⟩

/-- There are no items to gather. -/
theorem gatherDetails_lists : (listsRoot hint span lists).gatherDetails = listsRoot hint span lists := by
  have hlist : ∀ own ∈ lists,
      (Node.descriptionList own).mapBottomUp gatherHere = .descriptionList own := by
    intro own hown
    have hparts : own.map (Node.mapBottomUp gatherHere) = own := by
      rw [List.map_congr_left fun node hn => (h node (List.mem_flatten_of_mem hown hn)).gather_eq,
        List.map_id']
    simp [Node.descriptionList, Node.mapBottomUp, Node.mapBottomUpList_eq_map, hparts, gatherHere,
      Branch.isContainer]
  have hlists : (lists.map .descriptionList).map (Node.mapBottomUp gatherHere) =
      lists.map .descriptionList := by
    rw [List.map_map]
    exact List.map_congr_left hlist
  simp only [listsRoot, Node.gatherDetails, Node.mapBottomUp, Node.mapBottomUpList_eq_map, hlists]
  rfl

theorem absorbSiblingLists_lists :
    (listsRoot hint span lists).absorbSiblingLists = listsRoot hint span lists :=
  absorbSiblingLists_of_containers (allHeadsIn_lists h)

theorem resolveKinds_lists : (listsRoot hint span lists).resolveKinds = listsRoot hint span lists :=
  resolveKinds_of_containers (allHeadsIn_lists h)

/-- Each definition list comes before another one or at the end, so no orphan follows it. -/
theorem editFrom_absorbOrphanRun_lists (fuel : Nat) (parent : Branch) (before : List Node) :
    editFrom (fun place => absorbOrphanRun place.here) fuel
      ⟨parent, before, lists.map .descriptionList⟩ =
        before.reverse ++ lists.map .descriptionList := by
  induction lists generalizing fuel before with
  | nil => cases fuel <;> simp [editFrom, Place.siblings]
  | cons own more ih =>
      rw [List.flatten_cons, List.forall_mem_append] at h
      cases fuel with
      | zero => rfl
      | succ fuel =>
          have hrun : absorbOrphanRun (.descriptionList own :: more.map .descriptionList) =
              .descriptionList own :: more.map .descriptionList := by
            cases more <;> rfl
          have hown : allHeadsIn Branch.isNoDefinitionList own = true :=
            Node.allHeadsIn_iff.2 fun node hn => (h.1 node hn).isNoDefinitionList
          have hwithin : editWithin (fun place => absorbOrphanRun place.here) fuel
              (.descriptionList own) = .descriptionList own :=
            congrArg (Node.branch _)
              (editFrom_of_allHeads absorbOrphanRun_of_allHeads fuel ⟨_, [], own⟩ hown)
          rw [List.map_cons, editFrom_cons hrun, hwithin, ih h.2]
          simp

theorem absorbOrphans_lists : (listsRoot hint span lists).absorbOrphans = listsRoot hint span lists := by
  rw [listsRoot, Node.absorbOrphans, edit_branch, editFrom_absorbOrphanRun_lists h]
  rfl

end Lists

/-- Definition lists side by side become one. -/
theorem joinRuns_lists (pending : List Node) (lists : List (List Node)) :
    joinRuns pending (lists.map .descriptionList) = definitionListOf (pending ++ lists.flatten) := by
  induction lists generalizing pending with
  | nil => simp [joinRuns]
  | cons own more ih =>
      rw [List.map_cons, Node.descriptionList, joinRuns, ih, List.flatten_cons, List.append_assoc]

/-! ### All stages -/

/-- Lines that come in paragraphs that fit one after the other are made definition lists before
cleaning. -/
theorem runStages_cut {closed : Bool} {written : List (List Char)} {nodes : List Node}
    (hc : Cut .other written nodes) (h : ∀ node ∈ nodes, IsWordPart node)
    (extended prenormalized : Bool) {source : List Char} (hs : source = writeLines closed written) :
    ∃ lists, runStages extended ⟨Node.ofMarkdown extended source, source, prenormalized⟩
        [.builder, .detailMerger, .siblingList, .listKind] =
      .ok ⟨listsRoot none (some ⟨0, byteLength source⟩) lists, source, prenormalized⟩ ∧
        lists.flatten = nodes := by
  obtain ⟨paragraphs, -, hfit, rfl, rfl⟩ := hc
  obtain ⟨lists, hformed, hflatten⟩ := formDefinitions_of_fit extended closed hfit hs
  rw [← hflatten] at h
  refine ⟨lists, ?_, hflatten⟩
  rw [runStages_forming, hformed]
  simp only
  rw [← listsRoot, gatherDetails_lists h, absorbSiblingLists_lists h, resolveKinds_lists h]

/-- Such lists stay what they are through cleaning, and are joined to one. -/
theorem afterCleanup_lists (variant : Variant) (seeded : Bool) (span : Span) {lists : List (List Node)}
    (h : ∀ node ∈ lists.flatten, IsWordPart node) (hne : lists.flatten ≠ []) :
    afterCleanup variant ((listsRoot none (some span) lists).cleanUp seeded) =
      .branch (.container .root none (some span)) [.descriptionList lists.flatten] := by
  have hclean : (listsRoot none (some span) lists).cleanUp seeded = listsRoot none (some span) lists :=
    cleanUp_of_containers (allHeadsIn_lists h) seeded
  have hjoin : (listsRoot none (some span) lists).joinAdjacent =
      .branch (.container .root none (some span)) [.descriptionList lists.flatten] := by
    rw [listsRoot, Node.joinAdjacent, joinRuns_lists, List.nil_append, definitionListOf,
      List.isEmpty_eq_false_iff.2 hne, if_neg (by decide)]
  rw [hclean]
  cases variant with
  | basic => exact hjoin
  | advanced => rw [afterCleanup, absorbOrphans_lists h, hjoin]

section Document

variable (first : WordGroup) (later : List SpacedGroup)

/-- All nodes of a document are those of words. -/
theorem isWordPart_of_mem_document :
    ∀ node ∈ first.nodes ++ later.flatMap (·.group.nodes), IsWordPart node := by
  rw [List.forall_mem_append]
  refine ⟨first.isWordPart_of_mem_nodes, fun node hnode => ?_⟩
  obtain ⟨spaced, -, hmem⟩ := List.mem_flatMap.1 hnode
  exact spaced.group.isWordPart_of_mem_nodes node hmem

/-- Line by line, a document has no line that ends within it. -/
theorem unbroken_document : ∀ line ∈ first.lines ++ later.flatMap SpacedGroup.lines, Unbroken line := by
  rw [List.forall_mem_append]
  refine ⟨fun line hl => (first.isWordLine line hl).unbroken, fun line hl => ?_⟩
  obtain ⟨⟨gap, group⟩, -, hmem⟩ := List.mem_flatMap.1 hl
  rcases List.mem_append.1 hmem with hgap | hgroup
  · cases gap
    · cases hgap
    · rw [List.mem_singleton.1 hgap]
      simp [Unbroken]
  · exact (group.isWordLine line hgroup).unbroken

/-- Definition lists of the groups reach cleaning: those of the document itself in the basic variant, and
those of the rewritten document in the advanced one. -/
theorem reachingCleanup_groupDocument (variant : Variant) (extended closed : Bool) :
    ∃ span lists source prenormalized,
      reachingCleanup variant extended (groupDocument closed first later) =
        .ok ⟨listsRoot none (some span) lists, source, prenormalized⟩ ∧
      lists.flatten = first.nodes ++ later.flatMap (·.group.nodes) := by
  have hparts := isWordPart_of_mem_document first later
  cases variant with
  | basic =>
      obtain ⟨lists, hrun, hflatten⟩ := runStages_cut (cut_lines first later) hparts extended false
        (show groupDocument closed first later = writeLines closed _ from rfl)
      exact ⟨_, lists, _, _, (reachingCleanup_basic extended _).trans hrun, hflatten⟩
  | advanced =>
      have hne : groupDocument closed first later ≠ [] := by
        simp [groupDocument, WordGroup.lines, writeLines_cons, first.term.ne_nil]
      have hrewritten := prenormalize_writeLines closed (by simp [WordGroup.lines])
        (unbroken_document first later)
      obtain ⟨lists, hrun, hflatten⟩ := runStages_cut (cut_takeAll first later) hparts extended true
        hrewritten
      exact ⟨_, lists, _, _, (reachingCleanup_advanced extended hne).trans hrun, hflatten⟩

/-- With either variant and all its stages, groups are processed to a root with one definition list: all
terms in order, each with its definitions after it. -/
theorem process_groupDocument (variant : Variant) (gfm closed : Bool) :
    ∃ span, process { variant, gfm } (groupDocument closed first later) =
      .ok (.branch (.container .root none (some span))
        [.descriptionList (first.nodes ++ later.flatMap (·.group.nodes))]) := by
  obtain ⟨span, lists, source, prenormalized, hreaching, hflatten⟩ :=
    reachingCleanup_groupDocument first later variant gfm closed
  have hsettings : Settings.converter { variant, gfm } = .ok ⟨gfm, variant.stages⟩ := by
    cases variant <;> rfl
  have hparts := isWordPart_of_mem_document first later
  have hne : first.nodes ++ later.flatMap (·.group.nodes) ≠ [] := by simp [WordGroup.nodes]
  rw [← hflatten] at hparts hne ⊢
  refine ⟨span, ?_⟩
  rw [process, hsettings]
  simp only
  rw [Converter.process_eq_map, hreaching]
  simp only [Except.map, Except.mapError]
  rw [afterCleanup_lists variant prenormalized span hparts hne]

end Document

end DefinitionLists
