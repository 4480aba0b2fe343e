/-
Module: DefinitionLists.Proofs.Written.Definitions
Purpose: Every written definition is processed to a definition list of its term and its items, in either
  variant.
Main exports: formDefinitions_items, WrittenDefinition.formed, WrittenDefinition.gathered,
  WrittenDefinition.blocks, formDefinitions_document, formDefinitions_rewritten, process_document
-/
import DefinitionLists.Proofs.Written.Formation

namespace DefinitionLists

open Markdown
open Text (byteLength joinLines trimStart)

/-! ### The lines of items in a paragraph -/

theorem trimStart_itemText (indent : Nat) {marker : Marker} (h : marker.IsWritten) (word : Word) :
    trimStart (itemText indent marker word) = itemText 0 marker word := by
  obtain ⟨c, rest, heq, hblank, -⟩ := exists_item_cons h word
  rw [itemText, itemText, heq]
  exact trimStart_spaces hblank indent rest

theorem map_trimStart_itemTexts (indent : Nat) {marked : List (Marker × Word)}
    (h : ∀ item ∈ marked, item.1.IsWritten) :
    (itemTexts indent marked).map trimStart = itemTexts 0 marked := by
  rw [itemTexts, List.map_map]
  exact List.map_congr_left fun item hitem => trimStart_itemText indent (h item hitem) item.2

/-- An item is no definition. -/
theorem definitionBody_itemText {marker : Marker} (h : marker.IsWritten) (word : Word) :
    definitionBody? (itemText 0 marker word) = none := by
  obtain ⟨c, rest, heq, -, hcolon, -⟩ := exists_item_cons h word
  rw [itemText, heq]
  exact definitionBody_of_ne hcolon rest

/-- The item of a number other than 1 goes on with a paragraph. -/
theorem continues_itemText {value : Nat} (h : value < Marker.numberLimit) (hone : value ≠ 1)
    (word : Word) : Continues (itemText 2 (.ordinal value) word) := by
  obtain ⟨c, rest, heq, hc⟩ := Marker.exists_digit_cons value ('.' :: ' ' :: word.chars)
  have hwritten : (Marker.ordinal value).written ++ ' ' :: word.chars = c :: rest := by
    rw [Marker.written, List.append_assoc, List.singleton_append, heq]
  have hmark := @listMark_written (.ordinal value) h (' ' :: word.chars)
  refine ⟨2, c, rest, by rw [itemText, hwritten], by decide, opensText_of_isDigit hc,
    .inr fun nextIsBlank => ?_⟩
  have hnumber : ((Marker.ordinal value).number == 1) = false := by
    simpa [Marker.number] using hone
  have hdelimiter : isNumberDelimiter (Marker.ordinal value).delimiter = true := rfl
  simp only [interruptsAsItem, ← hwritten, hmark, hnumber, hdelimiter]
  simp

/-- Any item that is indented by four spaces goes on with a paragraph. -/
theorem continues_indented (word : Word) : Continues (itemText 4 (.ordinal 1) word) :=
  ⟨4, '1', '.' :: ' ' :: word.chars, rfl, by decide, by decide, .inl rfl⟩

theorem bulletTexts_nil : bulletTexts [] = [] := rfl

/-! ### Forming definitions -/

/-- A definition line with an item, and lines that read as more items where they go on with it, become
the definition of one list. -/
theorem formDefinitions_items (extended closed : Bool) (term : Word) {first : Marker × Word}
    {more : List (Marker × Word)}
    (h : ∀ item ∈ first :: more, item.1.IsWritten ∧ item.1.delimiter = first.1.delimiter)
    {conts : List (List Char)} (hc : ∀ line ∈ conts, Unbroken line ∧ Continues line)
    (ht : conts.map trimStart = itemTexts 0 more) (words : List Word) {source : List Char}
    (hs : source = writeLines closed
      (term.chars :: definitionLine (itemText 0 first.1 first.2) :: conts ++ bulletTexts words)) :
    (Node.ofMarkdown extended source).formDefinitions extended source =
      (definitionDocument ⟨0, byteLength source⟩ term
        [wordList (isNumberDelimiter first.1.delimiter)
          (if isNumberDelimiter first.1.delimiter then some first.1.number.toUInt64 else none)
          (first.2 :: more.map Prod.snd)]
        (listOf (wordItems words)), none) := by
  have hfirst : first.1.IsWritten := (h first (by simp)).1
  have hplain : ∀ line ∈ conts, definitionBody? (trimStart line) = none := by
    intro line hline
    have hitem : trimStart line ∈ itemTexts 0 more := by
      rw [← ht]
      exact List.mem_map_of_mem hline
    obtain ⟨item, hmem, heq⟩ := List.mem_map.1 hitem
    rw [← heq]
    exact definitionBody_itemText (h item (by simp [hmem])).1 item.2
  have hitems := Node.children_ofMarkdown_items extended false h
  rw [writeLines_false, itemTexts_cons, ← ht] at hitems
  rw [formDefinitions_paragraph extended closed term (unbroken_itemText 0 hfirst first.2)
    (trimStart_itemText 0 hfirst first.2) words hc hplain hs, hitems]
  rfl

/-- A definition line with a word becomes the definition of a paragraph. -/
theorem formDefinitions_word (extended closed : Bool) (term lead : Word) (words : List Word)
    {source : List Char}
    (hs : source = writeLines closed (term.chars :: definitionLine lead.chars :: bulletTexts words)) :
    (Node.ofMarkdown extended source).formDefinitions extended source =
      (definitionDocument ⟨0, byteLength source⟩ term
        [wordParagraph ⟨0, byteLength lead.chars⟩ lead] (listOf (wordItems words)), none) := by
  have hparagraph := @formDefinitions_paragraph extended closed term _ (unbroken_word lead)
    (trimStart_word lead) words [] (by simp) (by simp) source hs
  rw [hparagraph, List.map_nil, joinLines, Node.children_ofMarkdown_word]

namespace WrittenDefinition

/-- The blocks that the builder makes a definition of, and the items of the list after it. In a text
whose lines were rewritten, the first item on a definition line stands there twice. -/
def formed (rewritten : Bool) : WrittenDefinition → List Node × List Word
  | bulleted first others =>
    ([wordList false none [first]], if rewritten then first :: others else others)
  | numbered first others =>
    ([wordList true (some 1) (first :: if rewritten then first :: others else others)], [])
  | led lead first others => ([wordParagraph ⟨0, byteLength lead.chars⟩ lead], first :: others)

/-- The blocks of the definition once the list after it is part of it. -/
def gathered (rewritten : Bool) : WrittenDefinition → List Node
  | bulleted first others =>
    [wordList false none (first :: if rewritten then first :: others else others)]
  | numbered first others =>
    [wordList true (some 1) (first :: if rewritten then first :: others else others)]
  | led lead first others =>
    [wordParagraph ⟨0, byteLength lead.chars⟩ lead, wordList false none (first :: others)]

/-- The blocks that the definition is processed to: its items, each of them once and in order, in a list
with bullets or with numbers, after the word that leads them if there is one. -/
def blocks : WrittenDefinition → List Node
  | bulleted first others => [wordList false none (first :: others)]
  | numbered first others => [wordList true (some 1) (first :: others)]
  | led lead first others =>
    [wordParagraph ⟨0, byteLength lead.chars⟩ lead, wordList false none (first :: others)]

theorem isWordBlock_of_mem_formed {rewritten : Bool} {definition : WrittenDefinition} :
    ∀ block ∈ (definition.formed rewritten).1, IsWordBlock block := by
  cases definition with
  | bulleted first others => exact List.forall_mem_singleton.2 (.list _ _ _)
  | numbered first others => exact List.forall_mem_singleton.2 (.list _ _ _)
  | led lead first others => exact List.forall_mem_singleton.2 (.paragraph _ _)

theorem isWordBlock_of_mem_gathered {rewritten : Bool} {definition : WrittenDefinition} :
    ∀ block ∈ definition.gathered rewritten, IsWordBlock block := by
  cases definition with
  | bulleted first others => exact List.forall_mem_singleton.2 (.list _ _ _)
  | numbered first others => exact List.forall_mem_singleton.2 (.list _ _ _)
  | led lead first others =>
      exact List.forall_mem_cons.2 ⟨.paragraph _ _, List.forall_mem_singleton.2 (.list _ _ _)⟩

theorem gathered_false (definition : WrittenDefinition) :
    definition.gathered false = definition.blocks := by
  cases definition <;> rfl

theorem isWordBlock_of_mem_blocks {definition : WrittenDefinition} :
    ∀ block ∈ definition.blocks, IsWordBlock block := by
  rw [← gathered_false]
  exact isWordBlock_of_mem_gathered

end WrittenDefinition

/-- The items of the numbers from 2 on go on with a paragraph and read as items of the list of a first
one. -/
theorem numberedFrom_two {first : Word} {others : List Word}
    (h : (WrittenDefinition.numbered first others).IsShort) :
    (∀ line ∈ itemTexts 2 (numberedFrom 2 others), Unbroken line ∧ Continues line) ∧
      (∀ item ∈ numberedFrom 2 others, item.1.IsWritten ∧ item.1.delimiter = '.') ∧
      (itemTexts 2 (numberedFrom 2 others)).map trimStart = itemTexts 0 (numberedFrom 2 others) := by
  have hlength : 2 + others.length ≤ Marker.numberLimit := by
    simp only [WrittenDefinition.IsShort, WrittenDefinition.items, List.length_cons] at h
    omega
  have hwritten := numberedFrom_isWritten hlength
  refine ⟨?_, ?_, map_trimStart_itemTexts 2 fun item hitem => (hwritten item hitem).1⟩
  · intro line hline
    obtain ⟨item, hitem, rfl⟩ := List.mem_map.1 hline
    obtain ⟨hshort, value, heq, hle⟩ := hwritten item hitem
    refine ⟨unbroken_itemText 2 hshort item.2, ?_⟩
    rw [heq] at hshort ⊢
    exact continues_itemText hshort (by omega) item.2
  · intro item hitem
    obtain ⟨hshort, value, heq, -⟩ := hwritten item hitem
    refine ⟨hshort, ?_⟩
    rw [heq]
    rfl

/-- The builder makes the definition of a document. -/
theorem formDefinitions_document {definition : WrittenDefinition} (h : definition.IsShort)
    (extended closed : Bool) (term : Word) {source : List Char}
    (hs : source = definition.document closed term) :
    (Node.ofMarkdown extended source).formDefinitions extended source =
      (definitionDocument ⟨0, byteLength source⟩ term (definition.formed false).1
        (listOf (wordItems (definition.formed false).2)), none) := by
  cases definition with
  | bulleted first others =>
      have hone : ∀ item ∈ [(Marker.bullet '-', first)], item.1.IsWritten ∧ item.1.delimiter = '-' :=
        List.forall_mem_singleton.2 ⟨rfl, rfl⟩
      exact @formDefinitions_items extended closed term _ [] hone [] (by simp) rfl others source hs
  | numbered first others =>
      obtain ⟨hconts, hitems, htrimmed⟩ := numberedFrom_two h
      have hall : ∀ item ∈ (Marker.ordinal 1, first) :: numberedFrom 2 others,
          item.1.IsWritten ∧ item.1.delimiter = '.' :=
        List.forall_mem_cons.2 ⟨⟨isWritten_one, rfl⟩, hitems⟩
      have hformed := @formDefinitions_items extended closed term _ _ hall _ hconts htrimmed [] source
        (hs.trans (by rw [bulletTexts_nil, List.append_nil]; rfl))
      rw [snd_numberedFrom] at hformed
      exact hformed
  | led lead first others => exact formDefinitions_word extended closed term lead (first :: others) hs

/-- The builder makes the same definition of the document with its lines rewritten, the first item on a
definition line apart, which stands there twice. -/
theorem formDefinitions_rewritten {definition : WrittenDefinition} (h : definition.IsShort)
    (extended closed : Bool) (term : Word) {source : List Char}
    (hs : source = prenormalize (definition.document closed term)) :
    (Node.ofMarkdown extended source).formDefinitions extended source =
      (definitionDocument ⟨0, byteLength source⟩ term (definition.formed true).1
        (listOf (wordItems (definition.formed true).2)), none) := by
  rw [prenormalize_document h] at hs
  cases definition with
  | bulleted first others =>
      have hone : ∀ item ∈ [(Marker.bullet '-', first)], item.1.IsWritten ∧ item.1.delimiter = '-' :=
        List.forall_mem_singleton.2 ⟨rfl, rfl⟩
      exact @formDefinitions_items extended closed term _ [] hone [] (by simp) rfl (first :: others)
        source hs
  | numbered first others =>
      obtain ⟨hconts, hitems, htrimmed⟩ := numberedFrom_two h
      have hone : (Marker.ordinal 1).IsWritten ∧ (Marker.ordinal 1).delimiter = '.' :=
        ⟨isWritten_one, rfl⟩
      have hall : ∀ item ∈
          (Marker.ordinal 1, first) :: (Marker.ordinal 1, first) :: numberedFrom 2 others,
          item.1.IsWritten ∧ item.1.delimiter = '.' :=
        List.forall_mem_cons.2 ⟨hone, List.forall_mem_cons.2 ⟨hone, hitems⟩⟩
      -- the repeated item is indented too far to open a list, so it goes on with the definition line
      have hrepeated : ∀ line ∈ itemText 4 (.ordinal 1) first :: itemTexts 2 (numberedFrom 2 others),
          Unbroken line ∧ Continues line :=
        List.forall_mem_cons.2
          ⟨⟨unbroken_itemText 4 isWritten_one first, continues_indented first⟩, hconts⟩
      have hlines :
          (itemText 4 (.ordinal 1) first :: itemTexts 2 (numberedFrom 2 others)).map trimStart =
          itemTexts 0 ((.ordinal 1, first) :: numberedFrom 2 others) := by
        rw [List.map_cons, trimStart_itemText 4 isWritten_one, htrimmed, itemTexts_cons]
      have hformed := @formDefinitions_items extended closed term _ _ hall _ hrepeated hlines [] source
        (hs.trans (by rw [bulletTexts_nil, List.append_nil]; rfl))
      rw [List.map_cons, snd_numberedFrom] at hformed
      exact hformed
  | led lead first others =>
      have hapart := @formDefinitions_apart extended closed term _ (unbroken_word lead)
        (trimStart_word lead) (first :: others) source hs
      rw [hapart, Node.children_ofMarkdown_word]
      rfl

/-! ### All stages -/

/-- The list after the definition comes into it. -/
theorem absorbSiblingLists_formed (span : Span) (term : Word) (definition : WrittenDefinition)
    (rewritten : Bool) :
    (definitionDocument span term (definition.formed rewritten).1
      (listOf (wordItems (definition.formed rewritten).2))).absorbSiblingLists =
      definitionDocument span term (definition.gathered rewritten) [] := by
  have hblocks := @WrittenDefinition.isWordBlock_of_mem_gathered rewritten definition
  cases definition with
  | bulleted first others =>
      simp only [WrittenDefinition.formed, WrittenDefinition.gathered] at hblocks ⊢
      generalize (if rewritten then first :: others else others) = later at hblocks ⊢
      cases later with
      | nil => exact absorbSiblingLists_alone hblocks
      | cons next more => exact absorbSiblingLists_list rfl rfl hblocks
  | numbered first others => exact absorbSiblingLists_alone hblocks
  | led lead first others => exact absorbSiblingLists_list rfl rfl hblocks

/-- Cleaning leaves each item once. -/
theorem cleanUp_gathered (span : Span) (term : Word) (definition : WrittenDefinition)
    (rewritten : Bool) :
    (definitionDocument span term (definition.gathered rewritten) []).cleanUp rewritten =
      definitionDocument span term definition.blocks [] := by
  rw [cleanUp_words WrittenDefinition.isWordBlock_of_mem_gathered]
  cases definition with
  | bulleted first others =>
      cases rewritten <;>
        simp [WrittenDefinition.gathered, WrittenDefinition.blocks, opensWithList, cleanList_wordList,
          isList_wordList]
  | numbered first others =>
      cases rewritten <;>
        simp [WrittenDefinition.gathered, WrittenDefinition.blocks, opensWithList, cleanList_wordList,
          isList_wordList]
  | led lead first others =>
      -- the details open with a paragraph, so nothing counts as repeated
      simp [WrittenDefinition.gathered, WrittenDefinition.blocks, opensWithList, cleanList_wordList,
        cleanList_wordParagraph, isList_wordParagraph]

/-- Where the builder makes the definition, the stages before cleaning put the list after it into it. -/
theorem runStages_formed {definition : WrittenDefinition} {extended rewritten : Bool} {term : Word}
    {source : List Char}
    (h : (Node.ofMarkdown extended source).formDefinitions extended source =
      (definitionDocument ⟨0, byteLength source⟩ term (definition.formed rewritten).1
        (listOf (wordItems (definition.formed rewritten).2)), none)) :
    runStages extended ⟨Node.ofMarkdown extended source, source, rewritten⟩
        [.builder, .detailMerger, .siblingList, .listKind] =
      .ok ⟨definitionDocument ⟨0, byteLength source⟩ term (definition.gathered rewritten) [], source,
        rewritten⟩ := by
  have hlater : Node.allProse (listOf (wordItems (definition.formed rewritten).2)) = true :=
    allHeadsIn_listOf Branch.allowsLists_prose (allProse_wordItems _)
  rw [runStages_forming, h]
  simp only
  rw [gatherDetails_words WrittenDefinition.isWordBlock_of_mem_formed hlater, absorbSiblingLists_formed,
    resolveKinds_words WrittenDefinition.isWordBlock_of_mem_gathered]

/-- The definition that reaches cleaning is that of the document itself in the basic variant, and
that of the document with its lines rewritten in the advanced one. -/
theorem reachingCleanup_document {definition : WrittenDefinition} (h : definition.IsShort)
    (variant : Variant) (extended closed : Bool) (term : Word) :
    ∃ span source, reachingCleanup variant extended (definition.document closed term) =
      .ok ⟨definitionDocument span term (definition.gathered (variant = .advanced)) [], source,
        variant = .advanced⟩ := by
  cases variant with
  | basic =>
      have hformed := formDefinitions_document h extended closed term rfl
      have hrun := @runStages_formed definition extended false term _ hformed
      exact ⟨_, _, hrun⟩
  | advanced =>
      have hformed := formDefinitions_rewritten h extended closed term rfl
      have hrun := @runStages_formed definition extended true term _ hformed
      have hne : definition.document closed term ≠ [] := by
        simp [WrittenDefinition.document, writeLines_cons, term.ne_nil]
      rw [reachingCleanup_advanced extended hne]
      exact ⟨_, _, hrun⟩

/-- With either variant and all its stages, a term and a written definition are processed to a root with
one definition list of that term and the blocks of the definition. -/
theorem process_document {definition : WrittenDefinition} (h : definition.IsShort) (variant : Variant)
    (gfm closed : Bool) (term : Word) :
    ∃ span, process { variant, gfm } (definition.document closed term) =
      .ok (.branch (.container .root none (some span))
        [.descriptionList [.descriptionTerm [.text term.string],
          .descriptionDetails definition.blocks]]) := by
  obtain ⟨span, source, hreaching⟩ := reachingCleanup_document h variant gfm closed term
  have hsettings : Settings.converter { variant, gfm } = .ok ⟨gfm, variant.stages⟩ := by
    cases variant <;> rfl
  refine ⟨span, ?_⟩
  rw [process, hsettings]
  simp only
  rw [Converter.process_eq_map, hreaching]
  simp only [Except.map, Except.mapError]
  rw [cleanUp_gathered, afterCleanup_words WrittenDefinition.isWordBlock_of_mem_blocks]
  rfl

/-- Two numbered items. -/
theorem process_document_of_numbered_items :
    (WrittenDefinition.numbered (.ofLetter 'a' rfl) [.ofLetter 'b' rfl]).IsShort ∧
      ∃ span, process {} "T\n: 1. a\n  2. b\n".toList =
        .ok (.branch (.container .root none (some span))
          [.descriptionList [.descriptionTerm [.text "T"], .descriptionDetails
            [.branch (.list true (some 1) false none) [.itemOfText "a", .itemOfText "b"]]]]) := by
  have hshort : (WrittenDefinition.numbered (.ofLetter 'a' rfl) [.ofLetter 'b' rfl]).IsShort := by
    show 2 < Marker.numberLimit
    decide
  obtain ⟨span, hprocess⟩ := process_document hshort .advanced true true (.ofLetter 'T' rfl)
  exact ⟨hshort, span, hprocess⟩

end DefinitionLists
