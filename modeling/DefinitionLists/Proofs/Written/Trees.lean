/-
Module: DefinitionLists.Proofs.Written.Trees
Purpose: The trees of documents that are written of words: a word, a list, and a paragraph with a list
  after it.
Main exports: wordItems, bulletTexts, children_ofMarkdown_word, children_ofMarkdown_items,
  children_ofMarkdown_paragraph, children_ofMarkdown_apart
-/
import DefinitionLists.Proofs.Written.Documents

namespace DefinitionLists

open Markdown Markdown.BlockState
open Text (byteLength)

/-- The items of words. -/
def wordItems (words : List Word) : List Node := words.map fun word => .itemOfText word.string

/-- The lines of items with bullets, as they stand below a definition. -/
def bulletTexts (words : List Word) : List (List Char) :=
  itemTexts 2 (words.map (Marker.bullet '-', ·))

/-- The paragraph of a word that stands at a position. -/
def wordParagraph (span : Span) (word : Word) : Node :=
  .branch (.container .paragraph none (some span)) [.text word.string]

namespace Node

theorem children_ofMarkdown (extended : Bool) (text : List Char) :
    (ofMarkdown extended text).children = (Document.ofText extended text).blocks.map
      (Block.node ⟨extended, (Document.ofText extended text).targets⟩ false) := by
  rw [ofMarkdown_eq_branch]
  rfl

/-- A word reads as a paragraph of that word. -/
theorem children_ofMarkdown_word (extended : Bool) (word : Word) :
    (ofMarkdown extended word.chars).children =
      [wordParagraph ⟨0, byteLength word.chars⟩ word] := by
  obtain ⟨c, rest, heq, hc, -⟩ := word.exists_cons
  have hunbroken := unbroken_word word
  rw [heq] at hunbroken
  obtain ⟨line, hread, hline, hreach⟩ :=
    read_opening (opensText_of_isAlpha hc) (isDigit_of_isAlpha hc) hunbroken [] extended false false 0 []
  rw [read_nil] at hread
  have hone : writeLines false [c :: rest] = word.chars := by
    rw [writeLines_false, heq]
    rfl
  have hfinish := finish_inParagraph hreach [] (byteLength word.chars)
  have hdocument : Document.ofText extended word.chars =
      ⟨[.paragraph ⟨0, byteLength word.chars⟩ none (Symbol.ofChars word.chars)], []⟩ := by
    rw [hone] at hread
    rw [← hread, List.reverse_singleton, ofLines_word (hline.trans heq.symm)] at hfinish
    rw [← finish_read]
    simpa [hone] using hfinish
  rw [children_ofMarkdown, hdocument, List.map_singleton, Block.node_wordParagraph]
  rfl

/-- The lines of items read as a list. -/
theorem children_ofMarkdown_items (extended closed : Bool) {first : Marker × Word}
    {more : List (Marker × Word)}
    (h : ∀ item ∈ first :: more, item.1.IsWritten ∧ item.1.delimiter = first.1.delimiter) :
    (ofMarkdown extended (writeLines closed (itemTexts 0 (first :: more)))).children =
      [.branch (.list (isNumberDelimiter first.1.delimiter)
        (if isNumberDelimiter first.1.delimiter then some first.1.number.toUInt64 else none) false none)
        (wordItems ((first :: more).map Prod.snd))] := by
  obtain ⟨items, hdocument, hitems⟩ :=
    (holdsItems_read h (Nat.zero_le 3) [] extended closed false 0).finish
      (byteLength (writeLines closed (itemTexts 0 (first :: more))))
  rw [finish_read] at hdocument
  rw [children_ofMarkdown, hdocument, List.reverse_nil, List.nil_append, List.map_singleton,
    Block.node_wordList _ _ hitems]
  cases isNumberDelimiter first.1.delimiter <;> rfl

/-- A paragraph and items with bullets read as the paragraph and a list. -/
theorem children_ofMarkdown_paragraph {c : Char} {after : List Char} (hc : opensText c = true)
    (hd : c.isDigit = false) (hu : Unbroken (c :: after)) {conts : List (List Char)}
    (h : ∀ line ∈ conts, Unbroken line ∧ Continues line) (words : List Word) (extended closed : Bool) :
    ∃ children, (ofMarkdown extended
        (writeLines closed ((c :: after) :: conts ++ bulletTexts words))).children =
      .branch (.container .paragraph none (some ⟨0, byteLength
        (writeLines (closed || !(bulletTexts words).isEmpty) ((c :: after) :: conts))⟩)) children ::
        listOf (wordItems words) := by
  obtain ⟨lines, hread, hreach⟩ :=
    read_paragraph hc hd hu h (bulletTexts words) extended closed false 0 []
  obtain ⟨lists, hfinish, hlists⟩ := @finish_read_bullets _ _
    (0 + byteLength (writeLines (closed || !(bulletTexts words).isEmpty) ((c :: after) :: conts))) _
    hreach [] extended closed words
    (byteLength (writeLines closed ((c :: after) :: conts ++ bulletTexts words)))
  rw [← bulletTexts, ← hread, finish_read] at hfinish
  refine ⟨((⟨extended, []⟩ : Dialect).textNodes (Symbol.ofLines lines.reverse)).foldl pushChild [], ?_⟩
  rw [children_ofMarkdown, hfinish, List.reverse_nil, List.nil_append, List.map_cons, hlists,
    Block.node_paragraph, Nat.zero_add]
  rfl

/-- A word, and a paragraph of one line with items with bullets after a blank line, read as two
paragraphs and a list. -/
theorem children_ofMarkdown_apart (term : Word) {c : Char} {after : List Char} (hc : opensText c = true)
    (hd : c.isDigit = false) (hu : Unbroken (c :: after)) (words : List Word) (extended closed : Bool) :
    ∃ children, (ofMarkdown extended
        (writeLines closed (term.chars :: [] :: (c :: after) :: bulletTexts words))).children =
      wordParagraph ⟨0, byteLength (writeLines true [term.chars])⟩ term ::
        .branch (.container .paragraph none
          (some ⟨byteLength (writeLines true [term.chars, []]),
            byteLength (writeLines true [term.chars, []]) +
              byteLength (writeLines (closed || !(bulletTexts words).isEmpty) [c :: after])⟩)) children ::
        listOf (wordItems words) := by
  obtain ⟨d, rest, heq, hletter, -⟩ := term.exists_cons
  have hunbroken := unbroken_word term
  rw [heq] at hunbroken
  obtain ⟨line, hterm, hline, hreach⟩ :=
    read_opening (opensText_of_isAlpha hletter) (isDigit_of_isAlpha hletter) hunbroken
      ([] :: (c :: after) :: bulletTexts words) extended closed false 0 []
  rw [← heq] at hterm hline hreach
  simp only [List.isEmpty_cons, Bool.not_false, Bool.or_true, Nat.zero_add] at hterm hreach
  have hblank := @takeLine_blank (.written closed (byteLength (writeLines true [term.chars])) []
    ((c :: after) :: bulletTexts words)) [] rfl _ _ _ hreach extended
  have hempty := @read_writeLines [] ((c :: after) :: bulletTexts words) (by simp [Unbroken])
    (.inr (by simp)) extended closed (byteLength (writeLines true [term.chars])) (inParagraph [] [line])
  have hoffset : byteLength (writeLines true [term.chars]) + byteLength (writeLines true [[]]) =
      byteLength (writeLines true [term.chars, []]) := by
    have happend := writeLines_append true [term.chars] [[]]
    rw [List.singleton_append] at happend
    rw [happend, Text.byteLength_append]
    rfl
  simp only [List.isEmpty_cons, Bool.not_false, Bool.or_true, hoffset] at hempty
  rw [hblank, List.reverse_singleton, ofLines_word hline] at hempty
  obtain ⟨lines, hread, hparagraph⟩ := @read_paragraph c after hc hd hu [] (by simp) (bulletTexts words)
    extended closed true (byteLength (writeLines true [term.chars, []]))
    [.paragraph ⟨0, byteLength (writeLines true [term.chars])⟩ none (Symbol.ofChars term.chars)]
  obtain ⟨lists, hfinish, hlists⟩ := @finish_read_bullets _ _
    (byteLength (writeLines true [term.chars, []]) +
      byteLength (writeLines (closed || !(bulletTexts words).isEmpty) [c :: after])) _
    hparagraph [.paragraph ⟨0, byteLength (writeLines true [term.chars])⟩ none (Symbol.ofChars term.chars)]
    extended closed words
    (byteLength (writeLines closed (term.chars :: [] :: (c :: after) :: bulletTexts words)))
  rw [List.singleton_append] at hread
  rw [← bulletTexts, ← hread, ← hempty, ← hterm, finish_read] at hfinish
  refine ⟨((⟨extended, []⟩ : Dialect).textNodes (Symbol.ofLines lines.reverse)).foldl pushChild [], ?_⟩
  rw [children_ofMarkdown, hfinish, List.reverse_singleton, List.singleton_append, List.map_cons,
    List.map_cons, hlists, Block.node_wordParagraph, Block.node_paragraph]
  rfl

end Node

end DefinitionLists
