/-
Module: DefinitionLists.Proofs.Written.Formation
Purpose: What the builder makes of documents that are written of words: of a paragraph with a definition
  in it, and of a term and a definition that stand apart.
Main exports: splitEntries_definition, Formation.take_definition, Span.read?_writeLines,
  formDefinitions_paragraph, formDefinitions_apart
-/
import DefinitionLists.Proofs.Faults
import DefinitionLists.Proofs.Written.Rewriting
import DefinitionLists.Proofs.Written.Stages

namespace DefinitionLists

open Markdown
open Text (byteLength isBlank joinLines lines trimStart)

/-! ### Entries -/

theorem definitionBody_of_ne {c : Char} (h : c ≠ ':') (rest : List Char) :
    definitionBody? (c :: rest) = none := by
  unfold definitionBody?
  split
  · next heq => exact absurd (List.cons.inj heq).1 h
  · rfl

/-- A definition line says its body. -/
theorem definitionBody_definitionLine {body : List Char} (h : trimStart body = body) :
    definitionBody? (definitionLine body) = some body := by
  have hspace : trimStart (' ' :: body) = body := by
    rw [Text.trimStart_cons_of_isBlank rfl, h]
  have hblank : isBlank ' ' = true := rfl
  rw [definitionLine, definitionBody?, if_pos hblank, hspace]

theorem definitionBody_word (word : Word) : definitionBody? word.chars = none := by
  obtain ⟨c, rest, heq, hc, -⟩ := word.exists_cons
  rw [heq]
  exact definitionBody_of_ne (ne_of_class hc (by decide)) rest

/-- Lines that are no definitions go on with the definition before them. -/
theorem splitEntriesFrom_continued {conts : List (List Char)}
    (h : ∀ line ∈ conts, definitionBody? line = none) (term : List (List Char)) (body : List Char) :
    splitEntriesFrom [⟨term, [body]⟩] [] conts = [⟨term, [joinLines (body :: conts)]⟩] := by
  -- each line that goes on becomes part of the body for the lines after it
  induction conts generalizing body with
  | nil => rfl
  | cons line more ih =>
      obtain ⟨hline, hmore⟩ := List.forall_mem_cons.1 h
      have hnext : more.head?.any isDefinitionLine = false := by
        cases more with
        | nil => rfl
        | cons next rest => simp [isDefinitionLine, hmore next (by simp)]
      have hcontinue : Entry.continueDetails ⟨term, [body]⟩ line = ⟨term, [body ++ '\n' :: line]⟩ := rfl
      simp only [splitEntriesFrom, hline, hnext, Bool.false_eq_true, if_false]
      rw [hcontinue, ih hmore, Text.joinLines_continued]

/-- A term, its definition and lines that go on with that are one entry. -/
theorem splitEntries_definition (term : Word) {body : List Char} (hb : trimStart body = body)
    {conts : List (List Char)} (h : ∀ line ∈ conts, definitionBody? line = none) :
    splitEntries (term.chars :: definitionLine body :: conts) =
      [⟨[term.chars], [joinLines (body :: conts)]⟩] := by
  simp only [splitEntries, splitEntriesFrom, definitionBody_word, definitionBody_definitionLine hb,
    List.nil_append]
  exact splitEntriesFrom_continued h _ body

/-- A word that stands alone waits as a term. -/
theorem splitEntries_word (word : Word) : splitEntries [word.chars] = [] := by
  simp [splitEntries, splitEntriesFrom, definitionBody_word]

/-- A definition that stands alone has no term. -/
theorem splitEntries_alone {body : List Char} (hb : trimStart body = body) :
    splitEntries [definitionLine body] = [⟨[], [body]⟩] := by
  simp [splitEntries, splitEntriesFrom, definitionBody_definitionLine hb]

/-! ### Paragraphs -/

theorem trimStart_definitionLine (body : List Char) :
    trimStart (definitionLine body) = definitionLine body :=
  Text.trimStart_cons_of_not_isBlank (by decide) (' ' :: body)

theorem trimStart_word (word : Word) : trimStart word.chars = word.chars := by
  obtain ⟨c, rest, heq, hc, -⟩ := word.exists_cons
  rw [heq]
  exact Text.trimStart_cons_of_not_isBlank (isBlank_of_opensText (opensText_of_isAlpha hc)) rest

theorem continues_definitionLine (body : List Char) : Continues (definitionLine body) := by
  refine ⟨0, ':', ' ' :: body, rfl, by decide, by decide, .inr fun nextIsBlank => ?_⟩
  have hnone : listMark? (':' :: ' ' :: body) = none := listMark_of_opensText (by decide) (by decide)
  simp only [interruptsAsItem, hnone]

/-- A word as a term. -/
theorem termInlines_word (extended : Bool) (word : Word) :
    termInlines extended word.chars = [.text word.string] := by
  unfold termInlines
  rw [Node.children_ofMarkdown_word]
  rfl

theorem detailsNodes_singleton (extended : Bool) (text : List Char) :
    detailsNodes extended [text] = [.descriptionDetails (Node.ofMarkdown extended text).children] :=
  rfl

namespace Formation

variable {source : List Char} {span : Span} {closed : Bool}

/-- The builder takes a paragraph by the lines at its position, without their indentation. -/
theorem take_paragraph {written : List (List Char)} (hne : written ≠ [])
    (hw : ∀ line ∈ written, Unbroken line ∧ line ≠ [])
    (h : span.read? source = some (writeLines closed written)) (extended : Bool) (state : Formation)
    (children : List Node) :
    state.take extended source (.branch (.container .paragraph none (some span)) children) =
      .ok (state.takeParagraph extended (.branch (.container .paragraph none (some span)) children)
        (written.map trimStart)) := by
  simp only [take, paragraphText, h, lines_writeLines closed hne hw]

theorem foldlM_singleton (extended : Bool) (source : List Char) (state : Formation) (child : Node) :
    [child].foldlM (take extended source) state = state.take extended source child :=
  bind_pure _

/-- A word that stands alone waits as it is. -/
theorem takeParagraph_word {extended : Bool} (state : Formation) (paragraph : Node) (word : Word) :
    state.takeParagraph extended paragraph [word.chars] = ⟨paragraph :: state.made, .term⟩ := by
  apply takeParagraph_of_no_entries (splitEntries_word word)
  simp [isDefinitionLine, definitionBody_word]

/-- A paragraph of one word may become a term. -/
theorem take_word {word : Word} (h : span.read? source = some (writeLines closed [word.chars]))
    (extended : Bool) : take extended source {} (wordParagraph span word) =
      .ok ⟨[wordParagraph span word], .term⟩ := by
  have hwritten : ∀ line ∈ [word.chars], Unbroken line ∧ line ≠ [] :=
    List.forall_mem_singleton.2 ⟨unbroken_word word, word.ne_nil⟩
  rw [wordParagraph, take_paragraph (by simp) hwritten h, List.map_singleton, trimStart_word,
    takeParagraph_word]

/-- A definition after such a paragraph defines that word. -/
theorem take_definition_after_word {body : List Char} (hu : Unbroken body) (hb : trimStart body = body)
    (h : span.read? source = some (writeLines closed [definitionLine body])) (extended : Bool)
    (earlier : Span) (term : Word) (children : List Node) :
    take extended source ⟨[wordParagraph earlier term], .term⟩
        (.branch (.container .paragraph none (some span)) children) =
      .ok ⟨[.descriptionList [.descriptionTerm [.text term.string], .descriptionDetails
        (Node.ofMarkdown extended body).children]], .list⟩ := by
  have hwritten : ∀ line ∈ [definitionLine body], Unbroken line ∧ line ≠ [] :=
    List.forall_mem_singleton.2 ⟨unbroken_definitionLine hu, by simp [definitionLine]⟩
  rw [take_paragraph (by simp) hwritten h, List.map_singleton, trimStart_definitionLine,
    wordParagraph, takeParagraph_after_term (splitEntries_alone hb), List.flatMap_nil,
    List.append_nil, detailsNodes_singleton]

/-- A paragraph of a word, a definition, and lines that go on with that becomes a definition list. -/
theorem take_definition {term : Word} {body : List Char} {conts : List (List Char)}
    (hw : ∀ line ∈ term.chars :: definitionLine body :: conts, Unbroken line ∧ line ≠ [])
    (hb : trimStart body = body) (hn : ∀ line ∈ conts, definitionBody? (trimStart line) = none)
    (h : span.read? source = some (writeLines closed (term.chars :: definitionLine body :: conts)))
    (extended : Bool) (children : List Node) :
    take extended source {} (.branch (.container .paragraph none (some span)) children) =
      .ok ⟨[.descriptionList [.descriptionTerm [.text term.string], .descriptionDetails
        (Node.ofMarkdown extended (joinLines (body :: conts.map trimStart))).children]], .list⟩ := by
  have hplain : ∀ line ∈ conts.map trimStart, definitionBody? line = none := by
    intro line hline
    obtain ⟨old, hold, rfl⟩ := List.mem_map.1 hline
    exact hn old hold
  rw [take_paragraph (by simp) hw h, List.map_cons, List.map_cons, trimStart_word,
    trimStart_definitionLine, takeParagraph_of_term (splitEntries_definition term hb hplain) (by simp),
    List.flatMap_singleton, Entry.nodes, joinLines, termInlines_word, detailsNodes_singleton]

end Formation

/-! ### Documents -/

/-- The position of lines within a document reads those lines. -/
theorem Span.read?_writeLines (closed : Bool) (before : List (List Char)) {piece : List (List Char)}
    (h : piece ≠ []) (after : List (List Char)) :
    Span.read? ⟨byteLength (writeLines true before), byteLength (writeLines true before) +
        byteLength (writeLines (closed || !after.isEmpty) piece)⟩
      (writeLines closed (before ++ (piece ++ after))) =
        some (writeLines (closed || !after.isEmpty) piece) := by
  have hflag : (closed || !(piece ++ after).isEmpty) = true := by
    simp [h]
  rw [writeLines_append, hflag, writeLines_append, read?_append]

/-- The position of the first lines of a document reads those lines. -/
theorem Span.read?_first_writeLines (closed : Bool) {piece : List (List Char)} (h : piece ≠ [])
    (after : List (List Char)) :
    Span.read? ⟨0, byteLength (writeLines (closed || !after.isEmpty) piece)⟩
      (writeLines closed (piece ++ after)) = some (writeLines (closed || !after.isEmpty) piece) := by
  simpa [writeLines_nil] using read?_writeLines closed [] h after

/-- A list at the end of a document stays as it is. -/
theorem Node.formDefinitions_before_list {extended : Bool} {source : List Char} {first : List Node}
    {state : Formation} (h : first.foldlM (Formation.take extended source) {} = .ok state)
    (hint : Option String) (span : Option Span) (items : List Node) :
    formDefinitions extended source (.branch (.container .root hint span) (first ++ listOf items)) =
      (.branch (.container .root hint span) (state.made.reverse ++ listOf items), none) := by
  unfold formDefinitions
  simp only [List.foldlM_append]
  rw [h]
  cases items with
  | nil => simp [listOf, bind, Except.bind, pure, Except.pure]
  | cons item more =>
      simp [listOf, bind, Except.bind, pure, Except.pure, Formation.take, Node.bulletList]

section Documents

variable (extended closed : Bool) (term : Word) {body : List Char} (hu : Unbroken body)
  (hb : trimStart body = body) (words : List Word)

include hu hb

/-- A paragraph of a term and its definition, with lines that go on with that, becomes a definition
list. Its details are what the body and the lines, without their indentation, read as. -/
theorem formDefinitions_paragraph {conts : List (List Char)}
    (hc : ∀ line ∈ conts, Unbroken line ∧ Continues line)
    (hn : ∀ line ∈ conts, definitionBody? (trimStart line) = none) {source : List Char}
    (hs : source =
      writeLines closed (term.chars :: definitionLine body :: conts ++ bulletTexts words)) :
    (Node.ofMarkdown extended source).formDefinitions extended source =
      (definitionDocument ⟨0, byteLength source⟩ term
        (Node.ofMarkdown extended (joinLines (body :: conts.map trimStart))).children
        (listOf (wordItems words)), none) := by
  have hlines : ∀ line ∈ definitionLine body :: conts, Unbroken line ∧ Continues line :=
    List.forall_mem_cons.2 ⟨⟨unbroken_definitionLine hu, continues_definitionLine body⟩, hc⟩
  have hwritten : ∀ line ∈ term.chars :: definitionLine body :: conts, Unbroken line ∧ line ≠ [] :=
    List.forall_mem_cons.2 ⟨⟨unbroken_word term, term.ne_nil⟩,
      fun line hl => ⟨(hlines line hl).1, (hlines line hl).2.ne_nil⟩⟩
  obtain ⟨c, after, heq, hletter, -⟩ := term.exists_cons
  have hunbroken := unbroken_word term
  rw [heq] at hunbroken
  obtain ⟨children, hchildren⟩ := Node.children_ofMarkdown_paragraph (opensText_of_isAlpha hletter)
    (isDigit_of_isAlpha hletter) hunbroken hlines words extended closed
  rw [← heq, ← hs] at hchildren
  have hread := Span.read?_first_writeLines closed
    (List.cons_ne_nil term.chars (definitionLine body :: conts)) (bulletTexts words)
  rw [← hs] at hread
  have htake := Formation.take_definition hwritten hb hn hread extended children
  have hfold := (Formation.foldlM_singleton extended source {} _).trans htake
  rw [Node.ofMarkdown_eq_children, hchildren, ← List.singleton_append,
    Node.formDefinitions_before_list hfold]
  rfl

/-- A term and a definition that a blank line sets apart become a definition list. -/
theorem formDefinitions_apart {source : List Char}
    (hs : source = writeLines closed (term.chars :: [] :: definitionLine body :: bulletTexts words)) :
    (Node.ofMarkdown extended source).formDefinitions extended source =
      (definitionDocument ⟨0, byteLength source⟩ term (Node.ofMarkdown extended body).children
        (listOf (wordItems words)), none) := by
  obtain ⟨children, hchildren⟩ := @Node.children_ofMarkdown_apart term ':' (' ' :: body) (by decide)
    (by decide) (unbroken_definitionLine hu) words extended closed
  rw [← definitionLine, ← hs] at hchildren
  have hword := Span.read?_first_writeLines closed (List.cons_ne_nil term.chars [])
    ([] :: definitionLine body :: bulletTexts words)
  have hdefinition := Span.read?_writeLines closed [term.chars, []]
    (List.cons_ne_nil (definitionLine body) []) (bulletTexts words)
  simp only [List.isEmpty_cons, Bool.not_false, Bool.or_true, List.cons_append, List.nil_append, ← hs]
    at hword hdefinition
  have hfirst := Formation.take_word hword extended
  have hsecond := Formation.take_definition_after_word hu hb hdefinition extended
    ⟨0, byteLength (writeLines true [term.chars])⟩ term children
  rw [← Formation.foldlM_singleton] at hsecond
  have hfold := (Formation.foldlM_cons hfirst _).trans hsecond
  have happend {node paragraph : Node} {after : List Node} :
      node :: paragraph :: after = [node, paragraph] ++ after := rfl
  rw [Node.ofMarkdown_eq_children, hchildren, happend, Node.formDefinitions_before_list hfold]
  rfl

end Documents

end DefinitionLists
