/-
Module: DefinitionLists.Proofs.Written.Groups
Purpose: Terms that are written with one definition or more, and what the builder makes of them however
  they are cut into paragraphs.
Main exports: WordGroup, WordParagraph, splitEntriesFrom_groups, Formation.Holds, WordParagraph.Fit,
  Formation.foldlM_take_of_fit
-/
import DefinitionLists.Proofs.Written.Paragraphs

namespace DefinitionLists

open Markdown
open Text (byteLength joinLines trimStart)

/-- A word and the words that define it, of which there is at least one. -/
structure WordGroup where
  term : Word
  first : Word
  others : List Word

/-- The line that says a word as a definition. -/
def Word.line (word : Word) : List Char := definitionLine word.chars

/-- The node of a word as a term. -/
def Word.termNode (word : Word) : Node := .descriptionTerm [.text word.string]

/-- The node of a word as a definition: a paragraph of the word. -/
def Word.detailsNode (word : Word) : Node :=
  .descriptionDetails [wordParagraph ⟨0, byteLength word.chars⟩ word]

namespace WordGroup

/-- The lines of the group: its term, and each definition after a colon and a space. -/
def lines (group : WordGroup) : List (List Char) :=
  group.term.chars :: (group.first :: group.others).map Word.line

/-- The nodes of the group. -/
def nodes (group : WordGroup) : List Node :=
  group.term.termNode :: (group.first :: group.others).map Word.detailsNode

/-- The entry that the lines of the group are. -/
def entry (group : WordGroup) : Entry :=
  ⟨[group.term.chars], (group.first :: group.others).map Word.chars⟩

end WordGroup

/-- A paragraph with lines of groups in it: a term that waits for definitions, whole groups, or a further
definition of the term before the paragraph, with whole groups after it. -/
inductive WordParagraph where
  | term (word : Word)
  | groups (first : WordGroup) (more : List WordGroup)
  | definition (word : Word) (more : List WordGroup)

namespace WordParagraph

/-- The lines of the paragraph. -/
def lines : WordParagraph → List (List Char)
  | term word => [word.chars]
  | groups first more => (first :: more).flatMap WordGroup.lines
  | definition word more => word.line :: more.flatMap WordGroup.lines

/-- The nodes that the paragraph adds to the definition lists of its document. -/
def nodes : WordParagraph → List Node
  | term word => [word.termNode]
  | groups first more => (first :: more).flatMap WordGroup.nodes
  | definition word more => word.detailsNode :: more.flatMap WordGroup.nodes

/-- What the builder has made last once it has taken the paragraph. -/
def last : WordParagraph → LastMade
  | term _ => .term
  | groups .. | definition .. => .list

end WordParagraph

/-! ### Lines -/

theorem Word.trimStart_line (word : Word) : trimStart word.line = word.line :=
  trimStart_definitionLine word.chars

theorem Word.definitionBody_line (word : Word) : definitionBody? word.line = some word.chars :=
  definitionBody_definitionLine (trimStart_word word)

theorem Word.unbroken_line (word : Word) : Unbroken word.line :=
  unbroken_definitionLine (unbroken_word word)

/-- A word goes on with a paragraph. -/
theorem continues_word (word : Word) : Continues word.chars := by
  obtain ⟨c, rest, heq, hc, -⟩ := word.exists_cons
  have hopens := opensText_of_isAlpha hc
  have hnone : listMark? (c :: rest) = none := listMark_of_opensText hopens (isDigit_of_isAlpha hc)
  exact ⟨0, c, rest, heq, by decide, hopens, .inr fun _ => by simp only [interruptsAsItem, hnone]⟩

/-- Whether a line is that of a term or a definition. -/
inductive IsWordLine : List Char → Prop where
  | term (word : Word) : IsWordLine word.chars
  | definition (word : Word) : IsWordLine word.line

namespace IsWordLine

variable {line : List Char}

theorem unbroken (h : IsWordLine line) : Unbroken line := by
  cases h with
  | term word => exact unbroken_word word
  | definition word => exact word.unbroken_line

theorem continues (h : IsWordLine line) : Continues line := by
  cases h with
  | term word => exact continues_word word
  | definition word => exact continues_definitionLine word.chars

theorem trimStart_eq (h : IsWordLine line) : trimStart line = line := by
  cases h with
  | term word => exact trimStart_word word
  | definition word => exact word.trimStart_line

end IsWordLine

theorem WordGroup.isWordLine {group : WordGroup} : ∀ line ∈ group.lines, IsWordLine line :=
  List.forall_mem_cons.2 ⟨.term group.term, List.forall_mem_map.2 fun word _ => .definition word⟩

theorem isWordLine_of_mem_flatMap {groups : List WordGroup} :
    ∀ line ∈ groups.flatMap WordGroup.lines, IsWordLine line := by
  intro line hline
  obtain ⟨group, -, hmem⟩ := List.mem_flatMap.1 hline
  exact group.isWordLine line hmem

namespace WordParagraph

/-- Each line of the paragraph says a word. -/
theorem isWordLine {paragraph : WordParagraph} : ∀ line ∈ paragraph.lines, IsWordLine line := by
  cases paragraph with
  | term word => exact List.forall_mem_singleton.2 (.term word)
  | groups first more => exact isWordLine_of_mem_flatMap
  | definition word more => exact List.forall_mem_cons.2 ⟨.definition word, isWordLine_of_mem_flatMap⟩

theorem lines_ne_nil (paragraph : WordParagraph) : paragraph.lines ≠ [] := by
  cases paragraph with
  | term word => simp [lines]
  | groups first more => simp [lines, WordGroup.lines]
  | definition word more => simp [lines]

/-- The lines of a paragraph of groups are written as one paragraph. -/
theorem isParagraph_lines (paragraph : WordParagraph) : IsParagraph paragraph.lines := by
  have hlines := @isWordLine paragraph
  obtain ⟨line, conts, heq⟩ := List.exists_cons_of_ne_nil paragraph.lines_ne_nil
  rw [heq, List.forall_mem_cons] at hlines
  have hconts : ∀ line ∈ conts, Unbroken line ∧ Continues line :=
    fun other ho => ⟨(hlines.2 other ho).unbroken, (hlines.2 other ho).continues⟩
  have hunbroken := hlines.1.unbroken
  rw [heq]
  cases hlines.1 with
  | term word =>
      obtain ⟨c, rest, hword, hc, -⟩ := word.exists_cons
      rw [hword] at hunbroken ⊢
      exact ⟨c, rest, conts, rfl, opensText_of_isAlpha hc, isDigit_of_isAlpha hc, hunbroken, hconts⟩
  | definition word =>
      exact ⟨':', ' ' :: word.chars, conts, rfl, by decide, by decide, hunbroken, hconts⟩

end WordParagraph

/-! ### Entries -/

/-- Definitions that come after an entry are all part of it. -/
theorem splitEntriesFrom_definitions (last : Entry) (earlier : List Entry) (words : List Word)
    (rest : List (List Char)) :
    splitEntriesFrom (last :: earlier) [] (words.map Word.line ++ rest) =
      splitEntriesFrom ({ last with details := last.details ++ words.map Word.chars } :: earlier) []
        rest := by
  induction words generalizing last with
  | nil => simp
  | cons word more ih =>
      simp only [List.map_cons, List.cons_append, splitEntriesFrom, word.definitionBody_line]
      rw [ih]
      simp [Entry.define]

/-- The lines of a group are an entry of their own, whatever was found before. -/
theorem splitEntriesFrom_group (found : List Entry) (group : WordGroup) (rest : List (List Char)) :
    splitEntriesFrom found [] (group.lines ++ rest) = splitEntriesFrom (group.entry :: found) [] rest := by
  have hfollowed : isDefinitionLine group.first.line = true := by
    simp [isDefinitionLine, group.first.definitionBody_line]
  have hterm : splitEntriesFrom found [] (group.lines ++ rest) =
      splitEntriesFrom found [group.term.chars]
        ((group.first :: group.others).map Word.line ++ rest) := by
    cases found <;>
      simp [WordGroup.lines, splitEntriesFrom, definitionBody_word, hfollowed]
  have hfirst : splitEntriesFrom found [group.term.chars]
      ((group.first :: group.others).map Word.line ++ rest) =
      splitEntriesFrom (⟨[group.term.chars], [group.first.chars]⟩ :: found) []
        (group.others.map Word.line ++ rest) := by
    cases found <;>
      simp [splitEntriesFrom, group.first.definitionBody_line]
  rw [hterm, hfirst, splitEntriesFrom_definitions]
  rfl

theorem splitEntriesFrom_groups (found : List Entry) (groups : List WordGroup) :
    splitEntriesFrom found [] (groups.flatMap WordGroup.lines) =
      found.reverse ++ groups.map WordGroup.entry := by
  induction groups generalizing found with
  | nil => simp [splitEntriesFrom]
  | cons group more ih =>
      rw [List.flatMap_cons, splitEntriesFrom_group, ih]
      simp

/-- The lines of groups hold their entries. -/
theorem splitEntries_groups (groups : List WordGroup) :
    splitEntries (groups.flatMap WordGroup.lines) = groups.map WordGroup.entry :=
  splitEntriesFrom_groups [] groups

/-- A definition that opens a paragraph has no term there. -/
theorem splitEntries_definition_groups (word : Word) (groups : List WordGroup) :
    splitEntries (word.line :: groups.flatMap WordGroup.lines) =
      ⟨[], [word.chars]⟩ :: groups.map WordGroup.entry := by
  simp only [splitEntries, splitEntriesFrom, word.definitionBody_line]
  rw [splitEntriesFrom_groups]
  rfl

theorem detailsNodes_words (extended : Bool) (words : List Word) :
    detailsNodes extended (words.map Word.chars) = words.map Word.detailsNode := by
  rw [detailsNodes, List.map_map]
  refine List.map_congr_left fun word _ => ?_
  show Node.descriptionDetails (Node.ofMarkdown extended word.chars).children = word.detailsNode
  rw [Node.children_ofMarkdown_word, Word.detailsNode]

theorem detailsNodes_word (extended : Bool) (word : Word) :
    detailsNodes extended [word.chars] = [word.detailsNode] :=
  detailsNodes_words extended [word]

/-- The entry of a group becomes the nodes of the group. -/
theorem WordGroup.nodes_entry (extended : Bool) (group : WordGroup) :
    group.entry.nodes extended = group.nodes := by
  rw [Entry.nodes, entry, detailsNodes_words]
  simp only [joinLines, termInlines_word]
  rfl

/-- The entries of groups become their nodes. -/
theorem flatMap_nodes_entry (extended : Bool) (groups : List WordGroup) :
    (groups.map WordGroup.entry).flatMap (Entry.nodes extended) = groups.flatMap WordGroup.nodes := by
  simp only [List.flatMap_map, WordGroup.nodes_entry]

/-! ### The builder -/

namespace Formation

/-- Whether the builder has made definition lists of all nodes that a document had for them so far. A
paragraph of one word may wait after the lists. -/
inductive Holds : Formation → List Node → Prop where
  | nothing : Holds {} []
  | lists (children : List Node) (earlier : List (List Node)) :
      Holds ⟨.descriptionList children :: earlier.map .descriptionList, .list⟩
        (earlier.reverse.flatten ++ children)
  | waiting (span : Span) (word : Word) (earlier : List (List Node)) :
      Holds ⟨wordParagraph span word :: earlier.map .descriptionList, .term⟩
        (earlier.reverse.flatten ++ [word.termNode])

end Formation

namespace WordParagraph

/-- Whether the paragraph can come after what the builder made last: a definition needs a term, and a term
must have a definition before the next one. -/
def Fits : LastMade → WordParagraph → Prop
  | .other, definition .. => False
  | .term, term _ => False
  | .term, groups .. => False
  | _, _ => True

/-- Whether each paragraph fits what is before it, and no term waits at the end. -/
def Fit : LastMade → List WordParagraph → Prop
  | last, [] => last = .list
  | last, paragraph :: more => paragraph.Fits last ∧ Fit paragraph.last more

end WordParagraph

namespace Formation

section Take

variable {extended : Bool} {source : List Char} {child : Node}

/-- The builder takes a paragraph of groups by its lines. -/
theorem take_standsFor {paragraph : WordParagraph} (h : child.StandsFor source paragraph.lines)
    (state : Formation) :
    state.take extended source child = .ok (state.takeParagraph extended child paragraph.lines) := by
  obtain ⟨span, children, closed, rfl, hread, -⟩ := h
  have hlines := @WordParagraph.isWordLine paragraph
  have htrimmed : paragraph.lines.map trimStart = paragraph.lines := by
    rw [List.map_congr_left fun line hl => (hlines line hl).trimStart_eq, List.map_id']
  rw [take_paragraph paragraph.lines_ne_nil
    (fun line hl => ⟨(hlines line hl).unbroken, (hlines line hl).continues.ne_nil⟩) hread, htrimmed]

/-- Groups become a definition list. -/
theorem takeParagraph_groups (state : Formation) (first : WordGroup) (more : List WordGroup) :
    state.takeParagraph extended child ((first :: more).flatMap WordGroup.lines) =
      ⟨.descriptionList ((first :: more).flatMap WordGroup.nodes) :: state.made, .list⟩ := by
  have hentries := splitEntries_groups (first :: more)
  rw [List.map_cons] at hentries
  rw [takeParagraph_of_term hentries (by simp [WordGroup.entry]), ← List.map_cons,
    flatMap_nodes_entry]

/-- A further definition goes on with the definition list before it, as do the groups after it. -/
theorem takeParagraph_definition_list (word : Word) (more : List WordGroup) (own made : List Node) :
    takeParagraph extended ⟨.descriptionList own :: made, .list⟩ child
        (WordParagraph.definition word more).lines =
      ⟨.descriptionList (own ++ (WordParagraph.definition word more).nodes) :: made, .list⟩ := by
  rw [WordParagraph.lines, takeParagraph_after_list (splitEntries_definition_groups word more),
    flatMap_nodes_entry, detailsNodes_word]
  rfl

/-- A definition makes a definition list of the word that waits before it. -/
theorem takeParagraph_definition_term (word : Word) (more : List WordGroup) (span : Span) (term : Word)
    (made : List Node) :
    takeParagraph extended ⟨wordParagraph span term :: made, .term⟩ child
        (WordParagraph.definition word more).lines =
      ⟨.descriptionList (term.termNode :: (WordParagraph.definition word more).nodes) :: made,
        .list⟩ := by
  rw [wordParagraph, WordParagraph.lines,
    takeParagraph_after_term (splitEntries_definition_groups word more), flatMap_nodes_entry,
    detailsNodes_word]
  rfl

/-- A paragraph of groups that fits adds its nodes to the definition lists. -/
theorem exists_take_of_fits {state : Formation} {nodes : List Node} (h : state.Holds nodes)
    {paragraph : WordParagraph} (hf : paragraph.Fits state.last)
    (hs : child.StandsFor source paragraph.lines) :
    ∃ next, state.take extended source child = .ok next ∧ next.Holds (nodes ++ paragraph.nodes) ∧
      next.last = paragraph.last := by
  have htake := @take_standsFor extended _ _ _ hs state
  -- a paragraph that fits finds what it needs: no term waits before a new one, and a definition has one
  cases paragraph with
  | term word =>
      obtain ⟨span, children, closed, rfl, -, hword⟩ := hs
      obtain rfl := hword word rfl
      refine ⟨_, htake.trans (congrArg Except.ok (takeParagraph_word state _ word)), ?_, rfl⟩
      cases h with
      | nothing => exact .waiting span word []
      | lists own earlier =>
          have hlists := Holds.waiting span word (own :: earlier)
          rw [List.reverse_cons, List.flatten_append, List.flatten_singleton] at hlists
          exact hlists
      | waiting => exact hf.elim
  | groups first more =>
      refine ⟨_, htake.trans (congrArg Except.ok (takeParagraph_groups state first more)), ?_, rfl⟩
      cases h with
      | nothing => exact .lists _ []
      | lists own earlier =>
          have hlists := Holds.lists (WordParagraph.groups first more).nodes (own :: earlier)
          rw [List.reverse_cons, List.flatten_append, List.flatten_singleton] at hlists
          exact hlists
      | waiting => exact hf.elim
  | definition word more =>
      cases h with
      | nothing => exact hf.elim
      | lists own earlier =>
          refine ⟨_, htake.trans (congrArg Except.ok (takeParagraph_definition_list word more own _)), ?_,
            rfl⟩
          rw [List.append_assoc]
          exact .lists _ earlier
      | waiting span term earlier =>
          refine ⟨_, htake.trans
            (congrArg Except.ok (takeParagraph_definition_term word more span term _)), ?_, rfl⟩
          rw [List.append_assoc]
          exact .lists _ earlier

/-- Paragraphs that fit one after the other become definition lists of all their nodes. -/
theorem exists_foldlM_take_of_fit {paragraphs : List WordParagraph} {children : List Node}
    (hs : List.Forall₂ (Node.StandsFor source) (paragraphs.map WordParagraph.lines) children)
    {state : Formation} {nodes : List Node} (h : state.Holds nodes)
    (hf : WordParagraph.Fit state.last paragraphs) :
    ∃ done, children.foldlM (take extended source) state = .ok done ∧
      done.Holds (nodes ++ paragraphs.flatMap WordParagraph.nodes) ∧ done.last = .list := by
  induction paragraphs generalizing children state nodes with
  | nil =>
      cases hs
      exact ⟨state, rfl, by simpa using h, hf⟩
  | cons paragraph more ih =>
      obtain ⟨hfirst, hmore⟩ := hf
      obtain ⟨child, rest, hchild, hrest, rfl⟩ := List.forall₂_cons_left_iff.1 hs
      obtain ⟨next, htake, hnext, hlast⟩ := exists_take_of_fits h hfirst hchild
      rw [← hlast] at hmore
      obtain ⟨done, hdone, hnodes, hlist⟩ := ih hrest hnext hmore
      refine ⟨done, (foldlM_cons htake rest).trans hdone, ?_, hlist⟩
      simpa using hnodes

end Take

end Formation

/-- A document of paragraphs that fit one after the other becomes definition lists, and nothing else. -/
theorem formDefinitions_of_fit (extended closed : Bool) {paragraphs : List WordParagraph}
    (h : WordParagraph.Fit .other paragraphs) {source : List Char}
    (hs : source = writeLines closed (apart (paragraphs.map WordParagraph.lines))) :
    ∃ lists : List (List Node), (Node.ofMarkdown extended source).formDefinitions extended source =
        (.branch (.container .root none (some ⟨0, byteLength source⟩))
          (lists.map .descriptionList), none) ∧
      lists.flatten = paragraphs.flatMap WordParagraph.nodes := by
  have hwritten : ∀ written ∈ paragraphs.map WordParagraph.lines, IsParagraph written :=
    List.forall_mem_map.2 fun paragraph _ => paragraph.isParagraph_lines
  have hchildren := Node.children_ofMarkdown_paragraphs hwritten extended closed hs
  obtain ⟨done, hfold, hnodes, hlast⟩ :=
    Formation.exists_foldlM_take_of_fit hchildren Formation.Holds.nothing h
  have hformed : (Node.ofMarkdown extended source).formDefinitions extended source =
      (.branch (.container .root none (some ⟨0, byteLength source⟩)) done.made.reverse, none) := by
    rw [Node.ofMarkdown_eq_children]
    simp only [Node.formDefinitions]
    rw [hfold]
  rw [hformed]
  rw [List.nil_append] at hnodes
  generalize paragraphs.flatMap WordParagraph.nodes = nodes at hnodes
  cases hnodes with
  | nothing => cases hlast
  | lists own earlier =>
      exact ⟨(own :: earlier).reverse, by simp, by simp⟩
  | waiting => cases hlast

end DefinitionLists
