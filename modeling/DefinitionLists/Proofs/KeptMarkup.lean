/-
Module: DefinitionLists.Proofs.KeptMarkup
Purpose: Which links, images and code of the paragraphs that become part of a definition list occur in the
  list: those of a paragraph that is a term by itself, and those of a paragraph whose text falls apart into
  the texts of its terms and definitions.
Main exports: Node.withoutPositions, ReadText, Node.texts, Node.FallsApart, Node.markups_headParts,
  formDefinitions_keeps_markups, Node.LosesNoMarkup, not_forall_losesNoMarkup
-/
import DefinitionLists.Proofs.Markdown.FallsInto
import DefinitionLists.Proofs.Positions
import DefinitionLists.Proofs.Segments

namespace DefinitionLists

open Markdown
open Text (joinLines lines)

/-! ### Trees without positions -/

/-- The node without the position that it may have. -/
def Node.withoutPosition : Node → Node
  | .branch (.container kind hint _) children => .branch (.container kind hint none) children
  | node => node

/-- The tree with all positions dropped. -/
def Node.withoutPositions (tree : Node) : Node := tree.mapBottomUp Node.withoutPosition

namespace Node

theorem isPlaced_of_standsIn {source : List Char} {node : Node}
    (h : node.isContainer .paragraph = true → node.StandsIn source) : node.IsPlaced source := by
  intro span hspan
  obtain ⟨span', children, piece, rfl, hpiece⟩ := h (isContainer_of_paragraphSpan hspan)
  obtain rfl : span' = span := Option.some.inj hspan
  exact Span.fits_of_read hpiece

theorem withoutPositions_branch (head : Branch) (children : List Node) :
    (Node.branch head children).withoutPositions =
      (Node.branch head (children.map withoutPositions)).withoutPosition := by
  rw [withoutPositions, mapBottomUp, mapBottomUpList_eq_map]
  rfl

/-- Without positions a paragraph has none. -/
theorem paragraphSpan_withoutPositions (node : Node) : node.withoutPositions.paragraphSpan? = none := by
  cases node with
  | branch head children =>
      rw [withoutPositions_branch]
      cases head with
      | container kind hint span => cases kind <;> rfl
      | _ => rfl
  | leaf content => rfl

/-- A tree without positions has none that do not fit. -/
theorem withoutPositions_root {tree : Node} (h : tree.isContainer .root = true) (source : List Char) :
    tree.withoutPositions.isContainer .root = true ∧
      ∀ child ∈ tree.withoutPositions.children, child.IsPlaced source := by
  obtain ⟨hint, span, children, rfl⟩ := eq_branch_of_isContainer h
  rw [withoutPositions_branch]
  refine ⟨rfl, fun child hchild span' hspan => ?_⟩
  obtain ⟨node, -, rfl⟩ := List.mem_map.1 hchild
  rw [paragraphSpan_withoutPositions] at hspan
  cases hspan

end Node

/-! ### Texts that fall into others -/

namespace Markdown

/-- A running text, and the targets of the labels that are defined where it is read. -/
structure ReadText where
  targets : Targets
  content : List Symbol

namespace ReadText

/-- The links, images and code in a text. -/
def markups (blanks extended : Bool) (text : ReadText) : List Markup :=
  Dialect.markups ⟨extended, text.targets⟩ blanks text.content

/-- Whether a text reads the same where no label is defined. -/
def RefersToNoLabel (extended : Bool) (text : ReadText) : Prop :=
  Inline.ofSymbols extended text.targets text.content = Inline.ofSymbols extended [] text.content

/-- Where no label is defined, none can be referred to. -/
theorem refersToNoLabel_of_no_targets {extended : Bool} {text : ReadText}
    (h : text.targets.isEmpty = true) : text.RefersToNoLabel extended := by
  rw [RefersToNoLabel, List.isEmpty_iff.1 h]

/-- The links of a text that refers to no label do not depend on which labels are defined. -/
theorem markups_of_refersToNoLabel {extended : Bool} {text : ReadText} (h : text.RefersToNoLabel extended)
    (blanks : Bool) :
    text.markups blanks extended = Dialect.markups ⟨extended, []⟩ blanks text.content :=
  congrArg (List.flatMap (Inline.markups blanks)) h

/-- Whether a text falls into others, where neither it nor they refer to a label. -/
structure FallsInto (blanks extended : Bool) (text : ReadText) (others : List ReadText) : Prop where
  unlabelled : text.RefersToNoLabel extended
  unlabelled_others : ∀ other ∈ others, other.RefersToNoLabel extended
  falls : Reading.FallsInto blanks extended {} text.content (others.map content)

/-- The markup of a text is that of the texts that it falls into. -/
theorem FallsInto.markups_eq {blanks extended : Bool} {text : ReadText} {others : List ReadText}
    (h : text.FallsInto blanks extended others) :
    text.markups blanks extended = others.flatMap (markups blanks extended) := by
  have hothers : others.map (fun other => Dialect.markups ⟨extended, []⟩ blanks other.content) =
      others.map (markups blanks extended) :=
    List.map_congr_left fun other hother =>
      ((markups_of_refersToNoLabel (h.unlabelled_others other hother)) blanks).symm
  calc text.markups blanks extended
      = (Reading.run extended [] text.content.length {} text.content).markups blanks := by
        rw [markups_of_refersToNoLabel h.unlabelled]
        exact Reading.markups_ofSymbols blanks ⟨extended, []⟩ text.content
    _ = (others.map content).flatMap (Dialect.markups ⟨extended, []⟩ blanks) :=
        Reading.markups_of_fallsInto h.falls
    _ = others.flatMap (markups blanks extended) := by
        rw [List.flatMap_map, List.flatMap_def, hothers, ← List.flatMap_def]

end ReadText

end Markdown

/-! ### The texts of terms and definitions -/

/-- The running text of a term: that of the first block, if this is a paragraph. -/
def termTexts (extended : Bool) (text : List Char) : List ReadText :=
  let document := Document.ofText extended text
  match document.blocks with
  | .paragraph _ _ content :: _ => [⟨document.targets, content⟩]
  | _ => []

/-- The running texts of a definition. -/
def definitionTexts (extended : Bool) (text : List Char) : List ReadText :=
  let document := Document.ofText extended text
  document.texts.map (ReadText.mk document.targets)

/-- The running texts of the term of an entry, if it has one, and of its definitions. -/
def Entry.texts (extended : Bool) (entry : Entry) : List ReadText :=
  (if entry.term = [] then [] else termTexts extended (joinLines entry.term)) ++
    entry.details.flatMap (definitionTexts extended)

/-- The running texts of the terms and definitions that the lines of a paragraph hold, in order. -/
def Node.texts (extended : Bool) (source : List Char) (node : Node) : List ReadText :=
  match node.paragraphLines? source with
  | some lines => (splitEntries lines).flatMap (Entry.texts extended)
  | none => []

section Texts

variable (blanks extended : Bool)

/-- A term has the links, images and code of the text that it is read from. -/
theorem markups_termInlines (text : List Char) :
    (termInlines extended text).flatMap (Node.markups blanks) =
      (termTexts extended text).flatMap (ReadText.markups blanks extended) := by
  have hnodes : (Node.ofMarkdown extended text).children =
      (Document.ofText extended text).blocks.map
        (Block.node ⟨extended, (Document.ofText extended text).targets⟩ false) := by
    rw [ofMarkdown_eq_branch]
    rfl
  simp only [termInlines, termTexts, hnodes]
  obtain ⟨blocks, targets⟩ := Document.ofText extended text
  cases blocks with
  | nil => rfl
  | cons block more =>
      have hmarkups := block.markups_node ⟨extended, targets⟩ blanks false
      have htag := block.tag_node ⟨extended, targets⟩ false
      cases block with
      | paragraph span task content =>
          rw [Block.node_paragraph, Node.markups_branch] at hmarkups
          rw [List.map_cons, Block.node_paragraph]
          exact hmarkups
      | _ =>
          -- no other block is a paragraph, so the text stands as it is
          rw [List.map_cons]
          split
          · next heq =>
              rw [(List.cons.inj heq).1] at htag
              simp [Node.tag, Branch.tag, Container.tag, Block.tag] at htag
          · rfl

theorem markups_definition (text : List Char) :
    (Node.ofMarkdown extended text).children.flatMap (Node.markups blanks) =
      (definitionTexts extended text).flatMap (ReadText.markups blanks extended) := by
  rw [flatMap_markups_ofMarkdown, definitionTexts, List.flatMap_map]
  rfl

/-- An entry has those of its term and its definitions, in order. -/
theorem Entry.markups_parts (entry : Entry) :
    (entry.parts extended).flatMap (Node.markups blanks) =
      (entry.texts extended).flatMap (ReadText.markups blanks extended) := by
  have hterm : (if entry.term = [] then [] else
        [Node.descriptionTerm (termInlines extended (joinLines entry.term))]).flatMap
          (Node.markups blanks) =
      (if entry.term = [] then [] else termTexts extended (joinLines entry.term)).flatMap
        (ReadText.markups blanks extended) := by
    split
    · rfl
    · rw [← markups_termInlines, List.flatMap_singleton, Node.descriptionTerm, Node.markups_branch]
      rfl
  have hdetails : (detailsNodes extended entry.details).flatMap (Node.markups blanks) =
      (entry.details.flatMap (definitionTexts extended)).flatMap (ReadText.markups blanks extended) := by
    rw [detailsNodes, List.flatMap_map, List.flatMap_assoc]
    congr 1
    funext text
    rw [← markups_definition, Node.descriptionDetails, Node.markups_branch]
    rfl
  rw [parts, texts, List.flatMap_append, List.flatMap_append, hterm, hdetails]

/-- The terms and definitions of a paragraph have the markup of their texts, and no other. -/
theorem Node.markups_parts (source : List Char) (node : Node) :
    (node.parts extended source).flatMap (markups blanks) =
      (node.texts extended source).flatMap (ReadText.markups blanks extended) := by
  unfold parts texts
  cases node.paragraphLines? source with
  | none => rfl
  | some lines =>
      simp only [List.flatMap_assoc, Entry.markups_parts]

end Texts

/-! ### Paragraphs that become part of a definition list -/

/-- Whether a node is a paragraph of a document that falls into the texts of its terms and definitions. -/
def Node.FallsApart (blanks extended : Bool) (source : List Char) (node : Node) : Prop :=
  ∃ span task content, .paragraph span task content ∈ (Document.ofText extended source).blocks ∧
    node = (Block.paragraph span task content).node
      ⟨extended, (Document.ofText extended source).targets⟩ false ∧
    ReadText.FallsInto blanks extended ⟨(Document.ofText extended source).targets, content⟩
      (node.texts extended source)

/-- Whether a node is a paragraph of a document without labels, and so many steps lead to the start of each
of its texts and past it. -/
def Node.fallsApartBy (blanks extended : Bool) (source : List Char) (node : Node)
    (steps : List (Nat × Nat)) : Bool :=
  let document := Document.ofText extended source
  let texts := node.texts extended source
  document.blocks.any fun
    | .paragraph span task content =>
      node = (Block.paragraph span task content).node ⟨extended, document.targets⟩ false &&
        document.targets.isEmpty && texts.all (·.targets.isEmpty) &&
        Reading.fallsBy blanks extended steps (texts.map ReadText.content) {} content
    | _ => false

/-- Steps that lead to the start of each text and past it show that the paragraph falls into the texts.
-/
theorem Node.fallsApart_of_steps {blanks extended : Bool} {source : List Char} {node : Node}
    {steps : List (Nat × Nat)} (h : node.fallsApartBy blanks extended source steps = true) :
    node.FallsApart blanks extended source := by
  obtain ⟨block, hblock, hsteps⟩ := List.any_eq_true.1 h
  cases block with
  | paragraph span task content =>
      simp only [Bool.and_eq_true, decide_eq_true_eq] at hsteps
      obtain ⟨⟨⟨hnode, htargets⟩, hall⟩, hfalls⟩ := hsteps
      refine ⟨span, task, content, hblock, hnode, ?_, fun other hother => ?_,
        Reading.fallsInto_of_steps hfalls⟩
      · exact ReadText.refersToNoLabel_of_no_targets htargets
      · exact ReadText.refersToNoLabel_of_no_targets (List.all_eq_true.1 hall other hother)
  | _ => cases hsteps

/-- Code that goes on in an indented line stands in the term up to blanks. -/
example : (Node.branch (.container .paragraph none (some ⟨0, 11⟩))
    [.leaf (.inlineCode "a   b"), .text "\n: d"]).fallsApartBy false true "`a\n  b`\n: d".toList
      [(0, 1), (3, 1)] = true := by
  decide +kernel

/-- What a paragraph gives, where it becomes part of a list, has its markup: if it is a term by itself, and
if it falls apart. -/
theorem Node.markups_headParts {blanks extended : Bool} {source : List Char} {node : Node}
    (h : node.role? source = some .plain ∨ node.FallsApart blanks extended source) :
    (node.headParts extended source).flatMap (markups blanks) = node.markups blanks := by
  rw [headParts]
  split
  · next hplain =>
      obtain ⟨texts, hlines, -⟩ := exists_lines_of_role hplain
      obtain ⟨hint, span, inlines, rfl⟩ :=
        eq_branch_of_isContainer (isContainer_of_paragraphLines hlines)
      rw [List.flatMap_singleton, descriptionTerm, markups_branch, markups_branch]
      rfl
  · next hnot =>
      obtain ⟨span, task, content, -, hnode, hfalls⟩ := h.resolve_left hnot
      calc (node.parts extended source).flatMap (markups blanks)
          = (node.texts extended source).flatMap (ReadText.markups blanks extended) :=
            markups_parts blanks extended source node
        _ = ReadText.markups blanks extended ⟨(Document.ofText extended source).targets, content⟩ :=
            hfalls.markups_eq.symm
        _ = ((Block.paragraph span task content).node
              ⟨extended, (Document.ofText extended source).targets⟩ false).markups blanks := by
            rw [Block.markups_node, Block.texts, List.flatMap_singleton]
            rfl
        _ = node.markups blanks := by rw [← hnode]

/-- What the paragraphs of a segment give stands side by side in the list. -/
theorem Piece.headParts_infix {source : List Char} {head paragraph : Node} {definitions : List Node}
    (hmem : paragraph ∈ head :: definitions)
    (hall : ∀ definition ∈ definitions, definition.isHeadless source = true) (extended : Bool) :
    paragraph.headParts extended source <:+:
      head.headParts extended source ++ definitions.flatMap (Node.parts extended source) := by
  rcases List.mem_cons.1 hmem with rfl | hdefinition
  · exact (List.prefix_append _ _).isInfix
  · have hparts : paragraph.headParts extended source = paragraph.parts extended source := by
      rw [Node.headParts, Node.isHeadless_iff.1 (hall paragraph hdefinition)]
      rfl
    obtain ⟨before, after, rfl⟩ := List.append_of_mem hdefinition
    rw [hparts, List.flatMap_append, List.flatMap_cons, ← List.append_assoc, ← List.append_assoc]
    exact List.infix_append _ _ _

/-- The definitions of a segment open with their definition lines. -/
theorem Segments.isHeadless_of_mem {source : List Char} {nodes : List Node} {pieces : List Piece}
    (h : Segments source nodes pieces) {head : Node} {definitions : List Node}
    (hmem : .segment head definitions ∈ pieces) :
    ∀ definition ∈ definitions, definition.isHeadless source = true := by
  induction h with
  | done => cases hmem
  | kept unheaded alone rest ih => exact ih (by simpa using hmem)
  | segment cut opens belong whole rest ih =>
      rcases List.mem_cons.1 hmem with heq | hmore
      · obtain ⟨rfl, rfl⟩ := Piece.segment.inj heq
        exact belong
      · exact ih hmore

/-- The list that is made of a segment has the markup of a paragraph, if what the paragraph gives has. -/
theorem Piece.markups_infix {blanks extended : Bool} {source : List Char} {head paragraph : Node}
    {definitions : List Node} (hmem : paragraph ∈ head :: definitions)
    (hall : ∀ definition ∈ definitions, definition.isHeadless source = true)
    (h : paragraph.role? source = some .plain ∨ paragraph.FallsApart blanks extended source) :
    paragraph.markups blanks <:+: ((segment head definitions).node extended source).markups blanks := by
  obtain ⟨before, after, hparts⟩ := headParts_infix hmem hall extended
  refine ⟨before.flatMap (Node.markups blanks), after.flatMap (Node.markups blanks), ?_⟩
  rw [node, ← hparts, Node.descriptionList, Node.markups_branch, List.flatMap_append, List.flatMap_append,
    Node.markups_headParts h]
  rfl

/-- Whether the tree is that of a text, with all its positions or with none. -/
def Node.IsTreeOf (extended : Bool) (source : List Char) (tree : Node) : Prop :=
  tree = ofMarkdown extended source ∨ tree = (ofMarkdown extended source).withoutPositions

/-- A document of one paragraph that has a term before its definitions is cut into one segment. -/
theorem segments_of_headed {source : List Char} {paragraph : Node}
    (h : paragraph.role? source = some .headed) : Segments source [paragraph] [.segment paragraph []] :=
  .segment rfl (.inl h) (by simp) (by simp [Sheltered]) .done

theorem Node.IsTreeOf.root {extended : Bool} {source : List Char} {tree : Node}
    (h : tree.IsTreeOf extended source) :
    tree.isContainer .root = true ∧ ∀ child ∈ tree.children, child.IsPlaced source := by
  have hroot : (ofMarkdown extended source).isContainer .root = true := by
    rw [ofMarkdown_eq_branch]
    rfl
  rcases h with rfl | rfl
  · exact ⟨hroot, fun child hchild => isPlaced_of_standsIn (standsIn_of_mem_ofMarkdown hchild)⟩
  · exact withoutPositions_root hroot source

/-- Where definition lists are formed in the tree of a text, with or without its positions, each list has
the links, images and code of the paragraphs that it is made of, in order and side by side: of a paragraph
that is a term by itself, and of one that falls into the texts of its terms and definitions. -/
theorem formDefinitions_keeps_markups {extended : Bool} {source : List Char} {tree : Node}
    (h : tree.IsTreeOf extended source) :
    ∃ pieces, Segments source tree.children pieces ∧
      (tree.formDefinitions extended source).2 = none ∧
      (tree.formDefinitions extended source).1.children = pieces.map (Piece.node extended source) ∧
      ∀ head definitions, .segment head definitions ∈ pieces → ∀ paragraph ∈ head :: definitions,
        ∀ blanks, paragraph.role? source = some .plain ∨ paragraph.FallsApart blanks extended source →
          paragraph.markups blanks <:+:
            ((Piece.segment head definitions).node extended source).markups blanks := by
  obtain ⟨hroot, hplaced⟩ := h.root
  obtain ⟨hint, span, children, rfl⟩ := Node.eq_branch_of_isContainer hroot
  obtain ⟨pieces, hpieces⟩ := exists_segments source children
  obtain ⟨last, hfold⟩ := hpieces.foldlM_take hplaced extended {} (.inl rfl)
  have hformed : (Node.branch (.container .root hint span) children).formDefinitions extended source =
      (.branch (.container .root hint span) (pieces.map (Piece.node extended source)), none) := by
    simp only [Node.formDefinitions, hfold, List.append_nil, List.reverse_reverse]
  rw [hformed]
  refine ⟨pieces, hpieces, rfl, rfl, fun head definitions hmem paragraph hparagraph blanks hkeeps => ?_⟩
  exact Piece.markups_infix hparagraph (hpieces.isHeadless_of_mem hmem) hkeeps

/-- An image in a term, code in an item, and a link in a span of a definition that has two lines. -/
theorem formDefinitions_keeps_markups_of_two_definitions :
    ∃ paragraph list,
      (Node.ofMarkdown true "![a](u)\n: - `b`\n: *c [d](v)*\ne".toList).children = [paragraph] ∧
      ((Node.ofMarkdown true "![a](u)\n: - `b`\n: *c [d](v)*\ne".toList).formDefinitions true
        "![a](u)\n: - `b`\n: *c [d](v)*\ne".toList).1.children = [list] ∧
      paragraph.markups true = [.image "u" none ['a'], .code ['b'], .link "v" none] ∧
      paragraph.markups true <:+: list.markups true := by
  let paragraph : Node := .branch (.container .paragraph none (some ⟨0, 30⟩))
    [.leaf (.image "u" none "a"), .text "\n: - ", .leaf (.inlineCode "b"), .text "\n: ",
      .plain .emphasis [.text "c ", .branch (.link "v" none) [.text "d"]], .text "\ne"]
  have hchildren : (Node.ofMarkdown true "![a](u)\n: - `b`\n: *c [d](v)*\ne".toList).children =
      [paragraph] := by
    decide +kernel
  have hheaded : paragraph.role? "![a](u)\n: - `b`\n: *c [d](v)*\ne".toList = some .headed := by
    decide +kernel
  -- each text by the steps to its start and those past it
  have hfalls : paragraph.fallsApartBy true true "![a](u)\n: - `b`\n: *c [d](v)*\ne".toList
      [(0, 3), (5, 1), (3, 9)] = true := by
    decide +kernel
  have htree : (Node.ofMarkdown true "![a](u)\n: - `b`\n: *c [d](v)*\ne".toList).IsTreeOf true
      "![a](u)\n: - `b`\n: *c [d](v)*\ne".toList := .inl rfl
  obtain ⟨pieces, hpieces, -, hformed, hkeeps⟩ := formDefinitions_keeps_markups htree
  rw [hchildren] at hpieces
  obtain rfl := hpieces.deterministic (segments_of_headed hheaded)
  refine ⟨paragraph, _, hchildren, hformed, by decide +kernel, ?_⟩
  exact hkeeps paragraph [] List.mem_cons_self paragraph List.mem_cons_self true
    (.inr (Node.fallsApart_of_steps hfalls))

/-! ### Markup that is lost -/

/-- Whether the lists that are formed in a tree have all links, images and code of the paragraphs that they
are made of, to the last blank. -/
def Node.LosesNoMarkup (extended : Bool) (source : List Char) (tree : Node) : Prop :=
  ∀ pieces, Segments source tree.children pieces → ∀ head definitions,
    .segment head definitions ∈ pieces → ∀ paragraph ∈ head :: definitions,
      ∀ markup ∈ paragraph.markups true,
        markup ∈ ((Piece.segment head definitions).node extended source).markups true

theorem not_losesNoMarkup_of_headed {extended : Bool} {source : List Char} {tree : Node}
    (h : ∃ paragraph ∈ tree.children, tree.children = [paragraph] ∧
      paragraph.role? source = some .headed ∧ ∃ markup ∈ paragraph.markups true,
        markup ∉ ((Piece.segment paragraph []).node extended source).markups true) :
    ¬tree.LosesNoMarkup extended source := by
  obtain ⟨paragraph, -, hchildren, hheaded, markup, hmarkup, hlost⟩ := h
  intro hloses
  rw [Node.LosesNoMarkup, hchildren] at hloses
  exact hlost (hloses _ (segments_of_headed hheaded) paragraph [] List.mem_cons_self paragraph
    List.mem_cons_self markup hmarkup)

/-- A paragraph without a position is known by its plain text. One with a position loses code that begins
in its term and ends in a definition, and code in a definition that is read as raw HTML. The blanks
before a line are dropped, also within code. -/
theorem not_forall_losesNoMarkup :
    ¬(Node.ofMarkdown true "[a](u)\n: d".toList).withoutPositions.LosesNoMarkup true
        "[a](u)\n: d".toList ∧
      ¬(Node.ofMarkdown true "`a\n: b`".toList).LosesNoMarkup true "`a\n: b`".toList ∧
      ¬(Node.ofMarkdown true "a\n: <div>`b`".toList).LosesNoMarkup true "a\n: <div>`b`".toList ∧
      ¬(Node.ofMarkdown true "`a\n  b`\n: d".toList).LosesNoMarkup true "`a\n  b`\n: d".toList := by
  refine ⟨?noPosition, ?cut, ?rawHtml, ?indented⟩
  all_goals exact not_losesNoMarkup_of_headed (by decide +kernel)

end DefinitionLists
