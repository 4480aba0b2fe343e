/-
Module: DefinitionLists.Proofs.Segments
Purpose: Forming definition lists cuts the children of a root into segments, greedily from left to right,
  and makes one definition list of each; all other children stay.
Main exports: ParagraphRole, Node.role?, Piece, Piece.node, Segments, Segments.deterministic,
  exists_segments, Segments.foldlM_take, formDefinitions_segments
-/
import DefinitionLists.Proofs.Entries
import DefinitionLists.Proofs.Faults

namespace DefinitionLists

open Text (joinLines lines trimStart)

/-!
Forming definition lists takes the children of a root one by one and remembers what the last node is that
it made. A definition without a term goes on with a list that was just made, takes the paragraph before
it for its term, or stays.

`Segments` tells the same without a memory: where a segment starts and ends depends only on the lines of
the paragraphs and on what stands right after it. There is one way to cut any list of nodes, so the
relation leaves no choice to the one who reads it.
-/

/-- What the lines of a paragraph say of definitions. -/
inductive ParagraphRole where
  /-- No line is a definition. -/
  | plain
  /-- A line is a definition, but not the first one: the lines before it are its term. -/
  | headed
  /-- The first line is a definition: its term has to come from elsewhere. -/
  | headless
deriving Repr, Inhabited, DecidableEq

/-- What lines say of definitions. -/
def ParagraphRole.ofLines (texts : List (List Char)) : ParagraphRole :=
  if texts.head?.any isDefinitionLine then .headless
  else if texts.any isDefinitionLine then .headed
  else .plain

namespace Node

/-- The lines of a paragraph, without their indentation. They stand at its position in the text or, if it
has none, in its plain text. -/
def paragraphLines? (source : List Char) : Node → Option (List (List Char))
  | .branch (.container .paragraph _ (some span)) _ =>
    (span.read? source).map (fun text => (lines text).map trimStart)
  | .branch (.container .paragraph _ none) inlines =>
    some ((lines (plainTexts inlines).toList).map trimStart)
  | _ => none

/-- What a node says of definitions, if it is a paragraph. -/
def role? (source : List Char) (node : Node) : Option ParagraphRole :=
  (node.paragraphLines? source).map ParagraphRole.ofLines

/-- Whether a node is a paragraph that opens with a definition. -/
def isHeadless (source : List Char) (node : Node) : Bool := node.role? source = some .headless

variable {source : List Char} {node : Node} {texts : List (List Char)}

theorem exists_lines_of_role {role : ParagraphRole} (h : node.role? source = some role) :
    ∃ texts, node.paragraphLines? source = some texts ∧ ParagraphRole.ofLines texts = role :=
  Option.map_eq_some_iff.1 h

theorem isContainer_of_paragraphLines (h : node.paragraphLines? source = some texts) :
    node.isContainer .paragraph = true := by
  unfold paragraphLines? at h
  split at h
  · rfl
  · rfl
  · cases h

theorem isHeadless_iff :
    node.isHeadless source = true ↔ node.role? source = some .headless := by
  simp [isHeadless]

end Node

/-! ### What segments become -/

/-- The term of an entry, if it has one, and its definitions. -/
def Entry.parts (extended : Bool) (entry : Entry) : List Node :=
  (if entry.term = [] then [] else [.descriptionTerm (termInlines extended (joinLines entry.term))]) ++
    detailsNodes extended entry.details

/-- The terms and definitions that the lines of a paragraph hold, in order. -/
def Node.parts (extended : Bool) (source : List Char) (node : Node) : List Node :=
  match node.paragraphLines? source with
  | some texts => (splitEntries texts).flatMap (Entry.parts extended)
  | none => []

theorem Node.parts_of_lines {source : List Char} {node : Node} {texts : List (List Char)}
    (h : node.paragraphLines? source = some texts) (extended : Bool) :
    node.parts extended source = (splitEntries texts).flatMap (Entry.parts extended) := by
  simp only [parts, h]

/-- What the first paragraph of a segment gives: its terms and definitions or, if it has no definition,
all that it holds as a term. -/
def Node.headParts (extended : Bool) (source : List Char) (node : Node) : List Node :=
  if node.role? source = some .plain then [.descriptionTerm node.children]
  else node.parts extended source

/-- A piece of the children of a root: a node that stays, or a segment. -/
inductive Piece where
  | kept (node : Node)
  | segment (head : Node) (definitions : List Node)

namespace Piece

/-- The nodes of a piece. -/
def members : Piece → List Node
  | .kept node => [node]
  | .segment head definitions => head :: definitions

/-- What becomes of a piece. -/
def node (extended : Bool) (source : List Char) : Piece → Node
  | .kept node => node
  | .segment head definitions => .descriptionList
    (head.headParts extended source ++ definitions.flatMap (Node.parts extended source))

end Piece

/-- Whether the first of some nodes, if there is one, is no definition without a term. -/
def Sheltered (source : List Char) (nodes : List Node) : Prop :=
  ∀ next ∈ nodes.head?, next.isHeadless source = false

instance (source : List Char) (nodes : List Node) : Decidable (Sheltered source nodes) :=
  inferInstanceAs (Decidable (∀ next ∈ nodes.head?, _))

/-- Whether a paragraph and the definitions right after it make a segment. -/
def OpensSegment (source : List Char) (head : Node) (definitions : List Node) : Prop :=
  head.role? source = some .headed ∨ head.role? source = some .plain ∧ definitions ≠ []

instance (source : List Char) (head : Node) (definitions : List Node) :
    Decidable (OpensSegment source head definitions) :=
  inferInstanceAs (Decidable (_ ∨ _))

/-- Cuts nodes into pieces from left to right. A segment takes all definitions without a term that come
right after its first paragraph. -/
inductive Segments (source : List Char) : List Node → List Piece → Prop where
  | done : Segments source [] []
  | kept {node : Node} {more : List Node} {pieces : List Piece}
      (unheaded : node.role? source ≠ some .headed)
      (alone : node.role? source = some .plain → Sheltered source more)
      (rest : Segments source more pieces) : Segments source (node :: more) (.kept node :: pieces)
  | segment {head : Node} {definitions after more : List Node} {pieces : List Piece}
      (cut : after = definitions ++ more) (opens : OpensSegment source head definitions)
      (belong : ∀ definition ∈ definitions, definition.isHeadless source = true)
      (whole : Sheltered source more) (rest : Segments source more pieces) :
      Segments source (head :: after) (.segment head definitions :: pieces)

/-! ### There is one way to cut -/

section Cutting

variable {source : List Char}

/-- Definitions without a term are taken up to the first node that is none. -/
theorem takeWhile_isHeadless {definitions more : List Node}
    (hall : ∀ definition ∈ definitions, definition.isHeadless source = true)
    (hstop : Sheltered source more) :
    (definitions ++ more).takeWhile (Node.isHeadless source) = definitions := by
  rw [List.takeWhile_append_of_pos hall]
  cases more with
  | nil => simp
  | cons next more =>
      rw [List.takeWhile_cons_of_neg (by simp [hstop next rfl]), List.append_nil]

theorem sheltered_dropWhile (nodes : List Node) :
    Sheltered source (nodes.dropWhile (Node.isHeadless source)) := by
  intro next hnext
  have hhead := List.head?_dropWhile_not (Node.isHeadless source) nodes
  rw [Option.mem_def.1 hnext] at hhead
  exact hhead

theorem sheltered_of_takeWhile_eq_nil {nodes : List Node}
    (h : nodes.takeWhile (Node.isHeadless source) = []) : Sheltered source nodes := by
  have hwhole := List.takeWhile_append_dropWhile (p := Node.isHeadless source) (l := nodes)
  rw [h, List.nil_append] at hwhole
  rw [← hwhole]
  exact sheltered_dropWhile nodes

/-- A segment opens where a node may not stay by itself. -/
theorem not_opensSegment_of_kept {node : Node} {definitions more : List Node}
    (hunheaded : node.role? source ≠ some .headed)
    (halone : node.role? source = some .plain → Sheltered source (definitions ++ more))
    (hall : ∀ definition ∈ definitions, definition.isHeadless source = true) :
    ¬OpensSegment source node definitions := by
  rintro (hheaded | ⟨hplain, hsome⟩)
  · exact hunheaded hheaded
  · obtain ⟨first, others, rfl⟩ := List.exists_cons_of_ne_nil hsome
    have hfirst := halone hplain first rfl
    rw [hall first List.mem_cons_self] at hfirst
    cases hfirst

/-- Any nodes can be cut into pieces. -/
theorem exists_segments (source : List Char) (nodes : List Node) :
    ∃ pieces, Segments source nodes pieces := by
  cases nodes with
  | nil => exact ⟨[], .done⟩
  | cons node more =>
      have hcut := List.takeWhile_append_dropWhile (p := Node.isHeadless source) (l := more)
      by_cases hopens : OpensSegment source node (more.takeWhile (Node.isHeadless source))
      · have hshorter := (List.dropWhile_sublist (l := more) (Node.isHeadless source)).length_le
        obtain ⟨pieces, hrest⟩ :=
          exists_segments source (more.dropWhile (Node.isHeadless source))
        exact ⟨_, .segment hcut.symm hopens (List.all_eq_true.1 List.all_takeWhile)
          (sheltered_dropWhile more) hrest⟩
      · simp only [OpensSegment, not_or, not_and, not_not] at hopens
        obtain ⟨pieces, hrest⟩ := exists_segments source more
        exact ⟨_, .kept hopens.1 (fun hplain => sheltered_of_takeWhile_eq_nil (hopens.2 hplain)) hrest⟩
termination_by nodes.length

namespace Segments

variable {nodes : List Node} {pieces : List Piece}

/-- There is one way to cut nodes. -/
theorem deterministic {others : List Piece} (h : Segments source nodes pieces)
    (h' : Segments source nodes others) : others = pieces := by
  induction h generalizing others with
  | done =>
      cases h'
      rfl
  | kept unheaded alone rest ih =>
      cases h' with
      | kept _ _ rest' => rw [ih rest']
      | segment cut opens belong whole rest' =>
          subst cut
          exact absurd opens (not_opensSegment_of_kept unheaded alone belong)
  | segment cut opens belong whole rest ih =>
      cases h' with
      | kept unheaded alone rest' =>
          subst cut
          exact absurd opens (not_opensSegment_of_kept unheaded alone belong)
      | segment cut' opens' belong' whole' rest' =>
          have hdefinitions := takeWhile_isHeadless belong' whole'
          rw [← cut', cut, takeWhile_isHeadless belong whole] at hdefinitions
          subst hdefinitions
          obtain rfl := List.append_cancel_left (cut.symm.trans cut')
          rw [ih rest']

/-- The pieces hold all nodes in order. -/
theorem flatMap_members (h : Segments source nodes pieces) :
    pieces.flatMap Piece.members = nodes := by
  induction h with
  | done => rfl
  | kept unheaded alone rest ih => rw [List.flatMap_cons, ih, Piece.members, List.singleton_append]
  | segment cut opens belong whole rest ih =>
      rw [List.flatMap_cons, ih, Piece.members, List.cons_append, cut]

end Segments

end Cutting

/-! ### The entries of a paragraph by its role -/

section Entries

variable {texts : List (List Char)}

theorem ParagraphRole.ofLines_eq_plain_iff :
    ofLines texts = .plain ↔ ∀ line ∈ texts, isDefinitionLine line = false := by
  cases texts with
  | nil => simp [ofLines]
  | cons line more => cases hline : isDefinitionLine line <;> simp [ofLines, hline]

theorem ParagraphRole.ofLines_eq_headless_iff :
    ofLines texts = .headless ↔ texts.head?.any isDefinitionLine = true := by
  unfold ofLines
  split
  · simp [*]
  · split <;> simp [*]

/-- Lines hold no entry just if none of them is a definition. -/
theorem splitEntries_eq_nil_iff_plain :
    splitEntries texts = [] ↔ ParagraphRole.ofLines texts = .plain := by
  rw [splitEntries_eq_nil_iff, ParagraphRole.ofLines_eq_plain_iff]

/-- The first entry has no term exactly if the first line is a definition. -/
theorem term_eq_nil_iff_headless {first : Entry} {more : List Entry}
    (h : splitEntries texts = first :: more) :
    first.term = [] ↔ ParagraphRole.ofLines texts = .headless := by
  have hterm : first.term = texts.takeWhile (fun line => !isDefinitionLine line) := by
    apply term_of_head_splitEntries
    rw [h]
    rfl
  rw [hterm, ParagraphRole.ofLines_eq_headless_iff]
  cases texts with
  | nil => cases h
  | cons line rest => cases hline : isDefinitionLine line <;> simp [hline]

variable (extended : Bool)

theorem Entry.parts_of_term {entry : Entry} (h : entry.term ≠ []) :
    entry.parts extended = entry.nodes extended := by
  simp [parts, nodes, h]

theorem Entry.parts_of_no_term {entry : Entry} (h : entry.term = []) :
    entry.parts extended = detailsNodes extended entry.details := by
  simp [parts, h]

/-- All entries but the first have terms. -/
theorem flatMap_parts_splitEntries {first : Entry} {more : List Entry}
    (h : splitEntries texts = first :: more) :
    (splitEntries texts).flatMap (Entry.parts extended) =
      first.parts extended ++ more.flatMap (Entry.nodes extended) := by
  have hmore : ∀ entry ∈ more, entry.parts extended = entry.nodes extended := by
    intro entry hentry
    have hone : entry.term.length = 1 := length_term_of_mem_tail_splitEntries entry (by rwa [h])
    apply Entry.parts_of_term
    intro hnil
    rw [hnil] at hone
    cases hone
  rw [h, List.flatMap_cons, List.flatMap_def, List.map_congr_left hmore, ← List.flatMap_def]

/-- The first entry of lines that open with a definition gives its definitions only. -/
theorem exists_entries_of_headless (h : ParagraphRole.ofLines texts = .headless) :
    ∃ details more, splitEntries texts = ⟨[], details⟩ :: more ∧
      (splitEntries texts).flatMap (Entry.parts extended) =
        detailsNodes extended details ++ more.flatMap (Entry.nodes extended) := by
  cases hentries : splitEntries texts with
  | nil =>
      rw [splitEntries_eq_nil_iff_plain, h] at hentries
      cases hentries
  | cons first more =>
      obtain ⟨term, details⟩ := first
      obtain rfl : term = [] := (term_eq_nil_iff_headless hentries).2 h
      refine ⟨details, more, rfl, ?_⟩
      rw [← hentries, flatMap_parts_splitEntries extended hentries, Entry.parts_of_no_term extended rfl]

end Entries

/-! ### Taking the children of a root -/

namespace Formation

variable {extended : Bool} {source : List Char} {state : Formation} {texts : List (List Char)}

/-- A paragraph without definitions stays, and may become a term. -/
theorem takeParagraph_plain (h : ParagraphRole.ofLines texts = .plain) (paragraph : Node) :
    state.takeParagraph extended paragraph texts = ⟨paragraph :: state.made, .term⟩ := by
  have hhead : texts.head?.any isDefinitionLine = false := by
    cases texts with
    | nil => rfl
    | cons line more => exact ParagraphRole.ofLines_eq_plain_iff.1 h line List.mem_cons_self
  exact takeParagraph_of_no_entries (splitEntries_eq_nil_iff_plain.2 h) hhead state paragraph

/-- A paragraph with a term and definitions makes a list of its own. -/
theorem takeParagraph_headed (h : ParagraphRole.ofLines texts = .headed) (paragraph : Node) :
    state.takeParagraph extended paragraph texts =
      ⟨.descriptionList ((splitEntries texts).flatMap (Entry.parts extended)) :: state.made, .list⟩ := by
  cases hentries : splitEntries texts with
  | nil =>
      rw [splitEntries_eq_nil_iff_plain, h] at hentries
      cases hentries
  | cons first more =>
      have hterm : first.term ≠ [] := by
        rw [Ne, term_eq_nil_iff_headless hentries, h]
        decide
      rw [takeParagraph_of_term hentries hterm, ← hentries,
        flatMap_parts_splitEntries extended hentries, Entry.parts_of_term extended hterm, hentries,
        List.flatMap_cons]

theorem take_of_lines {child : Node} (h : child.paragraphLines? source = some texts) :
    state.take extended source child = .ok (state.takeParagraph extended child texts) := by
  unfold Node.paragraphLines? at h
  split at h
  · obtain ⟨text, hread, rfl⟩ := Option.map_eq_some_iff.1 h
    simp only [take, paragraphText, hread]
  · cases h
    rfl
  · cases h

/-- A node without lines that is no paragraph out of place is no paragraph at all. -/
theorem take_of_no_lines {child : Node} (hplaced : child.IsPlaced source)
    (h : child.paragraphLines? source = none) :
    state.take extended source child = .ok ⟨child :: state.made, .other⟩ := by
  unfold Node.paragraphLines? at h
  split at h
  · next hint span inlines =>
      rw [Option.map_eq_none_iff, Span.read?_eq_none_iff] at h
      exact absurd (hplaced span rfl) h
  · cases h
  · next hspan hother =>
      unfold take
      split
      · next hint span inlines =>
          cases span with
          | some span => exact absurd rfl (hspan hint span inlines)
          | none => exact absurd rfl (hother hint inlines)
      · rfl

/-- Definitions without terms go on with the list before them. -/
theorem foldlM_take_definitions {definitions : List Node}
    (h : ∀ definition ∈ definitions, definition.isHeadless source = true) (parts made : List Node) :
    definitions.foldlM (take extended source) ⟨.descriptionList parts :: made, .list⟩ =
      .ok ⟨.descriptionList (parts ++ definitions.flatMap (Node.parts extended source)) :: made,
        .list⟩ := by
  induction definitions generalizing parts with
  | nil => simp [pure, Except.pure]
  | cons definition more ih =>
      obtain ⟨hdefinition, hmore⟩ := List.forall_mem_cons.1 h
      obtain ⟨texts, hlines, hrole⟩ := Node.exists_lines_of_role (Node.isHeadless_iff.1 hdefinition)
      obtain ⟨details, others, hentries, hparts⟩ := exists_entries_of_headless extended hrole
      rw [foldlM_cons (take_of_lines hlines), takeParagraph_after_list hentries, ih hmore,
        List.flatMap_cons, Node.parts_of_lines hlines, hparts, List.append_assoc]

/-- The paragraphs of a segment become one definition list. -/
theorem foldlM_take_segment {head : Node} {definitions : List Node}
    (hopens : OpensSegment source head definitions)
    (h : ∀ definition ∈ definitions, definition.isHeadless source = true) (state : Formation) :
    (head :: definitions).foldlM (take extended source) state =
      .ok ⟨(Piece.segment head definitions).node extended source :: state.made, .list⟩ := by
  rcases hopens with hheaded | ⟨hplain, hsome⟩
  · obtain ⟨texts, hlines, hrole⟩ := Node.exists_lines_of_role hheaded
    have hparts : head.headParts extended source =
        (splitEntries texts).flatMap (Entry.parts extended) := by
      rw [Node.headParts, if_neg (by simp [hheaded]), Node.parts_of_lines hlines]
    rw [foldlM_cons (take_of_lines hlines), takeParagraph_headed hrole, foldlM_take_definitions h,
      Piece.node, hparts]
  · obtain ⟨texts, hlines, hrole⟩ := Node.exists_lines_of_role hplain
    obtain ⟨hint, span, term, rfl⟩ :=
      Node.eq_branch_of_isContainer (Node.isContainer_of_paragraphLines hlines)
    obtain ⟨definition, more, rfl⟩ := List.exists_cons_of_ne_nil hsome
    obtain ⟨hdefinition, hmore⟩ := List.forall_mem_cons.1 h
    obtain ⟨texts', hlines', hrole'⟩ := Node.exists_lines_of_role (Node.isHeadless_iff.1 hdefinition)
    obtain ⟨details, others, hentries, hparts⟩ := exists_entries_of_headless extended hrole'
    rw [foldlM_cons (take_of_lines hlines), takeParagraph_plain hrole,
      foldlM_cons (take_of_lines hlines'), takeParagraph_after_term hentries,
      foldlM_take_definitions hmore, Piece.node, Node.headParts, if_pos hplain, List.flatMap_cons,
      Node.parts_of_lines hlines', hparts, Node.children, List.singleton_append, List.cons_append]

/-- A node that no segment takes stays. It is remembered for what follows it only if it may be a term. -/
theorem take_kept (extended : Bool) {node : Node} (hplaced : node.IsPlaced source)
    (hunheaded : node.role? source ≠ some .headed)
    (hlast : state.last = .other ∨ node.isHeadless source = false) :
    ∃ last, state.take extended source node = .ok ⟨node :: state.made, last⟩ ∧
      (last = .other ∨ node.role? source = some .plain) := by
  cases hrole : node.role? source with
  | none =>
      have hlines : node.paragraphLines? source = none := Option.map_eq_none_iff.1 hrole
      exact ⟨.other, take_of_no_lines hplaced hlines, .inl rfl⟩
  | some role =>
      obtain ⟨texts, hlines, hof⟩ := Node.exists_lines_of_role hrole
      have htake : state.take extended source node = .ok (state.takeParagraph extended node texts) :=
        take_of_lines hlines
      cases role with
      | plain =>
          rw [takeParagraph_plain hof] at htake
          exact ⟨.term, htake, .inr rfl⟩
      | headed => exact absurd hrole hunheaded
      | headless =>
          have hother : state.last = .other := by
            rcases hlast with hother | hnot
            · exact hother
            · rw [Node.isHeadless_iff.2 hrole] at hnot
              cases hnot
          obtain ⟨made, last⟩ := state
          subst hother
          obtain ⟨details, others, hentries, -⟩ := exists_entries_of_headless extended hof
          rw [takeParagraph_after_other hentries] at htake
          exact ⟨.other, htake, .inl rfl⟩

end Formation

/-- Taking the children of a root makes of each piece what it should become, in order. What was made
before may only be remembered if no definition without a term comes first. -/
theorem Segments.foldlM_take {source : List Char} {nodes : List Node} {pieces : List Piece}
    (h : Segments source nodes pieces) (hplaced : ∀ node ∈ nodes, node.IsPlaced source)
    (extended : Bool) (state : Formation) (hstate : state.last = .other ∨ Sheltered source nodes) :
    ∃ last, nodes.foldlM (Formation.take extended source) state =
      .ok ⟨(pieces.map (Piece.node extended source)).reverse ++ state.made, last⟩ := by
  induction h generalizing state with
  | done => exact ⟨state.last, rfl⟩
  | @kept node more pieces unheaded alone rest ih =>
      obtain ⟨hnode, hmore⟩ := List.forall_mem_cons.1 hplaced
      have hlast : state.last = .other ∨ node.isHeadless source = false :=
        hstate.imp_right fun hsheltered => hsheltered node rfl
      obtain ⟨last, htake, hkept⟩ := Formation.take_kept extended hnode unheaded hlast
      -- a node that stays is remembered as a term only if no definition comes right after it
      obtain ⟨last', hrest⟩ := ih hmore ⟨node :: state.made, last⟩ (hkept.imp_right alone)
      refine ⟨last', ?_⟩
      rw [Formation.foldlM_cons htake, hrest, List.map_cons, List.reverse_cons, List.append_assoc,
        Piece.node, List.singleton_append]
  | @segment head definitions after more pieces cut opens belong whole rest ih =>
      subst cut
      have hmore : ∀ node ∈ more, node.IsPlaced source := fun node hnode =>
        hplaced node (List.mem_cons_of_mem _ (List.mem_append_right _ hnode))
      -- the list that was made is remembered, but the segment took all definitions that belong to it
      obtain ⟨last', hrest⟩ := ih hmore ⟨_, .list⟩ (.inr whole)
      refine ⟨last', ?_⟩
      rw [← List.cons_append,
        Formation.foldlM_append (Formation.foldlM_take_segment opens belong state), hrest,
        List.map_cons, List.reverse_cons, List.append_assoc, List.singleton_append]

/-- Where definition lists are formed of the children of a root, these are cut into pieces, greedily
from left to right and in the only way there is. Each segment becomes one definition list with its terms
and definitions in order, and all other children stay as they are. -/
theorem formDefinitions_segments {extended : Bool} {source : List Char} {hint : Option String}
    {span : Option Span} {children : List Node} {tree : Node}
    (h : (Node.branch (.container .root hint span) children).formDefinitions extended source =
      (tree, none)) :
    ∃ pieces, Segments source children pieces ∧ pieces.flatMap Piece.members = children ∧
      tree = .branch (.container .root hint span) (pieces.map (Piece.node extended source)) ∧
      ∀ others, Segments source children others → others = pieces := by
  have hplaced : ∀ child ∈ children, child.IsPlaced source := by
    apply (Node.fault_formDefinitions_eq_none_iff extended).1 (congrArg Prod.snd h)
    rfl
  obtain ⟨pieces, hpieces⟩ := exists_segments source children
  obtain ⟨last, hfold⟩ := hpieces.foldlM_take hplaced extended {} (.inl rfl)
  refine ⟨pieces, hpieces, hpieces.flatMap_members, ?_, fun others => hpieces.deterministic⟩
  simp only [Node.formDefinitions, hfold, List.append_nil, List.reverse_reverse, Prod.mk.injEq] at h
  exact h.1.symm

/-- The first paragraph is no term, as the second stands between it and the definition. The definition
after the heading has no term at all. -/
theorem formDefinitions_segments_of_two_terms :
    (Node.plain .root [.paragraph [.text "a"], .paragraph [.text "b"], .paragraph [.text ": c"],
        .branch (.heading 1) [], .paragraph [.text ": d"], .paragraph [.text "e\n: f"],
        .paragraph [.text " : g"]]).formDefinitions true [] =
      (.plain .root ([.kept (.paragraph [.text "a"]),
        .segment (.paragraph [.text "b"]) [.paragraph [.text ": c"]], .kept (.branch (.heading 1) []),
        .kept (.paragraph [.text ": d"]),
        .segment (.paragraph [.text "e\n: f"]) [.paragraph [.text " : g"]]].map (Piece.node true [])),
        none) := by
  have hnone : (Node.formDefinitions true [] (.plain .root [.paragraph [.text "a"],
      .paragraph [.text "b"], .paragraph [.text ": c"], .branch (.heading 1) [],
      .paragraph [.text ": d"], .paragraph [.text "e\n: f"], .paragraph [.text " : g"]])).2 = none := by
    decide +kernel
  obtain ⟨pieces, -, -, htree, hunique⟩ := formDefinitions_segments (Prod.ext rfl hnone)
  refine Prod.ext (htree.trans ?_) hnone
  rw [← hunique]
  · rfl
  · apply Segments.kept (by decide +kernel) (by decide +kernel)
    apply Segments.segment
    case cut => rfl
    case opens | belong | whole => decide +kernel
    apply Segments.kept (by decide +kernel) (by decide +kernel)
    apply Segments.kept (by decide +kernel) (by decide +kernel)
    apply Segments.segment
    case cut => rfl
    case opens | belong | whole => decide +kernel
    exact .done

end DefinitionLists
