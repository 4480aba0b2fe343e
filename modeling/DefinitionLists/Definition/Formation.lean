/-
Module: DefinitionLists.Definition.Formation
Purpose: Turning the paragraphs of a document that hold definition lines into definition lists.
Main exports: SpanFault, paragraphText, Formation, Formation.made_of_takeParagraph,
  Node.formDefinitions
-/
import DefinitionLists.Definition.Entry
import DefinitionLists.Node.Markdown
import DefinitionLists.Text.Lines

namespace DefinitionLists

open Text (byteLength joinLines lines trimStart)

/-- The position of a paragraph that lies outside of the text it should come from, or cuts a
character. -/
structure SpanFault where
  span : Span
  /-- How many bytes the text has. -/
  length : Nat
deriving Repr, Inhabited, DecidableEq

/-- What the fault says. -/
def SpanFault.message (fault : SpanFault) : String :=
  "Source span " ++ toString fault.span.start ++ ".." ++ toString fault.span.stop ++
    " is outside the " ++ toString fault.length ++ "-byte document or splits a character"

/-- The text of a paragraph: what stands at its position, if it has one, and its plain text
otherwise. -/
def paragraphText (source : List Char) (span : Option Span) (children : List Node) :
    Except SpanFault (List Char) :=
  match span with
  | some span =>
    match span.read? source with
    | some text => .ok text
    | none => .error ⟨span, byteLength source⟩
  | none => .ok (Node.plainTexts children).toList

/-- The inline nodes of a term's text. -/
def termInlines (extended : Bool) (text : List Char) : List Node :=
  match (Node.ofMarkdown extended text).children with
  | .branch (.container .paragraph _ _) inlines :: _ => inlines
  | _ => [.text (String.ofList text)]

/-- The details that definitions say. -/
def detailsNodes (extended : Bool) (details : List (List Char)) : List Node :=
  details.map (fun text => .descriptionDetails (Node.ofMarkdown extended text).children)

/-- The term and the details of an entry. -/
def Entry.nodes (extended : Bool) (entry : Entry) : List Node :=
  .descriptionTerm (termInlines extended (joinLines entry.term)) ::
    detailsNodes extended entry.details

/-- What the last node made was. -/
inductive LastMade where
  | other
  /-- A paragraph that can be a term. -/
  | term
  /-- A definition list made of a paragraph. -/
  | list
deriving Repr, Inhabited, DecidableEq

/-- The nodes made so far, the last one first. -/
structure Formation where
  made : List Node := []
  last : LastMade := .other
deriving Inhabited

namespace Formation

/-- Takes a paragraph as it stands, and with its lines the entries that they group into. -/
def takeParagraph (extended : Bool) (state : Formation) (paragraph : Node)
    (texts : List (List Char)) : Formation :=
  match splitEntries texts with
  | [] =>
    let last := if texts.head?.any isDefinitionLine then .other else .term
    ⟨paragraph :: state.made, last⟩
  | first :: more =>
    let moreNodes := more.flatMap (Entry.nodes extended)
    if !first.term.isEmpty then
      ⟨.descriptionList (first.nodes extended ++ moreNodes) :: state.made, .list⟩
    else
      let details := detailsNodes extended first.details ++ moreNodes
      match state.last, state.made with
      | .list, .branch (.container .descriptionList hint span) children :: made =>
        ⟨.branch (.container .descriptionList hint span) (children ++ details) :: made, .list⟩
      | .term, .branch (.container .paragraph _ _) term :: made =>
        ⟨.descriptionList (.descriptionTerm term :: details) :: made, .list⟩
      | _, made => ⟨paragraph :: made, .other⟩

section TakeParagraph

variable {extended : Bool} {texts details : List (List Char)} {first : Entry} {more : List Entry}

/-- A paragraph without definitions may become a term. -/
theorem takeParagraph_of_no_entries (h : splitEntries texts = [])
    (hhead : texts.head?.any isDefinitionLine = false) (state : Formation) (paragraph : Node) :
    state.takeParagraph extended paragraph texts = ⟨paragraph :: state.made, .term⟩ := by
  simp [takeParagraph, h, hhead]

/-- Entries that open with a term become a definition list. -/
theorem takeParagraph_of_term (h : splitEntries texts = first :: more) (ht : first.term ≠ [])
    (state : Formation) (paragraph : Node) :
    state.takeParagraph extended paragraph texts =
      ⟨.descriptionList ((first :: more).flatMap (Entry.nodes extended)) :: state.made, .list⟩ := by
  simp [takeParagraph, h, ht]

/-- Entries that open without a term go on with the definition list before them. -/
theorem takeParagraph_after_list (h : splitEntries texts = ⟨[], details⟩ :: more) (paragraph : Node)
    (parts made : List Node) :
    takeParagraph extended ⟨.descriptionList parts :: made, .list⟩ paragraph texts =
      ⟨.descriptionList (parts ++ (detailsNodes extended details ++
        more.flatMap (Entry.nodes extended))) :: made, .list⟩ := by
  simp [takeParagraph, h, Node.descriptionList]

/-- They take the paragraph before them, if it may be a term, for their term. -/
theorem takeParagraph_after_term (h : splitEntries texts = ⟨[], details⟩ :: more) (paragraph : Node)
    (hint : Option String) (span : Option Span) (term made : List Node) :
    takeParagraph extended ⟨.branch (.container .paragraph hint span) term :: made, .term⟩ paragraph
        texts =
      ⟨.descriptionList (.descriptionTerm term :: (detailsNodes extended details ++
        more.flatMap (Entry.nodes extended))) :: made, .list⟩ := by
  simp [takeParagraph, h]

/-- After anything else their paragraph stays. -/
theorem takeParagraph_after_other (h : splitEntries texts = ⟨[], details⟩ :: more) (paragraph : Node)
    (made : List Node) :
    takeParagraph extended ⟨made, .other⟩ paragraph texts = ⟨paragraph :: made, .other⟩ := by
  simp [takeParagraph, h]

/-- All that taking a paragraph can do to the nodes made so far: the paragraph stays, its entries become a
definition list, or they go on with the list or the paragraph before it. -/
theorem made_of_takeParagraph {state next : Formation} {paragraph : Node}
    (h : state.takeParagraph extended paragraph texts = next) :
    next.made = paragraph :: state.made ∨
      ∃ first more, splitEntries texts = first :: more ∧
        (next.made = .descriptionList (first.nodes extended ++ more.flatMap (Entry.nodes extended)) ::
            state.made ∨
          (∃ hint span children made,
            state.made = .branch (.container .descriptionList hint span) children :: made ∧
            next.made = .branch (.container .descriptionList hint span) (children ++
              (detailsNodes extended first.details ++ more.flatMap (Entry.nodes extended))) :: made) ∨
          ∃ hint span term made,
            state.made = .branch (.container .paragraph hint span) term :: made ∧
            next.made = .descriptionList (.descriptionTerm term ::
              (detailsNodes extended first.details ++ more.flatMap (Entry.nodes extended))) :: made) := by
  subst h
  unfold takeParagraph
  split
  · exact .inl rfl
  · next first more hentries =>
      simp only
      split
      · exact .inr ⟨first, more, hentries, .inl rfl⟩
      · split
        · next hint span children made _ hmade =>
            exact .inr ⟨first, more, hentries, .inr (.inl ⟨hint, span, children, made, hmade, rfl⟩)⟩
        · next hint span term made _ hmade =>
            exact .inr ⟨first, more, hentries, .inr (.inr ⟨hint, span, term, made, hmade, rfl⟩)⟩
        · exact .inl rfl

end TakeParagraph

/-- Takes the next child of the root. -/
def take (extended : Bool) (source : List Char) (state : Formation) (child : Node) :
    Except SpanFault Formation :=
  match child with
  | .branch (.container .paragraph _ span) children =>
    match paragraphText source span children with
    | .ok text => .ok (state.takeParagraph extended child ((lines text).map trimStart))
    | .error fault => .error fault
  | child => .ok ⟨child :: state.made, .other⟩

end Formation

/-- Makes definition lists of the paragraphs directly below a root. A paragraph whose position does
not fit the text stops it; the root has no children then. Other trees stay as they are. -/
def Node.formDefinitions (extended : Bool) (source : List Char) (tree : Node) :
    Node × Option SpanFault :=
  match tree with
  | .branch (.container .root hint span) children =>
    let root (children : List Node) : Node := .branch (.container .root hint span) children
    match children.foldlM (Formation.take extended source) {} with
    | .ok state => (root state.made.reverse, none)
    | .error fault => (root [], some fault)
  | tree => (tree, none)

end DefinitionLists
