/-
Module: DefinitionLists.Proofs.Faults
Purpose: Which positions stop the forming of definition lists, what the fault then tells, and what is
  left of the tree.
Main exports: Node.paragraphSpan?, Node.IsPlaced, FirstMisplaced, Formation.take_eq_error_iff,
  Formation.foldlM_take_eq_error_iff, formDefinitions_fails_iff, formDefinitions_unchanged_iff
-/
import DefinitionLists.Definition.Formation
import DefinitionLists.Proofs.Markdown.Lines
import DefinitionLists.Proofs.Run

namespace DefinitionLists

open Text (byteLength)

/-- The position of a paragraph, if the node is one and has one. -/
def Node.paragraphSpan? : Node → Option Span
  | .branch (.container .paragraph _ span) _ => span
  | _ => none

theorem Node.isContainer_of_paragraphSpan {node : Node} {span : Span}
    (h : node.paragraphSpan? = some span) : node.isContainer .paragraph = true := by
  unfold paragraphSpan? at h
  split at h
  · rfl
  · cases h

/-- Whether a paragraph, if it has a position, has one that fits the text. -/
def Node.IsPlaced (source : List Char) (node : Node) : Prop :=
  ∀ span ∈ node.paragraphSpan?, span.Fits source

/-- Whether, in order, a span is that of the first paragraph whose position does not fit the text. -/
inductive FirstMisplaced (source : List Char) : List Node → Span → Prop where
  | here {child : Node} {span : Span} (has : child.paragraphSpan? = some span)
      (misfit : ¬span.Fits source) (more : List Node) : FirstMisplaced source (child :: more) span
  | later {child : Node} {more : List Node} {span : Span} (placed : child.IsPlaced source)
      (first : FirstMisplaced source more span) : FirstMisplaced source (child :: more) span

namespace FirstMisplaced

variable {source : List Char}

/-- A paragraph out of place is the first one, or comes after the first one. -/
theorem exists_of_not_placed {nodes : List Node} {node : Node} (hmem : node ∈ nodes)
    (hnode : ¬node.IsPlaced source) : ∃ span, FirstMisplaced source nodes span := by
  induction nodes with
  | nil => cases hmem
  | cons child more ih =>
      by_cases hchild : child.IsPlaced source
      · have hmore : node ∈ more := by
          rcases List.mem_cons.1 hmem with rfl | hmore
          · exact absurd hchild hnode
          · exact hmore
        obtain ⟨span, hspan⟩ := ih hmore
        exact ⟨span, .later hchild hspan⟩
      · simp only [Node.IsPlaced, Option.mem_def, not_forall] at hchild
        obtain ⟨span, hhas, hmisfit⟩ := hchild
        exact ⟨span, .here hhas hmisfit more⟩

theorem exists_not_placed {nodes : List Node} {span : Span}
    (h : FirstMisplaced source nodes span) : ∃ node ∈ nodes, ¬node.IsPlaced source := by
  induction h with
  | @here child span has misfit more =>
      exact ⟨child, List.mem_cons_self, fun placed => misfit (placed span has)⟩
  | later placed first ih =>
      obtain ⟨node, hmem, hnode⟩ := ih
      exact ⟨node, List.mem_cons_of_mem _ hmem, hnode⟩

end FirstMisplaced

/-! ### Taking the children of a root -/

section Formation

variable {source : List Char}

/-- Only a position that does not fit keeps the text of a paragraph from being read. -/
theorem paragraphText_eq_error_iff {span : Option Span} (children : List Node) {fault : SpanFault} :
    paragraphText source span children = .error fault ↔
      span = some fault.span ∧ ¬fault.span.Fits source ∧ fault.length = byteLength source := by
  cases span with
  | none => simp [paragraphText]
  | some span =>
      rw [paragraphText]
      cases hread : span.read? source with
      | some text =>
          have hfits := Span.fits_of_read hread
          constructor
          · intro h
            cases h
          · rintro ⟨hspan, hmisfit, -⟩
            cases hspan
            exact absurd hfits hmisfit
      | none =>
          have hmisfit := Span.read?_eq_none_iff.1 hread
          constructor
          · intro h
            cases h
            exact ⟨rfl, hmisfit, rfl⟩
          · rintro ⟨hspan, -, hlength⟩
            obtain ⟨span', length⟩ := fault
            cases hspan
            rw [show length = byteLength source from hlength]

namespace Formation

variable {extended : Bool}

/-- Exactly a paragraph whose position does not fit cannot be taken. -/
theorem take_eq_error_iff {state : Formation} {child : Node} {fault : SpanFault} :
    state.take extended source child = .error fault ↔
      child.paragraphSpan? = some fault.span ∧ ¬fault.span.Fits source ∧
        fault.length = byteLength source := by
  unfold take
  split
  · next hint span inlines =>
      rw [Node.paragraphSpan?, ← paragraphText_eq_error_iff inlines]
      split <;> simp [*]
  · next hother =>
      constructor
      · intro h
        cases h
      · rintro ⟨hspan, -⟩
        obtain ⟨hint, span, inlines, rfl⟩ :=
          Node.eq_branch_of_isContainer (Node.isContainer_of_paragraphSpan hspan)
        exact absurd rfl (hother hint span inlines)

theorem foldlM_cons {state next : Formation} {child : Node}
    (h : state.take extended source child = .ok next) (more : List Node) :
    (child :: more).foldlM (take extended source) state = more.foldlM (take extended source) next := by
  rw [List.foldlM_cons, h]
  rfl

theorem foldlM_append {state next : Formation} {first : List Node}
    (h : first.foldlM (take extended source) state = .ok next) (more : List Node) :
    (first ++ more).foldlM (take extended source) state =
      more.foldlM (take extended source) next := by
  rw [List.foldlM_append, h]
  rfl

/-- A child that was taken has a position that fits, if it has any. -/
theorem isPlaced_of_take {state next : Formation} {child : Node}
    (h : state.take extended source child = .ok next) : child.IsPlaced source := by
  intro span hspan
  by_contra hmisfit
  have herror : state.take extended source child = .error ⟨span, byteLength source⟩ :=
    take_eq_error_iff.2 ⟨hspan, hmisfit, rfl⟩
  rw [h] at herror
  cases herror

/-- Taking the children of a root stops at the first paragraph whose position does not fit, whatever
was made before it. -/
theorem foldlM_take_eq_error_iff {state : Formation} {children : List Node} {fault : SpanFault} :
    children.foldlM (take extended source) state = .error fault ↔
      FirstMisplaced source children fault.span ∧ fault.length = byteLength source := by
  induction children generalizing state with
  | nil =>
      constructor
      · intro h
        cases h
      · rintro ⟨hfirst, -⟩
        cases hfirst
  | cons child more ih =>
      rw [List.foldlM_cons]
      cases htake : state.take extended source child with
      | ok next =>
          have hplaced := isPlaced_of_take htake
          refine Iff.trans ih (and_congr_left fun _ => ?_)
          constructor
          · exact .later hplaced
          · intro hfirst
            cases hfirst with
            | here has misfit => exact absurd (hplaced fault.span has) misfit
            | later placed first => exact first
      | error fault' =>
          -- the fault is that of this child, so that no later one is the first
          obtain ⟨hhas, hmisfit, hlength⟩ := take_eq_error_iff.1 htake
          constructor
          · intro h
            cases h
            exact ⟨.here hhas hmisfit more, hlength⟩
          · rintro ⟨hfirst, hlength'⟩
            cases hfirst with
            | here has misfit =>
                obtain ⟨span, length⟩ := fault
                obtain ⟨span', length'⟩ := fault'
                obtain rfl : span' = span := Option.some.inj (hhas.symm.trans has)
                obtain rfl : length' = length := hlength.trans hlength'.symm
                rfl
            | later placed first => exact absurd (placed fault'.span hhas) hmisfit

end Formation

end Formation

/-! ### Forming definition lists -/

namespace Node

variable {source : List Char} {tree : Node}

/-- Only the children of a root are looked at. -/
theorem formDefinitions_of_not_root (h : tree.isContainer .root = false) (extended : Bool)
    (source : List Char) : tree.formDefinitions extended source = (tree, none) := by
  unfold formDefinitions
  split
  · cases h
  · rfl

/-- A root whose children cannot all be taken is left without any. -/
theorem formDefinitions_root_cases (extended : Bool) (source : List Char) (hint : Option String)
    (span : Option Span) (children : List Node) :
    (∃ state, children.foldlM (Formation.take extended source) {} = .ok state ∧
        formDefinitions extended source (.branch (.container .root hint span) children) =
          (.branch (.container .root hint span) state.made.reverse, none)) ∨
      ∃ fault, children.foldlM (Formation.take extended source) {} = .error fault ∧
        formDefinitions extended source (.branch (.container .root hint span) children) =
          (.branch (.container .root hint span) [], some fault) := by
  cases hfold : children.foldlM (Formation.take extended source) {} with
  | ok state => exact .inl ⟨state, rfl, by simp only [formDefinitions, hfold]⟩
  | error fault => exact .inr ⟨fault, rfl, by simp only [formDefinitions, hfold]⟩

variable {extended : Bool} {fault : SpanFault}

theorem fault_formDefinitions_eq_some_iff :
    (tree.formDefinitions extended source).2 = some fault ↔ tree.isContainer .root = true ∧
      FirstMisplaced source tree.children fault.span ∧ fault.length = byteLength source := by
  cases hroot : tree.isContainer .root with
  | false => simp [formDefinitions_of_not_root hroot]
  | true =>
      obtain ⟨hint, span, children, rfl⟩ := eq_branch_of_isContainer hroot
      rw [and_iff_right rfl, Node.children, ← Formation.foldlM_take_eq_error_iff]
      rcases formDefinitions_root_cases extended source hint span children with
        ⟨state, hfold, hformed⟩ | ⟨fault', hfold, hformed⟩
      · rw [hformed, hfold]
        constructor <;> intro h <;> cases h
      · rw [hformed, hfold]
        constructor <;> intro h <;> cases h <;> rfl

variable (extended) in
theorem fault_formDefinitions_eq_none_iff :
    (tree.formDefinitions extended source).2 = none ↔
      (tree.isContainer .root = true → ∀ child ∈ tree.children, child.IsPlaced source) := by
  constructor
  · intro hnone hroot child hmem
    by_contra hchild
    obtain ⟨span, hfirst⟩ := FirstMisplaced.exists_of_not_placed hmem hchild
    have hfault : (tree.formDefinitions extended source).2 = some ⟨span, byteLength source⟩ :=
      fault_formDefinitions_eq_some_iff.2 ⟨hroot, hfirst, rfl⟩
    rw [hnone] at hfault
    cases hfault
  · intro hplaced
    cases hfault : (tree.formDefinitions extended source).2 with
    | none => rfl
    | some fault =>
        obtain ⟨hroot, hfirst, -⟩ := fault_formDefinitions_eq_some_iff.1 hfault
        obtain ⟨child, hmem, hchild⟩ := hfirst.exists_not_placed
        exact absurd (hplaced hroot child hmem) hchild

/-- A fault takes all children, of which there is at least one. -/
theorem children_formDefinitions_of_fault
    (h : (tree.formDefinitions extended source).2 = some fault) :
    (tree.formDefinitions extended source).1.children = [] ∧ tree.children ≠ [] := by
  obtain ⟨hroot, hfirst, -⟩ := fault_formDefinitions_eq_some_iff.1 h
  obtain ⟨child, hmem, -⟩ := hfirst.exists_not_placed
  refine ⟨?_, List.ne_nil_of_mem hmem⟩
  obtain ⟨hint, span, children, rfl⟩ := eq_branch_of_isContainer hroot
  rcases formDefinitions_root_cases extended source hint span children with
    ⟨state, -, hformed⟩ | ⟨fault', -, hformed⟩
  · rw [hformed] at h
    cases h
  · rw [hformed]
    rfl

end Node

/-- Forming definition lists fails exactly if the tree is a root with a paragraph whose position does not
fit the text. The fault tells the position of the first such paragraph, and the length of the text.
Other trees are left as they are. -/
theorem formDefinitions_fails_iff (extended : Bool) (source : List Char) (tree : Node) :
    (∀ fault, (tree.formDefinitions extended source).2 = some fault ↔
      tree.isContainer .root = true ∧ FirstMisplaced source tree.children fault.span ∧
        fault.length = byteLength source) ∧
    ((tree.formDefinitions extended source).2 = none ↔
      (tree.isContainer .root = true → ∀ child ∈ tree.children, child.IsPlaced source)) ∧
    (tree.isContainer .root = false → tree.formDefinitions extended source = (tree, none)) := by
  exact ⟨fun fault => Node.fault_formDefinitions_eq_some_iff,
    Node.fault_formDefinitions_eq_none_iff extended,
    fun hroot => Node.formDefinitions_of_not_root hroot extended source⟩

/-- The second paragraph ends within a character. The third, which would end before it starts, is not
reached. -/
theorem formDefinitions_fails_within_character :
    (Node.formDefinitions true "aé".toList (.plain .root
      [.branch (.container .paragraph none (some ⟨0, 3⟩)) [],
        .branch (.container .paragraph none (some ⟨1, 2⟩)) [],
        .branch (.container .paragraph none (some ⟨18446744073709551615, 0⟩)) []])).2 =
      some ⟨⟨1, 2⟩, 3⟩ := by
  have hread : Span.read? ⟨0, 3⟩ "aé".toList = some "aé".toList := by decide +kernel
  have hcut : Span.read? ⟨1, 2⟩ "aé".toList = none := by decide +kernel
  refine ((formDefinitions_fails_iff true _ _).1 _).2 ⟨rfl, .later ?_ (.here rfl ?_ _), rfl⟩
  · rintro span ⟨⟩
    exact Span.fits_of_read hread
  · exact Span.read?_eq_none_iff.1 hcut

/-- A fault leaves a root what it is, but without any of its children. So a tree is as it was exactly if
there is no fault. -/
theorem formDefinitions_unchanged_iff (extended : Bool) (source : List Char) (tree : Node) :
    ((∀ fault, (tree.formDefinitions extended source).2 = some fault →
        (tree.formDefinitions extended source).1 = tree) ↔
      (tree.isContainer .root = true → ∀ child ∈ tree.children, child.IsPlaced source)) ∧
    (∀ fault, (tree.formDefinitions extended source).2 = some fault →
      (tree.formDefinitions extended source).1.head? = tree.head? ∧
        (tree.formDefinitions extended source).1.children = [] ∧ tree.children ≠ []) := by
  refine ⟨?_, fun fault hfault =>
    ⟨Node.head?_formDefinitions extended source tree, Node.children_formDefinitions_of_fault hfault⟩⟩
  rw [← Node.fault_formDefinitions_eq_none_iff extended]
  constructor
  · intro hkept
    cases hfault : (tree.formDefinitions extended source).2 with
    | none => rfl
    | some fault =>
        obtain ⟨hnone, hsome⟩ := Node.children_formDefinitions_of_fault hfault
        rw [hkept fault hfault] at hnone
        exact absurd hnone hsome
  · intro hnone fault hfault
    rw [hnone] at hfault
    cases hfault

/-- The second paragraph stops it, and the first is lost with it. -/
theorem not_forall_unchanged_of_fault :
    ¬∀ (extended : Bool) (source : List Char) (tree : Node) (fault : SpanFault),
      (tree.formDefinitions extended source).2 = some fault →
        (tree.formDefinitions extended source).1 = tree := by
  intro hall
  have hkept := hall true "ab".toList (.plain .root
    [.branch (.container .paragraph none none) [.text "a"],
      .branch (.container .paragraph none (some ⟨0, 9⟩)) [.text "b"]]) ⟨⟨0, 9⟩, 2⟩
  revert hkept
  decide +kernel

end DefinitionLists
