/-
Module: DefinitionLists.Proofs.Outline.Formation
Purpose: Forming definition lists from paragraphs keeps documents outlined.
Main exports: Parts.entryNodes, Node.outlined_formDefinitions
-/
import DefinitionLists.Definition.Formation
import DefinitionLists.Proofs.Heads.Stages
import DefinitionLists.Proofs.Outline

namespace DefinitionLists

open Node (allProse)

/-! ### The nodes of entries -/

theorem allProse_termInlines (extended : Bool) (text : List Char) :
    allProse (termInlines extended text) = true :=
  allHeadsIn_termInlines (fun text _ => Node.allProse_ofMarkdown extended text) (Nat.le_refl _)

theorem Parts.detailsNodes (extended : Bool) (details : List (List Char)) :
    Parts .defined (detailsNodes extended details) := by
  have hparts : Parts .defined
      ((details.map fun text => (Node.ofMarkdown extended text).children).map
        Node.descriptionDetails) := by
    refine Parts.ofDetails fun blocks hb => ?_
    obtain ⟨text, -, rfl⟩ := List.mem_map.1 hb
    exact Node.allProse_ofMarkdown extended text
  simpa [DefinitionLists.detailsNodes, Function.comp_def] using hparts

/-- Definitions that come right after a term, followed by whole groups. -/
theorem Parts.detailsNodes_append {extended : Bool} {details : List (List Char)} {more : List Node}
    (h : details ≠ []) (hm : Parts .defined more) :
    Parts .named (DefinitionLists.detailsNodes extended details ++ more) := by
  obtain ⟨first, others, rfl⟩ := List.exists_cons_of_ne_nil h
  exact .details (by simp) (Node.allProse_ofMarkdown extended first)
    ((Parts.detailsNodes extended others).append hm)

/-- An entry with details is a group, in front of other parts. -/
theorem Parts.entryNodes {extended : Bool} {entry : Entry} {more : List Node}
    (h : entry.details ≠ []) (hm : Parts .defined more) :
    Parts .start (entry.nodes extended ++ more) :=
  .term (by simp) (allProse_termInlines extended _) (Parts.detailsNodes_append h hm)

theorem Parts.flatMap_entryNodes {extended : Bool} {entries : List Entry}
    (h : ∀ entry ∈ entries, entry.details ≠ []) :
    Parts .defined (entries.flatMap (Entry.nodes extended)) := by
  induction entries with
  | nil => exact .done
  | cons entry more ih =>
      rw [List.flatMap_cons]
      exact (Parts.entryNodes (h entry (by simp))
        (ih fun other ho => h other (by simp [ho]))).afterDetails

/-! ### The scan over the blocks of a document -/

namespace Formation

/-- A paragraph stays, or opens a definition list, or goes on with the one before it, or takes the one
before it as its term; each keeps the outline. -/
theorem isBlock_takeParagraph {extended : Bool} {state : Formation} {paragraph : Node}
    {texts : List (List Char)} (hm : ∀ block ∈ state.made, IsBlock block)
    (hp : paragraph.isProse = true) :
    ∀ block ∈ (state.takeParagraph extended paragraph texts).made, IsBlock block := by
  have hdetails : ∀ entry ∈ splitEntries texts, entry.details ≠ [] :=
    details_ne_nil_of_mem_splitEntries
  generalize hnext : state.takeParagraph extended paragraph texts = next
  rcases made_of_takeParagraph hnext with hstays | ⟨first, more, hentries, hcases⟩
  · rw [hstays]
    exact List.forall_mem_cons.2 ⟨.prose hp, hm⟩
  · rw [hentries] at hdetails
    have hfirst : first.details ≠ [] := hdetails first (by simp)
    have hmore : Parts .defined (more.flatMap (Entry.nodes extended)) :=
      Parts.flatMap_entryNodes fun entry he => hdetails entry (by simp [he])
    rcases hcases with hmade | ⟨hint, span, children, made, hbefore, hmade⟩ |
      ⟨hint, span, term, made, hbefore, hmade⟩
    · rw [hmade]
      exact List.forall_mem_cons.2 ⟨.definitions (Parts.entryNodes hfirst hmore), hm⟩
    · rw [hbefore] at hm
      rw [hmade]
      obtain ⟨-, hlist⟩ := List.forall_mem_cons.1 hm
      cases hm (.branch (.container .descriptionList hint span) children) (by simp) with
      | prose prose => simp [Branch.isSpecial, Container.isSpecial] at prose
      | definitions whole =>
          exact List.forall_mem_cons.2 ⟨.definitions (whole.append
            ((Parts.detailsNodes extended first.details).append hmore)), hlist⟩
    · rw [hbefore] at hm
      rw [hmade]
      obtain ⟨hterm, hlist⟩ := List.forall_mem_cons.1 hm
      have hprose : allProse term = true := by
        cases hterm with
        | prose prose => exact ((Node.isProse_branch _ _).1 prose).2
      exact List.forall_mem_cons.2 ⟨.definitions (.term (by simp) hprose
        (Parts.detailsNodes_append hfirst hmore)), hlist⟩

/-- What taking a paragraph keeps of the nodes made so far, taking all children keeps. -/
theorem forall_mem_made_of_foldlM {extended : Bool} {source : List Char} {holds : Node → Prop}
    (hstep : ∀ (state : Formation) hint span children texts,
      let paragraph : Node := .branch (.container .paragraph hint span) children
      (∀ node ∈ state.made, holds node) → holds paragraph →
        ∀ node ∈ (state.takeParagraph extended paragraph texts).made, holds node)
    {children : List Node} {state state' : Formation} (hm : ∀ node ∈ state.made, holds node)
    (hc : ∀ child ∈ children, holds child)
    (h : children.foldlM (take extended source) state = .ok state') :
    ∀ node ∈ state'.made, holds node := by
  induction children generalizing state with
  | nil =>
      cases h
      exact hm
  | cons child more ih =>
      obtain ⟨hchild, hmore⟩ := List.forall_mem_cons.1 hc
      rw [List.foldlM_cons] at h
      cases ht : state.take extended source child with
      | error fault =>
          rw [ht] at h
          cases h
      | ok next =>
          rw [ht] at h
          refine ih ?_ hmore h
          unfold take at ht
          split at ht
          · split at ht
            · cases ht
              exact hstep state _ _ _ _ hm hchild
            · cases ht
          · cases ht
            exact List.forall_mem_cons.2 ⟨hchild, hm⟩

end Formation

/-- Forming definitions keeps a document outlined, also where a faulty position stops it. -/
theorem Node.outlined_formDefinitions {extended : Bool} {source : List Char} {tree : Node}
    (h : tree.Outlined) : (tree.formDefinitions extended source).1.Outlined := by
  rw [outlined_iff_fits] at h ⊢
  obtain ⟨hint, span, blocks, rfl, hblocks⟩ := h
  unfold formDefinitions
  simp only
  split
  · next state hstate =>
      refine ⟨hint, span, _, rfl, fun block hb => ?_⟩
      refine Formation.forall_mem_made_of_foldlM (fun state hint span children texts hm hp => ?_)
        (by simp) hblocks hstate block (List.mem_reverse.1 hb)
      refine Formation.isBlock_takeParagraph hm ?_
      cases hp with
      | prose prose => exact prose
  · exact ⟨hint, span, [], rfl, by simp [Fits]⟩

end DefinitionLists
