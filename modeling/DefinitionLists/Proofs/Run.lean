/-
Module: DefinitionLists.Proofs.Run
Purpose: Runs of stages: how they are put together, what each of their stages keeps, which stages
  settings choose, and which of them may change what the top of a tree is.
Main exports: runStages_append, tree_of_runStages, prenormalizer_apply_ofMarkdown,
  Converter.transform_eq_ok_iff, Converter.process_eq_ok_iff, exists_converter_of_process,
  Settings.stages_eq_filter, Settings.stages_around_cleanup, Node.head?, Stage.head?_apply,
  head?_of_runStages
-/
import Mathlib.Control.Monad.Basic
import DefinitionLists.Conversion
import DefinitionLists.Proofs.Prose
import DefinitionLists.Proofs.Visit

namespace DefinitionLists

theorem exists_ok_of_map_eq_ok {ε α β : Type} {f : α → β} {result : Except ε α} {b : β}
    (h : result.map f = .ok b) : ∃ a, result = .ok a ∧ f a = b := by
  cases result with
  | error fault => cases h
  | ok a => exact ⟨a, rfl, Except.ok.inj h⟩

/-- Stages run in two turns as they do in one. -/
theorem runStages_append (extended : Bool) (work : Work) (first second : List Stage) :
    runStages extended work (first ++ second) =
      (runStages extended work first).bind (fun work => runStages extended work second) := by
  induction first generalizing work with
  | nil => rfl
  | cons stage more ih =>
      simp only [List.cons_append, runStages]
      split
      · exact ih _
      · rfl

/-- A run goes through its first stages before the others. -/
theorem runStages_append_eq_ok {extended : Bool} {work done : Work} {first second : List Stage}
    (h : runStages extended work (first ++ second) = .ok done) :
    ∃ between, runStages extended work first = .ok between ∧
      runStages extended between second = .ok done := by
  rw [runStages_append] at h
  cases hfirst : runStages extended work first with
  | error fault =>
      rw [hfirst] at h
      cases h
  | ok between =>
      rw [hfirst] at h
      exact ⟨between, rfl, h⟩

/-- What each stage keeps of a tree, a run of the stages keeps. -/
theorem tree_of_runStages {good : Node → Prop} {extended : Bool} {work done : Work}
    {stages : List Stage}
    (hstep : ∀ stage ∈ stages, ∀ work : Work, good work.tree →
      good (stage.apply extended work).1.tree)
    (h : good work.tree) (hr : runStages extended work stages = .ok done) : good done.tree := by
  induction stages generalizing work with
  | nil =>
      cases hr
      exact h
  | cons stage more ih =>
      have hstage : good (stage.apply extended work).1.tree := hstep stage (by simp) work h
      unfold runStages at hr
      split at hr
      · next next heq =>
          rw [heq] at hstage
          exact ih (fun other ho => hstep other (by simp [ho])) hstage hr
      · cases hr

/-- The rewriting of lines puts the tree of the rewritten text in the place of the tree, and that text
in the place of the text. -/
theorem prenormalizer_apply_ofMarkdown (extended : Bool) (source : List Char) :
    Stage.prenormalizer.apply extended ⟨Node.ofMarkdown extended source, source, false⟩ =
      (if source.isEmpty then ⟨Node.ofMarkdown extended source, source, false⟩
        else ⟨Node.ofMarkdown extended (prenormalize source), prenormalize source, true⟩, none) := by
  obtain ⟨blocks, hroot, -⟩ := Node.ofMarkdown_root extended source
  obtain ⟨blocks', hroot', -⟩ := Node.ofMarkdown_root extended (prenormalize source)
  simp only [Stage.apply, hroot, Node.prenormalize]
  split
  · rfl
  · rw [hroot']
    rfl

namespace Converter

/-- A converter makes the tree of the document that its stages end with. -/
theorem transform_eq_ok_iff {converter : Converter} {tree result : Node} {source : List Char} :
    converter.transform tree source = .ok result ↔
      ∃ done, runStages converter.extended ⟨tree, source, false⟩ converter.stages = .ok done ∧
        done.tree = result := by
  unfold transform
  cases runStages converter.extended ⟨tree, source, false⟩ converter.stages with
  | error fault => simp [Except.map]
  | ok done => simp [Except.map]

/-- What processing returns is the tree that the stages leave. -/
theorem process_eq_ok_iff {converter : Converter} {source : List Char} {tree : Node} :
    converter.process source = .ok tree ↔
      ∃ done, runStages converter.extended
        ⟨Node.ofMarkdown converter.extended source, source, false⟩ converter.stages = .ok done ∧
        done.tree = tree :=
  transform_eq_ok_iff

end Converter

/-- Settings convert a text with the converter that they choose. -/
theorem exists_converter_of_process {settings : Settings} {source : List Char} {tree : Node}
    (h : process settings source = .ok tree) :
    ∃ converter, settings.converter = .ok converter ∧ converter.process source = .ok tree := by
  unfold process at h
  split at h
  · next converter hconverter =>
      cases hprocess : converter.process source with
      | error fault =>
          rw [hprocess] at h
          cases h
      | ok result =>
          rw [hprocess] at h
          cases h
          exact ⟨converter, hconverter, hprocess⟩
  · cases h

namespace Settings

/-- Whether settings choose a stage: their variant runs it, and they do not disable it. The builder
always runs. -/
def chooses (settings : Settings) (stage : Stage) : Bool :=
  settings.variant.runs stage &&
    (stage = .builder || !(settings.disabled.map normalizeKey).contains stage.name)

/-- The stages that run are those that the settings choose, in one order for all variants. -/
theorem stages_eq_filter {settings : Settings} {stages : List Stage}
    (h : settings.stages = .ok stages) : stages = Stage.all.filter settings.chooses := by
  rw [Settings.stages_eq] at h
  split at h
  · cases h
  · cases h
    rw [Variant.stages, List.filter_filter]
    exact List.filter_congr fun stage _ => Bool.and_comm _ _

theorem converter_eq_ok {settings : Settings} {converter : Converter}
    (h : settings.converter = .ok converter) :
    settings.stages = .ok converter.stages ∧ converter.extended = settings.gfm := by
  obtain ⟨stages, hstages, rfl⟩ := exists_ok_of_map_eq_ok h
  exact ⟨hstages, rfl⟩

/-- Only the two stages that look at neighbours come after cleaning. -/
theorem stages_around_cleanup {settings : Settings} {stages : List Stage}
    (h : settings.stages = .ok stages)
    (hc : Stage.cleanup.name ∉ settings.disabled.map normalizeKey) :
    ∃ before after, stages = before ++ .cleanup :: after ∧
      ∀ stage ∈ after, stage = .orphanAbsorber ∨ stage = .coalescer := by
  have hruns : settings.variant.runs .cleanup = true := by
    cases settings.variant <;> rfl
  have hchosen : settings.chooses .cleanup = true := by
    simpa [chooses, hruns] using hc
  have hall : Stage.all = [.prenormalizer, .builder, .detailMerger, .siblingList, .listKind] ++
      .cleanup :: [.orphanAbsorber, .coalescer] := rfl
  rw [stages_eq_filter h, hall, List.filter_append]
  refine ⟨_, _, congrArg _ (List.filter_cons_of_pos hchosen), fun stage hs => ?_⟩
  simpa using (List.mem_filter.1 hs).1

end Settings

/-! ### The head of a tree -/

namespace Node

/-- What the top of a tree is, apart from its children. -/
def head? : Node → Option Branch
  | .leaf _ => none
  | .branch head _ => some head

theorem isContainer_eq_of_head? {tree tree' : Node} (h : tree'.head? = tree.head?)
    (kind : Container) : tree'.isContainer kind = tree.isContainer kind := by
  have hany (node : Node) : node.isContainer kind = node.head?.any (·.isContainer kind) := by
    cases node <;> rfl
  rw [hany, hany, h]

theorem eq_branch_of_head? {tree : Node} {head : Branch} (h : tree.head? = some head) :
    ∃ children, tree = .branch head children := by
  cases tree with
  | leaf content => cases h
  | branch own children =>
      obtain rfl := Option.some.inj h
      exact ⟨children, rfl⟩

theorem eq_branch_of_isContainer {kind : Container} {tree : Node}
    (h : tree.isContainer kind = true) :
    ∃ hint span children, tree = .branch (.container kind hint span) children := by
  cases tree with
  | leaf content => cases h
  | branch head children =>
      cases head with
      | container kind' hint span =>
          have hkind : kind = kind' := by simpa [isContainer, Branch.isContainer] using h
          rw [hkind]
          exact ⟨hint, span, children, rfl⟩
      | _ => cases h

theorem eq_list_of_isList {node : Node} (h : node.isList = true) :
    ∃ ordered start spread hint items, node = .branch (.list ordered start spread hint) items := by
  unfold isList at h
  split at h
  · exact ⟨_, _, _, _, _, rfl⟩
  · cases h

theorem eq_item_of_isListItem {node : Node} (h : node.isListItem = true) :
    ∃ spread checked hint children, node = .branch (.listItem spread checked hint) children := by
  unfold isListItem at h
  split at h
  · exact ⟨_, _, _, _, rfl⟩
  · cases h

theorem head?_edit (change : Place → List Node) (tree : Node) :
    (tree.edit change).head? = tree.head? := by
  cases tree with
  | leaf content => rfl
  | branch head children =>
      rw [edit_branch]
      rfl

theorem head?_removeEmptyItems (tree : Node) : (removeEmptyItems tree).1.head? = tree.head? := by
  cases tree <;> rfl

theorem head?_gatherDetails (tree : Node) : tree.gatherDetails.head? = tree.head? := by
  cases tree with
  | leaf content => rfl
  | branch head children =>
      simp only [gatherDetails, mapBottomUp, gatherHere]
      split <;> rfl

theorem head?_formDefinitions (extended : Bool) (source : List Char) (tree : Node) :
    (tree.formDefinitions extended source).1.head? = tree.head? := by
  unfold formDefinitions
  split
  · simp only
    split <;> rfl
  · rfl

theorem head?_joinAdjacent (tree : Node) : tree.joinAdjacent.head? = tree.head? := by
  unfold joinAdjacent
  split <;> rfl

end Node

/-- Only the rewriting of lines may change what the top of a tree is. -/
theorem Stage.head?_apply (extended : Bool) (work : Work) {stage : Stage}
    (h : stage ≠ .prenormalizer) : (stage.apply extended work).1.tree.head? = work.tree.head? := by
  cases stage with
  | prenormalizer => exact absurd rfl h
  | builder => exact Node.head?_formDefinitions extended work.source work.tree
  | detailMerger => exact Node.head?_gatherDetails work.tree
  | siblingList => exact Node.head?_edit _ work.tree
  | listKind => exact Node.head?_edit _ work.tree
  | cleanup => exact (Node.head?_removeEmptyItems _).trans (Node.head?_edit _ work.tree)
  | orphanAbsorber => exact Node.head?_edit _ work.tree
  | coalescer => exact Node.head?_joinAdjacent work.tree

/-- A run that rewrites no lines keeps what the top of a tree is. -/
theorem head?_of_runStages {extended : Bool} {work done : Work} {stages : List Stage}
    (h : ∀ stage ∈ stages, stage ≠ .prenormalizer)
    (hr : runStages extended work stages = .ok done) : done.tree.head? = work.tree.head? :=
  @tree_of_runStages (fun tree => tree.head? = work.tree.head?) _ _ _ _
    (fun stage hs work hwork => (Stage.head?_apply extended work (h stage hs)).trans hwork) rfl hr

end DefinitionLists
