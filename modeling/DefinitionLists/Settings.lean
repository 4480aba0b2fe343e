/-
Module: DefinitionLists.Settings
Purpose: What a user may choose: the variant, the stages that do not run, and the dialect of the
  documents.
Main exports: normalizeKey, Settings, Settings.withOverrides, UnknownPass, Settings.takeOut,
  Settings.stages
-/
import DefinitionLists.Stage

namespace DefinitionLists

open Text (trim)

/-- A name without blanks around it, in lower case, and with hyphens in place of underscores. Letters
outside of ASCII keep their case. -/
def normalizeKey (key : String) : String :=
  String.ofList ((trim key.toList).map (fun c => if c = '_' then '-' else c.toLower))

/-- A choice of settings. -/
structure Settings where
  variant : Variant := .advanced
  /-- The names of stages that do not run. -/
  disabled : List String := []
  /-- Whether documents have deletions and task marks. -/
  gfm : Bool := true
deriving Repr, Inhabited, DecidableEq

/-- The name of a stage to disable that no stage has, normalized. -/
structure UnknownPass where
  name : String
deriving Repr, Inhabited, DecidableEq

/-- What the fault says. -/
def UnknownPass.message (fault : UnknownPass) : String :=
  "Unknown pass '" ++ fault.name ++ "'. Run `deflist passes` to list available passes"

namespace Settings

/-- Adds a name to those disabled, unless it is empty or there already. -/
def disable (settings : Settings) (name : String) : Settings :=
  let key := normalizeKey name
  if key.isEmpty || settings.disabled.contains key then settings
  else { settings with disabled := settings.disabled ++ [key] }

/-- The settings with another variant, if one is given, and with more stages disabled. -/
def withOverrides (settings : Settings) (variant : Option Variant) (names : List String) : Settings :=
  names.foldl disable { settings with variant := variant.getD settings.variant }

/-- Takes the stage with a name out of the stages, if it is there. The name has to be that of a stage
that may be disabled, in this variant or in another. -/
def takeOut (stages : List Stage) (name : String) : Except UnknownPass (List Stage) :=
  let key := normalizeKey name
  if Stage.optional.any (·.name == key) then .ok (stages.filter (·.name ≠ key)) else .error ⟨key⟩

/-- The stages that run, in order: those of the variant, with those to disable taken out one by one, up
to the first name that is not known. -/
def stages (settings : Settings) : Except UnknownPass (List Stage) :=
  settings.disabled.foldlM takeOut settings.variant.stages

/-- Taking out names one by one takes out the stages of all of them, or fails with the first name that is
not known. The builder stays, as its name is none of those known. -/
theorem foldlM_takeOut (names : List String) (stages : List Stage) :
    names.foldlM takeOut stages =
      match (names.map normalizeKey).find? (fun key => !(Stage.optional.any (·.name == key))) with
      | some name => .error ⟨name⟩
      | none => .ok (stages.filter
          (fun stage => stage = .builder || !(names.map normalizeKey).contains stage.name)) := by
  induction names generalizing stages with
  | nil =>
    have hkept : stages.filter (fun _ => true) = stages := List.filter_eq_self.2 fun _ _ => rfl
    simp [pure, Except.pure, hkept]
  | cons name more ih =>
    rw [List.foldlM_cons, takeOut, List.map_cons, List.find?_cons]
    cases hknown : Stage.optional.any (·.name == normalizeKey name) with
    | false => rfl
    | true =>
      have hbuilder : Stage.builder.name ≠ normalizeKey name := by
        intro hname
        rw [← hname] at hknown
        exact absurd hknown (by decide)
      refine (ih (stages.filter (·.name ≠ normalizeKey name))).trans ?_
      cases hfind : (more.map normalizeKey).find?
          (fun key => !(Stage.optional.any (·.name == key))) with
      | some unknown => rfl
      | none =>
        simp only [Bool.not_true, List.filter_filter]
        refine congrArg Except.ok (List.filter_congr fun stage _ => ?_)
        by_cases hstage : stage = .builder
        · simp [hstage, hbuilder]
        · simp [hstage, Bool.and_comm]

theorem stages_eq (settings : Settings) : settings.stages =
    match (settings.disabled.map normalizeKey).find?
      (fun key => !(Stage.optional.any (·.name == key))) with
    | some name => .error ⟨name⟩
    | none => .ok (settings.variant.stages.filter (fun stage =>
        stage = .builder || !(settings.disabled.map normalizeKey).contains stage.name)) :=
  foldlM_takeOut settings.disabled settings.variant.stages

end Settings

end DefinitionLists
