/-
Module: DefinitionLists.Proofs.CommandLine.ExitCodes
Purpose: Which number a run that converts exits with: that of a fault of the tool, that of an input
  that failed, or that of success.
Main exports: Hindered, OutputRefused, InputFailed, Unreadable, Tells, run_tells_code,
  not_forall_tells_code
-/
import DefinitionLists.Proofs.CommandLine.Conversion

namespace DefinitionLists.CommandLine

/-! ### What may go wrong -/

section Faults

variable (around : Surroundings) (arguments : Arguments)

/-- A run ends before it looks at its inputs: the system cannot tell its working directory, the settings
cannot be loaded or name an unknown stage, or the text that positions refer to cannot be read. -/
inductive Hindered : Prop
  | directory (fault : FileFault) (h : around.directories = .error fault)
  | settings (directories : List String) (fault : SettingsFault)
      (hknown : around.directories = .ok directories)
      (h : Settings.resolve around.disk arguments.config (arguments.has .noConfig) directories =
        .error fault)
  | unknownPass (directories : List String) (settings : Settings) (fault : UnknownPass)
      (hknown : around.directories = .ok directories)
      (hload : Settings.resolve around.disk arguments.config (arguments.has .noConfig) directories =
        .ok settings)
      (h : (settings.withOverrides arguments.variant arguments.disable).converter = .error fault)
  | source (path : String) (fault : FileFault) (hgiven : arguments.source = some path)
      (h : around.disk.read path = .error fault)

/-- What the inputs of a run are converted to cannot be written. -/
def OutputRefused : Prop :=
  ∃ converter source fault, Begins around arguments converter source ∧
    targetRefusal around.disk arguments.output
      (allConverted (arguments.job converter source) (inputs around arguments)) = some fault

/-- An input of a run cannot be read or converted. -/
def InputFailed : Prop :=
  ∃ converter source, Begins around arguments converter source ∧
    ∃ input ∈ inputs around arguments, converted? (arguments.job converter source) input = none

/-- A run reads standard input, and that is no text. -/
def Unreadable : Prop :=
  arguments.readsInput = true ∧ ∃ fault, around.input = .error fault

end Faults

/-- The number of an exit tells a fault of the tool from the fault of an input. -/
structure Tells (code : Nat) (toolFault inputFault : Prop) : Prop where
  two : code = 2 ↔ toolFault
  one : code = 1 ↔ ¬toolFault ∧ inputFault
  zero : code = 0 ↔ ¬toolFault ∧ ¬inputFault

namespace Tells

variable {toolFault inputFault : Prop}

theorem of_toolError (h : toolFault) : Tells ExitStatus.toolError.code toolFault inputFault := by
  constructor <;> simp [ExitStatus.code, h]

theorem of_ofConversion {allConverted : Bool} (h : ¬toolFault)
    (hinput : allConverted = false ↔ inputFault) :
    Tells (ExitStatus.ofConversion allConverted).code toolFault inputFault := by
  rw [← hinput]
  cases allConverted <;> constructor <;> simp [ExitStatus.ofConversion, ExitStatus.code, h]

end Tells

section Runs

variable {around : Surroundings} {arguments : Arguments}

theorem chooseConverter_of_no_directory {fault : FileFault} (h : around.directories = .error fault) :
    chooseConverter around arguments =
      .error ("Failed to determine the working directory: " ++ fault.message) := by
  unfold chooseConverter
  rw [h]
  rfl

/-- In a known working directory, the settings are what matters. -/
theorem chooseConverter_of_directories {directories : List String}
    (hknown : around.directories = .ok directories) :
    chooseConverter around arguments =
      ((Settings.resolve around.disk arguments.config (arguments.has .noConfig)
        directories).mapError SettingsFault.message).bind fun settings =>
          (settings.withOverrides arguments.variant arguments.disable).converter.mapError
            UnknownPass.message := by
  unfold chooseConverter
  rw [hknown]
  rfl

theorem chooseConverter_of_error {directories : List String} {fault : SettingsFault}
    (hknown : around.directories = .ok directories)
    (h : Settings.resolve around.disk arguments.config (arguments.has .noConfig) directories =
      .error fault) :
    chooseConverter around arguments = .error fault.message := by
  rw [chooseConverter_of_directories hknown, h]
  rfl

theorem chooseConverter_of_ok {directories : List String} {settings : Settings}
    (hknown : around.directories = .ok directories)
    (h : Settings.resolve around.disk arguments.config (arguments.has .noConfig) directories =
      .ok settings) :
    chooseConverter around arguments =
      (settings.withOverrides arguments.variant arguments.disable).converter.mapError
        UnknownPass.message := by
  rw [chooseConverter_of_directories hknown, h]
  rfl

theorem source_or_hindered (around : Surroundings) (arguments : Arguments) :
    (∃ source, readSource around.disk arguments.source = .ok source) ∨ Hindered around arguments := by
  cases hgiven : arguments.source with
  | none => exact .inl ⟨"", rfl⟩
  | some path =>
      cases hread : around.disk.read path with
      | error fault => exact .inr (.source path fault hgiven hread)
      | ok text =>
          refine .inl ⟨text, ?_⟩
          rw [readSource, hread]
          rfl

/-- Unless something hinders it, a run begins. -/
theorem begins_or_hindered (around : Surroundings) (arguments : Arguments) :
    (∃ converter source, Begins around arguments converter source) ∨ Hindered around arguments := by
  -- in the order in which a run looks for them: working directory, settings, stages, source
  cases hknown : around.directories with
  | error fault => exact .inr (.directory fault hknown)
  | ok directories =>
      cases hload : Settings.resolve around.disk arguments.config (arguments.has .noConfig)
          directories with
      | error fault => exact .inr (.settings directories fault hknown hload)
      | ok settings =>
          have hchoose := chooseConverter_of_ok hknown hload
          cases hconverter :
              (settings.withOverrides arguments.variant arguments.disable).converter with
          | error fault => exact .inr (.unknownPass directories settings fault hknown hload hconverter)
          | ok converter =>
              rw [hconverter] at hchoose
              exact (source_or_hindered around arguments).imp_left fun ⟨source, hsource⟩ =>
                ⟨converter, source, hchoose, hsource⟩

/-- What hinders a run is told as a message. -/
theorem Hindered.exists_message (h : Hindered around arguments) :
    (∃ message, chooseConverter around arguments = .error message) ∨
      ∃ message, readSource around.disk arguments.source = .error message := by
  cases h with
  | directory fault hknown => exact .inl ⟨_, chooseConverter_of_no_directory hknown⟩
  | settings directories fault hknown hload =>
      exact .inl ⟨_, chooseConverter_of_error hknown hload⟩
  | unknownPass directories settings fault hknown hload hconverter =>
      refine .inl ⟨fault.message, ?_⟩
      rw [chooseConverter_of_ok hknown hload, hconverter]
      rfl
  | source path fault hgiven hread =>
      refine .inr ⟨"Failed to read source " ++ path ++ ": " ++ fault.message, ?_⟩
      rw [hgiven, readSource, hread]
      rfl

theorem Begins.not_hindered {converter : Converter} {source : String}
    (h : Begins around arguments converter source) : ¬Hindered around arguments := by
  intro hhindered
  rcases hhindered.exists_message with ⟨message, hmessage⟩ | ⟨message, hmessage⟩
  · rw [h.converter] at hmessage
    cases hmessage
  · rw [h.source] at hmessage
    cases hmessage

/-- The settings and the source that a run begins with are determined by its surroundings and arguments.
-/
theorem Begins.unique {converter converter' : Converter} {source source' : String}
    (h : Begins around arguments converter source)
    (h' : Begins around arguments converter' source') : converter = converter' ∧ source = source' := by
  have hconverter := h.converter.symm.trans h'.converter
  have hsource := h.source.symm.trans h'.source
  exact ⟨Except.ok.inj hconverter, Except.ok.inj hsource⟩

theorem Hindered.status_runConvert (h : Hindered around arguments) :
    (runConvert around arguments).status = .toolError := by
  unfold runConvert
  rcases h.exists_message with ⟨message, hmessage⟩ | ⟨message, hmessage⟩
  · rw [hmessage]
    rfl
  · rw [hmessage]
    cases chooseConverter around arguments <;> rfl

/-! ### The number of an exit -/

/-- Standard input that is no text ends a run like a fault of the tool. -/
theorem status_runConvert_of_unreadable {converter : Converter} {source : String}
    (h : Begins around arguments converter source) (hunreadable : Unreadable around arguments) :
    (runConvert around arguments).status = .toolError := by
  obtain ⟨hreads, fault, hfault⟩ := hunreadable
  rw [runConvert_of_begins h, if_pos hreads, hfault]
  rfl

/-- Of a run that has begun only the text that it writes decides whether its output is refused. -/
theorem Begins.outputRefused_iff {converter : Converter} {source : String}
    (h : Begins around arguments converter source) :
    OutputRefused around arguments ↔ ∃ fault, targetRefusal around.disk arguments.output
      (allConverted (arguments.job converter source) (inputs around arguments)) = some fault := by
  constructor
  · rintro ⟨converter', source', fault, h', hrefused⟩
    obtain ⟨rfl, rfl⟩ := h.unique h'
    exact ⟨fault, hrefused⟩
  · rintro ⟨fault, hrefused⟩
    exact ⟨converter, source, fault, h, hrefused⟩

theorem Begins.not_outputRefused {converter : Converter} {source : String}
    (h : Begins around arguments converter source)
    (htarget : ∀ text, targetRefusal around.disk arguments.output text = none) :
    ¬OutputRefused around arguments := by
  rw [h.outputRefused_iff, htarget]
  rintro ⟨fault, hfault⟩
  cases hfault

theorem Begins.inputFailed_iff {converter : Converter} {source : String}
    (h : Begins around arguments converter source) :
    InputFailed around arguments ↔ ∃ input ∈ inputs around arguments,
      converted? (arguments.job converter source) input = none := by
  constructor
  · rintro ⟨converter', source', h', hfailed⟩
    obtain ⟨rfl, rfl⟩ := h.unique h'
    exact hfailed
  · intro hfailed
    exact ⟨converter, source, h, hfailed⟩

/-- A run that has begun and has its inputs tells whether the output was refused, and whether an input
failed. -/
theorem Begins.tells_runConvert {converter : Converter} {source : String}
    (h : Begins around arguments converter source) (hreadable : ¬Unreadable around arguments) :
    Tells (runConvert around arguments).status.code (OutputRefused around arguments)
      (InputFailed around arguments) := by
  have hinput : arguments.readsInput = true → ∃ content, around.input = .ok content := by
    intro hreads
    cases hinput : around.input with
    | error fault => exact absurd ⟨hreads, fault, hinput⟩ hreadable
    | ok content => exact ⟨content, rfl⟩
  cases hrefusal : targetRefusal around.disk arguments.output
      (allConverted (arguments.job converter source) (inputs around arguments)) with
  | some fault =>
      -- the refusal hides whether an input failed
      obtain ⟨unread, results, hrun, houtput, -⟩ := exists_runConvert_eq_writeOutput h hinput
      rw [← houtput] at hrefusal
      rw [hrun, status_writeOutput_of_refused hrefusal unread]
      exact .of_toolError (h.outputRefused_iff.2 ⟨fault, houtput ▸ hrefusal⟩)
  | none =>
      obtain ⟨-, hstatus⟩ := runConvert_wrote h hinput hrefusal
      rw [hstatus]
      refine .of_ofConversion ?_ ?_
      · rw [h.outputRefused_iff, hrefusal]
        rintro ⟨fault, hfault⟩
        cases hfault
      · rw [h.inputFailed_iff]
        simp

theorem tells_runConvert (around : Surroundings) (arguments : Arguments) :
    Tells (runConvert around arguments).status.code
      (Hindered around arguments ∨ OutputRefused around arguments ∨ Unreadable around arguments)
      (InputFailed around arguments) := by
  rcases begins_or_hindered around arguments with ⟨converter, source, hbegins⟩ | hhindered
  · by_cases hunreadable : Unreadable around arguments
    · rw [status_runConvert_of_unreadable hbegins hunreadable]
      exact .of_toolError (.inr (.inr hunreadable))
    · have htells := hbegins.tells_runConvert hunreadable
      simpa only [hbegins.not_hindered, hunreadable, false_or, or_false] using htells
  · rw [hhindered.status_runConvert]
    exact .of_toolError (.inl hhindered)

/-- The number that a run exits with is 2 exactly if the run is hindered, its output is refused, or it
reads standard input that is no text. Otherwise it is 1 exactly if an input failed. So the number tells
the faults of the tool from those of the inputs unless it is standard input that cannot be read. -/
theorem run_tells_code {given : List String} (hread : Arguments.read given = .ok arguments)
    (hcommand : arguments.command = .convert) :
    Tells (run around given).status.code
        (Hindered around arguments ∨ OutputRefused around arguments ∨ Unreadable around arguments)
        (InputFailed around arguments) ∧
      (Tells (run around given).status.code
          (Hindered around arguments ∨ OutputRefused around arguments)
          (InputFailed around arguments) ↔
        (Unreadable around arguments →
          Hindered around arguments ∨ OutputRefused around arguments)) := by
  rw [run_of_read hread hcommand]
  have htells := tells_runConvert around arguments
  refine ⟨htells, fun hclaim hunreadable => ?_, fun hfault => ?_⟩
  · have htwo := htells.two.2 (.inr (.inr hunreadable))
    exact hclaim.two.1 htwo
  · -- where unreadable input comes with another fault of the tool only, it adds nothing to them
    have hsame : (Hindered around arguments ∨ OutputRefused around arguments ∨
        Unreadable around arguments) = (Hindered around arguments ∨
        OutputRefused around arguments) := by
      rw [← or_assoc]
      exact propext (or_iff_left_of_imp hfault)
    rw [← hsame]
    exact htells

end Runs

/-- Of four files one is missing and one is no tree. -/
theorem run_tells_code_of_trees :
    (run aroundTrees
        ["--input-format", "json", "--no-config", "c", "b", "d", "a", "c", "-o", "page"]).status.code =
      1 ∧
    Tells
      (run aroundTrees
        ["--input-format", "json", "--no-config", "c", "b", "d", "a", "c", "-o", "page"]).status.code
      (Hindered aroundTrees argumentsOfTrees ∨ OutputRefused aroundTrees argumentsOfTrees)
      (InputFailed aroundTrees argumentsOfTrees) := by
  have hread : Arguments.read
      ["--input-format", "json", "--no-config", "c", "b", "d", "a", "c", "-o", "page"] =
      .ok argumentsOfTrees := rfl
  have hbegins : Begins aroundTrees argumentsOfTrees Converter.standard "" := ⟨rfl, rfl⟩
  have hreadable : ¬Unreadable aroundTrees argumentsOfTrees := fun h => Bool.noConfusion h.1
  have hrefused : ¬OutputRefused aroundTrees argumentsOfTrees :=
    hbegins.not_outputRefused fun _ => rfl
  have hfailed : InputFailed aroundTrees argumentsOfTrees :=
    hbegins.inputFailed_iff.2 ⟨.error .missing, .tail _ (.tail _ (.head _)), rfl⟩
  obtain ⟨htells, hclaim⟩ := @run_tells_code aroundTrees _ _ hread rfl
  refine ⟨htells.one.2 ⟨?_, hfailed⟩, hclaim.2 fun h => absurd h hreadable⟩
  simp only [hbegins.not_hindered, hrefused, hreadable, or_false, not_false_eq_true]

/-- Standard input that is no text is told as a fault of the tool, where a file of the same bytes is
an input that failed. -/
theorem not_forall_tells_code :
    ¬∀ (around : Surroundings) (given : List String) (arguments : Arguments),
      Arguments.read given = .ok arguments → arguments.command = .convert →
        Tells (run around given).status.code
          (Hindered around arguments ∨ OutputRefused around arguments)
          (InputFailed around arguments) := by
  intro hall
  have htells := hall aroundTrees ["--no-config", "--stdin"] { switches := [.stdin, .noConfig] }
    rfl rfl
  have hbegins : Begins aroundTrees { switches := [.stdin, .noConfig] } Converter.standard "" :=
    ⟨rfl, rfl⟩
  have htwo : (run aroundTrees ["--no-config", "--stdin"]).status.code = 2 := rfl
  rcases htells.two.1 htwo with hhindered | hrefused
  · exact hbegins.not_hindered hhindered
  · exact hbegins.not_outputRefused (fun _ => rfl) hrefused

end DefinitionLists.CommandLine
