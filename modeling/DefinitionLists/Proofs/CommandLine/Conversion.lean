/-
Module: DefinitionLists.Proofs.CommandLine.Conversion
Purpose: What a run that converts writes: the conversions of its inputs one after the other, without
  those that cannot be read or converted.
Main exports: Arguments.paths_eq_nil_of_read, inputs, converted?, Begins, runConvert_of_begins,
  run_writes_conversions
-/
import DefinitionLists.CommandLine.Run

namespace DefinitionLists.CommandLine

/-! ### Arguments that were read -/

namespace Arguments

theorem finish_eq_ok {arguments result : Arguments} (h : arguments.finish = .ok result) :
    result.finish = .ok result := by
  have hfinish := h
  unfold finish at h
  split at h
  · cases h
  · cases h
    exact hfinish

theorem finish_of_readCommand {arguments result : Arguments} {command : Command}
    {rest : List String} (h : arguments.readCommand command rest = .ok result) :
    result.finish = .ok result := by
  fun_induction readCommand arguments command rest
  case case1 | case2 => exact finish_eq_ok h
  case case5 ih => exact ih h
  all_goals cases h

/-- However the reading ends, it ends with a check that no two arguments exclude each other. -/
theorem finish_of_readFrom {arguments result : Arguments} {awaiting : Option Field}
    {inPaths : Bool} {given : List String}
    (h : arguments.readFrom awaiting inPaths given = .ok result) : result.finish = .ok result := by
  fun_induction readFrom arguments awaiting inPaths given
  case case2 | case9 => exact finish_eq_ok h
  case case6 | case7 => exact finish_of_readCommand h
  case case4 ih | case11 ih | case13 ih | case15 ih => exact ih h
  all_goals cases h

/-- Standard input and paths are not read together. -/
theorem paths_eq_nil_of_read {given : List String} {arguments : Arguments}
    (h : Arguments.read given = .ok arguments) (hstdin : arguments.has .stdin = true) :
    arguments.paths = [] := by
  have hfinish := finish_of_readFrom h
  unfold finish at hfinish
  split at hfinish
  · cases hfinish
  · next hallowed =>
      simp only [hstdin, Bool.true_and, Bool.or_eq_true, not_or] at hallowed
      simpa using hallowed.1.1

end Arguments

/-! ### Inputs and what they are converted to -/

/-- Whether a run reads standard input rather than files. -/
def Arguments.readsInput (arguments : Arguments) : Bool :=
  arguments.has .stdin || arguments.paths.isEmpty

/-- What a run that converts finds of its inputs, in the order of the arguments. -/
def inputs (around : Surroundings) (arguments : Arguments) : List (Except FileFault String) :=
  if arguments.readsInput then [around.input] else arguments.paths.map around.disk.read

/-- What is written for an input, if it can be read and converted. -/
def converted? (job : String → Except ConversionFault String) (input : Except FileFault String) :
    Option String :=
  input.toOption.bind (fun content => (job content).toOption)

/-- The conversions of inputs one after the other, without those that fail. -/
def allConverted (job : String → Except ConversionFault String)
    (inputs : List (Except FileFault String)) : String :=
  String.join (inputs.filterMap (converted? job))

/-- The conversion that the arguments ask for. -/
def Arguments.job (arguments : Arguments) (converter : Converter) (source : String) :
    String → Except ConversionFault String :=
  convertText converter (arguments.inputFormat.getD .markdown) (arguments.format.getD .html) source

section Jobs

variable (job : String → Except ConversionFault String)

theorem converted?_ok (content : String) : converted? job (.ok content) = (job content).toOption := rfl

theorem converted?_error (fault : FileFault) : converted? job (.error fault) = none := rfl

theorem allConverted_cons (input : Except FileFault String)
    (more : List (Except FileFault String)) :
    allConverted job (input :: more) = (converted? job input).getD "" ++ allConverted job more := by
  unfold allConverted
  cases h : converted? job input with
  | none => simp [List.filterMap_cons_none h]
  | some text => simp [List.filterMap_cons_some h]

/-- A result counts either as output or as a fault. -/
theorem collect_cons (name : String) (result : Except ConversionFault String)
    (more : List (String × Except ConversionFault String)) :
    (collect ((name, result) :: more)).1 = result.toOption.getD "" ++ (collect more).1 ∧
      ((collect ((name, result) :: more)).2 = [] ↔
        result.toOption.isSome ∧ (collect more).2 = []) := by
  cases result <;> simp [collect, Except.toOption]

/-- What is collected of the files that can be read is what the files are converted to, and there is
nothing to tell if and only if each file was read and converted. -/
theorem collect_readInputs (disk : Disk) (paths : List String) :
    (collect (convertAll job (readInputs disk paths).1)).1 =
        allConverted job (paths.map disk.read) ∧
      ((readInputs disk paths).2 ++ (collect (convertAll job (readInputs disk paths).1)).2 = [] ↔
        ∀ path ∈ paths, (converted? job (disk.read path)).isSome) := by
  induction paths with
  | nil => exact ⟨rfl, by simp [readInputs, convertAll, collect]⟩
  | cons path more ih =>
      obtain ⟨houtput, herrors⟩ := ih
      rw [List.map_cons, allConverted_cons, List.forall_mem_cons, ← houtput, ← herrors]
      cases hread : disk.read path with
      | error fault => simp [readInputs, hread, converted?_error]
      | ok content =>
          obtain ⟨hcollected, htold⟩ := collect_cons path (job content)
            (convertAll job (readInputs disk more).1)
          simp only [readInputs, hread, converted?_ok]
          refine ⟨hcollected, ?_⟩
          rw [List.append_eq_nil_iff, List.append_eq_nil_iff]
          exact (and_congr_right fun _ => htold).trans and_left_comm

end Jobs

/-! ### Runs that convert -/

/-- Why a text cannot be written to where the output goes, if it cannot. -/
def targetRefusal (disk : Disk) (target : Option String) (text : String) : Option FileFault :=
  match target with
  | none => disk.outputRefusal text
  | some path => disk.refusal path

/-- A run that wrote a text to where the output goes, and nothing anywhere else. -/
structure Outcome.Wrote (outcome : Outcome) (target : Option String) (text : String) : Prop where
  output : outcome.output = if target.isSome then "" else text
  file : outcome.file = target.map (·, text)
  usage : outcome.usage = none

/-- Nothing else matters once the output is refused. -/
theorem status_writeOutput_of_refused {disk : Disk} {target : Option String} {fault : FileFault}
    {results : List (String × Except ConversionFault String)}
    (h : targetRefusal disk target (collect results).1 = some fault) (unread : List String) :
    (writeOutput disk target unread results).status = .toolError := by
  cases target <;>
    · rw [targetRefusal] at h
      simp only [writeOutput, h]
      rfl

/-- An output that is taken gets all conversions in one text, whichever inputs could not be read. -/
theorem writeOutput_of_taken {disk : Disk} {target : Option String}
    {results : List (String × Except ConversionFault String)}
    (h : targetRefusal disk target (collect results).1 = none) (unread : List String) :
    (writeOutput disk target unread results).Wrote target (collect results).1 ∧
      (writeOutput disk target unread results).status =
        .ofConversion (unread ++ (collect results).2).isEmpty := by
  cases target <;>
    · rw [targetRefusal] at h
      simp only [writeOutput, h]
      exact ⟨⟨rfl, rfl, rfl⟩, trivial⟩

/-- What a run that converts needs before it looks at its inputs: a working directory, settings that can be
loaded and that name known stages only, and the text that positions refer to. -/
structure Begins (around : Surroundings) (arguments : Arguments) (converter : Converter)
    (source : String) : Prop where
  converter : chooseConverter around arguments = .ok converter
  source : readSource around.disk arguments.source = .ok source

theorem runConvert_of_begins {around : Surroundings} {arguments : Arguments} {converter : Converter}
    {source : String} (h : Begins around arguments converter source) :
    runConvert around arguments =
      if arguments.readsInput then
        match around.input with
        | .error fault => .toolError [] ("Failed to read standard input: " ++ fault.message)
        | .ok content =>
          writeOutput around.disk arguments.output []
            (convertAll (arguments.job converter source) [("<stdin>", content)])
      else
        writeOutput around.disk arguments.output (readInputs around.disk arguments.paths).2
          (convertAll (arguments.job converter source)
            (readInputs around.disk arguments.paths).1) := by
  unfold runConvert
  rw [h.converter, h.source]
  rfl

theorem run_of_read {around : Surroundings} {given : List String} {arguments : Arguments}
    (h : Arguments.read given = .ok arguments) (hcommand : arguments.command = .convert) :
    run around given = runConvert around arguments := by
  simp only [run, h, hcommand]

/-- A run that has begun hands what its inputs are converted to on to where the output goes, unless it
reads standard input and that is no text. It has failed if and only if an input has. -/
theorem exists_runConvert_eq_writeOutput {around : Surroundings} {arguments : Arguments}
    {converter : Converter} {source : String} (h : Begins around arguments converter source)
    (hinput : arguments.readsInput = true → ∃ content, around.input = .ok content) :
    ∃ unread results, runConvert around arguments =
        writeOutput around.disk arguments.output unread results ∧
      (collect results).1 =
        allConverted (arguments.job converter source) (inputs around arguments) ∧
      (unread ++ (collect results).2 = [] ↔ ∀ input ∈ inputs around arguments,
        (converted? (arguments.job converter source) input).isSome) := by
  rw [runConvert_of_begins h, inputs]
  by_cases hreads : arguments.readsInput = true
  · -- standard input is one input, and the paths are not looked at
    obtain ⟨content, hcontent⟩ := hinput hreads
    rw [if_pos hreads, if_pos hreads, hcontent]
    obtain ⟨houtput, herrors⟩ :=
      collect_cons "<stdin>" (arguments.job converter source content) []
    refine ⟨_, _, rfl, ?_, ?_⟩
    · rw [allConverted_cons]
      exact houtput
    · rw [List.forall_mem_singleton, converted?_ok]
      exact herrors.trans (and_iff_left rfl)
  · rw [if_neg hreads, if_neg hreads]
    obtain ⟨houtput, herrors⟩ :=
      collect_readInputs (arguments.job converter source) around.disk arguments.paths
    exact ⟨_, _, rfl, houtput, by rw [herrors, List.forall_mem_map]⟩

theorem runConvert_wrote {around : Surroundings} {arguments : Arguments}
    {converter : Converter} {source : String} (h : Begins around arguments converter source)
    (hinput : arguments.readsInput = true → ∃ content, around.input = .ok content)
    (htarget : targetRefusal around.disk arguments.output
      (allConverted (arguments.job converter source) (inputs around arguments)) = none) :
    (runConvert around arguments).Wrote arguments.output
        (allConverted (arguments.job converter source) (inputs around arguments)) ∧
      (runConvert around arguments).status = .ofConversion ((inputs around arguments).all
        (fun input => (converted? (arguments.job converter source) input).isSome)) := by
  obtain ⟨unread, results, hrun, houtput, herrors⟩ := exists_runConvert_eq_writeOutput h hinput
  rw [← houtput] at htarget ⊢
  obtain ⟨hwrote, hstatus⟩ := writeOutput_of_taken htarget unread
  rw [hrun]
  refine ⟨hwrote, hstatus.trans (congrArg ExitStatus.ofConversion ?_)⟩
  rw [Bool.eq_iff_iff, List.isEmpty_iff, herrors, List.all_eq_true]

/-! ### Runs that are given files -/

/-- The arguments with one path in place of all paths. -/
def Arguments.alone (arguments : Arguments) (path : String) : Arguments :=
  { arguments with paths := [path] }

/-- What a run writes for the file at a path, if that can be read and converted. -/
def piece? (around : Surroundings) (arguments : Arguments) (converter : Converter)
    (source path : String) : Option String :=
  converted? (arguments.job converter source) (around.disk.read path)

/-- A run with some paths goes through the files at them, as long as it may write. -/
theorem runConvert_wrote_of_paths {around : Surroundings} {arguments : Arguments}
    {converter : Converter} {source : String} (hbegins : Begins around arguments converter source)
    (hstdin : arguments.has .stdin = false) (hpaths : arguments.paths ≠ [])
    (htarget : ∀ text, targetRefusal around.disk arguments.output text = none) :
    (runConvert around arguments).Wrote arguments.output
        (String.join (arguments.paths.filterMap (piece? around arguments converter source))) ∧
      (runConvert around arguments).status = .ofConversion (arguments.paths.all
        (fun path => (piece? around arguments converter source path).isSome)) := by
  have hreads : arguments.readsInput = false := by
    simp [Arguments.readsInput, hstdin, hpaths]
  have hinputs : inputs around arguments = arguments.paths.map around.disk.read := by
    rw [inputs, hreads]
    rfl
  have hrun := runConvert_wrote hbegins (by simp [hreads]) (htarget _)
  rw [hinputs, allConverted, List.filterMap_map, List.all_map] at hrun
  exact hrun

/-- The run on one of the files alone, with the same settings and source. -/
theorem runConvert_alone {around : Surroundings} {arguments : Arguments}
    {converter : Converter} {source : String} (hbegins : Begins around arguments converter source)
    (hstdin : arguments.has .stdin = false)
    (htarget : ∀ text, targetRefusal around.disk arguments.output text = none) (path : String) :
    (runConvert around (arguments.alone path)).Wrote arguments.output
        ((piece? around arguments converter source path).getD "") ∧
      (runConvert around (arguments.alone path)).status =
        .ofConversion (piece? around arguments converter source path).isSome := by
  have halone : Begins around (arguments.alone path) converter source :=
    ⟨hbegins.converter, hbegins.source⟩
  have hrun := runConvert_wrote_of_paths halone hstdin (List.cons_ne_nil _ _) htarget
  -- the only piece is the one of this file, so that the joined text is that piece or empty
  have hpaths : (arguments.alone path).paths = [path] := rfl
  have hpiece : piece? around (arguments.alone path) converter source =
    piece? around arguments converter source := rfl
  rw [hpaths, hpiece, List.all_cons, List.all_nil, Bool.and_true] at hrun
  cases h : piece? around arguments converter source path with
  | none =>
      rw [h, List.filterMap_cons_none h] at hrun
      exact hrun
  | some text =>
      have htext : String.join [text] = text := by simp
      rw [h, List.filterMap_cons_some h, List.filterMap_nil, htext] at hrun
      exact hrun

/-- A run that is given files writes, in the order of the arguments, what they are converted to. Files
that cannot be read or converted leave nothing there, but make the run fail; each other file leaves
what the run on it alone writes. -/
theorem run_writes_conversions {around : Surroundings} {given : List String}
    {arguments : Arguments} {converter : Converter} {source : String}
    (hread : Arguments.read given = .ok arguments) (hcommand : arguments.command = .convert)
    (hpaths : arguments.paths ≠ []) (hbegins : Begins around arguments converter source)
    (htarget : ∀ text, targetRefusal around.disk arguments.output text = none) :
    (run around given).Wrote arguments.output
        (String.join (arguments.paths.filterMap (piece? around arguments converter source))) ∧
      (run around given).status.code =
        (if ∀ path ∈ arguments.paths, piece? around arguments converter source path ≠ none then 0
          else 1) ∧
      ∀ path ∈ arguments.paths,
        (∀ text, piece? around arguments converter source path = some text →
          (runConvert around (arguments.alone path)).Wrote arguments.output text ∧
            (runConvert around (arguments.alone path)).status = .success) ∧
        (piece? around arguments converter source path = none →
          (runConvert around (arguments.alone path)).Wrote arguments.output "" ∧
            (runConvert around (arguments.alone path)).status = .conversionFailed) := by
  -- with paths given, standard input is not read
  have hstdin : arguments.has .stdin = false :=
    Bool.eq_false_iff.2 fun hstdin => hpaths (Arguments.paths_eq_nil_of_read hread hstdin)
  obtain ⟨hwrote, hstatus⟩ := runConvert_wrote_of_paths hbegins hstdin hpaths htarget
  rw [run_of_read hread hcommand]
  refine ⟨hwrote, ?_, fun path _ => ?_⟩
  · have hall : arguments.paths.all
        (fun path => (piece? around arguments converter source path).isSome) = true ↔
        ∀ path ∈ arguments.paths, piece? around arguments converter source path ≠ none := by
      simp only [List.all_eq_true, Option.isSome_iff_ne_none]
    rw [hstatus, ExitStatus.ofConversion]
    simp only [hall]
    split <;> rfl
  · obtain ⟨hwrote, hstatus⟩ := runConvert_alone hbegins hstdin htarget path
    constructor
    · intro text htext
      rw [htext] at hwrote hstatus
      exact ⟨hwrote, hstatus⟩
    · intro hnone
      rw [hnone] at hwrote hstatus
      exact ⟨hwrote, hstatus⟩

/-- Two trees and a text that is none, in a working directory, and nothing that can be read of standard
input. -/
def aroundTrees : Surroundings where
  disk :=
    { read := fun path =>
        match path with
        | "a" => .ok "\x7b\"value\":\"one\"\x7d"
        | "b" => .ok "]"
        | "c" => .ok "\x7b\"value\":\"two\"\x7d"
        | _ => .error .missing
      isFile := fun path => ["a", "b", "c"].contains path
      isPresent := fun path => ["a", "b", "c"].contains path
      refusal := fun _ => none }
  directories := .ok ["/docs/pages", "/docs", "/"]
  input := .error .notText

/-- Four files to convert to one page, one of them twice. -/
def argumentsOfTrees : Arguments where
  paths := ["c", "b", "d", "a", "c"]
  switches := [.noConfig]
  inputFormat := some .json
  output := some "page"

/-- One file is missing and one is no tree. The others are written, also where one comes again. -/
theorem run_writes_conversions_of_trees :
    Arguments.read
        ["--input-format", "json", "--no-config", "c", "b", "d", "a", "c", "-o", "page"] =
      .ok argumentsOfTrees ∧
    (run aroundTrees
        ["--input-format", "json", "--no-config", "c", "b", "d", "a", "c", "-o", "page"]).Wrote
      (some "page") "two\none\ntwo\n" ∧
    (run aroundTrees
        ["--input-format", "json", "--no-config", "c", "b", "d", "a", "c", "-o", "page"]).status.code =
      1 ∧
    (runConvert aroundTrees (argumentsOfTrees.alone "a")).Wrote (some "page") "one\n" := by
  have hread : Arguments.read
      ["--input-format", "json", "--no-config", "c", "b", "d", "a", "c", "-o", "page"] =
      .ok argumentsOfTrees := rfl
  have hbegins : Begins aroundTrees argumentsOfTrees Converter.standard "" := ⟨rfl, rfl⟩
  obtain ⟨hwrote, hcode, halone⟩ :=
    run_writes_conversions hread rfl (by decide) hbegins fun _ => rfl
  refine ⟨hread, ?_, ?_, ?_⟩
  · have htext : String.join (argumentsOfTrees.paths.filterMap
        (piece? aroundTrees argumentsOfTrees Converter.standard "")) = "two\none\ntwo\n" := by
      decide +kernel
    rw [htext] at hwrote
    exact hwrote
  · rw [hcode]
    exact if_neg fun hall => hall "b" (by decide) (by decide +kernel)
  · exact ((halone "a" (by decide)).1 "one\n" (by decide +kernel)).1

end DefinitionLists.CommandLine
