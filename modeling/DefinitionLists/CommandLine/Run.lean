/-
Module: DefinitionLists.CommandLine.Run
Purpose: What a run of the program does: which inputs it converts, what it writes, and how it ends.
Main exports: Surroundings, Outcome, convertText, passesTable, run, neededPaths,
  needsInput
-/
import DefinitionLists.CommandLine.Arguments
import DefinitionLists.Conversion
import DefinitionLists.ExitStatus
import DefinitionLists.Node.Json
import DefinitionLists.Node.Reader
import DefinitionLists.Settings.Location

namespace DefinitionLists.CommandLine

/-- What a run finds around it. -/
structure Surroundings where
  disk : Disk
  /-- The working directory and those above it, the nearest first, unless the system cannot tell. -/
  directories : Except FileFault (List String)
  /-- What standard input holds, if that is text. -/
  input : Except FileFault String

/-- What a run comes to. -/
structure Outcome where
  status : ExitStatus
  output : String := ""
  /-- What is wrong, one line each. -/
  errors : List String := []
  /-- A file to write, by path and content. -/
  file : Option (String × String) := none
  /-- How to use the program, where that is asked for. -/
  usage : Option String := none
deriving Repr, Inhabited, DecidableEq

/-- A line that tells of a fault. -/
def errorLine (message : String) : String := "Error: " ++ message

/-- A run that a fault ends before it writes anything. -/
def Outcome.toolError (errors : List String) (message : String) : Outcome :=
  { status := .toolError, errors := errors ++ [errorLine message] }

/-- The version of the program. -/
def versionLine : String := "deflist 0.3.0\n"

/-- How to use the program. -/
def usageText : String :=
  "Usage: deflist [OPTIONS] [PATHS]...
       deflist init [--force]
       deflist passes

Options:
      --stdin                  Read the document from standard input
  -f, --format <FORMAT>        Output format: html, json
      --input-format <FORMAT>  Input format: markdown, json
      --source <PATH>          Markdown source that a JSON tree was parsed from
  -o, --output <PATH>          Write output to a file
  -c, --config <PATH>          Configuration file path
      --no-config              Ignore configuration files
      --variant <VARIANT>      Pipeline variant: basic, advanced
  -d, --disable <NAMES>        Disable passes (comma-separated)
  -v, --verbose                Show detailed output
  -q, --quiet                  Quiet mode
  -h, --help                   Print help
  -V, --version                Print version
"

/-- The text padded with spaces to that many characters. -/
def padded (width : Nat) (text : String) : String :=
  text ++ String.ofList (List.replicate (width - text.length) ' ')

/-- The row of a stage: its name, the variants that run it, and what it does. -/
def passRow (stage : Stage) : String :=
  let variants := (Variant.all.filter (·.runs stage)).map Variant.name
  padded 16 stage.name ++ " " ++ padded 16 (", ".intercalate variants) ++ " " ++
    stage.description ++ "\n"

/-- The rows of all stages that may be disabled. -/
def passesTable : String := String.join (Stage.optional.map passRow)

/-- What is written for a document. `source` is the text that the positions of a given tree refer
to. -/
def convertText (converter : Converter) (input : InputFormat) (output : OutputFormat)
    (source content : String) : Except ConversionFault String := do
  let tree ← match input with
    | .markdown => (converter.process content.toList).mapError .span
    | .json =>
      let tree ← (Node.read content).mapError .unreadable
      (converter.transform tree source.toList).mapError .span
  return match output with
    | .html => tree.toHtml
    | .json => tree.toJson.pretty ++ "\n"

/-- The inputs that can be read, by name, and a line for each that cannot. -/
def readInputs (disk : Disk) : List String → List (String × String) × List String
  | [] => ([], [])
  | path :: more =>
    let (inputs, errors) := readInputs disk more
    match disk.read path with
    | .ok content => ((path, content) :: inputs, errors)
    | .error fault => (inputs, errorLine (path ++ ": " ++ fault.message) :: errors)

/-- What the conversions write one after the other, and a line for each that failed. -/
def collect : List (String × Except ConversionFault String) → String × List String
  | [] => ("", [])
  | (name, result) :: more =>
    let (output, errors) := collect more
    match result with
    | .ok text => (text ++ output, errors)
    | .error fault => (output, errorLine (name ++ ": " ++ fault.message) :: errors)

/-- The end of a run that converts: writes the output of the inputs. `unread` holds the lines for
those that could not be read. -/
def writeOutput (disk : Disk) (target : Option String) (unread : List String)
    (results : List (String × Except ConversionFault String)) : Outcome :=
  let (output, failed) := collect results
  let errors := unread ++ failed
  let status := ExitStatus.ofConversion errors.isEmpty
  match target with
  | none =>
    match disk.outputRefusal output with
    | some fault => .toolError errors ("Failed to write output: " ++ fault.message)
    | none => { status, output, errors }
  | some path =>
    match disk.refusal path with
    | some fault => .toolError errors ("Failed to write " ++ path ++ ": " ++ fault.message)
    | none => { status, errors, file := some (path, output) }

/-- The converter that the arguments and the settings choose. There is none without a working directory,
also where no settings are looked for in it. -/
def chooseConverter (around : Surroundings) (arguments : Arguments) : Except String Converter := do
  let directories ← around.directories.mapError (fun fault =>
    "Failed to determine the working directory: " ++ fault.message)
  let settings ← (Settings.resolve around.disk arguments.config (arguments.has .noConfig)
    directories).mapError SettingsFault.message
  (settings.withOverrides arguments.variant arguments.disable).converter.mapError UnknownPass.message

/-- The text that the positions of given trees refer to. -/
def readSource (disk : Disk) : Option String → Except String String
  | none => .ok ""
  | some path =>
    (disk.read path).mapError (fun fault => "Failed to read source " ++ path ++ ": " ++ fault.message)

/-- Converts the inputs. -/
def runConvert (around : Surroundings) (arguments : Arguments) : Outcome :=
  let prepared : Except String (Converter × String) := do
    let converter ← chooseConverter around arguments
    return (converter, ← readSource around.disk arguments.source)
  match prepared with
  | .error message => .toolError [] message
  | .ok (converter, source) =>
    let job := convertText converter (arguments.inputFormat.getD .markdown)
      (arguments.format.getD .html) source
    if arguments.has .stdin || arguments.paths.isEmpty then
      match around.input with
      | .error fault => .toolError [] ("Failed to read standard input: " ++ fault.message)
      | .ok content =>
        writeOutput around.disk arguments.output [] (convertAll job [("<stdin>", content)])
    else
      let (inputs, unread) := readInputs around.disk arguments.paths
      writeOutput around.disk arguments.output unread (convertAll job inputs)

/-- Makes a configuration file in the working directory. -/
def runInit (disk : Disk) (force quiet : Bool) : Outcome :=
  match Settings.textToWrite disk Settings.fileName force with
  | .ok (some text) =>
    { status := .success
      output := if quiet then "" else "Created " ++ Settings.fileName ++ "\n"
      file := some (Settings.fileName, text) }
  | .ok none =>
    .toolError [] (Settings.fileName ++ " already exists. Use --force to overwrite it")
  | .error fault =>
    .toolError [] ("Failed to access file " ++ Settings.fileName ++ ": " ++ fault.message)

/-- Runs the program with arguments. -/
def run (around : Surroundings) (arguments : List String) : Outcome :=
  match Arguments.read arguments with
  | .error .help => { status := .success, usage := some usageText }
  | .error .version => { status := .success, output := versionLine }
  | .error .misuse => { status := .toolError }
  | .ok arguments =>
    match arguments.command with
    | .init force => runInit around.disk force (arguments.has .quiet)
    | .passes => { status := .success, output := passesTable }
    | .convert => runConvert around arguments

/-- The paths that a run may read. -/
def neededPaths (directories : Except FileFault (List String)) (arguments : List String) :
    List String :=
  match Arguments.read arguments with
  | .error _ => []
  | .ok arguments =>
    match arguments.command, directories with
    | .convert, .ok directories =>
      arguments.paths ++ arguments.source.toList ++ arguments.config.toList ++
        directories.map Settings.fileIn
    | .convert, .error _ => []
    | .init _, _ => [Settings.fileName]
    | .passes, _ => []

/-- Whether a run may read standard input. -/
def needsInput (directories : Except FileFault (List String)) (arguments : List String) : Bool :=
  match directories, Arguments.read arguments with
  | .ok _, .ok arguments =>
    arguments.command = .convert && (arguments.has .stdin || arguments.paths.isEmpty)
  | _, _ => false

end DefinitionLists.CommandLine
