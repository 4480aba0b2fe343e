/-
Module: DefinitionLists.CommandLine.Arguments
Purpose: Reading the arguments of the command line.
Main exports: Command, Arguments, Stop, Arguments.read
-/
import DefinitionLists.Settings

namespace DefinitionLists.CommandLine

/-- What is written for each document. -/
inductive OutputFormat where
  | html
  | json
deriving Repr, Inhabited, DecidableEq

/-- What documents are. -/
inductive InputFormat where
  | markdown
  | json
deriving Repr, Inhabited, DecidableEq

/-- What a run does. -/
inductive Command where
  | convert
  | init (force : Bool)
  | passes
deriving Repr, Inhabited, DecidableEq

/-- Options without a value. -/
inductive Switch where
  | stdin
  | noConfig
  | verbose
  | quiet
  | help
  | version
deriving Repr, Inhabited, DecidableEq

/-- Options with a value. -/
inductive Field where
  | format
  | inputFormat
  | source
  | output
  | config
  | variant
  | disable
deriving Repr, Inhabited, DecidableEq

/-- An option. -/
inductive Flag where
  | switch (switch : Switch)
  | field (field : Field)
deriving Repr, Inhabited, DecidableEq

/-- The option of a long name. -/
def Flag.ofName? : String → Option Flag
  | "stdin" => some (.switch .stdin)
  | "no-config" => some (.switch .noConfig)
  | "verbose" => some (.switch .verbose)
  | "quiet" => some (.switch .quiet)
  | "help" => some (.switch .help)
  | "version" => some (.switch .version)
  | "format" => some (.field .format)
  | "input-format" => some (.field .inputFormat)
  | "source" => some (.field .source)
  | "output" => some (.field .output)
  | "config" => some (.field .config)
  | "variant" => some (.field .variant)
  | "disable" => some (.field .disable)
  | _ => none

/-- The option of a letter. -/
def Flag.ofLetter? : Char → Option Flag
  | 'v' => some (.switch .verbose)
  | 'q' => some (.switch .quiet)
  | 'h' => some (.switch .help)
  | 'V' => some (.switch .version)
  | 'f' => some (.field .format)
  | 'o' => some (.field .output)
  | 'c' => some (.field .config)
  | 'd' => some (.field .disable)
  | _ => none

/-- What the arguments ask for. -/
structure Arguments where
  command : Command := .convert
  paths : List String := []
  /-- The options without a value that were given. -/
  switches : List Switch := []
  format : Option OutputFormat := none
  inputFormat : Option InputFormat := none
  source : Option String := none
  output : Option String := none
  config : Option String := none
  variant : Option Variant := none
  disable : List String := []
deriving Repr, Inhabited, DecidableEq

/-- Why there is nothing to run: help or the version is asked for, or the arguments are wrong. -/
inductive Stop where
  | help
  | version
  | misuse
deriving Repr, Inhabited, DecidableEq

/-- The parts of a text between commas; `part` holds what was read of the first one, the last
character first. -/
def splitCommas (part : List Char) : List Char → List String
  | [] => [String.ofList part.reverse]
  | c :: rest =>
    if c = ',' then String.ofList part.reverse :: splitCommas [] rest else splitCommas (c :: part) rest

namespace Arguments

/-- Whether an option without a value was given. -/
def has (arguments : Arguments) (switch : Switch) : Bool := arguments.switches.contains switch

/-- Sets a value that is not set yet. -/
def setOnce {α : Type} (old value : Option α) : Except Stop (Option α) :=
  match old, value with
  | none, some value => .ok (some value)
  | _, _ => .error .misuse

/-- A path, unless it is empty. -/
def pathOf? (value : String) : Option String := if value.isEmpty then none else some value

/-- The format of a name. -/
def outputFormatOf? : String → Option OutputFormat
  | "html" => some .html
  | "json" => some .json
  | _ => none

/-- The format of a name. -/
def inputFormatOf? : String → Option InputFormat
  | "markdown" => some .markdown
  | "json" => some .json
  | _ => none

/-- Takes an option without a value. Each may be given once. -/
def takeSwitch (arguments : Arguments) : Switch → Except Stop Arguments
  | .help => .error .help
  | .version => .error .version
  | switch =>
    if arguments.has switch then .error .misuse
    else .ok { arguments with switches := switch :: arguments.switches }

/-- Takes an option with its value. Only stages to disable may be given more than once. -/
def takeField (arguments : Arguments) (field : Field) (value : String) : Except Stop Arguments :=
  match field with
  | .format => (setOnce arguments.format (outputFormatOf? value)).map ({ arguments with format := · })
  | .inputFormat =>
    (setOnce arguments.inputFormat (inputFormatOf? value)).map ({ arguments with inputFormat := · })
  | .source => (setOnce arguments.source (pathOf? value)).map ({ arguments with source := · })
  | .output => (setOnce arguments.output (pathOf? value)).map ({ arguments with output := · })
  | .config => (setOnce arguments.config (pathOf? value)).map ({ arguments with config := · })
  | .variant => (setOnce arguments.variant (Variant.ofName? value)).map ({ arguments with variant := · })
  | .disable => .ok { arguments with disable := arguments.disable ++ splitCommas [] value.toList }

/-- Takes a path. -/
def takePath (arguments : Arguments) (path : String) : Except Stop Arguments :=
  if path.isEmpty then .error .misuse else .ok { arguments with paths := arguments.paths ++ [path] }

/-- Takes the letters of options that stand together. Returns the option among them, the last, that
takes the next argument for its value, if there is one. -/
def takeLetters (arguments : Arguments) : List Char → Except Stop (Arguments × Option Field)
  | [] => .ok (arguments, none)
  | c :: rest =>
    match Flag.ofLetter? c with
    | none => .error .misuse
    | some (.switch switch) =>
      match arguments.takeSwitch switch with
      | .ok arguments => takeLetters arguments rest
      | .error stop => .error stop
    | some (.field field) =>
      if rest.isEmpty then .ok (arguments, some field)
      else
        let value := if rest.head? = some '=' then rest.drop 1 else rest
        (arguments.takeField field (String.ofList value)).map (·, none)

/-- Takes an option by its long name, with its value if one is joined to it. Returns it if it takes
the next argument for its value. -/
def takeName (arguments : Arguments) (text : List Char) : Except Stop (Arguments × Option Field) :=
  let name := text.takeWhile (· ≠ '=')
  let value := text.drop name.length
  match Flag.ofName? (String.ofList name), value with
  | some (.switch switch), [] => (arguments.takeSwitch switch).map (·, none)
  | some (.field field), [] => .ok (arguments, some field)
  | some (.field field), _ :: value => (arguments.takeField field (String.ofList value)).map (·, none)
  | _, _ => .error .misuse

/-- The arguments, if no two of them exclude each other. -/
def finish (arguments : Arguments) : Except Stop Arguments :=
  if (arguments.has .stdin && !arguments.paths.isEmpty) ||
      (arguments.has .noConfig && arguments.config.isSome) ||
      (arguments.has .quiet && arguments.has .verbose) then
    .error .misuse
  else .ok arguments

/-- Reads what follows a command. Only the command that makes a configuration file has an option. -/
def readCommand (arguments : Arguments) (command : Command) : List String → Except Stop Arguments
  | [] => ({ arguments with command }).finish
  | ["--"] => ({ arguments with command }).finish
  | "--help" :: _ => .error .help
  | "-h" :: _ => .error .help
  | "--force" :: rest =>
    if command = .init false then readCommand arguments (.init true) rest else .error .misuse
  | _ => .error .misuse

/-- Reads what follows the command that asks for help: one command, or nothing. -/
def readHelp : List String → Stop
  | [] => .help
  | [command] => if ["init", "passes", "help"].contains command then .help else .misuse
  | _ => .misuse

/-- Whether the argument begins like an option. A lone hyphen does not. -/
def looksLikeOption (argument : String) : Bool :=
  match argument.toList with
  | '-' :: _ :: _ => true
  | _ => false

/-- Reads arguments. `awaiting` is the option that takes the next one for its value; `inPaths` tells
that the last one was a path, after which the name of a command is a path, too. -/
def readFrom (arguments : Arguments) (awaiting : Option Field) (inPaths : Bool) :
    List String → Except Stop Arguments
  | [] => if awaiting.isSome then .error .misuse else arguments.finish
  | argument :: rest =>
    match awaiting with
    | some field =>
      if looksLikeOption argument then .error .misuse
      else match arguments.takeField field argument with
        | .ok arguments => readFrom arguments none false rest
        | .error stop => .error stop
    | none =>
      if !inPaths && argument = "init" then arguments.readCommand (.init false) rest
      else if !inPaths && argument = "passes" then arguments.readCommand .passes rest
      else if !inPaths && argument = "help" then .error (readHelp rest)
      else
        match argument.toList with
        | ['-', '-'] =>
          match rest.foldlM takePath arguments with
          | .ok arguments => arguments.finish
          | .error stop => .error stop
        | '-' :: '-' :: name =>
          match arguments.takeName name with
          | .ok (arguments, awaiting) => readFrom arguments awaiting false rest
          | .error stop => .error stop
        | '-' :: c :: letters =>
          match arguments.takeLetters (c :: letters) with
          | .ok (arguments, awaiting) => readFrom arguments awaiting false rest
          | .error stop => .error stop
        | _ =>
          match arguments.takePath argument with
          | .ok arguments => readFrom arguments none true rest
          | .error stop => .error stop

/-- What the arguments of a command line ask for. -/
def read (arguments : List String) : Except Stop Arguments := readFrom {} none false arguments

end Arguments

end DefinitionLists.CommandLine
