/-
Module: DefinitionLists.Settings.Location
Purpose: Finding the configuration file for a directory, loading it, and writing a first one.
Main exports: Settings.fileName, Settings.discover?, SettingsFault, Settings.load, Settings.resolve,
  Settings.textToWrite
-/
import DefinitionLists.Disk
import DefinitionLists.Settings.Reader

namespace DefinitionLists

/-- Why settings cannot be loaded from a file. -/
inductive SettingsFault where
  | unreadable (path : String) (fault : FileFault)
  | malformed (path : String)
deriving Repr, Inhabited, DecidableEq

/-- What the fault says. -/
def SettingsFault.message : SettingsFault → String
  | .unreadable path fault => "Failed to read config file at " ++ path ++ ": " ++ fault.message
  | .malformed path => "Failed to parse config: " ++ path ++ ": not a configuration"

namespace Settings

/-- The name of configuration files. -/
def fileName : String := ".deflist.toml"

/-- The path of the configuration file in a directory. -/
def fileIn (directory : String) : String :=
  if directory.toList.getLast? = some '/' then directory ++ fileName else directory ++ "/" ++ fileName

/-- The first configuration file in some directories. -/
def discover? (disk : Disk) (directories : List String) : Option String :=
  (directories.map fileIn).find? disk.isFile

/-- The settings in a file. -/
def load (disk : Disk) (path : String) : Except SettingsFault Settings :=
  match disk.read path with
  | .ok text =>
    match read? text with
    | some settings => .ok settings
    | none => .error (.malformed path)
  | .error fault => .error (.unreadable path fault)

/-- The settings for a run: none from files if these are ignored, those of the given file if there is
one, and otherwise those of the first file in the directories. -/
def resolve (disk : Disk) (given : Option String) (ignoreFiles : Bool) (directories : List String) :
    Except SettingsFault Settings :=
  if ignoreFiles then .ok {}
  else match given with
    | some path => load disk path
    | none =>
      match discover? disk directories with
      | some path => load disk path
      | none => .ok {}

/-- What to write to make a file with the standard settings. Nothing if something stands there already
and is to be kept. -/
def textToWrite (disk : Disk) (path : String) (overwrite : Bool) : Except FileFault (Option String) :=
  if disk.isPresent path && !overwrite then .ok none
  else match disk.refusal path with
    | some fault => .error fault
    | none => .ok (some standardText)

end Settings

end DefinitionLists
