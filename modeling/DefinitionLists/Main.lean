/-
Module: DefinitionLists.Main
Purpose: The program: looks at the working directory and the files that a run asks for, runs, and writes
  what comes of it.
Main exports: main
-/
import DefinitionLists.CommandLine.Run

open DefinitionLists CommandLine

/-- The fault that an error of the system means. -/
def faultOf : IO.Error → FileFault
  | .noFileOrDirectory _ _ _ => .missing
  | .inappropriateType _ _ _ => .isDirectory
  | error => .other (toString error)

/-- The text of some bytes, if they are text. -/
def textOf (bytes : ByteArray) : Except FileFault String :=
  match String.fromUTF8? bytes with
  | some text => .ok text
  | none => .error .notText

/-- All bytes that are left of a stream, after those that were read. -/
partial def readRest (stream : IO.FS.Stream) (before : ByteArray) : IO ByteArray := do
  let bytes ← stream.read 65536
  if bytes.isEmpty then return before else readRest stream (before ++ bytes)

/-- The text of a file. -/
def readText (path : String) : IO (Except FileFault String) := do
  try
    return textOf (← IO.FS.readBinFile path)
  catch error => return .error (faultOf error)

/-- The disk as it was when the files were looked at. -/
def diskOf (texts : List (String × Except FileFault String))
    (refusal outputRefusal : Option FileFault) : Disk where
  read path := (texts.lookup path).getD (.error .missing)
  isFile path := match texts.lookup path with
    | some (.ok _) => true
    | some (.error fault) => fault ≠ .missing && fault ≠ .isDirectory && fault ≠ .notDirectory
    | none => false
  isPresent path := match texts.lookup path with
    | some (.ok _) => true
    | some (.error fault) => fault ≠ .missing && fault ≠ .notDirectory
    | none => false
  refusal _ := refusal
  outputRefusal _ := outputRefusal

/-- Writes the file of an outcome, if it has one, and tells why that failed, if it did. -/
def writeFileOf (outcome : Outcome) : IO (Option FileFault) := do
  match outcome.file with
  | none => return none
  | some (path, content) =>
    try
      IO.FS.writeFile path content
      return none
    catch error => return some (faultOf error)

/-- Writes a text to standard output, and tells why that failed, if it did. -/
def printText (text : String) : IO (Option FileFault) := do
  try
    let stdout ← IO.getStdout
    stdout.putStr text
    stdout.flush
    return none
  catch error => return some (faultOf error)

/-- The working directory and those above it, the nearest first, unless the system cannot tell. -/
def workingDirectories : IO (Except FileFault (List String)) := do
  try
    let here := (← IO.currentDir).toString
    let names := (splitSlashes [] here.toList).filter (fun name => !name.isEmpty)
    return .ok (Path.ancestorTexts names)
  catch error => return .error (faultOf error)

/-- Runs the program and returns the number to exit with. -/
def main (arguments : List String) : IO UInt32 := do
  let directories ← workingDirectories
  let texts ← (neededPaths directories arguments).mapM (fun path => do return (path, ← readText path))
  let input ← if needsInput directories arguments then readRest (← IO.getStdin) .empty
    else pure .empty
  let attempt (refusal outputRefusal : Option FileFault) : Outcome :=
    run ⟨diskOf texts refusal outputRefusal, directories, textOf input⟩ arguments
  let planned := attempt none none
  let written := match ← writeFileOf planned with
    | none => planned
    | some fault => attempt (some fault) none
  let outcome := match ← printText (written.output ++ written.usage.getD "") with
    | none => written
    | some fault => attempt none (some fault)
  for line in outcome.errors do
    IO.eprintln line
  return outcome.status.code.toUInt32
