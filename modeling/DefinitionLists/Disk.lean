/-
Module: DefinitionLists.Disk
Purpose: Files as the program sees them: what it may ask of a disk, and the directories above one.
Main exports: FileFault, FileFault.message, Disk, Path, Path.ancestorTexts, splitSlashes
-/

namespace DefinitionLists

/-- Why a file cannot be read or written. -/
inductive FileFault where
  | missing
  | isDirectory
  | notDirectory
  | notText
  /-- Any other cause, in the words of the system. -/
  | other (words : String)
deriving Repr, Inhabited, DecidableEq

/-- What the fault says. -/
def FileFault.message : FileFault → String
  | .missing => "No such file or directory (os error 2)"
  | .isDirectory => "Is a directory (os error 21)"
  | .notDirectory => "Not a directory (os error 20)"
  | .notText => "stream did not contain valid UTF-8"
  | .other words => words

/-- What the program asks about files, standard output among them. Each question about a file is about
a path as it is written. -/
structure Disk where
  /-- The text of a file. -/
  read : String → Except FileFault String
  isFile : String → Bool
  /-- Whether there is a file or a directory. -/
  isPresent : String → Bool
  /-- Why no file can be written, if none can. -/
  refusal : String → Option FileFault
  /-- Why a text cannot be written to standard output, if it cannot. -/
  outputRefusal : String → Option FileFault := fun _ => none

/-- The names from the root down to a file or directory. -/
abbrev Path := List String

namespace Path

/-- A path as it is written from the root. -/
def toText (path : Path) : String := "/" ++ "/".intercalate path

/-- A path and those of all directories above it, the nearest first, from the names bottom up. -/
def withAncestors : (backwards : List String) → List Path
  | [] => [[]]
  | name :: above => (name :: above).reverse :: withAncestors above

/-- A directory and all above it, the nearest first, as they are written. -/
def ancestorTexts (path : Path) : List String := (withAncestors path.reverse).map toText

end Path

/-- The parts of a text between slashes; `part` holds what was read of the first one, the last
character first. -/
def splitSlashes (part : List Char) : List Char → List String
  | [] => [String.ofList part.reverse]
  | c :: rest =>
    if c = '/' then String.ofList part.reverse :: splitSlashes [] rest else splitSlashes (c :: part) rest

end DefinitionLists
