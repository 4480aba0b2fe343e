/-
Module: DefinitionLists.Settings.Reader
Purpose: Reading settings from the text of a configuration file, and the text of the file that states
  the standard settings.
Main exports: Settings.read?, Settings.standardText
-/
import DefinitionLists.Settings
import DefinitionLists.Toml

namespace DefinitionLists

namespace Settings

/-- A table or, in place of it, an array of its first values. -/
inductive Source where
  | members (members : Toml.Members)
  | values (values : List Toml)

/-- The members of a table, or the elements of an array. -/
def source? : Toml → Option Source
  | .table _ members => some (.members members)
  | .array elements => some (.values elements)
  | .tables elements => some (.values (elements.reverse.map (.table .header)))
  | _ => none

/-- Whether the value holds nothing. -/
def isEmptyCollection : Toml → Bool
  | .table _ members => members.isEmpty
  | .array elements => elements.isEmpty
  | _ => false

/-- A variant: its name, or a table with the name and an empty collection. -/
def variantOf? : Toml → Option Variant
  | .text name => Variant.ofName? name
  | .table _ [(name, value)] => if isEmptyCollection value then Variant.ofName? name else none
  | _ => none

/-- A list of names. -/
def namesOf? : Toml → Option (List String)
  | .array elements => elements.mapM (fun element =>
    match element with
    | .text name => some name
    | _ => none)
  | _ => none

/-- A truth value. -/
def truthOf? : Toml → Option Bool
  | .truth value => some value
  | _ => none

/-- Reads a value that may be missing. -/
def readOptional {α : Type} (read : Toml → Option α) (value : Option Toml) (missing : α) : Option α :=
  match value with
  | some value => read value
  | none => some missing

/-- The settings with the choice of stages that a value states: a variant, and the names of the
stages to disable under either of two keys. -/
def withStages? (settings : Settings) (value : Toml) : Option Settings := do
  let (variant, names) ← match ← source? value with
    | .members members =>
      if members.all (fun member => ["variant", "disable", "disabled"].contains member.1) &&
          !((members.lookup "disable").isSome && (members.lookup "disabled").isSome) then
        some (members.lookup "variant", (members.lookup "disable").or (members.lookup "disabled"))
      else none
    | .values values => some (values[0]?, values[1]?)
  let variant ← readOptional variantOf? variant settings.variant
  let names ← readOptional namesOf? names settings.disabled
  return { settings with variant, disabled := names.map normalizeKey }

/-- The settings with the dialect that a value states. -/
def withDialect? (settings : Settings) (value : Toml) : Option Settings := do
  let gfm ← match ← source? value with
    | .members members =>
      if members.all (fun member => member.1 == "gfm") then some (members.lookup "gfm") else none
    | .values values => some values[0]?
  return { settings with gfm := ← readOptional truthOf? gfm settings.gfm }

/-- The settings that a text states. What it does not mention keeps its standard value; there is
nothing else it may mention. -/
def read? (text : String) : Option Settings := do
  let members ← Toml.read? text
  if members.all (fun member => ["transform", "markdown"].contains member.1) then
    let settings : Settings := {}
    let settings ← readOptional (settings.withStages? ·) (members.lookup "transform") settings
    readOptional (settings.withDialect? ·) (members.lookup "markdown") settings
  else none

/-- The text of a configuration file that states the standard settings. -/
def standardText : String :=
  "# deflist configuration file

[transform]
# Pipeline variant: \"advanced\" (pre-normalizes source text, drops seed items)
# or \"basic\" (tree passes only)
variant = \"advanced\"

# Passes to skip, by name (see `deflist passes`)
disable = []

[markdown]
# Strikethrough and task list syntax
gfm = true
"

end Settings

end DefinitionLists
