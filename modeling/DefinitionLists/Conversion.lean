/-
Module: DefinitionLists.Conversion
Purpose: Converting documents: from Markdown or a given tree, through the stages that settings choose.
Main exports: Converter, Settings.converter, Converter.transform, Converter.process, ConversionFault,
  process, renderHtml, convertAll
-/
import DefinitionLists.Json.Token
import DefinitionLists.Node.Html
import DefinitionLists.Settings

namespace DefinitionLists

/-- Converts documents by stages in order. -/
structure Converter where
  /-- Whether documents have deletions and task marks. -/
  extended : Bool
  stages : List Stage
deriving Repr, Inhabited, DecidableEq

/-- The converter that settings choose. -/
def Settings.converter (settings : Settings) : Except UnknownPass Converter :=
  settings.stages.map (⟨settings.gfm, ·⟩)

namespace Converter

/-- The converter of the settings that nobody changed: all stages of the advanced variant. -/
def standard : Converter := ⟨true, Variant.advanced.stages⟩

/-- The converter without the stage that makes definition lists. -/
def withoutBuilder (converter : Converter) : Converter :=
  { converter with stages := converter.stages.filter (· ≠ .builder) }

/-- The tree that the stages make of a tree whose positions refer to `source`. -/
def transform (converter : Converter) (tree : Node) (source : List Char) : Except SpanFault Node :=
  (runStages converter.extended ⟨tree, source, false⟩ converter.stages).map Work.tree

/-- The tree that the stages make of a Markdown text. -/
def process (converter : Converter) (source : List Char) : Except SpanFault Node :=
  converter.transform (Node.ofMarkdown converter.extended source) source

end Converter

/-- Why a document was not converted. -/
inductive ConversionFault where
  | unknownPass (fault : UnknownPass)
  | span (fault : SpanFault)
  /-- The text of a tree cannot be read. -/
  | unreadable (fault : Json.Fault)
deriving Repr, Inhabited, DecidableEq

/-- What is wrong with a JSON text. -/
def Json.Fault.message : Json.Fault → String
  | .malformed => "malformed JSON"
  | .mismatched => "JSON that is no syntax tree"
  | .truncated => "unexpected end of JSON"

/-- What the fault says. -/
def ConversionFault.message : ConversionFault → String
  | .unknownPass fault => fault.message
  | .span fault => fault.message
  | .unreadable fault => "Failed to read or write a syntax tree: " ++ fault.message

/-- The tree of a Markdown text, converted by the settings. -/
def process (settings : Settings) (source : List Char) : Except ConversionFault Node :=
  match settings.converter with
  | .ok converter => (converter.process source).mapError .span
  | .error fault => .error (.unknownPass fault)

/-- The HTML of a Markdown text, converted by the settings. -/
def renderHtml (settings : Settings) (source : List Char) : Except ConversionFault String :=
  (process settings source).map Node.toHtml

/-- Does a job for each of some named texts, and returns what comes of it by name, in order. -/
def convertAll {α : Type} (job : String → α) (files : List (String × String)) :
    List (String × α) :=
  files.map (fun (name, content) => (name, job content))

end DefinitionLists
