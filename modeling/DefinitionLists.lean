import DefinitionLists.CommandLine.Arguments
import DefinitionLists.CommandLine.Run
import DefinitionLists.Conversion
import DefinitionLists.Definition.Cleanup
import DefinitionLists.Definition.Details
import DefinitionLists.Definition.Entry
import DefinitionLists.Definition.Formation
import DefinitionLists.Definition.Neighbours
import DefinitionLists.Disk
import DefinitionLists.ExitStatus
import DefinitionLists.Json
import DefinitionLists.Json.Token
import DefinitionLists.Main
import DefinitionLists.Markdown.Block
import DefinitionLists.Markdown.BlockStart
import DefinitionLists.Markdown.Content
import DefinitionLists.Markdown.Event
import DefinitionLists.Markdown.HtmlBlock
import DefinitionLists.Markdown.Inline
import DefinitionLists.Markdown.Line
import DefinitionLists.Markdown.Literal
import DefinitionLists.Markdown.RunningText
import DefinitionLists.Markdown.Tag
import DefinitionLists.Markdown.Target
import DefinitionLists.Marker
import DefinitionLists.Node
import DefinitionLists.Node.Action
import DefinitionLists.Node.Html
import DefinitionLists.Node.Json
import DefinitionLists.Node.Markdown
import DefinitionLists.Node.Reader
import DefinitionLists.Node.Visit
import DefinitionLists.Prenormalization
import DefinitionLists.Proofs.Adjacent
import DefinitionLists.Proofs.Cleaning.CutFragments
import DefinitionLists.Proofs.Cleaning.FirstItems
import DefinitionLists.Proofs.Cleaning.Sweep
import DefinitionLists.Proofs.CommandLine.Conversion
import DefinitionLists.Proofs.CommandLine.ExitCodes
import DefinitionLists.Proofs.Details.Changes
import DefinitionLists.Proofs.Details.Content
import DefinitionLists.Proofs.Details.Gathering
import DefinitionLists.Proofs.Details.ItemLines
import DefinitionLists.Proofs.Details.ListKinds
import DefinitionLists.Proofs.Details.Readings
import DefinitionLists.Proofs.Details.SplitOrder
import DefinitionLists.Proofs.Entries
import DefinitionLists.Proofs.Events.Documents
import DefinitionLists.Proofs.Events.Items
import DefinitionLists.Proofs.Events.Nesting
import DefinitionLists.Proofs.Events.TaskMarks
import DefinitionLists.Proofs.Events.Text
import DefinitionLists.Proofs.Faults
import DefinitionLists.Proofs.FencedCode
import DefinitionLists.Proofs.FilledItems
import DefinitionLists.Proofs.Fragments
import DefinitionLists.Proofs.Heads
import DefinitionLists.Proofs.Heads.Stages
import DefinitionLists.Proofs.HollowItems
import DefinitionLists.Proofs.Html.Composition
import DefinitionLists.Proofs.Html.Reading
import DefinitionLists.Proofs.Html.Rendering
import DefinitionLists.Proofs.Html.ShownText
import DefinitionLists.Proofs.Html.Terms
import DefinitionLists.Proofs.InDetails
import DefinitionLists.Proofs.InsertedLines
import DefinitionLists.Proofs.Json.Nesting
import DefinitionLists.Proofs.Json.Scan
import DefinitionLists.Proofs.KeptMarkup
import DefinitionLists.Proofs.Markdown.Extents
import DefinitionLists.Proofs.Markdown.FallsInto
import DefinitionLists.Proofs.Markdown.ItemsInLists
import DefinitionLists.Proofs.Markdown.LineStarts
import DefinitionLists.Proofs.Markdown.Lines
import DefinitionLists.Proofs.Markdown.Markups
import DefinitionLists.Proofs.Markdown.Nodes
import DefinitionLists.Proofs.Markdown.Positions
import DefinitionLists.Proofs.Markdown.StandAlone
import DefinitionLists.Proofs.Markers
import DefinitionLists.Proofs.Markers.Bytes
import DefinitionLists.Proofs.Neighbours.JoinedRuns
import DefinitionLists.Proofs.Neighbours.Orphans
import DefinitionLists.Proofs.Neighbours.SiblingLists
import DefinitionLists.Proofs.Neighbours.TextOrder
import DefinitionLists.Proofs.NoDefinitions
import DefinitionLists.Proofs.Node.Height
import DefinitionLists.Proofs.Node.Loose
import DefinitionLists.Proofs.Node.Member
import DefinitionLists.Proofs.Node.RoundTrip
import DefinitionLists.Proofs.Node.Tags
import DefinitionLists.Proofs.Node.Text
import DefinitionLists.Proofs.Outline
import DefinitionLists.Proofs.Outline.Formation
import DefinitionLists.Proofs.Outline.Stages
import DefinitionLists.Proofs.Positions
import DefinitionLists.Proofs.Prose
import DefinitionLists.Proofs.ReadBack
import DefinitionLists.Proofs.Rerun
import DefinitionLists.Proofs.Seeds
import DefinitionLists.Proofs.Seeds.Text
import DefinitionLists.Proofs.Segments
import DefinitionLists.Proofs.Settings.DisabledStages
import DefinitionLists.Proofs.Settings.Spellings
import DefinitionLists.Proofs.Unchanged
import DefinitionLists.Proofs.Visit
import DefinitionLists.Proofs.Visit.Calls
import DefinitionLists.Proofs.Visit.Course
import DefinitionLists.Proofs.Visit.Removals
import DefinitionLists.Proofs.Written.Definitions
import DefinitionLists.Proofs.Written.GroupDocuments
import DefinitionLists.Proofs.Written.Groups
import DefinitionLists.Proofs.Written.Paragraphs
import DefinitionLists.Settings
import DefinitionLists.Settings.Location
import DefinitionLists.Settings.Reader
import DefinitionLists.Stage
import DefinitionLists.Text.Blank
import DefinitionLists.Text.CaseFolding
import DefinitionLists.Text.Entity
import DefinitionLists.Text.Lines
import DefinitionLists.Text.Punctuation
import DefinitionLists.Text.Span
import DefinitionLists.Toml
