import KeywordCompletion.About
import KeywordCompletion.Catalog
import KeywordCompletion.ClientMessage
import KeywordCompletion.CommandLine.Basic
import KeywordCompletion.CommandLine.Parser
import KeywordCompletion.CommandLine.Similarity
import KeywordCompletion.Completion.Basic
import KeywordCompletion.Completion.Item
import KeywordCompletion.Cut
import KeywordCompletion.Disk.Basic
import KeywordCompletion.Disk.Edit
import KeywordCompletion.Disk.Tree
import KeywordCompletion.Document
import KeywordCompletion.Environment
import KeywordCompletion.FileId
import KeywordCompletion.Frame
import KeywordCompletion.Import.Basic
import KeywordCompletion.Import.Candidate
import KeywordCompletion.Import.Reference
import KeywordCompletion.Import.Walk
import KeywordCompletion.Json.Basic
import KeywordCompletion.Json.Parser
import KeywordCompletion.Json.Printer
import KeywordCompletion.Keyword.Definition
import KeywordCompletion.Keyword.Filter
import KeywordCompletion.Keyword.Library
import KeywordCompletion.Keyword.Visible
import KeywordCompletion.LineView
import KeywordCompletion.Main
import KeywordCompletion.OpenDocuments
import KeywordCompletion.Path.Basic
import KeywordCompletion.Program
import KeywordCompletion.Progress
import KeywordCompletion.Protocol.Method
import KeywordCompletion.Protocol.Params
import KeywordCompletion.Protocol.Value
import KeywordCompletion.Region
import KeywordCompletion.Row.Basic
import KeywordCompletion.Row.Cell
import KeywordCompletion.Row.Kind
import KeywordCompletion.Row.Separator
import KeywordCompletion.Row.Token
import KeywordCompletion.Session
import KeywordCompletion.Settings.Basic
import KeywordCompletion.Settings.Patch
import KeywordCompletion.Source
import KeywordCompletion.SourceCache.Basic
import KeywordCompletion.SourceCache.Load
import KeywordCompletion.Span
import KeywordCompletion.Text.Basic
import KeywordCompletion.Text.Blank
import KeywordCompletion.Text.CaseData
import KeywordCompletion.Text.Lowercase
import KeywordCompletion.Text.Utf8
import KeywordCompletion.Url.Basic
import KeywordCompletion.Url.FilePath
import KeywordCompletion.Url.Host
import KeywordCompletion.Url.Parser
import KeywordCompletion.Url.Percent
import KeywordCompletion.Url.Punycode
import KeywordCompletion.Workspace.Basic
import KeywordCompletion.Workspace.Indexing
import KeywordCompletion.Proofs.SourceCache.Coherence
import KeywordCompletion.Proofs.SourceCache.Tasks
import KeywordCompletion.Proofs.SourceCache.Buffers
import KeywordCompletion.Proofs.SourceCache.Snapshots
import KeywordCompletion.Proofs.Import.Runs
import KeywordCompletion.Proofs.Import.Repetition
import KeywordCompletion.Proofs.Cut
import KeywordCompletion.Proofs.Disk.Walks
import KeywordCompletion.Proofs.Disk.Trees
import KeywordCompletion.Proofs.SourceCache.FixedDisk
import KeywordCompletion.Proofs.Completion.Caches
import KeywordCompletion.Proofs.Workspace.History
import KeywordCompletion.Proofs.Workspace.Closing
import KeywordCompletion.Proofs.Completion.Edits
import KeywordCompletion.Proofs.LineViews
import KeywordCompletion.Proofs.Row.Concatenation
import KeywordCompletion.Proofs.Row.Escapes
import KeywordCompletion.Proofs.Row.Grammar
import KeywordCompletion.Proofs.Row.Format
import KeywordCompletion.Proofs.Import.Search
import KeywordCompletion.Proofs.Keyword.Visible
import KeywordCompletion.Proofs.KeywordColumn
import KeywordCompletion.Proofs.Completion.Items
import KeywordCompletion.Proofs.Completion.Stages
import KeywordCompletion.Proofs.Import.Iteration
import KeywordCompletion.Proofs.Conversions
import KeywordCompletion.Proofs.Changes
import KeywordCompletion.Proofs.Text.Lowercase
import KeywordCompletion.Proofs.Completion.Order
import KeywordCompletion.Proofs.Completion.Typing
import KeywordCompletion.Proofs.SourceCache.Failures
import KeywordCompletion.Proofs.SourceCache.Limits
import KeywordCompletion.Proofs.Completion.NameColumn
import KeywordCompletion.Proofs.Completion.StaleRows
import KeywordCompletion.Proofs.Settings.Normal
import KeywordCompletion.Proofs.Settings.Merging
import KeywordCompletion.Proofs.Row.Respacing
import KeywordCompletion.Proofs.Workspace.Shadowing
import KeywordCompletion.Proofs.Row.Terminators
import KeywordCompletion.Proofs.Path.Meaning
import KeywordCompletion.Proofs.Path.Normalizing
import KeywordCompletion.Proofs.Disk.Ways
import KeywordCompletion.Proofs.Workspace.Indexing
import KeywordCompletion.Proofs.Row.Headers
import KeywordCompletion.Proofs.Row.Matches
import KeywordCompletion.Proofs.Import.References
