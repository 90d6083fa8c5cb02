import Marginalia.Document.Stored
import Marginalia.Path
import Marginalia.Settings.Stored
import Marginalia.Workspace.Scan
import Marginalia.Workspace.Transform
import Marginalia.CommandLine.Run
import Marginalia.Main
import Marginalia.Proofs.Text.Slice
import Marginalia.Proofs.Template.LineRange
import Marginalia.Proofs.Template.Lexeme
import Marginalia.Proofs.Outcome
import Marginalia.Proofs.Template.Argument
import Marginalia.Proofs.Template.Span
import Marginalia.Proofs.Template.Marks
import Marginalia.Proofs.Template.Remnant
import Marginalia.Proofs.Template.Rescan
import Marginalia.Proofs.Template.Tree
import Marginalia.Proofs.Template.Standing
import Marginalia.Proofs.Template.Substitution
import Marginalia.Proofs.Comment.DocLine
import Marginalia.Proofs.Dictionary
import Marginalia.Proofs.Document
import Marginalia.Proofs.Note.Written
import Marginalia.Proofs.RoundTrip
import Marginalia.Proofs.Tag.Joined
import Marginalia.Proofs.Note.Section
import Marginalia.Proofs.Comment.Below
import Marginalia.Proofs.Comment.Opening
import Marginalia.Proofs.Comment.Closing
import Marginalia.Proofs.Comment.Search
import Marginalia.Proofs.Comment.LineNumber
import Marginalia.Proofs.LineBreak
import Marginalia.Proofs.Note.Attribution
import Marginalia.Proofs.Note.Below
import Marginalia.Proofs.Comment.StarBlock
import Marginalia.Proofs.Tag.Trimmed
import Marginalia.Proofs.Note.Forms
import Marginalia.Proofs.Json.Escape
import Marginalia.Proofs.Json.RoundTrip
import Marginalia.Proofs.Datum
import Marginalia.Proofs.Document.Stored
import Marginalia.Proofs.FileTree.Follow
import Marginalia.Proofs.FileTree.Without
import Marginalia.Proofs.Path
import Marginalia.Proofs.Workspace.Walk
import Marginalia.Proofs.Workspace.Scan
import Marginalia.Proofs.Path.Components
import Marginalia.Proofs.Path.Below
import Marginalia.Proofs.Path.Generated
import Marginalia.Proofs.Path.Resolved
import Marginalia.Proofs.Workspace.Destination
import Marginalia.Proofs.Workspace.Way
import Marginalia.Proofs.Workspace.Sources
import Marginalia.Proofs.FileTree.Reordered
import Marginalia.Proofs.Workspace.ListingOrder
import Marginalia.Proofs.Comment.StyleChange
import Marginalia.Proofs.Comment.Form
import Marginalia.Proofs.Run
import Marginalia.Proofs.FileTree.Change
import Marginalia.Proofs.Workspace.Transform
import Marginalia.Proofs.CommandLine.Step
import Marginalia.Proofs.CommandLine.Transform
import Marginalia.Proofs.Toml
import Marginalia.Proofs.Comment.Place
import Marginalia.Proofs.Settings
import Marginalia.Proofs.Workspace.Stored
import Marginalia.Proofs.CommandLine.Scan
import Marginalia.Proofs.Template.Interleaved
import Marginalia.Proofs.Template.Pairing
import Marginalia.Proofs.Template.TopLevel
import Marginalia.Proofs.Template.Cutting
import Marginalia.Proofs.Comment.Slice
import Marginalia.Proofs.Template.LineTemplate
import Marginalia.Proofs.Text.Words
import Marginalia.Proofs.Tag.Grammar
import Marginalia.Proofs.Tag.Fields
import Marginalia.Proofs.Tag.Below
import Marginalia.Proofs.Note.MissingKey
import Marginalia.Proofs.Note.WellFormed
import Marginalia.Proofs.Comment.SingleChange
import Marginalia.Proofs.Note.OpeningTag
import Marginalia.Proofs.Workspace.Descent
import Marginalia.Proofs.Template.LineSearch
import Marginalia.Proofs.Note.Runs
import Marginalia.Proofs.Workspace.Generated
import Marginalia.Proofs.Workspace.LinkedFile
