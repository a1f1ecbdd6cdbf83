import ThriftLayout.Command.Launch
import ThriftLayout.Main
import ThriftLayout.Proofs.Acceptance
import ThriftLayout.Proofs.Command.Modes
import ThriftLayout.Proofs.Config.Updates
import ThriftLayout.Proofs.Content
import ThriftLayout.Proofs.Document.Derivations
import ThriftLayout.Proofs.Document.Lexemes
import ThriftLayout.Proofs.Document.LineNumbers
import ThriftLayout.Proofs.Document.Phrases
import ThriftLayout.Proofs.Document.Progress
import ThriftLayout.Proofs.Document.Regions
import ThriftLayout.Proofs.Editor.Answers
import ThriftLayout.Proofs.Editor.Changes
import ThriftLayout.Proofs.Editor.Framing
import ThriftLayout.Proofs.Editor.Snapshots
import ThriftLayout.Proofs.Editor.TextEdits
import ThriftLayout.Proofs.Layout.Agreement
import ThriftLayout.Proofs.Layout.Alignment
import ThriftLayout.Proofs.Layout.AutoCollections
import ThriftLayout.Proofs.Layout.Code
import ThriftLayout.Proofs.Layout.CodeBlocks
import ThriftLayout.Proofs.Layout.CodeLines
import ThriftLayout.Proofs.Layout.CommentLines
import ThriftLayout.Proofs.Layout.FlatGroups
import ThriftLayout.Proofs.Layout.Levels
import ThriftLayout.Proofs.Layout.Order
import ThriftLayout.Proofs.Layout.Replaying
import ThriftLayout.Proofs.Layout.Rereading
import ThriftLayout.Proofs.Layout.Resuming
import ThriftLayout.Proofs.Layout.Separators
import ThriftLayout.Proofs.Layout.SettledSpacing
import ThriftLayout.Proofs.Layout.StableComments
import ThriftLayout.Proofs.Layout.StableConsts
import ThriftLayout.Proofs.LineEndings
import ThriftLayout.Proofs.Safety
import ThriftLayout.Proofs.Token.LineBreaks
import ThriftLayout.Proofs.Token.Spacing
