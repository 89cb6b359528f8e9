import Regraft.Change
import Regraft.Command.Options
import Regraft.Command.Run
import Regraft.Conflict
import Regraft.Digest.Sha256
import Regraft.Fault
import Regraft.Files.Attempt
import Regraft.Files.Fault
import Regraft.Files.Path
import Regraft.Files.Sandbox
import Regraft.Files.Script
import Regraft.Files.Tree
import Regraft.Guard.Segment
import Regraft.Guard.Stock
import Regraft.Guard.Tag
import Regraft.Json.Basic
import Regraft.Json.Reader
import Regraft.Json.Writer
import Regraft.Main
import Regraft.Match.Placement
import Regraft.Match.Scale
import Regraft.Match.Score
import Regraft.Match.Selection
import Regraft.Match.Similarity
import Regraft.Number.Binary64
import Regraft.Number.Decimal
import Regraft.Number.Digits
import Regraft.Number.Numeral
import Regraft.Number.Reading
import Regraft.Policy.Config
import Regraft.Policy.Facts
import Regraft.Policy.Predicate
import Regraft.Policy.RuleSet
import Regraft.Policy.Scope
import Regraft.Policy.Variable
import Regraft.Record.Artifact
import Regraft.Record.Basic
import Regraft.Record.Build
import Regraft.Record.Moment
import Regraft.Run.Plan
import Regraft.Run.Process
import Regraft.Run.Session
import Regraft.Run.Summary
import Regraft.Settings.Basic
import Regraft.Settings.Build
import Regraft.Settings.Node
import Regraft.Settings.Reader
import Regraft.Settings.Shown
import Regraft.Splice.Apply
import Regraft.Splice.Content
import Regraft.Splice.InPlace
import Regraft.Splice.Render
import Regraft.Store.Basic
import Regraft.Store.Key
import Regraft.Table
import Regraft.Text.Basic
import Regraft.Text.Buffer
import Regraft.Text.Bytes
import Regraft.Text.Case
import Regraft.Text.CodePoint
import Regraft.Text.Comment
import Regraft.Text.Control
import Regraft.Text.Glob
import Regraft.Text.Shown
import Regraft.Text.Slug
import Regraft.Proofs.Match.Feasible
import Regraft.Proofs.Match.Layer
import Regraft.Proofs.Match.Optimum
import Regraft.Proofs.Guard.Mark
import Regraft.Proofs.Guard.Form
import Regraft.Proofs.Guard.Mentions
import Regraft.Proofs.Guard.Layout
import Regraft.Proofs.Guard.Pairing
import Regraft.Proofs.Guard.Grammar
import Regraft.Proofs.Guard.Stock
import Regraft.Proofs.Splice.Weave
import Regraft.Proofs.Guard.Recomment
import Regraft.Proofs.Guard.Stray
import Regraft.Proofs.Record.Guards
import Regraft.Proofs.Splice.Clear
import Regraft.Proofs.Match.Anchor
import Regraft.Proofs.Record.Anchors
import Regraft.Proofs.Record.Cycle
import Regraft.Proofs.Text.Buffer
import Regraft.Proofs.Guard.Written
import Regraft.Proofs.Splice.Content
import Regraft.Proofs.Files.Tree
import Regraft.Proofs.Change
import Regraft.Proofs.Record.Versions
import Regraft.Proofs.Match.Choice
import Regraft.Proofs.Number.Digits
import Regraft.Proofs.Json.Texts
import Regraft.Proofs.Json.Reading
import Regraft.Proofs.Record.Moment
import Regraft.Proofs.Record.Artifact
import Regraft.Proofs.Store.Key
import Regraft.Proofs.Files.Growth
import Regraft.Proofs.Store.Appending
import Regraft.Proofs.Store.Holdings
import Regraft.Proofs.Store.History
import Regraft.Proofs.Run.Plan
import Regraft.Proofs.Store.Numbering
import Regraft.Proofs.Store.Regenerate
import Regraft.Proofs.Store.ReadBack
import Regraft.Proofs.Splice.Planned
import Regraft.Proofs.Upgrade
import Regraft.Proofs.Store.UpToDate
import Regraft.Proofs.Json.Whole
import Regraft.Proofs.Record.Whole
import Regraft.Proofs.Splice.Sources
import Regraft.Proofs.Files.Fit
import Regraft.Proofs.Store.Faults
import Regraft.Proofs.Store.Copies
import Regraft.Proofs.Store.Distinct
import Regraft.Proofs.Run.Effect
import Regraft.Proofs.Run.Isolation
import Regraft.Proofs.Policy.Folding
import Regraft.Proofs.Policy.Containment
import Regraft.Proofs.Policy.Resolving
import Regraft.Proofs.Policy.Chain
import Regraft.Proofs.Policy.Reading
import Regraft.Proofs.Policy.Gathering
import Regraft.Proofs.Files.Closed
import Regraft.Proofs.Files.Mirror
import Regraft.Proofs.Files.DryRun
import Regraft.Proofs.Files.Standing
import Regraft.Proofs.Files.Marks
import Regraft.Proofs.Files.Interleaved
import Regraft.Proofs.Run.Desk
import Regraft.Proofs.Run.Sharing
import Regraft.Proofs.Run.Tracking
import Regraft.Proofs.Run.Reports
import Regraft.Proofs.Run.ReportNames
import Regraft.Proofs.Run.Processing
import Regraft.Proofs.Run.AnyOrder
import Regraft.Proofs.Fallible
import Regraft.Proofs.Policy.References
import Regraft.Proofs.Policy.Origins
import Regraft.Proofs.Policy.Declared
import Regraft.Proofs.Policy.Destination
import Regraft.Proofs.Policy.Flattening
import Regraft.Proofs.Run.Inside
import Regraft.Proofs.Run.Unmentioned
import Regraft.Proofs.Splice.Simultaneous
import Regraft.Proofs.Text.Reread
import Regraft.Proofs.Text.Slug
import Regraft.Proofs.Splice.Reread
import Regraft.Proofs.Splice.InPlace
import Regraft.Proofs.Guard.Neighbours
import Regraft.Proofs.Guard.Provenance
import Regraft.Proofs.Text.Boundaries
import Regraft.Proofs.Conflict
import Regraft.Proofs.Match.NearMiss
import Regraft.Proofs.Splice.Again
import Regraft.Proofs.Match.Tolerance
import Regraft.Proofs.Match.Loosening
import Regraft.Proofs.Store.Settled
import Regraft.Proofs.Policy.Writing
import Regraft.Proofs.Policy.Expansion
import Regraft.Proofs.Policy.Combining
import Regraft.Proofs.Settings.Layers
import Regraft.Proofs.Settings.Draft
import Regraft.Proofs.Settings.Spoiled
import Regraft.Proofs.Settings.Escapes
import Regraft.Proofs.Settings.Values
import Regraft.Proofs.Settings.Merging
import Regraft.Proofs.Settings.Layered
import Regraft.Proofs.Text.SlugForm
