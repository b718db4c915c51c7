import SolVendor.Action
import SolVendor.Cache.Concurrent
import SolVendor.Cache.ExitStatus
import SolVendor.Cache.Fetcher
import SolVendor.Cache.Git
import SolVendor.Cache.Storage
import SolVendor.CommandLine.Arguments
import SolVendor.CommandLine.Command
import SolVendor.Concurrency.Process
import SolVendor.Dependency.Basic
import SolVendor.Dependency.Pattern
import SolVendor.Dependency.Version
import SolVendor.Failure
import SolVendor.FileSystem.Basic
import SolVendor.FileSystem.Change
import SolVendor.FileSystem.Difference
import SolVendor.FileSystem.Lemmas
import SolVendor.FileSystem.Position
import SolVendor.FileSystem.Walk
import SolVendor.Graph.Basic
import SolVendor.Graph.Build
import SolVendor.Graph.Closure
import SolVendor.Host
import SolVendor.Import.Pattern
import SolVendor.Import.Resolve
import SolVendor.Import.Source
import SolVendor.Import.Statement
import SolVendor.Install.Export
import SolVendor.Install.Installation
import SolVendor.Install.Listing
import SolVendor.Install.Parallel
import SolVendor.Install.Resolution
import SolVendor.Main
import SolVendor.Path.Basic
import SolVendor.Path.Normal
import SolVendor.Path.Relative
import SolVendor.Project.Config
import SolVendor.Project.Root
import SolVendor.Proofs.Cache.Atomicity
import SolVendor.Proofs.Cache.Commands
import SolVendor.Proofs.Cache.Completion
import SolVendor.Proofs.Cache.Confinement
import SolVendor.Proofs.Cache.Contents
import SolVendor.Proofs.Cache.Delivery
import SolVendor.Proofs.Cache.Fetch
import SolVendor.Proofs.Cache.Frame
import SolVendor.Proofs.Cache.History
import SolVendor.Proofs.Cache.Integrity
import SolVendor.Proofs.Cache.Layout
import SolVendor.Proofs.Cache.Overlap
import SolVendor.Proofs.Cache.Plain
import SolVendor.Proofs.Cache.Serialization
import SolVendor.Proofs.Cache.Site
import SolVendor.Proofs.Cache.Slots
import SolVendor.Proofs.Cache.Stages
import SolVendor.Proofs.Cache.Steps
import SolVendor.Proofs.Cache.Tidy
import SolVendor.Proofs.Cache.Turns
import SolVendor.Proofs.CommandLine.Requests
import SolVendor.Proofs.CommandLine.Spelling
import SolVendor.Proofs.Concurrency.RelyGuarantee
import SolVendor.Proofs.Dependency.Grammar
import SolVendor.Proofs.Dependency.Key
import SolVendor.Proofs.Dependency.Reading
import SolVendor.Proofs.Dependency.Semantic
import SolVendor.Proofs.Dependency.Version
import SolVendor.Proofs.FileSystem.Below
import SolVendor.Proofs.FileSystem.Canonical
import SolVendor.Proofs.FileSystem.Effects
import SolVendor.Proofs.FileSystem.MakeDirs
import SolVendor.Proofs.FileSystem.Naming
import SolVendor.Proofs.FileSystem.Passage
import SolVendor.Proofs.FileSystem.Visiting
import SolVendor.Proofs.FileSystem.Walks
import SolVendor.Proofs.FileSystem.WellFormed
import SolVendor.Proofs.Graph.Agreement
import SolVendor.Proofs.Graph.Build
import SolVendor.Proofs.Graph.Closure
import SolVendor.Proofs.Graph.Endings
import SolVendor.Proofs.Graph.Expansion
import SolVendor.Proofs.Graph.Finding
import SolVendor.Proofs.Graph.Index
import SolVendor.Proofs.Graph.Induced
import SolVendor.Proofs.Graph.Query
import SolVendor.Proofs.Graph.Reachability
import SolVendor.Proofs.Graph.Writing
import SolVendor.Proofs.Host.Growing
import SolVendor.Proofs.Host.Keeping
import SolVendor.Proofs.Host.Planting
import SolVendor.Proofs.Host.Touching
import SolVendor.Proofs.Import.Directory
import SolVendor.Proofs.Import.Grammar
import SolVendor.Proofs.Import.Lines
import SolVendor.Proofs.Import.Preference
import SolVendor.Proofs.Import.Relative
import SolVendor.Proofs.Import.Written
import SolVendor.Proofs.Install.Cached
import SolVendor.Proofs.Install.Copying
import SolVendor.Proofs.Install.Destination
import SolVendor.Proofs.Install.DryRun
import SolVendor.Proofs.Install.Export
import SolVendor.Proofs.Install.InTurn
import SolVendor.Proofs.Install.Increments
import SolVendor.Proofs.Install.Landing
import SolVendor.Proofs.Install.Numbers
import SolVendor.Proofs.Install.Orders
import SolVendor.Proofs.Install.Plan
import SolVendor.Proofs.Install.Preservation
import SolVendor.Proofs.Install.Reports
import SolVendor.Proofs.Install.Respelling
import SolVendor.Proofs.Install.SelfContained
import SolVendor.Proofs.Install.Ways
import SolVendor.Proofs.Install.Writes
import SolVendor.Proofs.Path.Canonical
import SolVendor.Proofs.Path.Descent
import SolVendor.Proofs.Path.NormalForm
import SolVendor.Proofs.Path.Parent
import SolVendor.Proofs.Path.Pieces
import SolVendor.Proofs.Path.Point
import SolVendor.Proofs.Path.Shortest
import SolVendor.Proofs.Path.Unicode
import SolVendor.Proofs.Project.Root
import SolVendor.Proofs.Project.Settling
import SolVendor.Proofs.Report.Grammar
import SolVendor.Proofs.Report.Lossless
import SolVendor.Proofs.Report.Reader
import SolVendor.Proofs.Report.Written
import SolVendor.Proofs.Text.Encoding
import SolVendor.Proofs.Text.Language
import SolVendor.Proofs.Text.OsString
import SolVendor.Proofs.Text.Pattern
import SolVendor.Proofs.Text.Replacement
import SolVendor.Proofs.Tree.Discovery
import SolVendor.Proofs.Tree.Sources
import SolVendor.Report.Installation
import SolVendor.Report.Json
import SolVendor.Report.Listing
import SolVendor.Report.Styled
import SolVendor.Text.Blank
import SolVendor.Text.Decimal
import SolVendor.Text.Line
import SolVendor.Text.OsString
import SolVendor.Text.Pattern
import SolVendor.Text.Utf8
import SolVendor.Tree.Discovery
import SolVendor.Tree.Graph
