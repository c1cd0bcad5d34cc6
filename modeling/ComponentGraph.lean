import ComponentGraph.Analysis
import ComponentGraph.Attempt
import ComponentGraph.CommandLine.Arguments
import ComponentGraph.CommandLine.Request
import ComponentGraph.CommandLine.Session
import ComponentGraph.CommandLine.Terminal
import ComponentGraph.Discovery.Components
import ComponentGraph.Discovery.Walk
import ComponentGraph.Emission
import ComponentGraph.Failure
import ComponentGraph.FileSystem
import ComponentGraph.FileSystem.Disk
import ComponentGraph.FileSystem.Root
import ComponentGraph.Format
import ComponentGraph.Glob
import ComponentGraph.Graph.Degrees
import ComponentGraph.Graph.Dot
import ComponentGraph.Graph.Drawing
import ComponentGraph.Graph.Element
import ComponentGraph.Graph.Flatten
import ComponentGraph.Graph.Outline
import ComponentGraph.Ignore.Expression
import ComponentGraph.Ignore.Fault
import ComponentGraph.Ignore.Rules
import ComponentGraph.Ignore.Wildcard
import ComponentGraph.Json
import ComponentGraph.Keyed
import ComponentGraph.Main
import ComponentGraph.Markup.Block
import ComponentGraph.Markup.Cursor
import ComponentGraph.Markup.Element
import ComponentGraph.Markup.Fault
import ComponentGraph.Markup.Forest
import ComponentGraph.Markup.Tag
import ComponentGraph.Markup.Token
import ComponentGraph.Notice
import ComponentGraph.Path
import ComponentGraph.Path.FileName
import ComponentGraph.Preview.Pages
import ComponentGraph.Preview.Site
import ComponentGraph.Project
import ComponentGraph.Reference.Loading
import ComponentGraph.Reference.Tree
import ComponentGraph.Registry
import ComponentGraph.Settings.Config
import ComponentGraph.Settings.Resolution
import ComponentGraph.Tag.Kind
import ComponentGraph.Tag.Spelling
import ComponentGraph.Text.Blank
import ComponentGraph.Text.Bytes
import ComponentGraph.Text.Padding
import ComponentGraph.Text.Places
import ComponentGraph.Text.Split
import ComponentGraph.Toml.Document
import ComponentGraph.Toml.Numeral
import ComponentGraph.Toml.Quoted
import ComponentGraph.Toml.Token
import ComponentGraph.Toml.Value
import ComponentGraph.Work
import ComponentGraph.Proofs.Chains
import ComponentGraph.Proofs.Loading
import ComponentGraph.Proofs.Unfolding
import ComponentGraph.Proofs.Flattening
import ComponentGraph.Proofs.LoadedGraph
import ComponentGraph.Proofs.Elements
import ComponentGraph.Proofs.Grammar
import ComponentGraph.Proofs.Folding
import ComponentGraph.Proofs.Rendering
import ComponentGraph.Proofs.RoundTrip
import ComponentGraph.Proofs.Termination
import ComponentGraph.Proofs.EdgeEnds
import ComponentGraph.Proofs.ReadingOn
import ComponentGraph.Proofs.TemplateBlock
import ComponentGraph.Proofs.Agreement
import ComponentGraph.Proofs.WrittenPaths
import ComponentGraph.Proofs.Walking
import ComponentGraph.Proofs.PageAndViews
import ComponentGraph.Proofs.Spellings
import ComponentGraph.Proofs.RegisteredSpellings
import ComponentGraph.Proofs.NormalizedPaths
import ComponentGraph.Proofs.CycleWarnings
import ComponentGraph.Proofs.WalkedFiles
import ComponentGraph.Proofs.Positions
import ComponentGraph.Proofs.ReadingBytes
import ComponentGraph.Proofs.ClosingBytes
import ComponentGraph.Proofs.BlockBytes
import ComponentGraph.Proofs.ElementBytes
import ComponentGraph.Proofs.BrokenFiles
import ComponentGraph.Proofs.RegisteredFiles
import ComponentGraph.Proofs.AnalysedTrees
import ComponentGraph.Proofs.FileIdentity
import ComponentGraph.Proofs.LoadingAgain
import ComponentGraph.Proofs.CacheAccounts
import ComponentGraph.Proofs.VisitedFiles
import ComponentGraph.Proofs.RegisteredKeys
import ComponentGraph.Proofs.ExtendedTrees
import ComponentGraph.Proofs.FoldedTemplates
import ComponentGraph.Proofs.FrontMatter
import ComponentGraph.Proofs.WalkedDirectories
import ComponentGraph.Proofs.CountedDegrees
import ComponentGraph.Proofs.MatchedBlock
import ComponentGraph.Proofs.NumberedLabels
import ComponentGraph.Proofs.QuotedLabels
import ComponentGraph.Proofs.DotReading
import ComponentGraph.Proofs.OutlinedTrees
import ComponentGraph.Proofs.TwoShapes
import ComponentGraph.Proofs.FollowedPaths
import ComponentGraph.Proofs.FileTrees
import ComponentGraph.Proofs.EmittedFiles
import ComponentGraph.Proofs.AlignedTable
