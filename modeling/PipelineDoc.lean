import PipelineDoc.Main
import PipelineDoc.Trace
import PipelineDoc.Proofs.Rank.Layering
import PipelineDoc.Proofs.Rank.Sweep
import PipelineDoc.Proofs.Layout.Engines
import PipelineDoc.Proofs.Text.Bytes
import PipelineDoc.Proofs.Lexical.Modes
import PipelineDoc.Proofs.Cursor.Access
import PipelineDoc.Proofs.Cursor.Scan
import PipelineDoc.Proofs.Grammar.Paths
import PipelineDoc.Proofs.Lexical.Tokens
import PipelineDoc.Proofs.Cursor.Statements
import PipelineDoc.Proofs.Cursor.References
import PipelineDoc.Proofs.Cursor.Declarations
import PipelineDoc.Proofs.Statement.Places
import PipelineDoc.Proofs.Cursor.Review
import PipelineDoc.Proofs.Cursor.Layout
import PipelineDoc.Proofs.Cursor.Positions
import PipelineDoc.Proofs.Cursor.Analysis
import PipelineDoc.Proofs.Graph.Flow
import PipelineDoc.Proofs.Graph.Dependencies
import PipelineDoc.Proofs.Graph.Modules
import PipelineDoc.Proofs.Graph.Runs
import PipelineDoc.Proofs.Review.Places
import PipelineDoc.Proofs.Lexical.Restart
import PipelineDoc.Proofs.Lexical.Nesting
import PipelineDoc.Proofs.Lexical.Visits
import PipelineDoc.Proofs.Declaration.Keywords
import PipelineDoc.Proofs.Text.Lines
import PipelineDoc.Proofs.Lexical.Lines
import PipelineDoc.Proofs.Grammar.Heads
import PipelineDoc.Proofs.Statement.Order
import PipelineDoc.Proofs.Statement.LineCalls
import PipelineDoc.Proofs.Statement.Hidden
import PipelineDoc.Proofs.Review.Lines
import PipelineDoc.Proofs.Review.Reports
import PipelineDoc.Proofs.Review.Modules
import PipelineDoc.Proofs.Review.Names
import PipelineDoc.Proofs.Declaration.Concatenation
import PipelineDoc.Proofs.Review.Concatenation
import PipelineDoc.Proofs.Comment.Readers
import PipelineDoc.Proofs.Comment.Documents
import PipelineDoc.Proofs.Comment.Review
import PipelineDoc.Proofs.Declaration.Braces
import PipelineDoc.Proofs.Graph.EdgeIds
import PipelineDoc.Proofs.Graph.InputPaths
import PipelineDoc.Proofs.Review.PlainLines
import PipelineDoc.Proofs.Review.Unbound
import PipelineDoc.Proofs.Rank.Cycles
import PipelineDoc.Proofs.Review.Collector
import PipelineDoc.Proofs.Review.Known
import PipelineDoc.Proofs.CommandLine.FileSystem
import PipelineDoc.Proofs.CommandLine.Runs
import PipelineDoc.Proofs.CommandLine.Effects
import PipelineDoc.Proofs.Grammar.Chains
import PipelineDoc.Proofs.Lexical.Partners
import PipelineDoc.Proofs.Lexical.Lexemes
import PipelineDoc.Proofs.Statement.Recognizers
import PipelineDoc.Proofs.Statement.Extents
import PipelineDoc.Proofs.Layout.Coordinates
import PipelineDoc.Proofs.Text.Positions
import PipelineDoc.Proofs.Review.Markers
import PipelineDoc.Proofs.Review.Balance
import PipelineDoc.Proofs.Statement.References
import PipelineDoc.Proofs.Lexical.Search
import PipelineDoc.Proofs.Statement.Restarts
import PipelineDoc.Proofs.Declaration.Runtime
import PipelineDoc.Proofs.Review.Duplicates
