import DocCoverage.Command.Execute
import DocCoverage.Proofs.Locality.Outline
import DocCoverage.Proofs.Outline.Cuts
import DocCoverage.Proofs.Run.Incremental
import DocCoverage.Proofs.Scan.Partition
import DocCoverage.Proofs.Sketch.Record
import DocCoverage.Proofs.Report.Merging
import DocCoverage.Proofs.Run.Failure
import DocCoverage.Proofs.Outline.Walk
import DocCoverage.Proofs.Outline.Coverage
import DocCoverage.Proofs.Outline.Levels
import DocCoverage.Proofs.Outline.Counts
import DocCoverage.Proofs.Outline.Order
import DocCoverage.Proofs.Outline.Warnings
import DocCoverage.Proofs.Outline.Collapsing
import DocCoverage.Proofs.Run.Checking
import DocCoverage.Proofs.Scan.Unterminated
import DocCoverage.Proofs.Comments.Declared
import DocCoverage.Proofs.Store.Histories
import DocCoverage.Proofs.Scan.Resuming
import DocCoverage.Proofs.Scan.Literals
import DocCoverage.Proofs.Scan.Blocks
import DocCoverage.Proofs.Grammar.Accepts
import DocCoverage.Proofs.Scan.Adjacent
import DocCoverage.Proofs.Sketch.Lambda
import DocCoverage.Proofs.Sketch.Parameters
import DocCoverage.Proofs.Outline.Headers
import DocCoverage.Proofs.Outline.Attributes
import DocCoverage.Proofs.Grammar.Found
import DocCoverage.Proofs.Report.Verdicts
import DocCoverage.Proofs.Report.Objects
import DocCoverage.Proofs.Text.Normal
import DocCoverage.Proofs.Report.LineRanges
import DocCoverage.Proofs.Discovery.Links
import DocCoverage.Proofs.Discovery.Exclusions
