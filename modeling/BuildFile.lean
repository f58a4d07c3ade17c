import BuildFile.Main
import BuildFile.Proofs.Chunks.Nesting
import BuildFile.Proofs.Request.Stable
import BuildFile.Proofs.Chunks.Outline
import BuildFile.Proofs.Chunks.LineView
import BuildFile.Proofs.Grammar
import BuildFile.Proofs.Directive
import BuildFile.Proofs.NameLine
import BuildFile.Proofs.Edit.Lines
import BuildFile.Proofs.Edit.Shallow
import BuildFile.Proofs.Request.Frame
import BuildFile.Proofs.Request.ReadsBack
import BuildFile.Proofs.Request.Sequence
import BuildFile.Proofs.Request.Repeat
import BuildFile.Proofs.Edit.Distinct
import BuildFile.Proofs.Request.Commute
import BuildFile.Proofs.Request.Distinct
import BuildFile.Proofs.Request.Undo
import BuildFile.Proofs.Disk.Path
import BuildFile.Proofs.Disk.Write
import BuildFile.Proofs.FileFlow.Edit
import BuildFile.Proofs.Edit.Report
import BuildFile.Proofs.Request.Report
import BuildFile.Proofs.Disk.Growth
import BuildFile.Proofs.Disk.Parents
import BuildFile.Proofs.Disk.Atomic
import BuildFile.Proofs.FileFlow.Create
import BuildFile.Proofs.CommandLine.Arguments
import BuildFile.Proofs.CommandLine.Run
import BuildFile.Proofs.Item
import BuildFile.Proofs.MarkerLine
import BuildFile.Proofs.Edit.Collapse
import BuildFile.Proofs.Chunks.Locate
import BuildFile.Proofs.Edit.Placement
import BuildFile.Proofs.Request.Directives
import BuildFile.Proofs.Request.Inspection
import BuildFile.Proofs.Diff.Path
import BuildFile.Proofs.Diff.Moves
import BuildFile.Proofs.Diff.Blocks
import BuildFile.Proofs.Diff.Hunks
import BuildFile.Proofs.Diff.Patch
import BuildFile.Proofs.FileFlow.DryRun
