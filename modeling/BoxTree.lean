import BoxTree.Build.Builder
import BoxTree.Command.Report
import BoxTree.Jobs.Manager
import BoxTree.Json.Reader
import BoxTree.Json.Schema
import BoxTree.Json.Writer
import BoxTree.Main
import BoxTree.Scene
import BoxTree.Proofs.Box.Faces
import BoxTree.Proofs.Partition.Summary
import BoxTree.Proofs.Partition.Stable
import BoxTree.Proofs.Partition.InPlace
import BoxTree.Proofs.Buffers.Parts
import BoxTree.Proofs.Growth.Moves
import BoxTree.Proofs.Statistics.Sums
import BoxTree.Proofs.Growth.Sound
import BoxTree.Proofs.Asking.Heeds
import BoxTree.Proofs.Growth.Deciding
import BoxTree.Proofs.Growth.Grows
import BoxTree.Proofs.Growth.Dealing
import BoxTree.Proofs.Growth.Performing
import BoxTree.Proofs.Growth.Sketch
import BoxTree.Proofs.Machine.Ledger
import BoxTree.Proofs.Machine.Steps
import BoxTree.Proofs.Machine.Tracks
import BoxTree.Proofs.Machine.Fuel
import BoxTree.Proofs.Machine.Runs
import BoxTree.Proofs.Build.Start
import BoxTree.Proofs.Chunks.Merging
import BoxTree.Proofs.Build.Gathering
import BoxTree.Proofs.Tree.Drawn
import BoxTree.Proofs.Tree.Finished
import BoxTree.Proofs.Build.Bounds
import BoxTree.Proofs.Tree.Preorder
import BoxTree.Proofs.Build.Schedule
import BoxTree.Proofs.Growth.Views
import BoxTree.Proofs.Build.Ownership
import BoxTree.Proofs.Asking.Polls
import BoxTree.Proofs.Growth.Room
import BoxTree.Proofs.Machine.Halting
import BoxTree.Proofs.Build.Halting
import BoxTree.Proofs.Build.Splits
import BoxTree.Proofs.Box.Areas
import BoxTree.Proofs.Build.Order
import BoxTree.Proofs.Growth.Splits
import BoxTree.Proofs.Growth.Depths
import BoxTree.Proofs.Build.Depths
import BoxTree.Proofs.Machine.Submissions
import BoxTree.Proofs.Tree.Counts
import BoxTree.Proofs.Build.Reports
import BoxTree.Proofs.Split.Alike
import BoxTree.Proofs.Split.Bins
import BoxTree.Proofs.Split.Ties
import BoxTree.Proofs.Growth.Matches
import BoxTree.Proofs.Growth.Twins
import BoxTree.Proofs.Growth.Threads
import BoxTree.Proofs.Growth.Pieces
import BoxTree.Proofs.Tree.Shapes
import BoxTree.Proofs.Machine.Failing
import BoxTree.Proofs.Build.Endings
import BoxTree.Proofs.Build.Pairs
import BoxTree.Proofs.Build.Parallelism
import BoxTree.Proofs.Build.Platforms
import BoxTree.Proofs.Build.Reordering
import BoxTree.Proofs.Build.Completion
import BoxTree.Proofs.Machine.Losses
import BoxTree.Proofs.Build.Losses
import BoxTree.Proofs.Machine.Counts
import BoxTree.Proofs.Build.Sessions
import BoxTree.Proofs.Split.Coincident
import BoxTree.Proofs.Growth.Halving
import BoxTree.Proofs.Build.Halving
import BoxTree.Proofs.Chunks.Relocation
import BoxTree.Proofs.Jobs.Events
import BoxTree.Proofs.Jobs.Waits
import BoxTree.Proofs.Jobs.Batches
import BoxTree.Proofs.Json.Texts
import BoxTree.Proofs.Json.Numerals
import BoxTree.Proofs.Json.Trees
import BoxTree.Proofs.Build.Saving
import BoxTree.Proofs.Box.Union
import BoxTree.Proofs.Groupings
import BoxTree.Proofs.Scalar.Rounding
import BoxTree.Proofs.Split.Merging
import BoxTree.Proofs.Split.First
import BoxTree.Proofs.Split.Places
import BoxTree.Proofs.Split.Boundaries
import BoxTree.Proofs.Split.Straying
import BoxTree.Proofs.Partition.Pieces
import BoxTree.Proofs.Partition.Pointers
import BoxTree.Proofs.Build.Histories
import BoxTree.Proofs.Scalar.Quotients
import BoxTree.Proofs.Tree.Costs
import BoxTree.Proofs.Build.Costs
import BoxTree.Proofs.Build.Tasks
import BoxTree.Proofs.Build.Extents
