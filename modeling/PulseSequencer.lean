import PulseSequencer.Binary64.Arithmetic
import PulseSequencer.Binary64.Basic
import PulseSequencer.Binary64.Decimal
import PulseSequencer.Binary64.Numeral
import PulseSequencer.Bits
import PulseSequencer.Branch.Condition
import PulseSequencer.Branch.Graph
import PulseSequencer.Branch.Ladder
import PulseSequencer.Branch.Slot
import PulseSequencer.Branch.Tree
import PulseSequencer.Code.Listing
import PulseSequencer.Code.Machine
import PulseSequencer.Code.Word
import PulseSequencer.CommandLine
import PulseSequencer.Compiler.Branching
import PulseSequencer.Compiler.Compile
import PulseSequencer.Compiler.Frame
import PulseSequencer.Compiler.Options
import PulseSequencer.Compiler.Pulse
import PulseSequencer.Control.Register
import PulseSequencer.Control.Variable
import PulseSequencer.Fault
import PulseSequencer.Hardware.Basic
import PulseSequencer.Hardware.Check
import PulseSequencer.Json.Basic
import PulseSequencer.Json.Reader
import PulseSequencer.Json.Writer
import PulseSequencer.Main
import PulseSequencer.Proofs.Assembly
import PulseSequencer.Proofs.Attempt
import PulseSequencer.Proofs.Bits
import PulseSequencer.Proofs.Blocks
import PulseSequencer.Proofs.Board
import PulseSequencer.Proofs.Checks
import PulseSequencer.Proofs.Clean
import PulseSequencer.Proofs.Collisions
import PulseSequencer.Proofs.Confined
import PulseSequencer.Proofs.Decisions
import PulseSequencer.Proofs.Descent
import PulseSequencer.Proofs.Draft
import PulseSequencer.Proofs.Drafting
import PulseSequencer.Proofs.Drawing
import PulseSequencer.Proofs.Emission
import PulseSequencer.Proofs.Endings
import PulseSequencer.Proofs.Faults
import PulseSequencer.Proofs.Finish
import PulseSequencer.Proofs.Gaps
import PulseSequencer.Proofs.Graph
import PulseSequencer.Proofs.Groups
import PulseSequencer.Proofs.Growth
import PulseSequencer.Proofs.Held
import PulseSequencer.Proofs.HighTime
import PulseSequencer.Proofs.History
import PulseSequencer.Proofs.Ids
import PulseSequencer.Proofs.Inherit
import PulseSequencer.Proofs.JumpTimes
import PulseSequencer.Proofs.Ladder
import PulseSequencer.Proofs.Layout
import PulseSequencer.Proofs.Levels
import PulseSequencer.Proofs.Lines
import PulseSequencer.Proofs.Links
import PulseSequencer.Proofs.Merge
import PulseSequencer.Proofs.Number
import PulseSequencer.Proofs.Outline
import PulseSequencer.Proofs.Placement
import PulseSequencer.Proofs.Plain
import PulseSequencer.Proofs.Playback
import PulseSequencer.Proofs.Pulses
import PulseSequencer.Proofs.Reachability
import PulseSequencer.Proofs.Register
import PulseSequencer.Proofs.Resolution
import PulseSequencer.Proofs.Rows
import PulseSequencer.Proofs.Settled
import PulseSequencer.Proofs.Settling
import PulseSequencer.Proofs.Sharing
import PulseSequencer.Proofs.Slots
import PulseSequencer.Proofs.Sort
import PulseSequencer.Proofs.Stages
import PulseSequencer.Proofs.Static
import PulseSequencer.Proofs.Tidy
import PulseSequencer.Proofs.Timing
import PulseSequencer.Proofs.Union
import PulseSequencer.Proofs.Verdict
import PulseSequencer.Proofs.Walk
import PulseSequencer.Proofs.Word
import PulseSequencer.Report
import PulseSequencer.Schedule.Block
import PulseSequencer.Schedule.Draft
import PulseSequencer.Schedule.Instruction
import PulseSequencer.Schedule.TickLine
import PulseSequencer.Sequence.Basic
import PulseSequencer.Sequence.Check
import PulseSequencer.Sequence.Reader
import PulseSequencer.Sort
import PulseSequencer.Text.Blank
import PulseSequencer.Text.Collation
import PulseSequencer.Time.Point
import PulseSequencer.Time.Resolution
import PulseSequencer.Time.Tick
import PulseSequencer.Proofs.LaterEnd
import PulseSequencer.Proofs.Latest
import PulseSequencer.Proofs.MirroredEmission
import PulseSequencer.Proofs.MirroredPlacement
import PulseSequencer.Proofs.MirroredStages
import PulseSequencer.Proofs.Truncation
import PulseSequencer.Proofs.Codec
import PulseSequencer.Proofs.Fields
import PulseSequencer.Proofs.Ranges
import PulseSequencer.Proofs.Consistency
import PulseSequencer.Proofs.ListingOrder
import PulseSequencer.Proofs.Selection
import PulseSequencer.Proofs.Timetable
import PulseSequencer.Proofs.Overtaking
import PulseSequencer.Proofs.Clash
import PulseSequencer.Proofs.Order
import PulseSequencer.Proofs.TimingRules
import PulseSequencer.Proofs.Readback
import PulseSequencer.Proofs.Running
import PulseSequencer.Proofs.Trace
import PulseSequencer.Proofs.Quantization
import PulseSequencer.Proofs.Rounds
import PulseSequencer.Proofs.Edges
import PulseSequencer.Proofs.NodeCount
