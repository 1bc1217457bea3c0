import ScaffCC.Arrange.Placement
import ScaffCC.Arrange.Trace
import ScaffCC.Braid.Critical
import ScaffCC.Braid.Dag
import ScaffCC.Braid.Distill
import ScaffCC.Braid.Dor
import ScaffCC.Braid.Event
import ScaffCC.Braid.Expand
import ScaffCC.Braid.Frame
import ScaffCC.Braid.Held
import ScaffCC.Braid.Leak
import ScaffCC.Braid.Loop
import ScaffCC.Braid.Mesh
import ScaffCC.Braid.Order
import ScaffCC.Braid.Orphan
import ScaffCC.Braid.Priority
import ScaffCC.Braid.Route
import ScaffCC.Braid.Tiles
import ScaffCC.Braid.Totals
import ScaffCC.CatState
import ScaffCC.Clone.Names
import ScaffCC.CriticalPath.Late
import ScaffCC.CriticalPath.Longest
import ScaffCC.CriticalPath.Lookup
import ScaffCC.CriticalPath.Time
import ScaffCC.DynRollup.Counts
import ScaffCC.DynRollup.Rounds
import ScaffCC.DynRollup.TripCount
import ScaffCC.Fallible.Fold
import ScaffCC.FlatQasm.Agree
import ScaffCC.FlatQasm.Flatten
import ScaffCC.FlatQasm.Print
import ScaffCC.FlatQasm.ReadBack
import ScaffCC.Flatten.Acyclic
import ScaffCC.Flatten.Inline
import ScaffCC.Flatten.Pass
import ScaffCC.Frequency.Count
import ScaffCC.Frequency.Hit
import ScaffCC.Frequency.Memoize
import ScaffCC.GenSimd.Budget
import ScaffCC.GenSimd.Calls
import ScaffCC.GenSimd.Coarse
import ScaffCC.GenSimd.Gate
import ScaffCC.GenSimd.Leaf
import ScaffCC.GenSimd.LeafRight
import ScaffCC.GenSimd.Local
import ScaffCC.GenSimd.Modular
import ScaffCC.GenSimd.Region
import ScaffCC.GenSimd.Steps
import ScaffCC.GenSimd.TDepth
import ScaffCC.IR.Classical
import ScaffCC.IR.Gate
import ScaffCC.IR.Module
import ScaffCC.IR.Names
import ScaffCC.InsertReverse.Found
import ScaffCC.InsertReverse.Printed
import ScaffCC.InsertReverse.Prototypes
import ScaffCC.InsertReverse.Script
import ScaffCC.Lpfs.Certified
import ScaffCC.Lpfs.Complete
import ScaffCC.Lpfs.Depend
import ScaffCC.Lpfs.Global
import ScaffCC.Lpfs.Graph
import ScaffCC.Lpfs.Invariant
import ScaffCC.Lpfs.Local
import ScaffCC.Lpfs.Longest
import ScaffCC.Lpfs.LongestPath
import ScaffCC.Lpfs.Moves
import ScaffCC.Lpfs.Rounds
import ScaffCC.Lpfs.Run
import ScaffCC.Lpfs.Schedule
import ScaffCC.Lpfs.Slots
import ScaffCC.Lpfs.Tracked
import ScaffCC.Memory.Bytes
import ScaffCC.Memory.Stream
import ScaffCC.OpenQasm.Declared
import ScaffCC.OpenQasm.Meaning
import ScaffCC.OpenQasm.Modes
import ScaffCC.OpenQasm.Names
import ScaffCC.OpenQasm.Pieces
import ScaffCC.OpenQasm.Print
import ScaffCC.OpenQasm.Refer
import ScaffCC.OpenQasm.Syntax
import ScaffCC.OpenQasm.Unrolled
import ScaffCC.Optimize.Access
import ScaffCC.Optimize.Exchange
import ScaffCC.Optimize.Flatten
import ScaffCC.Optimize.Listing
import ScaffCC.Optimize.Meaning
import ScaffCC.Optimize.OpGate
import ScaffCC.Optimize.Optimal
import ScaffCC.Optimize.ReadBack
import ScaffCC.Optimize.Restart
import ScaffCC.Pipeline.Compile
import ScaffCC.Pipeline.Resources
import ScaffCC.Pipeline.Written
import ScaffCC.Quantum.Circuit
import ScaffCC.Quantum.Diagonal
import ScaffCC.Quantum.Fourier
import ScaffCC.Quantum.Gate
import ScaffCC.Quantum.Hadamard
import ScaffCC.Quantum.Ket
import ScaffCC.Quantum.Operator
import ScaffCC.Quantum.Outcome
import ScaffCC.Quantum.Pauli
import ScaffCC.Quantum.Search
import ScaffCC.Quantum.Undo
import ScaffCC.Resource.Count
import ScaffCC.Resource.Critical
import ScaffCC.Resource.CriticalProfile
import ScaffCC.Resource.CriticalRight
import ScaffCC.Resource.CriticalStep
import ScaffCC.Resource.Width
import ScaffCC.Reverse.Denotation
import ScaffCC.Reverse.Inverse
import ScaffCC.Reverse.Kept
import ScaffCC.Reverse.Order
import ScaffCC.Reverse.Resolve
import ScaffCC.Reverse.Run
import ScaffCC.Reverse.Undo
import ScaffCC.Reverse.Visit
import ScaffCC.Reversible.Carry
import ScaffCC.Reversible.Circuit
import ScaffCC.Reversible.Register
import ScaffCC.Reversible.Undo
import ScaffCC.Rkqc.Assign
import ScaffCC.Rkqc.Bounds
import ScaffCC.Rkqc.GenRkqc
import ScaffCC.Rkqc.Lines
import ScaffCC.Rkqc.Minus
import ScaffCC.Rkqc.Plus
import ScaffCC.Rkqc.Times
import ScaffCC.RotLib.CharBits
import ScaffCC.RotLib.Codec
import ScaffCC.RotLib.Digits
import ScaffCC.RotLib.File
import ScaffCC.Rotations.Decompose
import ScaffCC.Sched.Alap
import ScaffCC.Sched.Asap
import ScaffCC.Sched.FindLp
import ScaffCC.Sched.Lpfs
import ScaffCC.Sched.LpfsInv
import ScaffCC.Sched.LpfsRight
import ScaffCC.Sched.Moves
import ScaffCC.Sched.Op
import ScaffCC.Sched.Rcp
import ScaffCC.Sched.RcpPick
import ScaffCC.Sched.RcpRight
import ScaffCC.Sched.Ready
import ScaffCC.Scheduling.Chain
import ScaffCC.Scheduling.Credit
import ScaffCC.Scheduling.Jobs
import ScaffCC.Scheduling.LastUse
import ScaffCC.Scheduling.Levels
import ScaffCC.Scheduling.Placement
import ScaffCC.Scheduling.Profile
import ScaffCC.Scheduling.Replay
import ScaffCC.Scheduling.Timing
import ScaffCC.Shors.Adder
import ScaffCC.Shors.Circuit
import ScaffCC.Shors.Divider
import ScaffCC.Shors.ModAdder
import ScaffCC.Shors.ModMul
import ScaffCC.Shors.Qft
import ScaffCC.SquareRoot.Mark
import ScaffCC.SquareRoot.Program
import ScaffCC.SquareRoot.Ring
import ScaffCC.SquareRoot.Search
import ScaffCC.SquareRoot.Square
import ScaffCC.Text.Decimal
import ScaffCC.Text.Lexer
import ScaffCC.Text.Marked
import ScaffCC.Text.Numeral
import ScaffCC.Text.Regex
import ScaffCC.Text.Replace
import ScaffCC.Toffoli.Denoted
import ScaffCC.Toffoli.Impl
import ScaffCC.Toffoli.Kept
import ScaffCC.Toffoli.Lowered
import ScaffCC.Toffoli.Replace
import ScaffCC.Transition.Counting
import ScaffCC.Transition.HeadMove
import ScaffCC.Transition.Loop
import ScaffCC.Transition.Recurrence
import ScaffCC.Transition.Search
import ScaffCC.Transition.Supply
import ScaffCC.VQE.Ansatz
