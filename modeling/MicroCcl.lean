import MicroCcl.Network
import MicroCcl.Process
import MicroCcl.Fabric
import MicroCcl.Discipline
import MicroCcl.Runs
import MicroCcl.Rounds
import MicroCcl.Frame
import MicroCcl.Updates
import MicroCcl.History
import MicroCcl.Traces
import MicroCcl.Chunking
import MicroCcl.ReduceOps
import MicroCcl.RingIndex
import MicroCcl.AllreduceRing
import MicroCcl.Neighbours
import MicroCcl.RecursiveDoubling
import MicroCcl.XorPairing
import MicroCcl.DoublingMismatch
import MicroCcl.MinMax
import MicroCcl.Allgather
import MicroCcl.AllgatherMismatch
import MicroCcl.Broadcast
import MicroCcl.Sockets
import MicroCcl.Wire
import MicroCcl.Cursors
import MicroCcl.WireArray
import MicroCcl.Streams
import MicroCcl.Clocks
import MicroCcl.Bootstrap
import MicroCcl.Framing
import MicroCcl.Accept
import MicroCcl.Descriptors
import MicroCcl.Lifetime
import MicroCcl.Communicator
import MicroCcl.Devices
import MicroCcl.Handles
import MicroCcl.Ownership
import MicroCcl.EarlyReturn
import MicroCcl.Barrier
import MicroCcl.BarrierSafety
import MicroCcl.Programs
import MicroCcl.Completions
import MicroCcl.RingVolume
import MicroCcl.SizeGuards
import MicroCcl.RingMemory
import MicroCcl.Truncation
import MicroCcl.SerialReduce
import MicroCcl.Overflow
import MicroCcl.EarlyMessages
import MicroCcl.Benchmark
import MicroCcl.Lockstep
import MicroCcl.RingSteps
import MicroCcl.RingMismatch
import MicroCcl.Outcomes
import MicroCcl.BroadcastMismatch
import MicroCcl.ProgramMemory
import MicroCcl.IntegrationTests
import MicroCcl.Pingpong
import MicroCcl.Traffic
import MicroCcl.Flags
import MicroCcl.Arguments
import MicroCcl.Schedules
import MicroCcl.Termination
import MicroCcl.Csv
import MicroCcl.Groups
import MicroCcl.Report
