import NckuOs.Lib.Transition
import NckuOs.Lib.Interleaving
import NckuOs.Lib.ByteMemory
import NckuOs.Lib.Bitmap
import NckuOs.Lib.RunLength
import NckuOs.Lib.Threads
import NckuOs.Lib.Words
import NckuOs.Lib.Decimal
import NckuOs.Lib.LoopNest
import NckuOs.Lib.Descriptors
import NckuOs.Lib.Lines
import NckuOs.Lib.Blocks
import NckuOs.Lib.Ring
import NckuOs.Lib.Buffered
import NckuOs.Lib.Refinement
import NckuOs.Lib.Streams
import NckuOs.Lib.Scan
import NckuOs.Lib.Atomic
import NckuOs.Lib.InPlace
import NckuOs.Lib.Channel
import NckuOs.Lib.Bisimulation
import NckuOs.Osfs.Core
import NckuOs.Osfs.Inode
import NckuOs.Osfs.Super
import NckuOs.Osfs.Dir
import NckuOs.Osfs.File
import NckuOs.Osfs.System
import NckuOs.Osfs.View
import NckuOs.Osfs.Invariant
import NckuOs.Osfs.Table
import NckuOs.Osfs.FileOps
import NckuOs.Osfs.Content
import NckuOs.Osfs.WritePlan
import NckuOs.Osfs.Write
import NckuOs.Osfs.Read
import NckuOs.Osfs.Namespace
import NckuOs.Osfs.Create
import NckuOs.Osfs.CreateInv
import NckuOs.Osfs.Reachable
import NckuOs.Osfs.Ownership
import NckuOs.Osfs.Names
import NckuOs.Osfs.FileContract
import NckuOs.Osfs.Atomicity
import NckuOs.Osfs.Holes
import NckuOs.Osfs.AllocRace
import NckuOs.Osfs.Iterate
import NckuOs.Osfs.WriteSpace
import NckuOs.Osfs.Mount
import NckuOs.Osfs.Extents
import NckuOs.Osfs.Headers
import NckuOs.Osfs.Sequential
import NckuOs.Osfs.Volume
import NckuOs.Osfs.Refined
import NckuOs.Osfs.Composition
import NckuOs.Osfs.Listing
import NckuOs.Ipc.Mailbox
import NckuOs.Ipc.Processes
import NckuOs.Ipc.Invariant
import NckuOs.Ipc.Preserved
import NckuOs.Ipc.Run
import NckuOs.Ipc.Delivery
import NckuOs.Ipc.Lines
import NckuOs.Ipc.MessageQueue
import NckuOs.Ipc.EndMarker
import NckuOs.Ipc.QueueRun
import NckuOs.Ipc.Flag
import NckuOs.Ipc.Mechanisms
import NckuOs.Ipc.Framing
import NckuOs.Ipc.Orphan
import NckuOs.Ipc.Parties
import NckuOs.Ipc.Sharing
import NckuOs.Ipc.Queues
import NckuOs.Ipc.QueueSharing
import NckuOs.Spin.Exclusion
import NckuOs.Spin.Programs
import NckuOs.Spin.Alike
import NckuOs.Spin.Ends
import NckuOs.Shell.Command
import NckuOs.Shell.RoundTrip
import NckuOs.Shell.Pipeline
import NckuOs.Shell.Capacity
import NckuOs.Shell.Stuck
import NckuOs.Shell.Commands
import NckuOs.Shell.ReadLine
import NckuOs.Shell.Arguments
import NckuOs.Shell.Dispatch
import NckuOs.Shell.Kept
import NckuOs.Shell.History
import NckuOs.Shell.PipeEnds
import NckuOs.Shell.Builtin
import NckuOs.Shell.Intact
import NckuOs.Shell.Output
import NckuOs.Shell.LoopSteps
import NckuOs.Shell.InputLines
import NckuOs.Shell.EndOfInput
import NckuOs.Shell.Flow
import NckuOs.Shell.Stages
import NckuOs.Shell.Dataflow
import NckuOs.Shell.Computes
import NckuOs.Shell.Composed
import NckuOs.Shell.Typed
import NckuOs.Shell.Pointers
import NckuOs.Shell.Represents
import NckuOs.Shell.Freed
import NckuOs.Shell.Leaks
import NckuOs.ProcLog.MyKernel
import NckuOs.ProcLog.Log
import NckuOs.ProcLog.Contract
import NckuOs.ProcLog.Logging
import NckuOs.ProcLog.Exclusive
import NckuOs.ProcLog.Program
import NckuOs.ProcLog.Builds
import NckuOs.ProcLog.Product
import NckuOs.ProcLog.Faults
import NckuOs.ProcLog.ThreadInfo
import NckuOs.ProcLog.ThreadPrint
import NckuOs.ProcLog.Overlap
import NckuOs.ProcLog.Calls
import NckuOs.Matrix.Parallel
import NckuOs.Matrix.Files
import NckuOs.Matrix.Programs
