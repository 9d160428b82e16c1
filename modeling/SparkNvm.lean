import SparkNvm.Native.Pmemkv
import SparkNvm.Native.Index
import SparkNvm.Native.Store
import SparkNvm.Native.History
import SparkNvm.Native.Agreement
import SparkNvm.Native.Refinement
import SparkNvm.Native.Failure
import SparkNvm.Native.Clients
import SparkNvm.Native.Ownership
import SparkNvm.Native.Linearise
import SparkNvm.Native.Race
import SparkNvm.Storage.OutputStream
import SparkNvm.Lib.Int32
import SparkNvm.Storage.PmemBuffer
import SparkNvm.Storage.PmemRuns
import SparkNvm.Storage.PmemFlush
import SparkNvm.Native.Reopen
import SparkNvm.Storage.Handler
import SparkNvm.Storage.InputStream
import SparkNvm.Storage.ByteWrites
import SparkNvm.Storage.ManagedBuffer
import SparkNvm.Lib.Logged
import SparkNvm.Storage.BlockOutputStream
import SparkNvm.Storage.BlockBytes
import SparkNvm.Lib.Family
import SparkNvm.Shuffle.StreamArray
import SparkNvm.Shuffle.Writer
import SparkNvm.Shuffle.RoundTrip
import SparkNvm.Shuffle.Attempts
import SparkNvm.Shuffle.Manager
import SparkNvm.Lib.Combine
import SparkNvm.Shuffle.Sorter
import SparkNvm.Shuffle.MapSide
import SparkNvm.Lib.PriorityQueue
import SparkNvm.Shuffle.SpillReader
import SparkNvm.Shuffle.SpillRuns
import SparkNvm.Storage.DeviceBalance
import SparkNvm.Native.FreeAll
import SparkNvm.Storage.BlockIndex
import SparkNvm.Storage.IndexRace
import SparkNvm.Shuffle.BlockAccounting
import SparkNvm.Shuffle.Sizes
import SparkNvm.Shuffle.PartitionResult
import SparkNvm.Shuffle.SpillStreams
import SparkNvm.Shuffle.ReduceSide
import SparkNvm.Lib.Machine
import SparkNvm.Native.Crash
import SparkNvm.Native.Readers
import SparkNvm.Native.Snapshot
import SparkNvm.Shuffle.Job
import SparkNvm.Lib.Simulation
import SparkNvm.Native.Durable
import SparkNvm.Shuffle.SortJob
import SparkNvm.Storage.Lifecycle
import SparkNvm.Storage.Release
import SparkNvm.Shuffle.RacingJob
