import LgNpu.Lib.AtomicMemory
import LgNpu.Lib.BoundedQueue
import LgNpu.Lib.Clocked
import LgNpu.Lib.CountedLoop
import LgNpu.Lib.LoopNest
import LgNpu.Lib.Fair
import LgNpu.Lib.ForLoop
import LgNpu.Lib.Region
import LgNpu.Lib.SerialArith
import LgNpu.Lib.Signed
import LgNpu.Lib.Stream
import LgNpu.Lib.Turns
import LgNpu.Lib.WriteLog
import LgNpu.Pkg
import LgNpu.Common.Fifo
import LgNpu.Common.SkidBuffer
import LgNpu.Memory
import LgNpu.Memory.ActBuffer
import LgNpu.Memory.Banked
import LgNpu.Memory.WeightPort
import LgNpu.System
import LgNpu.RowWise
import LgNpu.Pool.Correct
import LgNpu.Softmax.Laws
import LgNpu.Lnorm.Correct
import LgNpu.Serial
import LgNpu.Host.Protocol
import LgNpu.Mac.Flow
import LgNpu.Mac.Timing
import LgNpu.Core.Dispatch
import LgNpu.Dma.Transfer
import LgNpu.Dma.Runtime
import LgNpu.Host.Bus
import LgNpu.Dma.InShell
import LgNpu.Dma.Driver
import LgNpu.Dma.HostTraffic
import LgNpu.Dma.Exclusive
import LgNpu.Host.Submit
import LgNpu.Host.Transaction
import LgNpu.Gemm.Feed
import LgNpu.Conv.Walk
import LgNpu.Conv.Feed
import LgNpu.Vec.Exact
import LgNpu.Vec.Capture
import LgNpu.Vec.VersusGemm
import LgNpu.Core.Exclusion
import LgNpu.Core.ReadMonitors
import LgNpu.Mac.Ending
import LgNpu.Mac.Exact
import LgNpu.Gemm.Correct
import LgNpu.Conv.Correct
import LgNpu.Mac.Weight
import LgNpu.Mac.Stall
import LgNpu.Mac.Sequencer
import LgNpu.Mac.PostStream
import LgNpu.Mac.LoadStream
import LgNpu.Conv.AddrStream
import LgNpu.Conv.Guards
import LgNpu.Core.Finish
import LgNpu.Core.Course
import LgNpu.Core.Sequence
import LgNpu.Core.Drain
import LgNpu.Device.Idle
import LgNpu.Device.Irq
import LgNpu.Device.SoftReset
import LgNpu.Host.Answering
import LgNpu.Device.Ideal
import LgNpu.Device.Turns
import LgNpu.Device.Machine
import LgNpu.Device.Offload
import LgNpu.Device.Driven
import LgNpu.Device.Submissions
import LgNpu.Device.Returning
import LgNpu.Device.Boot
import LgNpu.Sw.RoundTrip
import LgNpu.Sw.Layout
import LgNpu.Tb.Reference
import LgNpu.Tb.Mac
import LgNpu.Tb.Harness
import LgNpu.Tb.Programs
import LgNpu.Tb.MacTests
import LgNpu.Tb.Rows
import LgNpu.Tb.RowTests
import LgNpu.Tb.VecTests
import LgNpu.Tb.PoolTests
import LgNpu.Device.Calls
import LgNpu.Device.Waiting
import LgNpu.Sw.Product
