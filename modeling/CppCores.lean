import CppCores.Lib.Machine
import CppCores.Lib.Amortized
import CppCores.Lib.Ghost
import CppCores.Lib.Logs
import CppCores.Lib.Deque
import CppCores.Lib.Ring
import CppCores.Lib.RingDeque
import CppCores.Lib.OrderedSet
import CppCores.Lib.Rounding
import CppCores.Lib.Blocks
import CppCores.Lib.Bits
import CppCores.Lib.CallDepth
import CppCores.Lib.Regions
import CppCores.Lib.Linked
import CppCores.Lib.Shares
import CppCores.Lib.Signed
import CppCores.Lib.Numerals
import CppCores.Lib.Decimal
import CppCores.Lib.Ctype
import CppCores.Lib.Masks
import CppCores.Lib.Extraction
import CppCores.Lib.Reversal
import CppCores.Lib.Ownership
import CppCores.Lib.Calls
import CppCores.Lib.Mixing
import CppCores.Lib.Loop
import CppCores.Lib.Search
import CppCores.Lib.Substitution
import CppCores.Lib.Cuts
import CppCores.Lib.Lexicographic
import CppCores.Lib.Tally
import CppCores.Lib.Cells
import CppCores.Concurrent.WorkStealing.Model
import CppCores.Concurrent.WorkStealing.Logs
import CppCores.Concurrent.WorkStealing.Inv
import CppCores.Concurrent.WorkStealing.Linear
import CppCores.Concurrent.WorkStealing.Progress
import CppCores.Concurrent.Spsc
import CppCores.Concurrent.Mpmc.Model
import CppCores.Concurrent.Mpmc.Inv
import CppCores.Concurrent.Mpmc.Steps
import CppCores.Concurrent.Mpmc.Condition
import CppCores.Concurrent.Mpmc.Sequential
import CppCores.Concurrent.FastMutex.Model
import CppCores.Concurrent.FastMutex.Exclusion
import CppCores.Concurrent.FastMutex.WakeUp
import CppCores.Concurrent.Locks.Model
import CppCores.Concurrent.Locks.Exclusion
import CppCores.Concurrent.ScopedLocker
import CppCores.Concurrent.ToftThreadPool.Model
import CppCores.Concurrent.ToftThreadPool.Worker
import CppCores.Concurrent.ToftThreadPool.Inv
import CppCores.Concurrent.ToftThreadPool.Tasks
import CppCores.Concurrent.ToftThreadPool.Progress
import CppCores.Concurrent.ToftThreadPool.WaitForIdle
import CppCores.Concurrent.ToftThreadPool.AddRace
import CppCores.Concurrent.SimpleThreadPool.Model
import CppCores.Concurrent.SimpleThreadPool.Queue
import CppCores.Concurrent.SimpleThreadPool.Shutdown
import CppCores.Concurrent.Sem
import CppCores.Concurrent.Sem.Permits
import CppCores.Concurrent.BaseThread
import CppCores.Coroutine.Uthread.Model
import CppCores.Coroutine.Uthread.Switching
import CppCores.Coroutine.Uthread.Completion
import CppCores.Coroutine.Uthread.Nested
import CppCores.Coroutine.Uthread.Bounds
import CppCores.Ds.Array
import CppCores.Ds.RingBuffer
import CppCores.Ds.RingBuffer.Size
import CppCores.Ds.RingBuffer.Resize
import CppCores.Ds.StringPiece.Model
import CppCores.Ds.StringPiece.Search
import CppCores.Ds.StringPiece.Copy
import CppCores.Ds.StringPiece.Trim
import CppCores.Ds.StringPiece.Order
import CppCores.Fiber.Timer.Model
import CppCores.Fiber.Timer.Inv
import CppCores.Fiber.Timer.Ops
import CppCores.Fiber.Timer.System
import CppCores.Fiber.Timer.Delivery
import CppCores.Fiber.Timer.Wake
import CppCores.Fiber.Timer.Expiry
import CppCores.Fiber.Timer.Answers
import CppCores.Fiber.Timer.Early
import CppCores.Fiber.Timer.Rollover
import CppCores.Fiber.Fibers.Model
import CppCores.Fiber.Fibers.LifeCycle
import CppCores.Fiber.Fibers.Count
import CppCores.Fiber.Fibers.Yield
import CppCores.Fiber.FiberThread
import CppCores.Meta.SimpleTuple
import CppCores.Utils.ByteArray.Model
import CppCores.Utils.ByteArray.Inv
import CppCores.Utils.ByteArray.Calls
import CppCores.Utils.ByteArray.Concat
import CppCores.Utils.ByteArray.Read
import CppCores.Utils.Base64.Model
import CppCores.Utils.Base64.Spec
import CppCores.Utils.Base64.Encode
import CppCores.Utils.Base64.Decode
import CppCores.Utils.Base64.Codec
import CppCores.Utils.Hex
import CppCores.Utils.Hash.Model
import CppCores.Utils.Hash.Words
import CppCores.Utils.Hash.Collisions
import CppCores.Utils.Hash.Overloads
import CppCores.Utils.Hash.Quick
import CppCores.Utils.Hash.Hmac
import CppCores.Utils.Hash.Wide
import CppCores.Utils.Hash.Digest
import CppCores.Utils.Encoding
import CppCores.Utils.FdGuard
import CppCores.Utils.FdFlags
import CppCores.Utils.Singleton
import CppCores.Utils.MemoryPoolLite.Impl
import CppCores.Utils.MemoryPoolLite.Usage
import CppCores.Utils.MemoryPoolLite.Allocator
import CppCores.Utils.MemoryPoolLite.Slots
import CppCores.Utils.MemoryPoolLite.Pools
import CppCores.Utils.MemoryPoolLite.Moves
import CppCores.Utils.MemoryPoolLite.Geometry
import CppCores.Utils.SimpleOstream
import CppCores.Utils.SimpleOstream.Malformed
import CppCores.Utils.JsonUtil
import CppCores.Utils.JsonUtil.Getters
import CppCores.Utils.StrUtils.Model
import CppCores.Utils.StrUtils.Replace
import CppCores.Utils.StrUtils.Split
import CppCores.Utils.StrUtils.Affixes
import CppCores.Utils.Ascii
import CppCores.Utils.StrUtils.Cases
import CppCores.Utils.Uuid
import CppCores.Utils.Uint128
import CppCores.Utils.Uint128.Compare
import CppCores.Utils.Uint128.Print
import CppCores.Utils.RetryPolicy
import CppCores.Utils.StackTrace
import CppCores.Utils.ProcessUtil
import CppCores.Utils.ProcessUtil.Pipe
import CppCores.Utils.ProcessUtil.Threads
import CppCores.Utils.ProcessUtil.Memory
import CppCores.Concurrent.WorkStealing.Init
