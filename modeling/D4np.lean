import D4np.Lib.TransitionSystem
import D4np.Lib.Word
import D4np.Core.Size
import D4np.Core.Allocator
import D4np.Mem.Arena
import D4np.Lib.Chain
import D4np.Lib.ByteMem
import D4np.Mem.Pool
import D4np.Ds.LinkedList
import D4np.Lib.Probing
import D4np.Ds.Hashmap
import D4np.Ds.HashmapTable
import D4np.Ds.HashmapInv
import D4np.Ds.HashmapSpec
import D4np.Ds.HashmapRun
import D4np.Ds.HashmapArguments
import D4np.Ds.RingBuffer
import D4np.Concurrency.AtomicQueue
import D4np.Concurrency.ThreadPool
import D4np.Concurrency.ThreadPoolInv
import D4np.Concurrency.ThreadPoolRun
import D4np.Lib.FileSystem
import D4np.Io.File
import D4np.Io.FileCall
import D4np.Concurrency.ThreadPoolShutdown
import D4np.Ds.RingBufferCount
import D4np.Ds.HashmapChurn
import D4np.Concurrency.Semaphore
import D4np.Sys.Log
import D4np.Core.Ledger
import D4np.Ds.Vector
import D4np.Ds.StringBuilder
import D4np.Ds.Release
import D4np.Io.FileRead
import D4np.Lib.ByteCopy
import D4np.Io.Path
import D4np.Str.StrView
import D4np.Str.Parse
import D4np.Str.Interchange
import D4np.Ds.HashmapStride
import D4np.Io.FileFrame
import D4np.Io.FileTrim
import D4np.Io.FileRegister
import D4np.Lib.WordMix
import D4np.Sys.Hash
import D4np.Sys.Uuid
import D4np.Sys.ErrorContext
import D4np.Io.FileDurable
import D4np.Io.FileFields
import D4np.Ds.Limits
import D4np.Lib.Potential
import D4np.Concurrency.ThreadPoolLiveness
import D4np.Concurrency.ThreadPoolMemory
import D4np.Lib.Linearizability
import D4np.Concurrency.SemaphoreAtomic
import D4np.Concurrency.SemaphoreLiveness
import D4np.Lib.Fifo
import D4np.Ds.RingBufferFifo
import D4np.Concurrency.AtomicQueueFifo
import D4np.Concurrency.AtomicQueueReuse
import D4np.Ds.Amortized
import D4np.Lib.PosixSem
import D4np.Concurrency.NamedSemaphore
import D4np.Concurrency.NamedSemaphoreEpoch
import D4np.Lib.Malloc
import D4np.Core.DefaultAllocator
import D4np.Ds.SharedHeap
import D4np.Ds.HashmapPointers
