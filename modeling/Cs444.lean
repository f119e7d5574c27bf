import Cs444.Lib.CircList
import Cs444.Lib.Chain
import Cs444.Lib.Spans
import Cs444.Lib.BestFit
import Cs444.Lib.Blocks
import Cs444.Lib.Threads
import Cs444.Lib.Bytes
import Cs444.Lib.Store
import Cs444.Lib.Bits
import Cs444.Lib.Recurrence
import Cs444.Lib.Travel
import Cs444.Slob.Memory
import Cs444.Slob.Heap
import Cs444.Slob.FreeList
import Cs444.Slob.Lists
import Cs444.Slob.Invariant
import Cs444.Slob.Free
import Cs444.Slob.Search
import Cs444.Slob.Alloc
import Cs444.Slob.Run
import Cs444.Slob.WellFormed
import Cs444.Slob.Accounting
import Cs444.Slob.Placement
import Cs444.Slob.FreeOrder
import Cs444.Slob.Contents
import Cs444.Slob.FirstFit
import Cs444.Slob.Restore
import Cs444.Slob.Api
import Cs444.Slob.ApiInv
import Cs444.Slob.ApiRun
import Cs444.Slob.ApiStore
import Cs444.Slob.Concurrent
import Cs444.Slob.Interleaved
import Cs444.Sstf.Elevator
import Cs444.Sstf.Run
import Cs444.Sstf.Search
import Cs444.Sstf.Order
import Cs444.Sstf.Sweep
import Cs444.Sstf.Neighbours
import Cs444.Sstf.Service
import Cs444.Ramdisk.Driver
import Cs444.Ramdisk.Simulation
import Cs444.Ramdisk.Units
import Cs444.Ramdisk.Key
import Cs444.Ramdisk.Range
import Cs444.Ramdisk.Request
import Cs444.Ramdisk.Queue
import Cs444.Ramdisk.Stored
import Cs444.Ramdisk.Module
import Cs444.Threads.Producer
import Cs444.Threads.Consumed
import Cs444.Threads.RoomWaits
import Cs444.Threads.Philosopher
import Cs444.Threads.Forks
import Cs444.Threads.ForkWaits
import Cs444.Threads.SharedList
import Cs444.Threads.Linearizable
import Cs444.Threads.Barber
import Cs444.Threads.Smokers
import Cs444.Threads.Throughput
import Cs444.Random.Generator
import Cs444.Random.Width
import Cs444.Random.Stream
import Cs444.Random.Recover
