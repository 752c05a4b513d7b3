import OpenShmem.Machine
import OpenShmem.Range
import OpenShmem.Overlay
import OpenShmem.Blocks
import OpenShmem.TransferBounds
import OpenShmem.PeNumbers
import OpenShmem.SliceReads
import OpenShmem.Overflow
import OpenShmem.MutableViews
import OpenShmem.LocalCopies
import OpenShmem.Visibility
import OpenShmem.Collect
import OpenShmem.Construct
import OpenShmem.Atomics
import OpenShmem.Updates
import OpenShmem.PrefixWrites
import OpenShmem.Context
import OpenShmem.Teams
import OpenShmem.Lock
import OpenShmem.Nbi
import OpenShmem.NbiRuns
import OpenShmem.NbiLifetime
import OpenShmem.NbiOwnership
import OpenShmem.ReadPaths
import OpenShmem.Shmalloc
import OpenShmem.LiveBlocks
import OpenShmem.ForceAtomic
import OpenShmem.RowMajor
import OpenShmem.MatrixMult
import OpenShmem.Phases
import OpenShmem.Spmd
import OpenShmem.Counters
import OpenShmem.PassThePort
import OpenShmem.Mandelbrot
import OpenShmem.Lockstep
import OpenShmem.Reduce
import OpenShmem.Reduction
import OpenShmem.AtomicLaws
import OpenShmem.ForcedRuns
import OpenShmem.LockedPrints
import OpenShmem.MatrixProduct
import OpenShmem.Waits
import OpenShmem.HelloWorld
