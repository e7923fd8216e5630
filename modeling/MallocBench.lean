import MallocBench.Slab.CheckRuns
import MallocBench.Slab.SlabRuns
import MallocBench.Slab.PackedRuns
import MallocBench.Slab.HeapRuns
import MallocBench.Slab.BlockFree
import MallocBench.Slab.Realloc
import MallocBench.Slab.Resize
import MallocBench.Slab.Recut
import MallocBench.Slab.LargeKeep
import MallocBench.Slab.LargeGrow
import MallocBench.Slab.MediumRealloc
import MallocBench.Slab.FreeMalloc
import MallocBench.Slab.Program
import MallocBench.Slab.HeaderOps
import MallocBench.Trace.RewriteIds
import MallocBench.Trace.LogProcesses
import MallocBench.Replay.MakeFromOps
import MallocBench.Checker.Alignment
import MallocBench.Checker.Overlap
import MallocBench.Bench.LibcOverride
import MallocBench.Bench.RecomputeMax
import MallocBench.Bench.Sbrk
import MallocBench.Bench.Utiltest
import MallocBench.Replay.ErrorExits
import MallocBench.Replay.Solo
import MallocBench.Replay.CheckedReplay
