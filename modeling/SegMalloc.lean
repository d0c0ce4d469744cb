import SegMalloc.Codec
import SegMalloc.Heap
import SegMalloc.FreeList
import SegMalloc.Placement
import SegMalloc.Api
import SegMalloc.Session
import SegMalloc.Layout
import SegMalloc.Exec
import SegMalloc.Buckets
import SegMalloc.BucketLists
import SegMalloc.Invariant
import SegMalloc.BucketInv
import SegMalloc.Reshape
import SegMalloc.Frame
import SegMalloc.Release
import SegMalloc.Search
import SegMalloc.Place
import SegMalloc.Extend
import SegMalloc.Malloc
import SegMalloc.Startup
import SegMalloc.Reach
import SegMalloc.Safety
import SegMalloc.SpecInv
import SegMalloc.Calloc
import SegMalloc.Checkheap
import SegMalloc.Regions
import SegMalloc.Bytes
import SegMalloc.Client
import SegMalloc.Refine
import SegMalloc.Guarantees
