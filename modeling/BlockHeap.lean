import BlockHeap.Allocator
import BlockHeap.Arena
import BlockHeap.Chunk
import BlockHeap.Error
import BlockHeap.Explicit.Basic
import BlockHeap.Explicit.Check
import BlockHeap.FreeList
import BlockHeap.Heap
import BlockHeap.Implicit.Basic
import BlockHeap.Implicit.Check
import BlockHeap.Journal
import BlockHeap.Layout
import BlockHeap.Memory.Basic
import BlockHeap.Memory.Tree
import BlockHeap.Memory.Word
import BlockHeap.OrderedMap
import BlockHeap.PowerOfTwo
import BlockHeap.Proofs.Alignment
import BlockHeap.Proofs.Chunk.Merging
import BlockHeap.Proofs.Chunk.Runs
import BlockHeap.Proofs.Chunk.Tiling
import BlockHeap.Proofs.Explicit.Check
import BlockHeap.Proofs.Explicit.Confluence
import BlockHeap.Proofs.Explicit.Corruption
import BlockHeap.Proofs.Explicit.Edits
import BlockHeap.Proofs.Explicit.Guarded
import BlockHeap.Proofs.Explicit.Layout
import BlockHeap.Proofs.Explicit.Operations
import BlockHeap.Proofs.Explicit.Release
import BlockHeap.Proofs.FreeList.Check
import BlockHeap.Proofs.FreeList.Exactness
import BlockHeap.Proofs.FreeList.Guarded
import BlockHeap.Proofs.FreeList.Links
import BlockHeap.Proofs.FreeList.Sequence
import BlockHeap.Proofs.Heap.Blocks
import BlockHeap.Proofs.Heap.Matching
import BlockHeap.Proofs.Heap.Operations
import BlockHeap.Proofs.Implicit.Check
import BlockHeap.Proofs.Implicit.Guarded
import BlockHeap.Proofs.Implicit.Layout
import BlockHeap.Proofs.Implicit.Operations
import BlockHeap.Proofs.Implicit.Sweep
import BlockHeap.Proofs.Ledger.Abreast
import BlockHeap.Proofs.Ledger.Basic
import BlockHeap.Proofs.Ledger.Explicit
import BlockHeap.Proofs.Ledger.Heap
import BlockHeap.Proofs.Ledger.Implicit
import BlockHeap.Proofs.OrderedMap
import BlockHeap.Proofs.PowerOfTwo
import BlockHeap.Proofs.Process.Basic
import BlockHeap.Proofs.Process.Exchange
import BlockHeap.Proofs.Process.Heaps
import BlockHeap.Proofs.Process.Refinement
import BlockHeap.Proofs.Process.Reset
import BlockHeap.Proofs.Region.Anchoring
import BlockHeap.Proofs.Region.Foreign
import BlockHeap.Proofs.Region.Guarded
import BlockHeap.Proofs.Region.Keeps
import BlockHeap.Proofs.Replay.Answers
import BlockHeap.Proofs.Replay.Bookkeeping
import BlockHeap.Proofs.Replay.Faithful
import BlockHeap.Proofs.Session.Abreast
import BlockHeap.Proofs.Session.Basic
import BlockHeap.Proofs.Session.Conservation
import BlockHeap.Proofs.Session.Exhaustion
import BlockHeap.Proofs.Session.Fragmentation
import BlockHeap.Proofs.Session.Grants
import BlockHeap.Proofs.Session.Growth
import BlockHeap.Proofs.Session.Inspection
import BlockHeap.Proofs.Session.Isolation
import BlockHeap.Proofs.Session.Noninterference
import BlockHeap.Proofs.Session.Payloads
import BlockHeap.Proofs.Session.Placement
import BlockHeap.Proofs.Session.Reallocation
import BlockHeap.Proofs.Session.Refinement
import BlockHeap.Proofs.Session.Refusal
import BlockHeap.Proofs.Session.ReleaseOrder
import BlockHeap.Proofs.Session.Reuse
import BlockHeap.Proofs.Session.Soundness
import BlockHeap.Proofs.Session.Structure
import BlockHeap.Proofs.Session.Verdict
import BlockHeap.Proofs.Session.Watched
import BlockHeap.Proofs.Session.ZeroAllocation
import BlockHeap.Proofs.Shadow
import BlockHeap.Proofs.Shadow.Changes
import BlockHeap.Proofs.Shadow.Corruption
import BlockHeap.Proofs.Shadow.Overlap
import BlockHeap.Proofs.Text.Numerals
import BlockHeap.Proofs.Text.Pieces
import BlockHeap.Proofs.Trace.Grammar
import BlockHeap.Proofs.Trace.RoundTrip
import BlockHeap.Proofs.Watched.Basic
import BlockHeap.Proofs.Watched.Explicit.Basic
import BlockHeap.Proofs.Watched.Explicit.Operations
import BlockHeap.Proofs.Watched.Explicit.Release
import BlockHeap.Proofs.Watched.FreeList
import BlockHeap.Proofs.Watched.Heap
import BlockHeap.Proofs.Watched.Implicit.Basic
import BlockHeap.Proofs.Watched.Implicit.Coalescing
import BlockHeap.Proofs.Watched.Implicit.Operations
import BlockHeap.Proofs.Watched.Implicit.Sweep
import BlockHeap.Region
import BlockHeap.Replay
import BlockHeap.Shadow
import BlockHeap.Statistics
import BlockHeap.Strategy
import BlockHeap.Tag
import BlockHeap.Text.Blank
import BlockHeap.Text.Decimal
import BlockHeap.Text.Hex
import BlockHeap.Text.Quoted
import BlockHeap.Text.Shown
import BlockHeap.Trace.Basic
import BlockHeap.Trace.Parser
import BlockHeap.Trace.Random
