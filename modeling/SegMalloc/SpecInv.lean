import SegMalloc.BucketLists

/-!
# The invariants of the specification

The specification asks every state between calls to satisfy a list of
invariants over the implicit list and the buckets: blocks tile the heap
between an allocated prologue and epilogue, headers are 8 bytes past a
16-byte boundary, free blocks above the minimum repeat their header in a
footer, the previous-allocated and previous-mini bits of each header (the
epilogue's too) describe the block before it, no two neighbours are free,
and the buckets hold exactly the free blocks, each in the bucket of its size.

`SpecInv` states these over the walk `ws` and the bucket lists `Ls`.  It is
decidable, so that a concrete heap can be checked against it.  The code keeps
a weaker invariant (`HeapInv`): its previous-allocated bits are never cleared
and its previous-mini bits never set.  Two of its helpers are written for
the specification's states and still go wrong on them: `find_prev` reads the
`next` link of a free minimum block as a footer, and `coalesce_block` never
tells the block after the merged one that a free block now precedes it.
-/

namespace SegMalloc

/-- The status bits of the header at `h` describe the block at `g` before it:
whether it is allocated, and whether it is a minimum block. -/
def PrevBitsOk (mem : Nat → Nat) (g h : Nat) : Prop :=
  extractPrevAlloc (mem h) = extractAlloc (mem g) ∧
    extractPrevMiniBlock (mem h) = decide (extractSize (mem g) = minBlockSize)

instance (mem : Nat → Nat) (g h : Nat) : Decidable (PrevBitsOk mem g h) :=
  inferInstanceAs (Decidable (_ ∧ _))

/-- The invariants of the specification, for a heap whose walk from
`heap_start` visits the headers `ws` and whose buckets are the lists `Ls`. -/
structure SpecInv (s : Heap) (ws : List Nat) (Ls : Nat → List Nat) : Prop where
  /-- The blocks tile the heap from `heap_start` to the epilogue. -/
  walk : Walk s.mem (s.brk - 8) s.heapStart ws
  /-- The prologue word sits at 16-aligned `mem_heap_lo()`, the first header after it. -/
  start : s.lo % 16 = 0 ∧ s.heapStart = s.lo + 8
  /-- Both sentinels are allocated and of size 0. -/
  sentinels : extractSize (s.mem s.lo) = 0 ∧ extractAlloc (s.mem s.lo) = true ∧
    extractSize (s.mem (s.brk - 8)) = 0 ∧ extractAlloc (s.mem (s.brk - 8)) = true
  /-- Payloads are 16-aligned; sizes are multiples of 16 of at least the minimum. -/
  sizes : ∀ h ∈ ws, h % 16 = 8 ∧ minBlockSize ≤ extractSize (s.mem h) ∧
    extractSize (s.mem h) % 16 = 0
  /-- A free block above the minimum repeats its header in its last word. -/
  footers : ∀ h ∈ ws, extractAlloc (s.mem h) = false →
    minBlockSize < extractSize (s.mem h) → s.mem (h + extractSize (s.mem h) - 8) = s.mem h
  /-- Each header, the epilogue's included, describes the block before it. -/
  bits : ∀ p ∈ (s.lo :: ws).zip (ws ++ [s.brk - 8]), PrevBitsOk s.mem p.1 p.2
  /-- No two neighbours are free. -/
  coalesced : ∀ p ∈ ws.zip ws.tail,
    extractAlloc (s.mem p.1) = true ∨ extractAlloc (s.mem p.2) = true
  /-- The buckets are NULL-terminated chains, doubly linked above bucket 0. -/
  lists : FreeLists s Ls
  /-- Each listed block is in the bucket of its size. -/
  sized : ∀ i < numSegs, ∀ x ∈ Ls i, findIndex (extractSize (s.mem x)) = i
  /-- The buckets hold exactly the free blocks of the walk. -/
  exact : (∀ h ∈ ws, extractAlloc (s.mem h) = false → ∃ i < numSegs, h ∈ Ls i) ∧
    ∀ i < numSegs, ∀ x ∈ Ls i, x ∈ ws ∧ extractAlloc (s.mem x) = false

instance (s : Heap) (ws : List Nat) (Ls : Nat → List Nat) : Decidable (SpecInv s ws Ls) :=
  have : Decidable (Walk s.mem (s.brk - 8) s.heapStart ws ∧
      (s.lo % 16 = 0 ∧ s.heapStart = s.lo + 8) ∧
      (extractSize (s.mem s.lo) = 0 ∧ extractAlloc (s.mem s.lo) = true ∧
        extractSize (s.mem (s.brk - 8)) = 0 ∧ extractAlloc (s.mem (s.brk - 8)) = true)) :=
    inferInstance
  have : Decidable ((∀ h ∈ ws, h % 16 = 8 ∧ minBlockSize ≤ extractSize (s.mem h) ∧
        extractSize (s.mem h) % 16 = 0) ∧
      ∀ h ∈ ws, extractAlloc (s.mem h) = false → minBlockSize < extractSize (s.mem h) →
        s.mem (h + extractSize (s.mem h) - 8) = s.mem h) := inferInstance
  have : Decidable ((∀ p ∈ (s.lo :: ws).zip (ws ++ [s.brk - 8]), PrevBitsOk s.mem p.1 p.2) ∧
      ∀ p ∈ ws.zip ws.tail,
        extractAlloc (s.mem p.1) = true ∨ extractAlloc (s.mem p.2) = true) := inferInstance
  have : Decidable ((∀ i < numSegs, ∀ x ∈ Ls i, findIndex (extractSize (s.mem x)) = i) ∧
      (∀ h ∈ ws, extractAlloc (s.mem h) = false → ∃ i < numSegs, h ∈ Ls i) ∧
      ∀ i < numSegs, ∀ x ∈ Ls i, x ∈ ws ∧ extractAlloc (s.mem x) = false) := inferInstance
  decidable_of_iff ((Walk s.mem (s.brk - 8) s.heapStart ws ∧
      (s.lo % 16 = 0 ∧ s.heapStart = s.lo + 8) ∧
      (extractSize (s.mem s.lo) = 0 ∧ extractAlloc (s.mem s.lo) = true ∧
        extractSize (s.mem (s.brk - 8)) = 0 ∧ extractAlloc (s.mem (s.brk - 8)) = true)) ∧
    ((∀ h ∈ ws, h % 16 = 8 ∧ minBlockSize ≤ extractSize (s.mem h) ∧
        extractSize (s.mem h) % 16 = 0) ∧
      ∀ h ∈ ws, extractAlloc (s.mem h) = false → minBlockSize < extractSize (s.mem h) →
        s.mem (h + extractSize (s.mem h) - 8) = s.mem h) ∧
    ((∀ p ∈ (s.lo :: ws).zip (ws ++ [s.brk - 8]), PrevBitsOk s.mem p.1 p.2) ∧
      ∀ p ∈ ws.zip ws.tail,
        extractAlloc (s.mem p.1) = true ∨ extractAlloc (s.mem p.2) = true) ∧
    FreeLists s Ls ∧
    ((∀ i < numSegs, ∀ x ∈ Ls i, findIndex (extractSize (s.mem x)) = i) ∧
      (∀ h ∈ ws, extractAlloc (s.mem h) = false → ∃ i < numSegs, h ∈ Ls i) ∧
      ∀ i < numSegs, ∀ x ∈ Ls i, x ∈ ws ∧ extractAlloc (s.mem x) = false))
    ⟨fun ⟨⟨a, b, c⟩, ⟨d, e⟩, ⟨f, g⟩, h, i, j⟩ =>
      ⟨a, b, c, d, e, f, g, h, i, j⟩,
      fun ⟨a, b, c, d, e, f, g, h, i, j⟩ =>
      ⟨⟨a, b, c⟩, ⟨d, e⟩, ⟨f, g⟩, h, i, j⟩⟩

/-- A heap that satisfies every invariant of the specification, with a free
16-byte block at 4104, alone in the mini bucket and so with a NULL `next`
link, before an allocated 16-byte block at 4120: `find_prev(4120)` reads that
link where a footer would be, finds size 0, and returns NULL. -/
theorem findPrev_misses_mini_block :
    ∃ s, SpecInv s [4104, 4120] (setBucket (fun _ => []) 0 [4104]) ∧
      extractAlloc (s.mem 4104) = false ∧ extractSize (s.mem 4104) = minBlockSize ∧
      findPrev 4120 s = .ok (0, s) :=
  ⟨⟨fun a =>
      if a = 4096 then pack 0 true false false
      else if a = 4104 then pack 16 false true false
      else if a = 4120 then pack 16 true false true
      else if a = 4136 then pack 0 true true true else 0,
    4096, 4144, 4104, fun i => if i = 0 then 4104 else 0, fun _ => false, 0⟩,
    by decide, by decide, by decide, rfl⟩

/-- After `mm_init`, `malloc(24)` and `malloc(4056)`, which takes the rest of
the first chunk exactly, the heap satisfies the invariants of the
specification.  Freeing the first block rewrites it free, and
`coalesce_block` finds both neighbours allocated: the merged block is the
block itself, and the allocated block after it keeps its previous-allocated
bit set although a free block now precedes it. -/
theorem coalesce_keeps_prev_alloc_after_free_block :
    ∃ σ, runClient (Heap.initial (fun _ => 0) (fun _ => false)) true [.malloc 24, .malloc 4056] =
      some σ ∧
      Reachable σ ∧ SpecInv σ.heap [4104, 4136] (fun _ => []) ∧
      ∃ s1, writeBlock 4104 32 false σ.heap = .ok ((), s1) ∧
        ∃ m s2, coalesceBlock 4104 s1 = .ok (m, s2) ∧
        m = 4104 ∧ extractAlloc (s2.mem 4104) = false ∧ extractSize (s2.mem 4104) = 32 ∧
        extractAlloc (s2.mem 4136) = true ∧ extractPrevAlloc (s2.mem 4136) = true :=
  ⟨_, runClient_eq_clientSession (by decide), clientSession_reachable (by decide), by decide, _,
    eq_ok_of_faultOf (by decide), _, _, eq_ok_of_faultOf (by decide), by decide, by decide,
    by decide, by decide, by decide⟩

end SegMalloc
