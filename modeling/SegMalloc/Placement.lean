import SegMalloc.FreeList

/-!
# The placement engine

Coalescing with the physical neighbours, growing the heap, splitting a chosen
block, and the bounded best-of-five search over the buckets, translated
statement by statement from `coalesce_block`, `extend_heap`, `split_block`
and `find_fit`.
-/

namespace SegMalloc

/-- `coalesce_block`: merge `block` with whichever neighbours its status bits
and the next header call free; returns the merged block. -/
def coalesceBlock (block : Nat) : M Nat := do
  let next ← findNext block
  let isPrevAlloc ← getPrevAlloc block
  let isNextAlloc ← getAlloc next
  let prev ← if !isPrevAlloc then findPrev block else pure 0
  let blockSize ← getSize block
  if isPrevAlloc then
    let removed ← getSize next
    if isNextAlloc then
      writeBlock block blockSize false
      let nextSize ← getSize next
      writeBlock next nextSize true
    else
      let toBeAdded := wrap (removed + blockSize)
      let nextSize ← getSize next
      removeFromFree next (findIndex nextSize)
      writeBlock block toBeAdded false
      writeBlock next toBeAdded true
    return block
  else
    let removed ← getSize prev
    let toBeAdded ← if isNextAlloc then pure (wrap (removed + blockSize)) else do
      let nextSize ← getSize next
      let removed := wrap (removed + nextSize)
      let toBeAdded := wrap (removed + blockSize)
      let nextSize ← getSize next
      removeFromFree next (findIndex nextSize)
      pure toBeAdded
    let prevSize ← getSize prev
    removeFromFree prev (findIndex prevSize)
    writeBlock prev toBeAdded false
    let nextSize ← getSize next
    writeBlock next nextSize false
    return prev

/-- `extend_heap`: a fresh free block over the old epilogue, a new epilogue,
then coalescing; NULL when the provider refuses. -/
def extendHeap (size : Nat) : M Nat := do
  let size := roundUp size dsize
  let bp ← memSbrk size
  if bp = sbrkFailed then
    return 0
  let block := payloadToHeader bp
  writeBlock block size false
  let blockNext ← findNext block
  writeEpilogue blockNext false false
  coalesceBlock block

/-- `split_block`: carve a free tail off an allocated block when at least a
minimum block remains. -/
def splitBlock (block asize : Nat) : M Unit := do
  let size ← getSize block
  if wrapSub size asize ≥ minBlockSize then
    writeBlock block asize true
    let next ← findNext block
    let header ← load next
    store next (header ||| 0x2)
    writeBlock next (wrapSub size asize) false
    let nextSize ← getSize next
    addToFree next (findIndex nextSize)
    let next ← findNext next
    let nextSize ← getSize next
    let nextAlloc ← getAlloc next
    writeBlock next nextSize nextAlloc

/-- The inner loop of `find_fit` over one bucket, from `block`, with the
shared probe budget `count` and the best candidate so far. -/
def findFitScan (asize : Nat) : Nat → Nat → Nat → Nat → Nat → M (Nat × Nat × Nat)
  | 0, _, _, _, _ => throw .diverge
  | fuel + 1, block, count, fitBlock, minFitSize =>
    if block ≠ 0 ∧ count > 0 then do
      let size ← getSize block
      if asize ≤ size then
        let (fitBlock, minFitSize) ← if count = 5 then do
            let size ← getSize block
            pure (block, size)
          else pure (fitBlock, minFitSize)
        let size ← getSize block
        let (fitBlock, minFitSize) ← if size < minFitSize then do
            let size ← getSize block
            pure (block, size)
          else pure (fitBlock, minFitSize)
        let next ← load (block + 8)
        findFitScan asize fuel next (count - 1) fitBlock minFitSize
      else
        let next ← load (block + 8)
        findFitScan asize fuel next count fitBlock minFitSize
    else
      return (count, fitBlock, minFitSize)

/-- The outer loop of `find_fit`, over the remaining bucket indices. -/
def findFitBuckets (asize : Nat) : List Nat → Nat → Nat → Nat → M Nat
  | [], _, _, _ => return 0
  | i :: rest, count, fitBlock, minFitSize => do
    let head ← getSeg i
    let (count, fitBlock, minFitSize) ← fun s =>
      findFitScan asize (loopFuel s) head count fitBlock minFitSize s
    if fitBlock ≠ 0 then
      return fitBlock
    findFitBuckets asize rest count fitBlock minFitSize

/-- `find_fit`: from bucket `findIndex asize` upwards, the smallest of the
first five fitting blocks of the first bucket that has one; NULL if none. -/
def findFit (asize : Nat) : M Nat :=
  findFitBuckets asize (List.range' (findIndex asize) (numSegs - findIndex asize)) 5 0 0

end SegMalloc
