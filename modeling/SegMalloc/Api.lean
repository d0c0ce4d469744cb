import SegMalloc.Placement

/-!
# The public interface

`mm_init`, `malloc`, `free`, `realloc` and `calloc`.  The byte copies of
`realloc` and `calloc` go through `mem_memcpy` and `mem_memset`; their
arguments are word aligned, so they are modelled word by word on the
little-endian machine, the last partial word through its low bytes.
-/

namespace SegMalloc

/-- The `for` loop of `mm_init` that empties the buckets. -/
def clearSegList : List Nat → M Unit
  | [] => return
  | i :: rest => do
    putSeg i 0
    clearSegList rest

/-- `mm_init`: prologue and epilogue words, empty buckets, one chunk. -/
def mmInit : M Bool := do
  let start ← memSbrk (2 * wsize)
  if start = sbrkFailed then
    return false
  store start (pack 0 true false false)
  store (start + 8) (pack 0 true true false)
  modify fun s => { s with heapStart := start + 8 }
  clearSegList (List.range numSegs)
  let temp ← extendHeap chunksize
  if temp = 0 then
    return false
  let tempSize ← getSize temp
  addToFree temp (findIndex tempSize)
  let next ← findNext temp
  let nextSize ← getSize next
  let nextAlloc ← getAlloc next
  writeBlock next nextSize nextAlloc
  return true

/-- `malloc`: the payload address of a block of at least `size` bytes, or
NULL. -/
def malloc (size : Nat) : M Nat := do
  let heapStart ← fun s => Except.ok (s.heapStart, s)
  if heapStart = 0 then
    let _ ← mmInit
  if size = 0 then
    return 0
  let asize := max (roundUp (wrap (size + wsize)) dsize) minBlockSize
  let fit ← findFit asize
  let currBlock ← if fit = 0 then do
      let extendSize := max asize chunksize
      extendHeap extendSize
    else do
      let fitSize ← getSize fit
      removeFromFree fit (findIndex fitSize)
      pure fit
  if currBlock = 0 then
    return 0
  let currBlockSize ← getSize currBlock
  writeBlock currBlock currBlockSize true
  let next ← findNext currBlock
  let header ← load next
  store next (header ||| 0x2)
  let nextSize ← getSize next
  let nextAlloc ← getAlloc next
  writeBlock next nextSize nextAlloc
  splitBlock currBlock asize
  return headerToPayload currBlock

/-- `free`. -/
def free (bp : Nat) : M Unit := do
  if bp = 0 then
    return
  let block := payloadToHeader bp
  let size ← getSize block
  writeBlock block size false
  let block ← coalesceBlock block
  let blockSize ← getSize block
  addToFree block (findIndex blockSize)

/-- Modelled from the spec: the read of a partial last word in `mem_memcpy`;
bytes `[a, a + count)` lie inside the heap. -/
def loadLow (a count : Nat) : M Nat := fun s =>
  if s.lo ≤ a ∧ a + count ≤ s.brk then .ok (s.mem a % 2 ^ (8 * count), s)
  else .error (.segv a)

/-- Modelled from the spec: the write of a partial last word in `mem_memcpy`,
which replaces the low `count` bytes of the word at `a`. -/
def storeLow (a count v : Nat) : M Unit := fun s =>
  if s.lo ≤ a ∧ a + count ≤ s.brk then
    .ok ((), s.write a (v % 2 ^ (8 * count) + (s.mem a - s.mem a % 2 ^ (8 * count))))
  else .error (.segv a)

/-- Modelled from the spec: the first `words` whole words of `mem_memcpy`'s
forward byte-wise copy. -/
def copyWords (dest src : Nat) : Nat → M Unit
  | 0 => return
  | k + 1 => do
    copyWords dest src k
    let word ← load (src + 8 * k)
    store (dest + 8 * k) word

/-- Modelled from the spec: `mem_memcpy` of `n` bytes between word-aligned
addresses, the standard byte-wise copy (`memlib` is not in the source). -/
def memcpy (dest src n : Nat) : M Unit := do
  copyWords dest src (n / 8)
  if n % 8 ≠ 0 then
    let word ← loadLow (src + 8 * (n / 8)) (n % 8)
    storeLow (dest + 8 * (n / 8)) (n % 8) word

/-- Modelled from the spec: the first `words` whole words of `mem_memset`'s
fill with zero. -/
def zeroWords (dest : Nat) : Nat → M Unit
  | 0 => return
  | k + 1 => do
    zeroWords dest k
    store (dest + 8 * k) 0

/-- Modelled from the spec: `mem_memset` of `n` zero bytes from a
word-aligned address, the standard byte-wise fill (`memlib` is not in the
source). -/
def memsetZero (dest n : Nat) : M Unit := do
  zeroWords dest (n / 8)
  if n % 8 ≠ 0 then
    storeLow (dest + 8 * (n / 8)) (n % 8) 0

/-- `realloc`. -/
def realloc (ptr size : Nat) : M Nat := do
  let block := payloadToHeader ptr
  if size = 0 then
    free ptr
    return 0
  if ptr = 0 then
    malloc size
  else
    let newptr ← malloc size
    if newptr = 0 then
      return 0
    let payloadSize ← getPayloadSize block
    let copysize := if size < payloadSize then size else payloadSize
    memcpy newptr ptr copysize
    free ptr
    return newptr

/-- `calloc`: the product is taken in `size_t`, and checked by division. -/
def calloc (elements size : Nat) : M Nat := do
  let asize := wrap (elements * size)
  if elements = 0 then
    return 0
  if asize / elements ≠ size then
    return 0
  let bp ← malloc asize
  if bp = 0 then
    return 0
  memsetZero bp asize
  return bp

end SegMalloc
