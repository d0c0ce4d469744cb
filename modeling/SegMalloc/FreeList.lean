import SegMalloc.Heap

/-!
# Segregated free lists

`findIndex` picks a bucket from a block size.  Bucket 0 holds the 16-byte
mini blocks on a list linked through `next` alone (the word after the
header); the other buckets are doubly linked through `next` and `prev` (the
two words after the header).  `addToFree` pushes at the head, `removeFromFree`
unlinks, walking the mini bucket with `shiftHelper` to find the predecessor.
-/

namespace SegMalloc

/-- The `for` loop of `findIndex`, over the remaining values of `i`. -/
def findIndexLoop (size : Nat) : List Nat → Nat
  | [] => numSegs - 1
  | i :: rest => if size < minBlockSize <<< (i + 1) then i else findIndexLoop size rest

/-- `findIndex`: the bucket a block of this size belongs to. -/
def findIndex (size : Nat) : Nat :=
  if size ≤ minBlockSize then 0 else findIndexLoop size (List.range (numSegs - 1))

/-- The `while` loop of `shiftHelper`, with `fuel` iterations left. -/
def shiftHelperLoop (block : Nat) : Nat → Nat → Nat → M Unit
  | 0, _, _ => throw .diverge
  | fuel + 1, temp, prev =>
    if temp ≠ block then do
      let next ← load (temp + 8)
      shiftHelperLoop block fuel next temp
    else do
      let next ← load (temp + 8)
      store (prev + 8) next

/-- `shiftHelper`: walk from `temp` (trailed by `prev`) to `block` and link
its predecessor past it. -/
def shiftHelper (block temp prev : Nat) : M Unit := fun s =>
  shiftHelperLoop block (loopFuel s) temp prev s

/-- `removeFromFree`. -/
def removeFromFree (block index : Nat) : M Unit := do
  let prev ← load (block + 16)
  let next ← load (block + 8)
  if block ≠ 0 then
    if index ≠ 0 then
      if prev ≠ 0 then
        store (prev + 8) next
        if next ≠ 0 then
          store (next + 16) prev
      else
        putSeg index next
        if next ≠ 0 then
          let head ← getSeg index
          store (head + 16) 0
    else
      let head ← getSeg 0
      if block ≠ head then
        let temp ← load (head + 8)
        shiftHelper block temp head
      else
        let next ← load (head + 8)
        putSeg 0 next

/-- `addToFree`. -/
def addToFree (block index : Nat) : M Unit := do
  if block = 0 then
    return
  let addBlock ← getSeg index
  if index ≠ 0 then
    store (block + 16) 0
    store (block + 8) addBlock
    if addBlock ≠ 0 then
      let head ← getSeg index
      store (head + 16) block
    putSeg index block
  else
    putSeg index block
    let head ← getSeg index
    store (head + 8) addBlock

end SegMalloc
