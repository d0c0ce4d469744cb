import SegMalloc.Codec
import Mathlib.Logic.Function.Basic

/-!
# The allocator state and the short helpers

The state of `mm.c` is the heap region handed out by `memlib` (its words, its
low end `mem_heap_lo()` and its break, one past `mem_heap_hi()`), the global
`heap_start`, and the array `segList` of bucket heads.  The heap provider is
part of the state too: `refuse k` says whether the `k`-th call of `mem_sbrk`
is refused, so that quantifying over the initial state quantifies over every
pattern of refusals.

Code runs in `StateT Heap (Except Fault)`.  A load or store of a word outside
`[mem_heap_lo(), mem_heap_hi()]` (a NULL dereference among them) stops the run
with `Fault.segv`; a list walk that would never end stops with
`Fault.diverge`.  The short helpers are translated one for one.
-/

namespace SegMalloc

/-- The state of the allocator and of its heap provider. -/
structure Heap where
  /-- The word stored at each byte address. -/
  mem : Nat → Nat
  /-- `mem_heap_lo()`. -/
  lo : Nat
  /-- The break: `mem_heap_hi() + 1`. -/
  brk : Nat
  /-- `heap_start`, `0` for NULL. -/
  heapStart : Nat
  /-- `segList[i]`, the head of bucket `i`, `0` for NULL. -/
  segList : Nat → Nat
  /-- Whether the provider refuses its `k`-th extension request. -/
  refuse : Nat → Bool
  /-- How many extension requests the provider has answered. -/
  sbrkCalls : Nat

/-- Why a run of the allocator stops. -/
inductive Fault where
  /-- An access to the word at this address, which lies outside the heap. -/
  | segv (addr : Nat)
  /-- A free-list walk that cycles forever. -/
  | diverge
  deriving DecidableEq, Repr

/-- Allocator code: a state transformer that may fault. -/
abbrev M := StateT Heap (Except Fault)

namespace Heap

/-- The word at `a` lies inside `[mem_heap_lo(), mem_heap_hi()]`. -/
def Valid (s : Heap) (a : Nat) : Prop := s.lo ≤ a ∧ a + 8 ≤ s.brk

instance (s : Heap) (a : Nat) : Decidable (s.Valid a) := inferInstanceAs (Decidable (_ ∧ _))

/-- The state with the word at `a` replaced by `v`. -/
def write (s : Heap) (a v : Nat) : Heap := { s with mem := Function.update s.mem a v }

/-- The state with bucket head `i` replaced by `v`. -/
def setSeg (s : Heap) (i v : Nat) : Heap := { s with segList := Function.update s.segList i v }

@[simp] theorem write_mem (s : Heap) (a v b : Nat) :
    (s.write a v).mem b = if b = a then v else s.mem b := by
  simp [write, Function.update_apply]
@[simp] theorem write_lo (s : Heap) (a v : Nat) : (s.write a v).lo = s.lo := rfl
@[simp] theorem write_brk (s : Heap) (a v : Nat) : (s.write a v).brk = s.brk := rfl
@[simp] theorem write_heapStart (s : Heap) (a v : Nat) :
    (s.write a v).heapStart = s.heapStart := rfl
@[simp] theorem write_segList (s : Heap) (a v : Nat) : (s.write a v).segList = s.segList := rfl
@[simp] theorem write_refuse (s : Heap) (a v : Nat) : (s.write a v).refuse = s.refuse := rfl
@[simp] theorem write_sbrkCalls (s : Heap) (a v : Nat) :
    (s.write a v).sbrkCalls = s.sbrkCalls := rfl
@[simp] theorem write_valid (s : Heap) (a v b : Nat) :
    (s.write a v).Valid b ↔ s.Valid b := Iff.rfl

@[simp] theorem setSeg_segList (s : Heap) (i v j : Nat) :
    (s.setSeg i v).segList j = if j = i then v else s.segList j := by
  simp [setSeg, Function.update_apply]
@[simp] theorem setSeg_mem (s : Heap) (i v : Nat) : (s.setSeg i v).mem = s.mem := rfl
@[simp] theorem setSeg_lo (s : Heap) (i v : Nat) : (s.setSeg i v).lo = s.lo := rfl
@[simp] theorem setSeg_brk (s : Heap) (i v : Nat) : (s.setSeg i v).brk = s.brk := rfl
@[simp] theorem setSeg_heapStart (s : Heap) (i v : Nat) :
    (s.setSeg i v).heapStart = s.heapStart := rfl
@[simp] theorem setSeg_refuse (s : Heap) (i v : Nat) : (s.setSeg i v).refuse = s.refuse := rfl
@[simp] theorem setSeg_sbrkCalls (s : Heap) (i v : Nat) :
    (s.setSeg i v).sbrkCalls = s.sbrkCalls := rfl
@[simp] theorem setSeg_valid (s : Heap) (i v b : Nat) :
    (s.setSeg i v).Valid b ↔ s.Valid b := Iff.rfl

end Heap

/-! ## Memory access and the heap provider -/

/-- Read the word at `a`. -/
def load (a : Nat) : M Nat := fun s =>
  if s.Valid a then .ok (s.mem a, s) else .error (.segv a)

/-- Write the word at `a`. -/
def store (a v : Nat) : M Unit := fun s =>
  if s.Valid a then .ok ((), s.write a v) else .error (.segv a)

/-- Read `segList[i]`. -/
def getSeg (i : Nat) : M Nat := fun s => .ok (s.segList i, s)

/-- Write `segList[i]`. -/
def putSeg (i v : Nat) : M Unit := fun s => .ok ((), s.setSeg i v)

/-- Modelled from the spec: `mem_sbrk`, the provider's `heap_extend` (`memlib`
is not in the source).  It extends the heap by `incr` bytes and returns the
old break, or `(void *)-1` when the provider refuses.  A region never reaches
past the 64-bit address space. -/
def memSbrk (incr : Nat) : M Nat := fun s =>
  if s.refuse s.sbrkCalls ∨ 2 ^ 64 < s.brk + incr then
    .ok (sbrkFailed, { s with sbrkCalls := s.sbrkCalls + 1 })
  else
    .ok (s.brk, { s with brk := s.brk + incr, sbrkCalls := s.sbrkCalls + 1 })

/-- A bound on the iterations of a free-list walk: a walk that runs longer
visits some in-heap node twice, and so cycles forever. -/
def loopFuel (s : Heap) : Nat := s.brk - s.lo + 1

/-! ## Short helper functions -/

/-- `get_size`. -/
def getSize (block : Nat) : M Nat := do
  let header ← load block
  return extractSize header

/-- `get_alloc`. -/
def getAlloc (block : Nat) : M Bool := do
  let header ← load block
  return extractAlloc header

/-- `getPrevAlloc`. -/
def getPrevAlloc (block : Nat) : M Bool := do
  let header ← load block
  return extractPrevAlloc header

/-- `getPrevMiniBlock`. -/
def getPrevMiniBlock (block : Nat) : M Bool := do
  let header ← load block
  return extractPrevMiniBlock header

/-- `payload_to_header`. -/
def payloadToHeader (bp : Nat) : Nat := bp - wsize

/-- `header_to_payload`. -/
def headerToPayload (block : Nat) : Nat := block + wsize

/-- `header_to_footer`: reads the size from the header. -/
def headerToFooter (block : Nat) : M Nat := do
  let size ← getSize block
  return block + wsize + size - dsize

/-- `footer_to_header`. -/
def footerToHeader (footer : Nat) : M Nat := do
  let word ← load footer
  return footer + wsize - extractSize word

/-- `get_payload_size`. -/
def getPayloadSize (block : Nat) : M Nat := do
  let asize ← getSize block
  return wrapSub asize wsize

/-- `write_epilogue`. -/
def writeEpilogue (block : Nat) (isPrev isPrevMiniBlock : Bool) : M Unit :=
  store block (pack 0 true isPrev isPrevMiniBlock)

/-- `write_block`: the header keeps the status bits of the word it replaces;
a footer is written only for a free block larger than the minimum. -/
def writeBlock (block size : Nat) (currAlloc : Bool) : M Unit := do
  let isPrevAlloc ← getPrevAlloc block
  let isPrevMiniBlock ← getPrevMiniBlock block
  store block (pack size currAlloc isPrevAlloc isPrevMiniBlock)
  if currAlloc = false then
    if size > minBlockSize then
      let footer ← headerToFooter block
      store footer (pack size currAlloc isPrevAlloc isPrevMiniBlock)

/-- `find_next`. -/
def findNext (block : Nat) : M Nat := do
  let size ← getSize block
  return block + size

/-- `find_prev_footer`. -/
def findPrevFooter (block : Nat) : Nat := block - wsize

/-- `find_prev`: NULL when the word before the header has size 0. -/
def findPrev (block : Nat) : M Nat := do
  let footerp := findPrevFooter block
  let word ← load footerp
  if extractSize word = 0 then
    return 0
  footerToHeader footerp

end SegMalloc
