import SegMalloc.SpecInv

/-!
# The heap checker

`mm_checkheap` runs its checks in order and stops at the first that fails,
printing the check's number with the caller's line: the sentinels and their
alignment, then a walk from `heap_start` to the epilogue (alignment, bounds,
header against the word at the footer's place for every block, free
neighbours, a free block after an allocated one, `prev` links), then one look
at each bucket head (bounds, `prev` link), and last the count of free blocks
on the walk against the count of free bucket heads.

The checker does not agree with the invariant in either direction.  A NULL
bucket head fails the bounds check, so every heap with an empty bucket is
rejected (`mmCheckheap_rejects_empty_bucket`), among them the heap `mm_init`
leaves.  And since only heads are
counted, a bucket that goes on past its head to a block that is not free is
accepted.
-/

namespace SegMalloc

/-- `checkAlignment`: whether the address lies `n` past a multiple of 16. -/
def checkAlignment (currBlock n : Nat) : Bool := currBlock % 16 == n

/-- The pointer-consistency test `mm_checkheap` makes on a block of the walk
and on a bucket head: a free block whose `next` link is not NULL must be the
`prev` link of the block it points to. -/
def goodPointer (currBlock : Nat) : M Bool := do
  let alloc ← getAlloc currBlock
  if !alloc then
    let next ← load (currBlock + 8)
    if next ≠ 0 then
      let back ← load (next + 16)
      return back == currBlock
  return true

/-- The `for` loop of `mm_checkheap` along the implicit list, from `currBlock`
to the epilogue, with `fuel` iterations left: the number of the first check
that fails, or the count of free blocks. -/
def checkWalk (heapStart epilogue : Nat) : Nat → Nat → Nat → M (Except Nat Nat)
  | 0, _, _ => throw .diverge
  | fuel + 1, currBlock, numFreeHeap => do
    if currBlock = epilogue then
      return .ok numFreeHeap
    let alloc ← getAlloc currBlock
    let numFreeHeap := if alloc = false then numFreeHeap + 1 else numFreeHeap
    if !checkAlignment currBlock 8 then
      return .error 6
    if currBlock < heapStart ∨ currBlock > epilogue then
      return .error 7
    let header ← load currBlock
    let footer ← headerToFooter currBlock
    let footerWord ← load footer
    if header ≠ footerWord then
      return .error 8
    let alloc ← getAlloc currBlock
    if !alloc then
      let next ← findNext currBlock
      let nextAlloc ← getAlloc next
      if !nextAlloc then
        return .error 9
      let prev ← findPrev currBlock
      if prev ≠ 0 then
        let prev ← findPrev currBlock
        let prevAlloc ← getAlloc prev
        if prevAlloc then
          return .error 10
    let good ← goodPointer currBlock
    if good = false then
      return .error 11
    let next ← findNext currBlock
    checkWalk heapStart epilogue fuel next numFreeHeap

/-- The `for` loop of `mm_checkheap` over the bucket heads: the number of
the first check that fails, or the count of free heads. -/
def checkSegs (heapStart epilogue : Nat) : List Nat → Nat → M (Except Nat Nat)
  | [], numFreeSegList => return .ok numFreeSegList
  | i :: rest, numFreeSegList => do
    let currBlock ← getSeg i
    if currBlock < heapStart ∨ currBlock > epilogue then
      return .error 13
    let good ← goodPointer currBlock
    if good = false then
      return .error 14
    let alloc ← getAlloc currBlock
    let numFreeSegList := if !alloc then numFreeSegList + 1 else numFreeSegList
    checkSegs heapStart epilogue rest numFreeSegList

/-- The checks of `mm_checkheap` in order: the number of the message it
prints at the first that fails, or none when all pass. -/
def checkheapFailure : M (Option Nat) := do
  let heapStart ← fun s => Except.ok (s.heapStart, s)
  if heapStart = 0 then
    return some 1
  let prologue ← fun s => Except.ok (s.lo, s)
  let pAllocTrue ← getAlloc prologue
  let prologueSize ← getSize prologue
  if prologueSize > 0 ∨ pAllocTrue = false then
    return some 2
  if !checkAlignment prologue 0 then
    return some 3
  let lastHeapByte ← fun s => Except.ok (s.brk - 1, s)
  let epilogue := lastHeapByte - wsize + 1
  let eAllocTrue ← getAlloc epilogue
  let epilogueSize ← getSize epilogue
  if epilogueSize > 0 ∨ eAllocTrue = false then
    return some 4
  if !checkAlignment epilogue 8 then
    return some 5
  let walk ← fun s => checkWalk heapStart epilogue (loopFuel s) heapStart 0 s
  match walk with
  | .error k => return some k
  | .ok numFreeHeap =>
    let segs ← checkSegs heapStart epilogue (List.range numSegs) 0
    match segs with
    | .error k => return some k
    | .ok numFreeSegList =>
      if numFreeSegList ≠ numFreeHeap then
        return some 15
      return none

/-- What `mm_checkheap(line)` prints before it returns false: the check's
number with the line, `(k, line)` for "k: Line line". -/
def checkheapMessage (line : Nat) : M (Option (Nat × Nat)) := do
  let failed ← checkheapFailure
  return failed.map fun k => (k, line)

/-- `mm_checkheap(line)`: true when every check passes. -/
def mmCheckheap (line : Nat) : M Bool := do
  let message ← checkheapMessage line
  return message.isNone

/-! ## Runs that only read

Every check of `mm_checkheap` only reads the heap.  `Reads x s Q` is a triple
for such runs, with one rule for each form a `do` block takes (a bind, a
`return`, an `if`, a read of a global), so that a proof about a check applies
the rules in the order of the code.
-/

variable {α β : Type} {s : Heap}

/-- Every run of `x` from `s` that returns leaves `s` as it was and returns a
result satisfying `Q`. -/
structure Reads (x : M α) (s : Heap) (Q : α → Prop) : Prop where
  run : ∀ a s', x s = .ok (a, s') → s' = s ∧ Q a

namespace Reads

theorem bind {x : M α} {f : α → M β} {P : α → Prop} {Q : β → Prop} (first : Reads x s P)
    (rest : ∀ a, P a → Reads (f a) s Q) : Reads (x >>= f) s Q := ⟨fun _ _ run =>
  let ⟨a, _, run1, run2⟩ := bind_ok_iff.mp run
  let ⟨same, holds⟩ := first.run a _ run1
  (rest a holds).run _ _ (same ▸ run2)⟩

theorem pure {a : α} {Q : α → Prop} (holds : Q a) : Reads (Pure.pure a : M α) s Q :=
  ⟨fun _ _ run => by cases run; exact ⟨rfl, holds⟩⟩

theorem pure_true (a : α) : Reads (Pure.pure a : M α) s fun _ => True := .pure trivial

theorem ite {c : Prop} [Decidable c] {x y : M α} {Q : α → Prop} (yes : c → Reads x s Q)
    (no : ¬c → Reads y s Q) :
    Reads (if c then x else y) s Q := by
  split
  exacts [yes ‹_›, no ‹_›]

theorem read (g : Heap → α) : Reads (fun s => .ok (g s, s)) s (· = g s) := ⟨fun _ _ run => by
  cases run; exact ⟨rfl, rfl⟩⟩

end Reads

/-! ## The checker only reads -/

theorem load_reads (a : Nat) (s : Heap) : Reads (load a) s fun _ => True := ⟨fun _ _ run => by
  unfold load at run; split at run <;> cases run; exact ⟨rfl, trivial⟩⟩

theorem getAlloc_reads (a : Nat) (s : Heap) : Reads (getAlloc a) s fun _ => True :=
  (load_reads a s).bind fun _ _ => .pure trivial

theorem getSize_reads (a : Nat) (s : Heap) : Reads (getSize a) s fun _ => True :=
  (load_reads a s).bind fun _ _ => .pure trivial

theorem findNext_reads (a : Nat) (s : Heap) : Reads (findNext a) s fun _ => True :=
  (getSize_reads a s).bind fun _ _ => .pure trivial

theorem findPrev_reads (a : Nat) (s : Heap) : Reads (findPrev a) s fun _ => True :=
  (load_reads _ s).bind fun _ _ => .ite (fun _ => .pure trivial) fun _ =>
    (Reads.pure_true _).bind fun _ _ => (load_reads _ s).bind fun _ _ => .pure trivial

theorem headerToFooter_reads (a : Nat) (s : Heap) : Reads (headerToFooter a) s fun _ => True :=
  (getSize_reads a s).bind fun _ _ => .pure trivial

theorem goodPointer_reads (a : Nat) (s : Heap) : Reads (goodPointer a) s fun _ => True := by
  unfold goodPointer
  dsimp only
  repeat' first
    | with_reducible exact load_reads _ _
    | with_reducible exact getAlloc_reads _ _
    | with_reducible exact Reads.pure_true _
    | with_reducible apply Reads.bind
    | with_reducible apply Reads.ite
    | intro _

theorem checkWalk_reads (h e : Nat) : ∀ fuel b n s, Reads (checkWalk h e fuel b n) s fun _ => True
  | 0, _, _, _ => ⟨fun _ _ run => by cases run⟩
  | fuel + 1, b, n, s => by
    unfold checkWalk
    dsimp only
    repeat' first
      | with_reducible exact load_reads _ _
      | with_reducible exact getAlloc_reads _ _
      | with_reducible exact headerToFooter_reads _ _
      | with_reducible exact findNext_reads _ _
      | with_reducible exact findPrev_reads _ _
      | with_reducible exact goodPointer_reads _ _
      | with_reducible exact checkWalk_reads h e fuel _ _ _
      | with_reducible exact Reads.pure_true _
      | with_reducible apply Reads.bind
      | with_reducible apply Reads.ite
      | intro _

theorem checkSegs_reads (h e : Nat) : ∀ is n s, Reads (checkSegs h e is n) s fun _ => True
  | [], _, _ => .pure trivial
  | i :: rest, n, s => by
    unfold checkSegs
    dsimp only
    refine (Reads.read fun s => s.segList i).bind fun _ _ => ?_
    repeat' first
      | with_reducible exact getAlloc_reads _ _
      | with_reducible exact goodPointer_reads _ _
      | with_reducible exact checkSegs_reads h e rest _ _
      | with_reducible exact Reads.pure_true _
      | with_reducible apply Reads.bind
      | with_reducible apply Reads.ite
      | intro _

/-- `mm_checkheap` only reads: whenever it returns, the heap, the buckets,
`heap_start` and the provider are as they were. -/
theorem mmCheckheap_only_reads {line : Nat} {b : Bool} {s' : Heap}
    (run : mmCheckheap line s = .ok (b, s')) :
    s' = s := by
  have failure : Reads checkheapFailure s fun _ => True := by
    unfold checkheapFailure
    dsimp only
    repeat' first
      | with_reducible exact Reads.read _
      | with_reducible exact getAlloc_reads _ _
      | with_reducible exact getSize_reads _ _
      | with_reducible exact ⟨fun _ _ run => (checkWalk_reads _ _ _ _ _ _).run _ _ run⟩
      | with_reducible exact checkSegs_reads _ _ _ _ _
      | with_reducible exact Reads.pure_true _
      | with_reducible apply Reads.bind
      | with_reducible apply Reads.ite
      | intro _
      | split
  obtain ⟨m, t, message, finish⟩ := bind_ok_iff.mp run
  obtain ⟨r, u, failed, mapped⟩ := bind_ok_iff.mp message
  obtain ⟨rfl, -⟩ := failure.run _ _ failed
  cases mapped
  cases finish
  rfl

/-! ## Rejecting an empty bucket -/

/-- A NULL head among the buckets the loop visits fails its bounds check, as
long as `heap_start` is not NULL. -/
theorem checkSegs_rejects_null {h e : Nat} (pos : 0 < h) :
    ∀ {is : List Nat} {n : Nat}, (∃ i ∈ is, s.segList i = 0) →
      Reads (checkSegs h e is n) s fun r => ∃ k, r = .error k
  | [], _, ⟨_, absent, _⟩ => absurd absent (List.not_mem_nil _)
  | j :: rest, n, ⟨i, member, null⟩ => by
    unfold checkSegs
    dsimp only
    refine (Reads.read fun s => s.segList j).bind fun _ head =>
      .ite (fun _ => .pure ⟨13, rfl⟩) fun inside => ?_
    subst head
    rcases List.mem_cons.mp member with rfl | later
    · exact absurd (Or.inl (null ▸ pos)) inside
    · exact (Reads.pure_true _).bind fun _ _ => (goodPointer_reads _ _).bind fun _ _ =>
        .ite (fun _ => .pure ⟨14, rfl⟩) fun _ => (Reads.pure_true _).bind fun _ _ =>
          (getAlloc_reads _ _).bind fun _ _ => checkSegs_rejects_null pos ⟨i, later, null⟩

/-- Every heap with an empty bucket fails some check. -/
theorem checkheapFailure_rejects_null (empty : ∃ i < numSegs, s.segList i = 0) :
    Reads checkheapFailure s fun r => r.isSome := by
  unfold checkheapFailure
  dsimp only
  refine (Reads.read fun s => s.heapStart).bind fun _ start =>
    .ite (fun _ => .pure rfl) fun nonzero => ?_
  subst start
  repeat' first
    | with_reducible exact Reads.read _
    | with_reducible exact getAlloc_reads _ _
    | with_reducible exact getSize_reads _ _
    | with_reducible exact ⟨fun _ _ run => (checkWalk_reads _ _ _ _ _ _).run _ _ run⟩
    | with_reducible exact Reads.pure_true _
    | with_reducible apply Reads.bind
    | with_reducible apply Reads.ite
    | intro _
    | exact Reads.pure rfl
  split
  · exact .pure rfl
  · obtain ⟨i, below, null⟩ := empty
    refine (checkSegs_rejects_null (Nat.pos_of_ne_zero nonzero)
        ⟨i, List.mem_range.mpr below, null⟩).bind
      fun _ ⟨_, failed⟩ => ?_
    subst failed
    exact .pure rfl

/-- `mm_checkheap` returns false on every heap with an empty bucket, and
leaves the heap as it was. -/
theorem mmCheckheap_rejects_empty_bucket {line : Nat} {b : Bool} {s' : Heap}
    (empty : ∃ i < numSegs, s.segList i = 0)
    (run : mmCheckheap line s = .ok (b, s')) : b = false ∧ s' = s := by
  obtain ⟨m, t, message, finish⟩ := bind_ok_iff.mp run
  obtain ⟨r, u, failure, mapped⟩ := bind_ok_iff.mp message
  obtain ⟨rfl, some⟩ := (checkheapFailure_rejects_null empty).run _ _ failure
  obtain ⟨k, rfl⟩ := Option.isSome_iff_exists.mp some
  cases mapped
  cases finish
  exact ⟨rfl, rfl⟩

/-- The checker rejects the heap `mm_init` leaves: bucket 0 is empty, and its
NULL head fails the bounds check of message 13, so `mm_checkheap` returns
false.  And it accepts a heap whose walk has one free block while bucket 1
lists that block and, after it, an allocated one, which every other bucket
lists too: only free heads are counted. -/
theorem checkheap_disagrees_with_invariant :
    (∃ σ, runClient (Heap.initial (fun _ => 0) (fun _ => false)) true [] = some σ ∧
      Reachable σ ∧ σ.heap.segList 0 = 0 ∧ mmCheckheap 0 σ.heap = .ok (false, σ.heap) ∧
      ∃ message s', checkheapMessage 0 σ.heap = .ok (message, s') ∧ message = some (13, 0)) ∧
    ∃ s, Walk s.mem (s.brk - 8) s.heapStart [4104, 4136] ∧ extractAlloc (s.mem 4104) = false ∧
      extractAlloc (s.mem 4136) = true ∧ NextChain s.mem (s.segList 1) [4104, 4136] ∧
      (∀ i < numSegs, i ≠ 1 → s.segList i = 4136) ∧ mmCheckheap 0 s = .ok (true, s) := by
  refine ⟨⟨_, runClient_eq_clientSession (by decide), clientSession_reachable (by decide),
      by decide, ?_, _, _, eq_ok_of_faultOf (by decide), by decide⟩,
    ⟨fun a => if a = 4096 then pack 0 true false false
        else if a = 4104 then pack 32 false true false else if a = 4112 then 4136
        else if a = 4128 then pack 32 false true false
        else if a = 4136 then pack 32 true false false else if a = 4152 then 4104
        else if a = 4160 then pack 32 true false false
        else if a = 4168 then pack 0 true true false else 0,
      4096, 4176, 4104, fun i => if i = 1 then 4104 else 4136, fun _ => false, 0⟩,
    by decide, by decide, by decide, by decide, by decide, rfl⟩
  have run := eq_ok_of_faultOf
      (r := mmCheckheap 0 (clientSession (fun _ => 0) (fun _ => false) true []).heap)
    (by decide)
  obtain ⟨rejected, same⟩ := mmCheckheap_rejects_empty_bucket ⟨0, by decide, by decide⟩ run
  rw [run, rejected, same]

end SegMalloc
