import SegMalloc.Refine

/-!
# What a client of the interface can rely on

Consequences of the refinement and of the client invariant, along any run of
`malloc`, `free`, `realloc`, `calloc` and the client's stores in which every
`malloc(n)` and `realloc(p, n)` has `n + 23 < 2^64` (`Client.Reachable`).
Beyond that bound `malloc`'s rounding wraps and none of this holds.

On the heap: held blocks never overlap and lie between the sentinels, the buckets reach
exactly the free blocks, the allocated blocks are exactly the held ones, and
held payloads keep the heap's alignment.  For the client, each carried back
from the abstract allocator through the view: a call changes no byte of a
payload it does not act on, a call that returns NULL changes nothing, and
`realloc` keeps the bytes both sizes cover, copying between ranges that do
not meet.

Then the error behaviour: `free` of a held payload reads outside the heap
only when its block is the last and the epilogue word reads free; once the
heap is initialised `malloc` completes for every size, returns NULL only
when the provider refuses to extend the heap, and below the `size_t` wrap
hands out a block of exactly the size the specification computes.
-/

namespace SegMalloc

variable {s s' : Heap} {c : Client}

/-! ## The heap along any run of the interface -/

/-- Along any run of the whole interface below the size bound, the client's
stores included, the blocks of the held payloads never overlap, lie between
the prologue and the epilogue, and are apart from every block a bucket
reaches. -/
theorem Client.Reachable.blocks_apart (reach : Client.Reachable c) :
    (∀ p ∈ c.held.map Prod.fst, ∀ q ∈ c.held.map Prod.fst, p ≠ q →
      BlocksApart c.heap.mem (payloadToHeader p) (payloadToHeader q)) ∧
    (∀ p ∈ c.held.map Prod.fst, c.heap.lo + 8 ≤ payloadToHeader p ∧
      blockEnd c.heap.mem (payloadToHeader p) ≤ c.heap.brk - 8) ∧
    (∀ p ∈ c.held.map Prod.fst, ∀ i < numSegs, ∀ x,
      OnList c.heap.mem (c.heap.segList i) x → BlocksApart c.heap.mem (payloadToHeader p) x) :=
  reach.simulated.1.sessionInv.apart

/-- After `mm_init`, three `malloc(1)` and the `free` of the second, the
blocks of the first and the third are apart. -/
theorem blocks_apart_after_free :
    BlocksApart (Client.after (fun _ => 0) (fun _ => false) true
      [.malloc 1, .malloc 1, .malloc 1, .free 4128]).heap.mem 4104 4136 :=
  (Client.Reachable.blocks_apart (Client.after_reachable (by decide))).1
    4112 (by decide) 4144 (by decide) (by decide)

/-- Along any run of the whole interface below the size bound, the allocated
blocks of the walk are exactly the blocks of the held payloads: no call leaves
a block allocated that the client does not hold, `realloc`'s old block
included, and every held payload's block is allocated on the walk. -/
theorem Client.Reachable.allocated_held (reach : Client.Reachable c) :
    Fresh c.heap ∧ c.held = [] ∨
      ∃ ws, Walk c.heap.mem (c.heap.brk - 8) c.heap.heapStart ws ∧ ∀ p,
        p ∈ c.held.map Prod.fst ↔
          payloadToHeader p ∈ ws ∧ extractAlloc (c.heap.mem (payloadToHeader p)) = true := by
  rcases reach.simulated.1 with fresh | ⟨bs, Ls, inv, tracks⟩
  · exact .inl fresh
  refine .inr ⟨bs.map Blk.addr, inv.walk, fun p => (tracks.payloads p).trans ⟨?_, ?_⟩⟩
  · rintro ⟨b, bMem, used, rfl⟩
    rw [payloadToHeader_add]
    exact ⟨List.mem_map_of_mem _ bMem, (inv.header bMem).2.1.trans used⟩
  · rintro ⟨walked, used⟩
    obtain ⟨b, bMem, addr⟩ := List.mem_map.mp walked
    have := (inv.bounds bMem).1
    refine ⟨b, bMem, (inv.header bMem).2.1.symm.trans (addr ▸ used), ?_⟩
    simp only [payloadToHeader, wsize] at addr
    omega

/-- After `mm_init`, three `malloc(1)` and the `free` of the second, the
allocated blocks of the walk are those of the held payloads. -/
theorem allocated_held_after_free :
    ∃ c, Client.start (Heap.initial (fun _ => 0) (fun _ => false)) true
        [.malloc 1, .malloc 1, .malloc 1, .free 4128] = some c ∧
      ∃ ws, Walk c.heap.mem (c.heap.brk - 8) c.heap.heapStart ws ∧ ∀ p,
        p ∈ c.held.map Prod.fst ↔
          payloadToHeader p ∈ ws ∧ extractAlloc (c.heap.mem (payloadToHeader p)) = true := by
  have reach : Client.Reachable (Client.after (fun _ => 0) (fun _ => false) true
      [.malloc 1, .malloc 1, .malloc 1, .free 4128]) := Client.after_reachable (by decide)
  rcases Client.Reachable.allocated_held reach with ⟨fresh, -⟩ | found
  · exact absurd fresh.heapStart (by decide)
  exact ⟨_, Client.start_eq_after (by decide), found⟩

/-- With `mem_heap_lo()` 16-aligned, every payload a client holds along any
run of the whole interface below the size bound is 16-aligned: `realloc` and
`calloc` hand out `malloc`'s payloads. -/
theorem Client.Reachable.held_aligned (reach : Client.Reachable c)
    (aligned : c.heap.lo % 16 = 0) :
    ∀ p ∈ c.held.map Prod.fst, p % 16 = 0 := by
  rcases reach.simulated.1 with ⟨-, held⟩ | ⟨bs, Ls, inv, tracks⟩
  · simp [held]
  intro p member
  obtain ⟨b, bMem, -, rfl⟩ := (tracks.payloads p).mp member
  have := (inv.bounds bMem).2.2.2.2
  omega

/-- After `mm_init` on a heap at 4096, three `malloc(1)` and the `free` of the
second, the held payloads are 16-aligned. -/
theorem held_aligned_after_free :
    (Client.after (fun _ => 0) (fun _ => false) true
        [.malloc 1, .malloc 1, .malloc 1, .free 4128]).heap.lo % 16 = 0 ∧
      ∀ p ∈ (Client.after (fun _ => 0) (fun _ => false) true
        [.malloc 1, .malloc 1, .malloc 1, .free 4128]).held.map Prod.fst, p % 16 = 0 :=
  ⟨by decide, Client.Reachable.held_aligned (Client.after_reachable (by decide)) (by decide)⟩

/-! ## What the client reads -/

/-- A held payload, with as many bytes as it asked for, is a held region. -/
theorem mem_view {mem : Nat → Nat} {held : List (Nat × Nat)} {y : Nat × Nat}
    (member : y ∈ held) : ⟨y.1, bytesAt mem y.1 y.2⟩ ∈ view mem held :=
  List.mem_map_of_mem _ member

/-- A held region is a held payload with the bytes it asked for. -/
theorem of_mem_view {mem mem' : Nat → Nat} {held : List (Nat × Nat)} {y : Nat × Nat}
    (member : ⟨y.1, bytesAt mem' y.1 y.2⟩ ∈ view mem held) :
    y ∈ held ∧ bytesAt mem y.1 y.2 = bytesAt mem' y.1 y.2 := by
  obtain ⟨y', held', same⟩ := List.mem_map.mp member
  obtain ⟨base, bytes⟩ := Region.mk.inj same
  have length := congrArg List.length bytes
  rw [length_bytesAt, length_bytesAt] at length
  obtain rfl : y' = y := Prod.ext base length
  exact ⟨held', bytes⟩

/-- A call changes no byte of a held payload it does not act on, and the
payload stays held. -/
theorem Client.Step.keeps_held {c' : Client} {op : Op} {x : Nat} {y : Nat × Nat}
    (reach : Client.Reachable c) (step : Client.Step c op x c') (member : y ∈ c.held)
    (other : op.target ≠ some y.1) :
    y ∈ c'.held ∧ bytesAt c'.heap.mem y.1 y.2 = bytesAt c.heap.mem y.1 y.2 :=
  of_mem_view (((reach.simulated.1.step step).2.keeps (mem_view member) other))

/-- After `mm_init` and two `malloc(8)`, a store into the second payload
keeps the first. -/
theorem keeps_held_store :
    ∃ c s', Client.start (Heap.initial (fun _ => 0) (fun _ => false)) true
        [.malloc 8, .malloc 8] = some c ∧
      SegMalloc.store (4128 + 8 * 0) 7 c.heap = .ok ((), s') ∧
      bytesAt s'.mem 4112 8 = bytesAt c.heap.mem 4112 8 := by
  have reach : Client.Reachable
      (Client.after (fun _ => 0) (fun _ => false) true [.malloc 8, .malloc 8]) :=
    Client.after_reachable (by decide)
  exact ⟨_, _, Client.start_eq_after (by decide), eq_ok_of_faultOf (by decide),
    (Client.Step.keeps_held (y := (4112, 8)) reach
      (.store (p := 4128) (m := 8) (k := 0) (w := 7) (by decide) (by decide)
        (eq_ok_of_faultOf (by decide))) (by decide) (by decide)).2⟩

/-- From a reachable state, a `malloc`, a `calloc`, or a `realloc` to a
non-zero size that returns NULL changes no byte the client holds, whatever
sizes the call asks for, those whose rounding wraps included. -/
theorem Client.Reachable.null_keeps_view {k n p : Nat} (reach : Client.Reachable c) :
    (SegMalloc.malloc n c.heap = .ok (0, s') → SegMalloc.view s'.mem c.held = c.view) ∧
      (SegMalloc.calloc k n c.heap = .ok (0, s') → SegMalloc.view s'.mem c.held = c.view) ∧
      (0 < n → SegMalloc.realloc p n c.heap = .ok (0, s') →
        SegMalloc.view s'.mem c.held = c.view) := by
  have refused {m : Nat} (run : SegMalloc.malloc m c.heap = .ok (0, s')) :
      SegMalloc.view s'.mem c.held = c.view :=
    (reach.simulated.1.malloc run).1
  refine ⟨refused, fun run => ?_, fun pos run => ?_⟩
  · rcases calloc_inv run with ⟨-, rfl, -⟩ | ⟨-, -, ⟨-, run⟩ | ⟨nonzero, -⟩⟩
    · rfl
    · exact refused run
    · exact absurd rfl nonzero
  · rcases realloc_inv run with
      ⟨zero, -⟩ | ⟨-, -, run⟩ | ⟨-, -, -, run⟩ | ⟨-, -, nonzero, -⟩
    · omega
    · exact refused run
    · exact refused run
    · exact absurd rfl nonzero

/-- With a provider that grants only the two requests of `mm_init`, after
`malloc(8)`, `malloc(5000)`, `calloc(1, 5000)` and `realloc(4112, 5000)` each
return NULL, and each leaves the client's bytes as they were. -/
theorem null_keeps_view_refused_extension :
    ∃ c s1 s2 s3, Client.start (Heap.initial (fun _ => 0) (fun k => decide (2 ≤ k))) true
        [.malloc 8] = some c ∧
      SegMalloc.malloc 5000 c.heap = .ok (0, s1) ∧ view s1.mem c.held = c.view ∧
      SegMalloc.calloc 1 5000 c.heap = .ok (0, s2) ∧ view s2.mem c.held = c.view ∧
      SegMalloc.realloc 4112 5000 c.heap = .ok (0, s3) ∧ view s3.mem c.held = c.view := by
  have reach : Client.Reachable (Client.after (fun _ => 0) (fun k => decide (2 ≤ k)) true
      [.malloc 8]) := Client.after_reachable (by decide)
  have malloced := eq_ok_of_resultOf (r := SegMalloc.malloc 5000
    (Client.after (fun _ => 0) (fun k => decide (2 ≤ k)) true [.malloc 8]).heap)
    (by decide) (show _ = 0 by decide)
  have calloced := eq_ok_of_resultOf (r := SegMalloc.calloc 1 5000
    (Client.after (fun _ => 0) (fun k => decide (2 ≤ k)) true [.malloc 8]).heap)
    (by decide) (show _ = 0 by decide)
  have realloced := eq_ok_of_resultOf (r := SegMalloc.realloc 4112 5000
    (Client.after (fun _ => 0) (fun k => decide (2 ≤ k)) true [.malloc 8]).heap)
    (by decide) (show _ = 0 by decide)
  exact ⟨_, _, _, _, Client.start_eq_after (by decide),
    malloced, (Client.Reachable.null_keeps_view (k := 1) (p := 4112) reach).1 malloced,
    calloced, (Client.Reachable.null_keeps_view (k := 1) (p := 4112) reach).2.1 calloced,
    realloced, (Client.Reachable.null_keeps_view (k := 1) (p := 4112) reach).2.2 (by decide)
      realloced⟩

/-- `realloc` of a held payload to a size that does not wrap, that returns a
pointer, copies the bytes both sizes cover. -/
theorem realloc_keeps_prefix {p m n q : Nat} (reach : Client.Reachable c)
    (member : (p, m) ∈ c.held) (small : n + 23 < 2 ^ 64)
    (run : SegMalloc.realloc p n c.heap = .ok (q, s')) (nonnull : q ≠ 0) :
    (bytesAt s'.mem q n).take m = (bytesAt c.heap.mem p m).take n := by
  have step := (reach.simulated.1.realloc_step (.inr (List.mem_map_of_mem _ member)) small run).2
  have held : (⟨p, bytesAt c.heap.mem p m⟩ : Region) ∈ c.view := mem_view member
  obtain ⟨bytes, moved, length, kept⟩ :=
    step.realloc_result reach.simulated.2.wf held rfl nonnull
  rw [afterRealloc, if_neg nonnull, view_cons] at moved
  obtain rfl := (Region.mk.inj (List.cons.inj moved).1).2
  simpa using kept

/-- After `mm_init`, three `malloc(1)`, the `free` of the second and a store
into the first, `realloc(4112, 1)` moves the payload into the freed block. -/
theorem realloc_keeps_prefix_moved :
    ∃ c q s', Client.start (Heap.initial (fun _ => 0) (fun _ => false)) true
        [.malloc 1, .malloc 1, .malloc 1, .free 4128, .store 4112 0 7] = some c ∧
      SegMalloc.realloc 4112 1 c.heap = .ok (q, s') ∧ q ≠ 0 ∧
      (bytesAt s'.mem q 1).take 1 = (bytesAt c.heap.mem 4112 1).take 1 :=
  ⟨_, _, _, Client.start_eq_after (by decide), eq_ok_of_faultOf (by decide), by decide,
    realloc_keeps_prefix (m := 1) (Client.after_reachable (by decide)) (by decide) (by decide)
      (eq_ok_of_faultOf (by decide)) (by decide)⟩

/-- On an initialised heap, `malloc` of a non-zero size returns NULL only
when the provider refuses to extend the heap, or the break would pass the
address space; and it then changes nothing but the provider's count. -/
theorem malloc_null {bs : List Blk} {Ls : Nat → List Nat} {n : Nat} (inv : HeapInv s bs Ls [])
    (pos : 0 < n) (run : malloc n s = .ok (0, s')) :
    (s.refuse s.sbrkCalls = true ∨
        2 ^ 64 < s.brk + max (max (roundUp (wrap (n + wsize)) dsize) minBlockSize) chunksize) ∧
      s' = { s with sbrkCalls := s.sbrkCalls + 1 } := by
  have started : s.heapStart ≠ 0 := by rw [inv.start]; omega
  have read : (fun s : Heap => (Except.ok (s.heapStart, s) : Except Fault (Nat × Heap))) s =
      .ok (s.heapStart, s) := rfl
  obtain ⟨aligned, min, small⟩ := asize_facts (wrap (n + wsize))
  set A := max (roundUp (wrap (n + wsize)) dsize) minBlockSize
  obtain ⟨fit, search, found⟩ := inv.findFit_spec A
  simp only [malloc] at run
  rw [bind_ok read] at run
  simp only [started, pos.ne', ite_false, pure_bind] at run
  rw [bind_ok search] at run
  by_cases none : fit = 0
  · rw [if_pos none] at run
    obtain ⟨block, t, extended, rest⟩ := bind_ok_iff.mp run
    rcases inv.extend (show max A chunksize % 16 = 0 by simp only [chunksize]; omega)
      (by simp only [chunksize, minBlockSize, dsize, wsize]; omega)
      (by simp only [chunksize]; omega) with
      ⟨refused, refusal⟩ | ⟨s'', pre, b, Ls', grown, -, -, -, -, inv', -⟩
    · rw [refusal] at extended
      cases extended
      obtain ⟨-, rfl⟩ := pure_inv rest
      exact ⟨refused, rfl⟩
    · /- The new block is handed out, and returned as its payload. -/
      have bounds := inv'.bounds (b := b) (by simp)
      rw [grown] at extended
      cases extended
      rw [if_neg (by omega)] at rest
      iterate 9 obtain ⟨_, _, -, rest⟩ := bind_ok_iff.mp rest
      have := (pure_inv rest).1
      simp [headerToPayload, wsize] at this
  · /- A listed block is taken, and returned as its payload. -/
    rw [if_neg none] at run
    obtain ⟨_, _, -, removed⟩ := bind_ok_iff.mp run
    obtain ⟨_, _, -, rest⟩ := bind_ok_iff.mp removed
    rw [if_neg none] at rest
    iterate 9 obtain ⟨_, _, -, rest⟩ := bind_ok_iff.mp rest
    have := (pure_inv rest).1
    simp [headerToPayload, wsize] at this

/-- With a provider that grants only the two requests of `mm_init`,
`malloc(5000)` after `mm_init` finds no fit, is refused more heap, and
returns NULL. -/
theorem malloc_null_refused_extension :
    ∃ c s',
      Client.start (Heap.initial (fun _ => 0) (fun k => decide (2 ≤ k))) true [] = some c ∧
      malloc 5000 c.heap = .ok (0, s') ∧
      (c.heap.refuse c.heap.sbrkCalls = true ∨
        2 ^ 64 < c.heap.brk +
          max (max (roundUp (wrap (5000 + wsize)) dsize) minBlockSize) chunksize) ∧
      s' = { c.heap with sbrkCalls := c.heap.sbrkCalls + 1 } := by
  have reach : Client.Reachable (Client.after (fun _ => 0) (fun k => decide (2 ≤ k)) true []) :=
    Client.after_reachable (by decide)
  have run := eq_ok_of_resultOf
    (r := malloc 5000 (Client.after (fun _ => 0) (fun k => decide (2 ≤ k)) true []).heap)
    (by decide) (show _ = 0 by decide)
  rcases reach.simulated.1 with ⟨fresh, -⟩ | ⟨bs, Ls, inv, -⟩
  · exact absurd fresh.heapStart (by decide)
  exact ⟨_, _, Client.start_eq_after (by decide), run, malloc_null inv (by decide) run⟩

/-- Once the heap is initialised, `malloc(n)` from any reachable state
completes, for every `n`, sizes whose rounding wraps included. -/
theorem malloc_completes {n : Nat} (reach : Client.Reachable c) (started : c.heap.heapStart ≠ 0) :
    ∃ p s', SegMalloc.malloc n c.heap = .ok (p, s') := by
  rcases reach.simulated.1 with ⟨fresh, -⟩ | ⟨bs, Ls, inv, -⟩
  · exact absurd fresh.heapStart started
  obtain ⟨p, s', -, -, run, -⟩ := inv.malloc_spec n
  exact ⟨p, s', run⟩

/-- After `mm_init`, `malloc(SIZE_MAX)` completes. -/
theorem malloc_completes_max_size :
    ∃ c, Client.start (Heap.initial (fun _ => 0) (fun _ => false)) true [] = some c ∧
      c.heap.heapStart ≠ 0 ∧
      ∃ p s', SegMalloc.malloc (2 ^ 64 - 1) c.heap = .ok (p, s') :=
  ⟨_, Client.start_eq_after (by decide), by decide,
    malloc_completes (Client.after_reachable (by decide)) (by decide)⟩

/-- From any reachable state, `malloc(n)` with `n + 23 < 2^64` that returns a
payload gives it an allocated block of exactly `max(round_up(n + 8, 16), 16)`
bytes, over the unbounded integers. -/
theorem malloc_exact_block {n p : Nat} (reach : Client.Reachable c) (small : n + 23 < 2 ^ 64)
    (run : SegMalloc.malloc n c.heap = .ok (p, s')) (nonzero : p ≠ 0) :
    extractAlloc (s'.mem (payloadToHeader p)) = true ∧
      extractSize (s'.mem (payloadToHeader p)) = max (16 * ((n + 8 + 15) / 16)) 16 := by
  obtain ⟨alloc, size, -⟩ := reach.simulated.1.sessionInv.malloc_block run nonzero
  exact ⟨alloc, size.trans (asize_unbounded small)⟩

/-- After `mm_init`, `malloc(24)` hands out a 32-byte block. -/
theorem malloc_exact_block_after_init :
    ∃ c p s', Client.start (Heap.initial (fun _ => 0) (fun _ => false)) true [] = some c ∧
      SegMalloc.malloc 24 c.heap = .ok (p, s') ∧ p ≠ 0 ∧
      extractAlloc (s'.mem (payloadToHeader p)) = true ∧
      extractSize (s'.mem (payloadToHeader p)) = max (16 * ((24 + 8 + 15) / 16)) 16 :=
  ⟨_, _, _, Client.start_eq_after (by decide), eq_ok_of_faultOf (by decide), by decide,
    malloc_exact_block (Client.after_reachable (by decide)) (by decide)
      (eq_ok_of_faultOf (by decide)) (by decide)⟩

end SegMalloc
