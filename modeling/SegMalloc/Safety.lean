import SegMalloc.Reach

/-!
# What a client can rely on

The invariant of every reachable session, read back through the code's own
accessors: `get_size` and `get_alloc` of a header, the walk by `find_next`
from `heap_start`, and the `next` and `prev` links of the buckets.  Live
blocks are disjoint from each other and from every block a bucket reaches;
the walk tiles the heap with aligned blocks up to the epilogue; and the
buckets hold exactly the free blocks of the walk, each once, in the bucket
of its size class.
-/

namespace SegMalloc

/-- `x` is met walking `next` links from `head` before NULL. -/
inductive OnList (mem : Nat → Nat) : Nat → Nat → Prop
  | head {x : Nat} : x ≠ 0 → OnList mem x x
  | next {head x : Nat} : head ≠ 0 → OnList mem (mem (head + 8)) x → OnList mem head x

/-- `h + get_size(h)`: one past the block whose header is at `h`. -/
def blockEnd (mem : Nat → Nat) (h : Nat) : Nat := h + extractSize (mem h)

/-- The blocks with headers at `h` and `h'` share no byte. -/
def BlocksApart (mem : Nat → Nat) (h h' : Nat) : Prop :=
  blockEnd mem h ≤ h' ∨ blockEnd mem h' ≤ h

@[simp] theorem payloadToHeader_add (a : Nat) : payloadToHeader (a + 8) = a := by
  simp [payloadToHeader, wsize]

/-- On a NULL-terminated chain of nonzero blocks, the walk along `next`
links meets exactly the chain. -/
theorem NextChain.onList_iff {mem : Nat → Nat} {x : Nat} : ∀ {head : Nat} {xs : List Nat},
    NextChain mem head xs → (∀ y ∈ xs, y ≠ 0) → (OnList mem head x ↔ x ∈ xs)
  | _, [], (chain : _ = 0), _ => by
    subst chain
    exact ⟨fun reached => by cases reached <;> contradiction,
      fun member => absurd member (List.not_mem_nil x)⟩
  | _, y :: ys, ⟨rfl, rest⟩, nonzero => by
    have ih := rest.onList_iff (x := x) fun z member => nonzero z (List.mem_cons_of_mem y member)
    have head := nonzero y (List.mem_cons_self y ys)
    constructor
    · intro reached
      cases reached with
      | head _ => exact List.mem_cons_self _ _
      | next _ later => exact List.mem_cons_of_mem y (ih.mp later)
    · intro member
      rcases List.mem_cons.mp member with rfl | later
      · exact .head head
      · exact .next head (ih.mpr later)

/-- A layout read through its headers is the walk of `find_next`. -/
theorem Layout.walk {mem : Nat → Nat} {e : Nat} : ∀ {a : Nat} {bs : List Blk}, Layout a bs e →
    (∀ b ∈ bs, extractSize (mem b.addr) = b.size) → Walk mem e a (bs.map Blk.addr)
  | _, [], layout, _ => layout
  | _, b :: bs, ⟨rfl, min, _, rest⟩, sizes => by
    refine ⟨rfl, fun same => ?_, ?_⟩
    · have := rest.le; omega
    · rw [sizes b (List.mem_cons_self b bs)]
      exact rest.walk fun c member => sizes c (List.mem_cons_of_mem b member)

/-- The memory determines the walk. -/
theorem Walk.eq {mem : Nat → Nat} {e : Nat} : ∀ {a : Nat} {ws ws' : List Nat},
    Walk mem e a ws → Walk mem e a ws' → ws = ws'
  | _, [], [], _, _ => rfl
  | _, [], _ :: _, stop, ⟨_, go, _⟩ => absurd stop go
  | _, _ :: _, [], ⟨_, go, _⟩, stop => absurd stop go
  | _, _ :: _, _ :: _, ⟨first, _, rest⟩, ⟨first', _, rest'⟩ => by
    rw [first, first', Walk.eq rest rest']

namespace HeapInv

variable {s : Heap} {bs : List Blk} {Ls : Nat → List Nat} (inv : HeapInv s bs Ls [])
include inv

/-- The walk from `heap_start` meets exactly the blocks of the layout. -/
theorem walk : Walk s.mem (s.brk - 8) s.heapStart (bs.map Blk.addr) :=
  inv.layout.walk fun _ member => (inv.header member).1

theorem onList_iff {i x : Nat} (bucket : i < numSegs) :
    OnList s.mem (s.segList i) x ↔ x ∈ Ls i :=
  (inv.chains i bucket).onList_iff fun _ member => (inv.listed_aligned bucket member).2

/-- The buckets list exactly the free blocks of the walk. -/
theorem listed_iff (x : Nat) :
    (∃ i < numSegs, x ∈ Ls i) ↔ x ∈ bs.map Blk.addr ∧ extractAlloc (s.mem x) = false := by
  constructor
  · rintro ⟨i, bucket, member⟩
    obtain ⟨b, bMem, rfl, free, -⟩ := inv.listed_block bucket member
    exact ⟨List.mem_map_of_mem _ bMem, (inv.header bMem).2.1.trans free⟩
  · rintro ⟨walked, free⟩
    obtain ⟨b, bMem, rfl⟩ := List.mem_map.mp walked
    exact ⟨_, findIndex_lt b.size,
      inv.complete b bMem ((inv.header bMem).2.1.symm.trans free) (List.not_mem_nil _)⟩

/-- Two blocks of the layout at different addresses, read through their headers. -/
theorem apart {b c : Blk} (bMem : b ∈ bs) (cMem : c ∈ bs) (ne : b.addr ≠ c.addr) :
    BlocksApart s.mem b.addr c.addr := by
  unfold BlocksApart blockEnd
  rw [(inv.header bMem).1, (inv.header cMem).1]
  exact inv.layout.disjoint b bMem c cMem ne

end HeapInv

namespace SessionInv

variable {σ : Session}

theorem nodup (inv : SessionInv σ) : σ.live.Nodup := by
  rcases inv with ⟨-, live⟩ | ⟨-, -, -, nodup, -⟩
  · rw [live]; exact List.nodup_nil
  · exact nodup

/-- Live blocks, read through their headers, are apart from each other and
from every block a bucket reaches, and lie between the prologue and the
epilogue. -/
theorem apart (inv : SessionInv σ) :
    (∀ p ∈ σ.live, ∀ q ∈ σ.live, p ≠ q →
      BlocksApart σ.heap.mem (payloadToHeader p) (payloadToHeader q)) ∧
    (∀ p ∈ σ.live, σ.heap.lo + 8 ≤ payloadToHeader p ∧
      blockEnd σ.heap.mem (payloadToHeader p) ≤ σ.heap.brk - 8) ∧
    (∀ p ∈ σ.live, ∀ i < numSegs, ∀ x, OnList σ.heap.mem (σ.heap.segList i) x →
      BlocksApart σ.heap.mem (payloadToHeader p) x) := by
  rcases inv with ⟨-, live⟩ | ⟨bs, Ls, inv, -, payloads⟩
  · simp [live]
  refine ⟨fun p pLive q qLive ne => ?_, fun p pLive => ?_, fun p pLive i bucket x reached => ?_⟩
  · obtain ⟨b, bMem, -, rfl⟩ := (payloads p).mp pLive
    obtain ⟨c, cMem, -, rfl⟩ := (payloads q).mp qLive
    rw [payloadToHeader_add, payloadToHeader_add]
    exact inv.apart bMem cMem fun same => ne (by rw [same])
  · obtain ⟨b, bMem, -, rfl⟩ := (payloads p).mp pLive
    rw [payloadToHeader_add, blockEnd, (inv.header bMem).1]
    have := inv.bounds bMem
    omega
  · obtain ⟨b, bMem, used, rfl⟩ := (payloads p).mp pLive
    obtain ⟨c, cMem, rfl, free, -⟩ :=
      inv.listed_block bucket ((inv.onList_iff bucket).mp reached)
    rw [payloadToHeader_add]
    exact inv.apart bMem cMem fun same => by
      simp [inv.layout.eq_of_addr bMem cMem same, free] at used

/-- A `malloc` that hands out a payload runs, after `mm_init` if need be,
on an initialised heap with the same low end. -/
theorem malloc_on_started {n p : Nat} {s' : Heap} (inv : SessionInv σ)
    (run : SegMalloc.malloc n σ.heap = .ok (p, s')) (nonzero : p ≠ 0) :
    ∃ t bs Ls, HeapInv t bs Ls [] ∧ t.lo = σ.heap.lo ∧
      SegMalloc.malloc n t = .ok (p, s') := by
  rcases inv with ⟨fresh, -⟩ | ⟨bs, Ls, inv, -, -⟩
  · rcases malloc_fresh fresh n with
      ⟨t, run', -⟩ | fault | ⟨t, bs, Ls, same, lo, -, inv, -⟩
    · rw [run] at run'
      cases run'
      exact absurd rfl nonzero
    · rw [run] at fault
      cases fault
    · exact ⟨t, bs, Ls, inv, lo, same ▸ run⟩
  · exact ⟨σ.heap, bs, Ls, inv, rfl, run⟩

/-- A payload `malloc` hands out starts an allocated block of exactly the
size `malloc` computes in `size_t`, in the heap's alignment, between the
prologue and the epilogue of a heap whose break keeps that alignment. -/
theorem malloc_block {n p : Nat} {s' : Heap} (inv : SessionInv σ)
    (run : SegMalloc.malloc n σ.heap = .ok (p, s')) (nonzero : p ≠ 0) :
    extractAlloc (s'.mem (payloadToHeader p)) = true ∧
      extractSize (s'.mem (payloadToHeader p)) =
        max (roundUp (wrap (n + wsize)) dsize) minBlockSize ∧
      p % 16 = (σ.heap.lo + 16) % 16 ∧
      s'.lo = σ.heap.lo ∧ σ.heap.lo + 16 ≤ p ∧
      payloadToHeader p + extractSize (s'.mem (payloadToHeader p)) ≤ s'.brk - 8 ∧
      s'.brk ≤ 2 ^ 64 ∧
      s'.brk % 16 = σ.heap.lo % 16 := by
  obtain ⟨t, bs, Ls, inv, lo, run⟩ := inv.malloc_on_started run nonzero
  obtain ⟨_, _, bs', _, run', lo', -, inv', -, -, result⟩ := inv.malloc_spec n
  rw [run] at run'
  cases run'
  obtain ⟨-, block, -⟩ := result.resolve_left fun ⟨zero, _⟩ => nonzero zero
  obtain ⟨size, alloc, -⟩ := inv'.header block
  obtain ⟨low, high, -, -, aligned⟩ := inv'.bounds block
  have ends := inv'.layout.end_mod
  rw [inv'.start] at ends
  rw [lo] at lo'
  have room := inv'.room
  have header : payloadToHeader p = p - 8 := rfl
  dsimp only at low high aligned size
  have payload : p % 16 = (σ.heap.lo + 16) % 16 ∧ σ.heap.lo + 16 ≤ p := by
    clear * - low aligned lo'
    omega
  have brk : s'.brk % 16 = σ.heap.lo % 16 := by
    clear * - ends room lo'
    omega
  exact ⟨header ▸ alloc, header ▸ size, payload.1, lo', payload.2,
    by rw [header, size]; exact high, inv'.top, brk⟩

end SessionInv

/-- Live blocks never overlap, lie between the prologue and the epilogue,
and are apart from every block a bucket reaches; `malloc` hands out a new
payload whose block overlaps no live one. -/
theorem live_blocks_disjoint {σ : Session} (reach : Reachable σ) :
    (∀ p ∈ σ.live, ∀ q ∈ σ.live, p ≠ q →
      BlocksApart σ.heap.mem (payloadToHeader p) (payloadToHeader q)) ∧
    (∀ p ∈ σ.live, σ.heap.lo + 8 ≤ payloadToHeader p ∧
      blockEnd σ.heap.mem (payloadToHeader p) ≤ σ.heap.brk - 8) ∧
    (∀ p ∈ σ.live, ∀ i < numSegs, ∀ x, OnList σ.heap.mem (σ.heap.segList i) x →
      BlocksApart σ.heap.mem (payloadToHeader p) x) ∧
    ∀ n p s', n < 2 ^ 64 → malloc n σ.heap = .ok (p, s') → p ≠ 0 →
      p ∉ σ.live ∧
      ∀ q ∈ σ.live, BlocksApart s'.mem (payloadToHeader p) (payloadToHeader q) := by
  refine ⟨reach.sessionInv.apart.1, reach.sessionInv.apart.2.1, reach.sessionInv.apart.2.2,
    fun n p s' small run nonzero => ?_⟩
  have next : Reachable ⟨s', p :: σ.live⟩ := by simpa [nonzero] using reach.malloc small run
  have fresh := (List.nodup_cons.mp next.sessionInv.nodup).1
  exact ⟨fresh, fun q live => next.sessionInv.apart.1 p (List.mem_cons_self _ _) q
    (List.mem_cons_of_mem _ live) fun same => fresh (same ▸ live)⟩

/-- After `mm_init` and two `malloc(1)`, the two 16-byte blocks are apart. -/
theorem live_blocks_disjoint_two_mallocs :
    BlocksApart
      (clientSession (fun _ => 0) (fun _ => false) true [.malloc 1, .malloc 1]).heap.mem 4104
      4120 :=
  (live_blocks_disjoint (clientSession_reachable (by decide))).1 4112 (by decide) 4128 (by decide)
    (by decide)

/-- The buckets hold exactly the free blocks of the walk, each in one bucket,
once, in the bucket of its size class, on NULL-terminated chains whose `prev`
links mirror the `next` links in the buckets above 0. -/
theorem buckets_hold_free_blocks {σ : Session} (reach : Reachable σ) :
    Fresh σ.heap ∨ ∃ ws, ∃ Ls : Nat → List Nat,
      Walk σ.heap.mem (σ.heap.brk - 8) σ.heap.heapStart ws ∧
      (∀ x, (∃ i < numSegs, OnList σ.heap.mem (σ.heap.segList i) x) ↔
        x ∈ ws ∧ extractAlloc (σ.heap.mem x) = false) ∧
      (∀ i < numSegs, ∀ j < numSegs, ∀ x, OnList σ.heap.mem (σ.heap.segList i) x →
        OnList σ.heap.mem (σ.heap.segList j) x → i = j) ∧
      ∀ i < numSegs, NextChain σ.heap.mem (σ.heap.segList i) (Ls i) ∧ (Ls i).Nodup ∧
        (∀ x ∈ Ls i, findIndex (extractSize (σ.heap.mem x)) = i) ∧
        (i ≠ 0 → PrevLinks σ.heap.mem 0 (Ls i)) := by
  rcases reach.sessionInv with ⟨fresh, -⟩ | ⟨bs, Ls, inv, -, -⟩
  · exact .inl fresh
  refine .inr ⟨bs.map Blk.addr, Ls, inv.walk, fun x => ?_, fun i iBucket j jBucket x iOn jOn =>
    inv.bucket_unique iBucket jBucket ((inv.onList_iff iBucket).mp iOn)
      ((inv.onList_iff jBucket).mp jOn),
    fun i bucket =>
      ⟨inv.chains i bucket, inv.nodup i bucket, fun x member => ?_, inv.prevs i bucket⟩⟩
  · rw [← inv.listed_iff]
    exact exists_congr fun i => and_congr_right fun bucket => inv.onList_iff bucket
  · obtain ⟨b, bMem, rfl, -, index⟩ := inv.listed_block bucket member
    rw [(inv.header bMem).1, index]

/-- After `mm_init` and `malloc(1)`, the remainder of the first chunk is on a bucket. -/
theorem buckets_hold_free_blocks_after_malloc :
    ∃ i < numSegs, OnList (clientSession (fun _ => 0) (fun _ => false) true [.malloc 1]).heap.mem
      ((clientSession (fun _ => 0) (fun _ => false) true [.malloc 1]).heap.segList i) 4120 := by
  rcases buckets_hold_free_blocks
    (σ := clientSession (fun _ => 0) (fun _ => false) true [.malloc 1])
    (clientSession_reachable (by decide)) with fresh | ⟨ws, Ls, walk, free, -⟩
  · exact absurd fresh.heapStart (by decide)
  obtain rfl := walk.eq (show Walk _ _ _ [4104, 4120] by decide)
  exact (free 4120).mpr ⟨by decide, by decide⟩

/-- After `mm_init`, two `malloc(1)` and the `free` of both, the two
16-byte blocks lie side by side, both free: freeing the second never merged
it backward, as nothing cleared its previous-allocated bit. -/
theorem adjacent_free_blocks_after_two_frees :
    ∃ σ, runClient (Heap.initial (fun _ => 0) (fun _ => false)) true
        [.malloc 1, .malloc 1, .free 4112, .free 4128] = some σ ∧ Reachable σ ∧
      Walk σ.heap.mem (σ.heap.brk - 8) σ.heap.heapStart [4104, 4120] ∧
      extractAlloc (σ.heap.mem 4104) = false ∧ extractAlloc (σ.heap.mem 4120) = false :=
  ⟨_, runClient_eq_clientSession (by decide), clientSession_reachable (by decide), by decide,
    by decide,
    by decide⟩

/-- With `mem_heap_lo()` 16-aligned, the walk from `heap_start` visits
blocks of positive multiples of 16 with headers at 8 mod 16 and lands on the
epilogue, and free blocks above the minimum repeat their header in their
footer; `malloc` hands out 16-aligned payloads. -/
theorem walk_tiles_heap {σ : Session} (reach : Reachable σ) (aligned : σ.heap.lo % 16 = 0) :
    (Fresh σ.heap ∨ ∃ ws, Walk σ.heap.mem (σ.heap.brk - 8) σ.heap.heapStart ws ∧
      ∀ h ∈ ws, 0 < extractSize (σ.heap.mem h) ∧ extractSize (σ.heap.mem h) % 16 = 0 ∧
        h % 16 = 8 ∧
        (extractAlloc (σ.heap.mem h) = false → 16 < extractSize (σ.heap.mem h) →
          σ.heap.mem (h + wsize + extractSize (σ.heap.mem h) - dsize) = σ.heap.mem h)) ∧
    ∀ n p s', n < 2 ^ 64 → malloc n σ.heap = .ok (p, s') → p ≠ 0 → p % 16 = 0 := by
  refine ⟨?_, fun n p s' _ run nonzero => ?_⟩
  · rcases reach.sessionInv with ⟨fresh, -⟩ | ⟨bs, Ls, inv, -, -⟩
    · exact .inl fresh
    refine .inr ⟨bs.map Blk.addr, inv.walk, fun h walked => ?_⟩
    obtain ⟨b, bMem, rfl⟩ := List.mem_map.mp walked
    obtain ⟨size, alloc, -⟩ := inv.header bMem
    have bounds := inv.bounds bMem
    rw [size, alloc]
    refine ⟨by omega, bounds.2.2.2.1, by omega, fun free large => ?_⟩
    rw [show b.addr + wsize + b.size - dsize = b.addr + b.size - 8 by
      simp only [wsize, dsize]; omega]
    exact (inv.tags b bMem).2 free (by simp only [minBlockSize, dsize, wsize]; omega)
  · have := (reach.sessionInv.malloc_block run nonzero).2.2.1
    omega

/-- After `mm_init` and `malloc(1)`, the walk is the 16-byte block handed out
and the free rest of the chunk, whose footer repeats its header; a further
`malloc(1)` returns a 16-aligned payload. -/
theorem walk_tiles_heap_after_malloc :
    ∃ σ, runClient (Heap.initial (fun _ => 0) (fun _ => false)) true [.malloc 1] = some σ ∧
      Walk σ.heap.mem (σ.heap.brk - 8) σ.heap.heapStart [4104, 4120] ∧
      0 < extractSize (σ.heap.mem 4104) ∧
      σ.heap.mem (4120 + wsize + extractSize (σ.heap.mem 4120) - dsize) = σ.heap.mem 4120 ∧
      ∀ p s', malloc 1 σ.heap = .ok (p, s') → p ≠ 0 → p % 16 = 0 := by
  obtain ⟨tiles, aligned⟩ := walk_tiles_heap
    (σ := clientSession (fun _ => 0) (fun _ => false) true [.malloc 1])
    (clientSession_reachable (by decide)) (by decide)
  rcases tiles with fresh | ⟨ws, walk, blocks⟩
  · exact absurd fresh.heapStart (by decide)
  obtain rfl := walk.eq (show Walk _ _ _ [4104, 4120] by decide)
  exact ⟨_, runClient_eq_clientSession (by decide), walk, (blocks 4104 (by decide)).1,
    (blocks 4120 (by decide)).2.2.2 (by decide) (by decide),
    fun p s' run nonzero => aligned 1 p s' (by decide) run nonzero⟩

end SegMalloc
