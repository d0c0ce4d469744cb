import SegMalloc.BucketInv

/-!
# Reading and rewriting blocks

What the header and epilogue words say under the invariant, what
`write_block` leaves in the words of the block it writes, and one lemma that
rebuilds the invariant after an operation has rewritten some blocks: the
operation supplies the new tiling with its tags, and shows that it left the
bucket links alone and that every free block is listed or a hole.
-/

namespace SegMalloc

theorem Heap.write_self (s : Heap) (a : Nat) : s.write a (s.mem a) = s := by
  simp [Heap.write]

/-! ## `write_block` -/

section PutBlock

variable {s : Heap} {block size : Nat} {alloc : Bool}

theorem putBlock_mem_other {x : Nat} (apart : x ≠ block)
    (notFooter : alloc = false → minBlockSize < size → x ≠ block + size - 8) :
    (s.putBlock block size alloc).mem x = s.mem x := by
  rw [putBlock_mem, if_neg]
  rintro (same | ⟨free, large, foot⟩)
  exacts [apart same, notFooter free large foot]

/-- `write_block` changes no word outside the block it writes. -/
theorem putBlock_mem_outside {x : Nat} (large : 8 ≤ size)
    (outside : x < block ∨ block + size ≤ x) :
    (s.putBlock block size alloc).mem x = s.mem x :=
  putBlock_mem_other (by omega) fun _ _ => by omega

theorem putBlock_mem_block : (s.putBlock block size alloc).mem block =
    blockWord s block size alloc := by
  rw [putBlock_mem, if_pos (.inl rfl)]

theorem putBlock_mem_footer (free : alloc = false) (large : minBlockSize < size) :
    (s.putBlock block size alloc).mem (block + size - 8) = blockWord s block size alloc := by
  rw [putBlock_mem, if_pos (.inr ⟨free, large, rfl⟩)]

theorem blockWord_eq {prevAlloc prevMini : Bool}
    (header : ∃ w, s.mem block = pack w alloc prevAlloc prevMini ∧ w % 16 = 0) :
    blockWord s block size alloc = pack size alloc prevAlloc prevMini := by
  obtain ⟨w, word, wAligned⟩ := header
  simp only [blockWord, word, extractPrevAlloc_pack wAligned, extractPrevMiniBlock_pack wAligned]

/-- Rewriting a block with the size and allocated bit it already has changes
nothing. -/
theorem putBlock_self (aligned : size % 16 = 0) {prevAlloc prevMini : Bool}
    (header : s.mem block = pack size alloc prevAlloc prevMini)
    (footer : alloc = false → minBlockSize < size → s.mem (block + size - 8) = s.mem block) :
    s.putBlock block size alloc = s := by
  have word : blockWord s block size alloc = s.mem block := by
    rw [blockWord_eq ⟨size, header, aligned⟩, header]
  unfold Heap.putBlock
  split_ifs with large
  · rw [word, Heap.write_self, ← footer large.1 large.2, Heap.write_self]
  · rw [word, Heap.write_self]

/-- A block written over a word whose previous-allocated bit is set carries
well-formed tags. -/
theorem putBlock_tagOk (prevAlloc : extractPrevAlloc (s.mem block) = true) :
    TagOk (s.putBlock block size alloc).mem ⟨block, size, alloc⟩ := by
  refine ⟨⟨extractPrevMiniBlock (s.mem block), ?_⟩, fun free large => ?_⟩
  · rw [putBlock_mem_block, blockWord, prevAlloc]
  · rw [putBlock_mem_footer free large, putBlock_mem_block]

end PutBlock

/-- Tags depend only on the words inside the block. -/
theorem TagOk.frame {mem mem' : Nat → Nat} {c : Blk} (tag : TagOk mem c) (min : 16 ≤ c.size)
    (same : ∀ a, c.addr ≤ a → a < c.addr + c.size → mem' a = mem a) : TagOk mem' c :=
  tag.congr (same _ le_rfl (by omega)) fun _ _ => same _ (by omega) (by omega)

theorem EpiOk.frame {mem mem' : Nat → Nat} {bs : List Blk} {e : Nat} (epi : EpiOk mem bs e)
    (same : mem' e = mem e) : EpiOk mem' bs e := by
  obtain ⟨alloc, prevAlloc, mini, word, last⟩ := epi
  exact ⟨alloc, prevAlloc, mini, same.trans word, last⟩

/-! ## Reading under the invariant -/

namespace HeapInv

variable {s : Heap} {bs : List Blk} {Ls : Nat → List Nat} {holes : List Nat}
  (inv : HeapInv s bs Ls holes)
include inv

/-- A block's header reads back its size and allocated bit, with the
previous-allocated bit set. -/
theorem header {b : Blk} (member : b ∈ bs) :
    extractSize (s.mem b.addr) = b.size ∧ extractAlloc (s.mem b.addr) = b.alloc ∧
      extractPrevAlloc (s.mem b.addr) = true := by
  obtain ⟨mini, word⟩ := (inv.tags b member).1
  have aligned := (inv.bounds member).2.2.2.1
  rw [word, extractSize_pack aligned (inv.small member), extractAlloc_pack aligned,
    extractPrevAlloc_pack aligned]
  exact ⟨rfl, rfl, rfl⟩

/-- Rewriting a block with its own size and allocated bit changes nothing. -/
theorem putBlock_same {b : Blk} (member : b ∈ bs) : s.putBlock b.addr b.size b.alloc = s := by
  obtain ⟨mini, word⟩ := (inv.tags b member).1
  exact putBlock_self (inv.bounds member).2.2.2.1 word (inv.tags b member).2

theorem epilogue_size : extractSize (s.mem (s.brk - 8)) = 0 := by
  obtain ⟨alloc, prevAlloc, mini, word, -⟩ := inv.epi
  rw [word, extractSize_pack (by rfl) (by decide)]

/-- Rewriting the epilogue with its own size and allocated bit changes nothing. -/
theorem putBlock_epilogue : s.putBlock (s.brk - 8) 0 (extractAlloc (s.mem (s.brk - 8))) = s := by
  obtain ⟨alloc, prevAlloc, mini, word, -⟩ := inv.epi
  rw [word, extractAlloc_pack (by rfl)]
  exact putBlock_self rfl word fun _ large => absurd large (by decide)

end HeapInv

/-! ## Rebuilding the invariant -/

/-- The invariant after an operation that rewrote blocks and possibly grew
the heap: the new tiling `bs'` with its tags and epilogue, bucket links and
heads left alone, every listed block kept, and every free block either a
hole or a listed block of before. -/
theorem HeapInv.reshape {s s' : Heap} {bs bs' : List Blk} {Ls : Nat → List Nat}
    {holes holes' : List Nat} (inv : HeapInv s bs Ls holes)
    (lo : s'.lo = s.lo) (start : s'.heapStart = s.heapStart) (grow : s.brk ≤ s'.brk)
    (top : s'.brk ≤ 2 ^ 64) (layout : Layout s'.heapStart bs' (s'.brk - 8))
    (tags : ∀ b ∈ bs', TagOk s'.mem b) (epi : EpiOk s'.mem bs' (s'.brk - 8))
    (segList : s'.segList = s.segList)
    (links : ∀ i < numSegs, ∀ y ∈ Ls i,
      s'.mem (y + 8) = s.mem (y + 8) ∧ (i ≠ 0 → s'.mem (y + 16) = s.mem (y + 16)))
    (kept : ∀ b ∈ bs, b.alloc = false → b.addr ∉ holes → b ∈ bs')
    (fresh : ∀ b ∈ bs', b.alloc = false → b.addr ∉ holes' → b ∈ bs ∧ b.addr ∉ holes)
    (off : ∀ i < numSegs, ∀ x ∈ holes', x ∉ Ls i) :
    HeapInv s' bs' Ls holes' := by
  refine ⟨lo ▸ inv.lo_pos, start.trans (lo ▸ inv.start),
      by have := inv.room; omega, top, layout,
    tags, epi, fun i bucket => ?_, fun i bucket nonzero => ?_, fun i bucket x member => ?_,
    inv.nodup, fun b member free notHole => ?_, off⟩
  · rw [segList]
    exact (inv.chains i bucket).congr fun y yMem => (links i bucket y yMem).1
  · exact (inv.prevs i bucket nonzero).congr fun y yMem => (links i bucket y yMem).2 nonzero
  · obtain ⟨b, bMem, rfl, free, index⟩ := inv.listed_block bucket member
    exact ⟨b, kept b bMem free fun hole => inv.off i bucket _ hole member, rfl, free, index⟩
  · obtain ⟨old, notHole⟩ := fresh b member free notHole
    exact inv.complete b old free notHole

end SegMalloc

namespace SegMalloc

/-- The epilogue condition survives replacing a middle stretch of blocks,
as long as a free last block above the minimum stays one. -/
theorem EpiOk.replace {mem : Nat → Nat} {pre mid mid' post : List Blk} {e : Nat}
    (epi : EpiOk mem (pre ++ mid ++ post) e) (nonempty : mid ≠ [])
    (last : post = [] → ∀ b ∈ mid.getLast?, b.alloc = false → minBlockSize < b.size →
      ∃ b' ∈ mid'.getLast?, b'.alloc = false ∧ minBlockSize < b'.size) :
    EpiOk mem (pre ++ mid' ++ post) e := by
  obtain ⟨alloc, prevAlloc, mini, word, cond⟩ := epi
  refine ⟨alloc, prevAlloc, mini, word, fun clear => ?_⟩
  obtain ⟨p, l, split, free, large⟩ := cond clear
  rcases List.eq_nil_or_concat post with rfl | ⟨q, d, rfl⟩
  · rcases List.eq_nil_or_concat mid with rfl | ⟨m, b, rfl⟩
    · exact absurd rfl nonempty
    rw [List.append_nil, List.concat_eq_append, ← List.append_assoc] at split
    obtain rfl := List.singleton_inj.mp (List.append_inj' split rfl).2
    obtain ⟨b', found, free', large'⟩ := last rfl b (by simp) free large
    obtain ⟨ys, rfl⟩ := List.getLast?_eq_some_iff.mp found
    exact ⟨pre ++ ys, b', by simp, free', large'⟩
  · rw [List.concat_eq_append, ← List.append_assoc] at split
    obtain rfl := List.singleton_inj.mp (List.append_inj' split rfl).2
    exact ⟨pre ++ mid' ++ q, d, by simp, free, large⟩

/-- The invariant after an operation that rewrote the blocks `mid` spanning
`[x, y)` as the blocks `mid'` over the same span: it changed no word outside
the span but the epilogue, the old free blocks of the span were holes, and
its new free blocks are holes. -/
theorem HeapInv.resegment {s s' : Heap} {pre mid mid' post : List Blk} {x y : Nat}
    {Ls : Nat → List Nat} {holes holes' : List Nat}
    (inv : HeapInv s (pre ++ mid ++ post) Ls holes) (nonempty : mid ≠ [])
    (span : Layout x mid y) (span' : Layout x mid' y)
    (lo : s'.lo = s.lo) (start : s'.heapStart = s.heapStart) (brk : s'.brk = s.brk)
    (segList : s'.segList = s.segList)
    (same : ∀ a, a < x ∨ y ≤ a → a ≠ s.brk - 8 → s'.mem a = s.mem a)
    (tags : ∀ c ∈ mid', TagOk s'.mem c) (epi : EpiOk s'.mem (pre ++ mid' ++ post) (s.brk - 8))
    (taken : ∀ c ∈ mid, c.alloc = false → c.addr ∈ holes)
    (made : ∀ c ∈ mid', c.alloc = false → c.addr ∈ holes')
    (stay : ∀ c ∈ pre ++ post, c.alloc = false → c.addr ∈ holes → c.addr ∈ holes')
    (off : ∀ i < numSegs, ∀ a ∈ holes', a ∉ Ls i) :
    HeapInv s' (pre ++ mid' ++ post) Ls holes' := by
  obtain ⟨x0, y0, head, mid0, tail⟩ := Layout.append3_iff.mp inv.layout
  obtain rfl := Layout.start_eq nonempty mid0 span
  obtain rfl := Layout.end_eq mid0 span
  have top := inv.top
  /- Blocks outside the span keep all their words. -/
  have outside : ∀ c ∈ pre ++ post, ∀ a, c.addr ≤ a → a < c.addr + c.size →
      s'.mem a = s.mem a := by
    intro c cMem a low high
    rcases List.mem_append.mp cMem with cMem | cMem
    · have := head.bounds c cMem
      exact same a (.inl (by omega)) (by have := mid0.le; have := tail.le; omega)
    · have := tail.bounds c cMem
      exact same a (.inr (by omega)) (by omega)
  have oldMem : ∀ c ∈ pre ++ post, c ∈ pre ++ mid ++ post := fun c cMem => by
    simp only [List.mem_append] at cMem ⊢; tauto
  have newMem : ∀ c ∈ pre ++ post, c ∈ pre ++ mid' ++ post := fun c cMem => by
    simp only [List.mem_append] at cMem ⊢; tauto
  have sides : ∀ c ∈ pre ++ mid ++ post, c ∉ mid → c ∈ pre ++ post :=
      fun c cMem notMid => by
    simp only [List.mem_append] at cMem ⊢; tauto
  have sides' : ∀ c ∈ pre ++ mid' ++ post, c ∉ mid' → c ∈ pre ++ post :=
      fun c cMem notMid => by
    simp only [List.mem_append] at cMem ⊢; tauto
  refine inv.reshape lo start (by rw [brk]) (by rw [brk]; exact top)
    (by rw [start, brk]; exact Layout.append3_iff.mpr ⟨_, _, head, span', tail⟩)
    (fun c cMem => ?_) (by rw [brk]; exact epi) segList (fun i bucket z zMem => ?_)
    (fun c cMem free notHole => ?_) (fun c cMem free notHole => ?_) off
  · by_cases inMid : c ∈ mid'
    · exact tags c inMid
    · have side := sides' c cMem inMid
      exact (inv.tags c (oldMem c side)).frame (inv.bounds (oldMem c side)).2.2.1 (outside c side)
  · obtain ⟨c, cMem, rfl, free, index⟩ := inv.listed_block bucket zMem
    have notMid : c ∉ mid := fun inMid => inv.off i bucket _ (taken c inMid free) zMem
    have side := sides c cMem notMid
    have size := (inv.size_of_index cMem).2
    have := inv.bounds cMem
    exact ⟨outside c side _ (by omega) (by omega), fun nonzero =>
      outside c side _ (by omega) (by have := size.mp (index ▸ nonzero); omega)⟩
  · exact newMem c (sides c cMem fun inMid => notHole (taken c inMid free))
  · have side := sides' c cMem fun inMid => notHole (made c inMid free)
    exact ⟨oldMem c side, fun hole => notHole (stay c side free hole)⟩

end SegMalloc
