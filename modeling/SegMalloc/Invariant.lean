import SegMalloc.BucketLists
import Mathlib.Data.Nat.Log

/-!
# The heap invariant

What every state reachable through `malloc` and `free` looks like, against
an abstract layout `bs` and bucket lists `Ls`.  Headers pack each block's
size and allocated bit, and — because every path through the code either
keeps or sets it — the previous-allocated bit is always set in the header of
a real block.  The epilogue has size 0; its previous-allocated bit is clear
only while the last block is free and carries a footer.  Bucket `i` is the
chain `Ls i`, and lists exactly the free blocks of its size class, except
the `holes`: blocks an operation has taken off the lists and will put back
or allocate before it returns.
-/

namespace SegMalloc

/-! ## Size classes -/

theorem findIndexLoop_cases (size : Nat) :
    ∀ l, findIndexLoop size l ∈ l ∨ findIndexLoop size l = numSegs - 1
  | [] => .inr rfl
  | i :: rest => by
    simp only [findIndexLoop]
    split
    · exact .inl (List.mem_cons_self _ _)
    · rcases findIndexLoop_cases size rest with member | last
      · exact .inl (List.mem_cons_of_mem _ member)
      · exact .inr last

theorem findIndex_lt (size : Nat) : findIndex size < numSegs := by
  unfold findIndex
  split
  · decide
  · rcases findIndexLoop_cases size (List.range (numSegs - 1)) with member | last
    · have := List.mem_range.mp member; omega
    · rw [last]; decide

theorem findIndex_eq_zero_iff (size : Nat) : findIndex size = 0 ↔ size < 32 := by
  have range : List.range (numSegs - 1) = 0 :: List.range' 1 13 := by decide
  have first : minBlockSize <<< (0 + 1) = 32 := by decide
  unfold findIndex
  split
  · simp only [minBlockSize, dsize, wsize] at *
    exact ⟨fun _ => by omega, fun _ => trivial⟩
  · rw [range, findIndexLoop, first]
    split
    · simp_all
    · rcases findIndexLoop_cases size (List.range' 1 13) with member | last
      · have := List.mem_range'_1.mp member; omega
      · simp only [numSegs] at last; omega

/-- Once the size has reached bucket `k`'s lower bound `16 · 2^k`, the loop
stops at the bucket of the size's binary logarithm, or falls through to the
last bucket. -/
theorem findIndexLoop_range' {size : Nat} : ∀ (k m : Nat), 2 ^ (k + 4) ≤ size →
    findIndexLoop size (List.range' k m) =
      if size < 2 ^ (k + m + 4) then Nat.log 2 size - 4 else numSegs - 1
  | k, 0, reached => by simp [findIndexLoop, not_lt.mpr reached]
  | k, m + 1, reached => by
    have bound : minBlockSize <<< (k + 1) = 2 ^ (k + 4 + 1) := by
      simp only [minBlockSize, dsize, wsize, Nat.shiftLeft_eq, pow_succ]; omega
    rw [List.range'_succ, findIndexLoop, bound]
    split
    · rename_i below
      have within : 2 ^ (k + 4 + 1) ≤ 2 ^ (k + (m + 1) + 4) :=
        Nat.pow_le_pow_right (by omega) (by omega)
      rw [if_pos (by omega), Nat.log_eq_of_pow_le_of_lt_pow reached below]
      omega
    · rename_i above
      rw [findIndexLoop_range' (k + 1) m (by rw [show k + 1 + 4 = k + 4 + 1 by omega]; omega),
        show k + 1 + m + 4 = k + (m + 1) + 4 by omega]

/-- `findIndex` in closed form: bucket 0 below 32 bytes, then one bucket per
power of two, and the last bucket from `2^18` bytes on. -/
theorem findIndex_eq (size : Nat) :
    findIndex size = if size < 32 then 0 else if size < 2 ^ 18 then Nat.log 2 size - 4 else 14 := by
  unfold findIndex
  split
  · rename_i small
    simp only [minBlockSize, dsize, wsize] at small
    rw [if_pos (by omega)]
  · rename_i large
    simp only [minBlockSize, dsize, wsize, not_le] at large
    rw [List.range_eq_range', findIndexLoop_range' 0 (numSegs - 1) (by simp; omega)]
    by_cases small : size < 32
    · have : Nat.log 2 size < 5 := Nat.log_lt_of_lt_pow (by omega) (by simpa using small)
      simp only [small, numSegs, ite_true]
      split <;> omega
    · simp only [small, numSegs, ite_false]

/-- A larger block never goes to a lower bucket. -/
theorem findIndex_mono : Monotone findIndex := by
  intro a b le
  simp only [findIndex_eq]
  have logLe := Nat.log_mono_right (b := 2) le
  by_cases aTop : 32 ≤ a ∧ a < 2 ^ 18
  · have : Nat.log 2 a < 18 := Nat.log_lt_of_lt_pow (by omega) aTop.2
    split_ifs <;> omega
  · split_ifs <;> omega

/-- The bucket of a size is 0 below 32 bytes, `⌊log₂ size⌋ - 4` below `2^18`
bytes and 14 from there on; a larger size never has a lower bucket, so no
bucket below `findIndex asize` holds a block of `asize` bytes or more. -/
theorem findIndex_log_buckets :
    (∀ size, size < 32 → findIndex size = 0) ∧
      (∀ size, 32 ≤ size → size < 2 ^ 18 → findIndex size = Nat.log 2 size - 4) ∧
      (∀ size, 2 ^ 18 ≤ size → findIndex size = 14) ∧
      ∀ asize size, asize ≤ size → findIndex asize ≤ findIndex size :=
  ⟨fun size small => by rw [findIndex_eq, if_pos small],
    fun size large below => by rw [findIndex_eq, if_neg (by omega), if_pos below],
    fun size top => by rw [findIndex_eq, if_neg (by omega), if_neg (by omega)],
    fun _ _ le => findIndex_mono le⟩

/-! ## Headers and the epilogue -/

/-- The header of `b` packs its size and allocated bit with the
previous-allocated bit set; a free block above the minimum repeats its
header in its footer. -/
def TagOk (mem : Nat → Nat) (b : Blk) : Prop :=
  (∃ mini, mem b.addr = pack b.size b.alloc true mini) ∧
    (b.alloc = false → minBlockSize < b.size → mem (b.addr + b.size - 8) = mem b.addr)

/-- The epilogue word has size 0; while its previous-allocated bit is clear,
the last block is free and above the minimum. -/
def EpiOk (mem : Nat → Nat) (bs : List Blk) (e : Nat) : Prop :=
  ∃ alloc prevAlloc mini, mem e = pack 0 alloc prevAlloc mini ∧
    (prevAlloc = false → ∃ pre b, bs = pre ++ [b] ∧ b.alloc = false ∧ minBlockSize < b.size)

theorem TagOk.congr {mem mem' : Nat → Nat} {b : Blk} (tag : TagOk mem b)
    (header : mem' b.addr = mem b.addr)
    (footer : b.alloc = false → minBlockSize < b.size →
      mem' (b.addr + b.size - 8) = mem (b.addr + b.size - 8)) :
    TagOk mem' b := by
  refine ⟨header ▸ tag.1, fun free large => ?_⟩
  rw [footer free large, header]
  exact tag.2 free large

/-- The invariant of an initialised heap, with the free blocks `holes` that
an operation has taken off the buckets. -/
structure HeapInv (s : Heap) (bs : List Blk) (Ls : Nat → List Nat) (holes : List Nat) : Prop where
  lo_pos : 0 < s.lo
  start : s.heapStart = s.lo + 8
  room : s.lo + 16 ≤ s.brk
  top : s.brk ≤ 2 ^ 64
  layout : Layout s.heapStart bs (s.brk - 8)
  tags : ∀ b ∈ bs, TagOk s.mem b
  epi : EpiOk s.mem bs (s.brk - 8)
  chains : ∀ i < numSegs, NextChain s.mem (s.segList i) (Ls i)
  prevs : ∀ i < numSegs, i ≠ 0 → PrevLinks s.mem 0 (Ls i)
  listed : ∀ i < numSegs, ∀ x ∈ Ls i, ∃ b ∈ bs, b.addr = x ∧ b.alloc = false ∧
      findIndex b.size = i
  nodup : ∀ i < numSegs, (Ls i).Nodup
  complete : ∀ b ∈ bs, b.alloc = false → b.addr ∉ holes → b.addr ∈ Ls (findIndex b.size)
  off : ∀ i < numSegs, ∀ x ∈ holes, x ∉ Ls i

end SegMalloc

namespace SegMalloc

theorem Layout.length_le : ∀ {a e : Nat} {bs : List Blk}, Layout a bs e →
    a + 16 * bs.length ≤ e
  | _, _, [], layout => by simp [layout.symm]
  | _, _, _ :: _, ⟨_, min, _, rest⟩ => by
    have := rest.length_le; simp only [List.length_cons]; omega

namespace HeapInv

variable {s : Heap} {bs : List Blk} {Ls : Nat → List Nat} {holes : List Nat}
  (inv : HeapInv s bs Ls holes)
include inv

theorem bounds {b : Blk} (member : b ∈ bs) :
    s.lo + 8 ≤ b.addr ∧ b.addr + b.size ≤ s.brk - 8 ∧ 16 ≤ b.size ∧ b.size % 16 = 0 ∧
      b.addr % 16 = (s.lo + 8) % 16 := by
  have := inv.layout.bounds b member
  rw [inv.start] at this
  exact this

theorem small {b : Blk} (member : b ∈ bs) : b.size < 2 ^ 64 := by
  have := inv.bounds member; have := inv.top; omega

/-- The words a block's code touches lie inside the heap: header, links,
footer, and the next header. -/
theorem valid {b : Blk} (member : b ∈ bs) {k : Nat} (offset : k ≤ b.size)
    (aligned : k % 8 = 0) : s.Valid (b.addr + k) := by
  have := inv.bounds member
  exact ⟨by omega, by omega⟩

theorem valid_footer {b : Blk} (member : b ∈ bs) : s.Valid (b.addr + b.size - 8) := by
  have := inv.bounds member
  exact ⟨by omega, by omega⟩

theorem valid_epilogue : s.Valid (s.brk - 8) := by
  have := inv.room; exact ⟨by omega, by omega⟩

theorem listed_block {i x : Nat} (bucket : i < numSegs) (member : x ∈ Ls i) :
    ∃ b ∈ bs, b.addr = x ∧ b.alloc = false ∧ findIndex b.size = i :=
  inv.listed i bucket x member

/-- Buckets above 0 hold blocks of at least 32 bytes; bucket 0 holds minimum blocks. -/
theorem size_of_index {b : Blk} (member : b ∈ bs) :
    (findIndex b.size = 0 ↔ b.size = 16) ∧ (findIndex b.size ≠ 0 ↔ 32 ≤ b.size) := by
  have := inv.bounds member
  have := findIndex_eq_zero_iff b.size
  omega

theorem spread {i : Nat} (bucket : i < numSegs) : Spread (Ls i) := by
  refine ⟨inv.nodup i bucket, fun x member => ?_, fun x xMem y yMem => ?_⟩
  · obtain ⟨b, bMem, rfl, -⟩ := inv.listed_block bucket member
    have := inv.bounds bMem; omega
  · obtain ⟨b, bMem, rfl, -⟩ := inv.listed_block bucket xMem
    obtain ⟨c, cMem, rfl, -⟩ := inv.listed_block bucket yMem
    have := inv.bounds bMem; have := inv.bounds cMem; omega

theorem bucket_unique {i j x : Nat} (iBucket : i < numSegs) (jBucket : j < numSegs)
    (iMem : x ∈ Ls i) (jMem : x ∈ Ls j) : i = j := by
  obtain ⟨b, bMem, rfl, -, bIndex⟩ := inv.listed_block iBucket iMem
  obtain ⟨c, cMem, same, -, cIndex⟩ := inv.listed_block jBucket jMem
  rw [← bIndex, ← cIndex, inv.layout.eq_of_addr bMem cMem same.symm]

theorem fuel {i : Nat} (bucket : i < numSegs) : (Ls i).length < loopFuel s := by
  have sub : Ls i ⊆ bs.map Blk.addr := fun x member => by
    obtain ⟨b, bMem, rfl, -⟩ := inv.listed_block bucket member
    exact List.mem_map_of_mem _ bMem
  have := (List.subperm_of_subset (inv.nodup i bucket) sub).length_le
  have := inv.layout.length_le
  have := inv.start
  simp only [List.length_map, loopFuel] at *
  omega

/-- An address strictly inside a block, other than its footer, is no
block's header or footer. -/
theorem inside_not_tag {x b : Blk} (xMem : x ∈ bs) (bMem : b ∈ bs) {k : Nat} (positive : 0 < k)
    (inside : k < x.size)
    (notFooter : x.alloc = false → minBlockSize < x.size → k ≠ x.size - 8) :
    x.addr + k ≠ b.addr ∧
      (b.alloc = false → minBlockSize < b.size → x.addr + k ≠ b.addr + b.size - 8) := by
  have := inv.bounds xMem
  have := inv.bounds bMem
  by_cases same : x.addr = b.addr
  · obtain rfl := inv.layout.eq_of_addr xMem bMem same
    exact ⟨by omega, fun free large => by have := notFooter free large; omega⟩
  · have := inv.layout.disjoint x xMem b bMem same
    refine ⟨by omega, fun _ _ => by simp only [minBlockSize, dsize, wsize] at *; omega⟩

end HeapInv

end SegMalloc

namespace SegMalloc

namespace HeapInv

variable {s : Heap} {bs : List Blk} {Ls : Nat → List Nat} {holes : List Nat}
  (inv : HeapInv s bs Ls holes)
include inv

theorem listed_aligned {i x : Nat} (bucket : i < numSegs) (member : x ∈ Ls i) :
    x % 16 = (s.lo + 8) % 16 ∧ x ≠ 0 := by
  obtain ⟨b, bMem, rfl, -⟩ := inv.listed_block bucket member
  have := inv.bounds bMem; omega

/-- The buckets of an initialised heap satisfy the list invariant. -/
theorem freeLists : FreeLists s Ls where
  chains := inv.chains
  prevs := inv.prevs
  nodup := inv.nodup
  unique := fun _ iBucket _ jBucket _ iMem jMem => inv.bucket_unique iBucket jBucket iMem jMem
  aligned := fun _ bucket _ member => inv.listed_aligned bucket member
  valid := fun _ bucket _ member => by
    obtain ⟨b, bMem, rfl, -⟩ := inv.listed_block bucket member
    have := inv.bounds bMem
    exact ⟨by simpa using inv.valid bMem (Nat.zero_le _) rfl, inv.valid bMem (by omega) rfl,
      inv.valid bMem (by omega) rfl⟩

/-- Writes to link words of free blocks keep every header, footer and the
epilogue. -/
theorem tags_frame {mem : Nat → Nat}
    (links : ∀ a, mem a ≠ s.mem a → ∃ c ∈ bs, c.alloc = false ∧
      (a = c.addr + 8 ∨ (32 ≤ c.size ∧ a = c.addr + 16))) :
    (∀ b ∈ bs, TagOk mem b) ∧ EpiOk mem bs (s.brk - 8) := by
  have notTag : ∀ b ∈ bs, mem b.addr = s.mem b.addr ∧
      (b.alloc = false → minBlockSize < b.size →
        mem (b.addr + b.size - 8) = s.mem (b.addr + b.size - 8)) := by
    intro b bMem
    refine ⟨by_contra fun differ => ?_, fun free large => by_contra fun differ => ?_⟩
    · obtain ⟨c, cMem, cFree, word⟩ := links _ differ
      have := inv.bounds cMem
      rcases word with word | ⟨big, word⟩
      · exact (inv.inside_not_tag cMem bMem (k := 8) (by omega) (by omega)
          (fun _ large' => by simp only [minBlockSize, dsize, wsize] at *; omega)).1 word.symm
      · exact (inv.inside_not_tag cMem bMem (k := 16) (by omega) (by omega)
          (fun _ _ => by omega)).1 word.symm
    · obtain ⟨c, cMem, cFree, word⟩ := links _ differ
      have := inv.bounds cMem
      rcases word with word | ⟨big, word⟩
      · exact (inv.inside_not_tag cMem bMem (k := 8) (by omega) (by omega)
          (fun _ large' => by simp only [minBlockSize, dsize, wsize] at *; omega)).2
          free large word.symm
      · exact (inv.inside_not_tag cMem bMem (k := 16) (by omega) (by omega)
          (fun _ _ => by omega)).2 free large word.symm
  refine ⟨fun b bMem => (inv.tags b bMem).congr (notTag b bMem).1 (notTag b bMem).2, ?_⟩
  have epilogue : mem (s.brk - 8) = s.mem (s.brk - 8) := by
    by_contra differ
    obtain ⟨c, cMem, -, word⟩ := links _ differ
    have := inv.bounds cMem
    omega
  obtain ⟨alloc, prevAlloc, mini, word, last⟩ := inv.epi
  exact ⟨alloc, prevAlloc, mini, epilogue.trans word, last⟩

end HeapInv

end SegMalloc
