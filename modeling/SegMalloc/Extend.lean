import SegMalloc.Place

/-!
# Growing the heap

`extend_heap` asks `mem_sbrk` for more memory, writes a free block over the
old epilogue and a new epilogue after it, and coalesces.  The new block
inherits the previous-allocated bit of the old epilogue: when it is set the
block is simply the new last block (case 1); when it is clear the last block
was free and the two merge (case 3), and the epilogue is rewritten with its
allocated bit clear.
-/

namespace SegMalloc

variable {s : Heap}

/-- The heap after `extend_heap` has written the new block and the new
epilogue, before coalescing. -/
def Heap.grown (s : Heap) (size : Nat) : Heap :=
  (({ s with brk := s.brk + size, sbrkCalls := s.sbrkCalls + 1 } : Heap).putBlock (s.brk - 8) size
    false).write (s.brk - 8 + size) (pack 0 true false false)

section Grown

variable (s : Heap) (size : Nat)

@[simp] theorem grown_lo : (s.grown size).lo = s.lo := by simp [Heap.grown]
@[simp] theorem grown_brk : (s.grown size).brk = s.brk + size := by simp [Heap.grown]
@[simp] theorem grown_heapStart : (s.grown size).heapStart = s.heapStart := by simp [Heap.grown]
@[simp] theorem grown_segList : (s.grown size).segList = s.segList := by simp [Heap.grown]
@[simp] theorem grown_refuse : (s.grown size).refuse = s.refuse := by simp [Heap.grown]
@[simp] theorem grown_sbrkCalls : (s.grown size).sbrkCalls = s.sbrkCalls + 1 := by simp [Heap.grown]

end Grown

theorem grown_mem_below {size a : Nat} (large : 8 ≤ size) (below : a < s.brk - 8) :
    (s.grown size).mem a = s.mem a := by
  rw [Heap.grown, Heap.write_mem, if_neg (by omega), putBlock_mem_outside large (.inl below)]

theorem grown_mem_block {size : Nat} (large : 8 ≤ size) :
    (s.grown size).mem (s.brk - 8) =
      pack size false (extractPrevAlloc (s.mem (s.brk - 8)))
        (extractPrevMiniBlock (s.mem (s.brk - 8))) := by
  rw [Heap.grown, Heap.write_mem, if_neg (by omega), putBlock_mem_block]
  rfl

theorem grown_mem_footer {size : Nat} (large : minBlockSize < size) :
    (s.grown size).mem (s.brk - 8 + size - 8) = (s.grown size).mem (s.brk - 8) := by
  have : 8 ≤ size := by simp only [minBlockSize, dsize, wsize] at large; omega
  rw [Heap.grown, Heap.write_mem, if_neg (by omega), putBlock_mem_footer rfl large, Heap.write_mem,
    if_neg (by omega), putBlock_mem_block]

theorem grown_mem_epilogue (size : Nat) :
    (s.grown size).mem (s.brk - 8 + size) = pack 0 true false false := by
  simp [Heap.grown]

/-- `extend_heap` up to the coalescing: a refusal returns NULL, a grant
writes the new block and epilogue. -/
theorem extendHeap_eq {size : Nat} (room : s.lo + 16 ≤ s.brk) (aligned : size % 16 = 0)
    (large : minBlockSize < size) (small : size < 2 ^ 64) :
    (s.refuse s.sbrkCalls = true ∨ 2 ^ 64 < s.brk + size) ∧
        extendHeap size s = .ok (0, { s with sbrkCalls := s.sbrkCalls + 1 }) ∨
      s.brk + size ≤ 2 ^ 64 ∧ extendHeap size s = coalesceBlock (s.brk - 8) (s.grown size) := by
  have eight : 8 ≤ size := by simp only [minBlockSize, dsize, wsize] at large; omega
  simp only [extendHeap, roundUp_dsize aligned small]
  by_cases refused : s.refuse s.sbrkCalls = true ∨ 2 ^ 64 < s.brk + size
  · refine .inl ⟨refused, ?_⟩
    rw [bind_ok (show memSbrk size s = _ from if_pos refused)]
    simp
  · refine .inr ⟨by omega, ?_⟩
    set s0 : Heap := { s with brk := s.brk + size, sbrkCalls := s.sbrkCalls + 1 }
    have valid0 : ∀ k, k ≤ size → s0.Valid (s.brk - 8 + k) := fun k le =>
      ⟨by simp [s0]; omega, by simp [s0]; omega⟩
    rw [bind_ok (show memSbrk size s = _ from if_neg refused),
        if_neg (by simp only [sbrkFailed]; omega)]
    simp only [payloadToHeader, wsize, writeEpilogue]
    rw [bind_ok (pure_run _),
      bind_ok (writeBlock_ok (by simpa using valid0 0 (Nat.zero_le _)) aligned small
        fun _ _ => by simpa [Nat.add_sub_assoc eight] using valid0 (size - 8) (by omega)),
      bind_ok (findNext_ok (by simpa using valid0 0 (Nat.zero_le _))), putBlock_mem_block,
      blockWord, extractSize_pack aligned small,
      bind_ok (store_ok (by simpa using valid0 size le_rfl))]
    rfl

/-- `coalesce_block` when the previous-allocated bit is clear and the next
word is allocated: case 3 of the source, after its reads. -/
theorem coalesceBlock_prevFree {X S P sP : Nat} (validX : s.Valid X) (validN : s.Valid (X + S))
    (validP : s.Valid P) (size : extractSize (s.mem X) = S)
    (prevFree : extractPrevAlloc (s.mem X) = false)
    (nextAlloc : extractAlloc (s.mem (X + S)) = true) (prev : findPrev X s = .ok (P, s))
    (prevSize : extractSize (s.mem P) = sP) :
    coalesceBlock X s =
      (do removeFromFree P (findIndex sP)
          writeBlock P (wrap (sP + S)) false
          let nextSize ← getSize (X + S)
          writeBlock (X + S) nextSize false
          return P) s := by
  simp only [coalesceBlock]
  rw [bind_ok (findNext_ok validX), size, bind_ok (getPrevAlloc_ok validX), prevFree,
    bind_ok (getAlloc_ok validN), nextAlloc]
  simp only [Bool.not_false, ite_true, Bool.false_eq_true, ite_false]
  rw [bind_ok prev, bind_ok (getSize_ok validX), size, bind_ok (getSize_ok validP), prevSize,
    bind_ok (pure_run _), bind_ok (getSize_ok validP), prevSize]

theorem unlink_mem_congr {t : Heap} {i p n a : Nat} (same : t.mem a = s.mem a) :
    (t.unlink i p n).mem a = (s.unlink i p n).mem a := by
  rw [unlink_mem, unlink_mem, same]

namespace HeapInv

variable {bs : List Blk} {Ls : Nat → List Nat} {size : Nat}

/-- The new block and epilogue lie above every payload. -/
theorem keeps_grown {holes : List Nat} (inv : HeapInv s bs Ls holes) (eight : 8 ≤ size) :
    Keeps bs s (s.grown size) := fun _ pay =>
  grown_mem_below eight (Nat.lt_of_not_le fun above => inv.not_inPayload_above above pay)

/-- Case 1 of the coalescing in `extend_heap`: the new block is the last
block, off the buckets. -/
theorem grown_afterAlloc (inv : HeapInv s bs Ls []) (aligned : size % 16 = 0)
    (large : minBlockSize < size) (fits : s.brk + size ≤ 2 ^ 64)
    (prevAlloc : extractPrevAlloc (s.mem (s.brk - 8)) = true) :
    HeapInv (s.grown size) (bs ++ [⟨s.brk - 8, size, false⟩]) Ls [s.brk - 8] := by
  have eight : 8 ≤ size := by simp only [minBlockSize, dsize, wsize] at large; omega
  have room := inv.room
  have below : ∀ b ∈ bs, ∀ a, b.addr ≤ a → a < b.addr + b.size →
      (s.grown size).mem a = s.mem a :=
    fun b member a _ high => grown_mem_below eight (by have := inv.bounds member; omega)
  refine inv.reshape (by simp) (by simp) (by simp) (by simpa using fits) ?_ ?_ ?_ (by simp)
    ?_ ?_ ?_ ?_
  · rw [grown_heapStart, grown_brk]
    exact Layout.append_iff.mpr ⟨_, inv.layout, rfl, show 16 ≤ size by omega, aligned,
      show s.brk - 8 + size = s.brk + size - 8 by omega⟩
  · intro b member
    rcases List.mem_append.mp member with old | new
    · exact (inv.tags b old).frame (inv.bounds old).2.2.1 (below b old)
    · obtain rfl := List.mem_singleton.mp new
      refine ⟨⟨extractPrevMiniBlock (s.mem (s.brk - 8)), ?_⟩,
        fun _ large => grown_mem_footer large⟩
      rw [grown_mem_block eight, prevAlloc]
  · refine ⟨true, false, false, ?_, fun _ => ⟨bs, _, rfl, rfl, large⟩⟩
    rw [grown_brk, show s.brk + size - 8 = s.brk - 8 + size by omega, grown_mem_epilogue]
  · intro i bucket y member
    obtain ⟨b, bMem, rfl, -, index⟩ := inv.listed_block bucket member
    have := inv.bounds bMem
    have size := (inv.size_of_index bMem).2
    exact ⟨below b bMem _ (by omega) (by omega), fun nonzero =>
      below b bMem _ (by omega) (by have := size.mp (index ▸ nonzero); omega)⟩
  · exact fun b member _ _ => List.mem_append_left _ member
  · intro b member _ notHole
    rcases List.mem_append.mp member with old | new
    · exact ⟨old, List.not_mem_nil _⟩
    · obtain rfl := List.mem_singleton.mp new
      exact absurd (List.mem_singleton_self _) notHole
  · intro i bucket a hole listed
    obtain rfl := List.mem_singleton.mp hole
    obtain ⟨b, bMem, addr, -⟩ := inv.listed_block bucket listed
    have := inv.bounds bMem
    omega

/-- What the merge of case 3 leaves after the new block: the new epilogue,
untouched by `removeFromFree` and by the merged block's tags. -/
theorem merged_next {L : Blk} {i p n : Nat} (eight : 8 ≤ size)
    (last : L.addr + L.size = s.brk - 8)
    (above : ∀ a, s.brk - 8 ≤ a →
      ((s.grown size).unlink i p n).mem a = (s.grown size).mem a) :
    (((s.grown size).unlink i p n).putBlock L.addr (L.size + size) false).mem (s.brk - 8 + size) =
      pack 0 true false false := by
  rw [putBlock_mem_other (by omega) fun _ _ => by omega, above _ (by omega), grown_mem_epilogue]

/-- Case 3 of the coalescing in `extend_heap`, as a run: the last block `L`
leaves its bucket and absorbs the new block, and the new epilogue is
rewritten with its allocated bit clear. -/
theorem grown_afterFree_run {pre : List Blk} {L : Blk} {p n : Nat}
    (inv : HeapInv s (pre ++ [L]) Ls []) (free : L.alloc = false) (big : minBlockSize < L.size)
    (aligned : size % 16 = 0) (large : minBlockSize < size) (fits : s.brk + size ≤ 2 ^ 64)
    (prevFree : extractPrevAlloc (s.mem (s.brk - 8)) = false)
    (remove : removeFromFree L.addr (findIndex L.size) (s.grown size) =
      .ok ((), (s.grown size).unlink (findIndex L.size) p n))
    (above : ∀ a, s.brk - 8 ≤ a →
      ((s.grown size).unlink (findIndex L.size) p n).mem a = (s.grown size).mem a) :
    coalesceBlock (s.brk - 8) (s.grown size) = .ok (L.addr,
      (((s.grown size).unlink (findIndex L.size) p n).putBlock L.addr (L.size + size)
        false).putBlock (s.brk - 8 + size) 0 false) := by
  have member : L ∈ pre ++ [L] := by simp
  have hdr := inv.header member
  obtain ⟨low, -, lsize, lmod, -⟩ := inv.bounds member
  have last : L.addr + L.size + 8 = s.brk := by have := inv.last_end; omega
  have eight : 8 ≤ size := by simp only [minBlockSize, dsize, wsize] at large; omega
  have validT : ∀ a, s.lo ≤ a → a + 8 ≤ s.brk + size → (s.grown size).Valid a :=
    fun a low high => ⟨by simpa using low, by simpa using high⟩
  have prev : findPrev (s.brk - 8) (s.grown size) = .ok (L.addr, s.grown size) := by
    have valid : (s.grown size).Valid (s.brk - 8 - 8) := validT _ (by omega) (by omega)
    have footer : (s.grown size).mem (s.brk - 8 - 8) = s.mem L.addr := by
      rw [grown_mem_below eight (by omega), ← (inv.tags L member).2 free big,
        show L.addr + L.size - 8 = s.brk - 8 - 8 by omega]
    simp only [minBlockSize, dsize, wsize] at big
    simp only [findPrev, findPrevFooter, footerToHeader, wsize]
    rw [bind_ok (load_ok valid), footer, hdr.1, if_neg (by omega), bind_ok (pure_run _),
      bind_ok (load_ok valid), footer, hdr.1, show s.brk - 8 - 8 + 8 - L.size = L.addr by omega]
    rfl
  have validM : ∀ a, s.lo ≤ a → a + 8 ≤ s.brk + size →
      (((s.grown size).unlink (findIndex L.size) p n).putBlock L.addr (L.size + size)
        false).Valid a :=
    fun a low high => by simpa using validT a low high
  have small : L.size + size < 2 ^ 64 := by omega
  rw [coalesceBlock_prevFree (S := size) (P := L.addr) (validT _ (by omega) (by omega))
      (validT _ (by omega) (by omega)) (validT _ (by omega) (by omega))
      (by rw [grown_mem_block eight, extractSize_pack aligned (by omega)])
      (by rw [grown_mem_block eight, prevFree, extractPrevAlloc_pack aligned])
      (by rw [grown_mem_epilogue, extractAlloc_pack rfl]) prev
      (by rw [grown_mem_below eight (by omega), hdr.1]),
    bind_ok remove, wrap, Nat.mod_eq_of_lt small,
    bind_ok (writeBlock_ok (by simpa using validT _ (by omega) (by omega)) (by omega) small
      fun _ _ => by simpa using validT (L.addr + (L.size + size) - 8) (by omega) (by omega)),
    bind_ok (getSize_ok (validM _ (by omega) (by omega))), merged_next eight inv.last_end above,
    extractSize_pack rfl (by decide),
    bind_ok (writeBlock_ok (validM _ (by omega) (by omega)) rfl (by decide)
      fun _ large => absurd large (by decide))]
  rfl

/-- Case 3 of the coalescing in `extend_heap`, as an invariant: the merged
block is the last block, off the buckets, and the epilogue after it is free
with a clear previous-allocated bit. -/
theorem grown_afterFree_inv {pre : List Blk} {L : Blk} {p n : Nat}
    (invR : HeapInv (s.unlink (findIndex L.size) p n) (pre ++ [L])
      (setBucket Ls (findIndex L.size) ((Ls (findIndex L.size)).erase L.addr)) [L.addr])
    (aligned : size % 16 = 0) (large : minBlockSize < size) (fits : s.brk + size ≤ 2 ^ 64)
    (above : ∀ a, s.brk - 8 ≤ a →
      ((s.grown size).unlink (findIndex L.size) p n).mem a = (s.grown size).mem a) :
    HeapInv ((((s.grown size).unlink (findIndex L.size) p n).putBlock L.addr (L.size + size)
        false).putBlock (s.brk - 8 + size) 0 false) (pre ++ [⟨L.addr, L.size + size, false⟩])
      (setBucket Ls (findIndex L.size) ((Ls (findIndex L.size)).erase L.addr)) [L.addr] := by
  have member : L ∈ pre ++ [L] := by simp
  have last : L.addr + L.size = s.brk - 8 := by simpa using invR.last_end
  have bounds := invR.bounds member
  simp only [unlink_lo, unlink_brk] at bounds
  have eight : 8 ≤ size := by simp only [minBlockSize, dsize, wsize] at large; omega
  obtain ⟨m, Lpre, rfl, -, -, -⟩ := Layout.append_iff.mp invR.layout
  have preBelow : ∀ c ∈ pre, c.addr + c.size ≤ L.addr := fun c cMem =>
    (Lpre.bounds c cMem).2.1
  have low : ∀ a, a < L.addr →
      ((((s.grown size).unlink (findIndex L.size) p n).putBlock L.addr (L.size + size)
        false).putBlock (s.brk - 8 + size) 0 false).mem a =
        (s.unlink (findIndex L.size) p n).mem a :=
    fun a away => by
      rw [putBlock_mem_other (by omega) fun _ large => absurd large (by decide),
        putBlock_mem_other (by omega) fun _ _ => by omega,
        unlink_mem_congr (grown_mem_below eight (by omega))]
  have merged : TagOk (((s.grown size).unlink (findIndex L.size) p n).putBlock L.addr
      (L.size + size) false).mem ⟨L.addr, L.size + size, false⟩ := by
    refine putBlock_tagOk ?_
    rw [unlink_mem_congr (grown_mem_below eight (by omega))]
    exact (invR.header member).2.2
  refine invR.reshape (by simp) (by simp) (by simp) (by simpa using fits) ?_ ?_ ?_
    (by funext j; simp [unlink_segList]) ?_ ?_ ?_ invR.off
  · simp only [putBlock_heapStart, unlink_heapStart, grown_heapStart, putBlock_brk, unlink_brk,
      grown_brk]
    exact Layout.append_iff.mpr ⟨_, by simpa using Lpre, rfl, show 16 ≤ L.size + size by omega,
      show (L.size + size) % 16 = 0 by omega,
      show L.addr + (L.size + size) = s.brk + size - 8 by omega⟩
  · intro c member
    rcases List.mem_append.mp member with old | new
    · have := preBelow c old
      exact (invR.tags c (by simp [old])).frame (invR.bounds (by simp [old])).2.2.1 fun a _ high =>
        low a (by omega)
    · obtain rfl := List.mem_singleton.mp new
      exact merged.congr
        (putBlock_mem_other (by simp only; omega) fun _ large => absurd large (by decide))
        fun _ _ => putBlock_mem_other (by simp only; omega) fun _ large => absurd large (by decide)
  · refine ⟨false, false, false, ?_,
      fun _ => ⟨pre, _, rfl, rfl, by simp only [minBlockSize, dsize, wsize]; omega⟩⟩
    simp only [putBlock_brk, unlink_brk, grown_brk]
    rw [show s.brk + size - 8 = s.brk - 8 + size by omega, putBlock_mem_block, blockWord,
      merged_next eight last above, extractPrevAlloc_pack rfl, extractPrevMiniBlock_pack rfl]
  · intro j bucket y listed
    obtain ⟨c, cMem, rfl, -, index⟩ := invR.listed_block bucket listed
    have notLast : c.addr ≠ L.addr := fun same =>
      invR.off j bucket _ (List.mem_singleton_self _) (same ▸ listed)
    have old : c ∈ pre := by
      rcases List.mem_append.mp cMem with old | new
      · exact old
      · exact absurd (by rw [List.mem_singleton.mp new]) notLast
    have := preBelow c old
    have size := (invR.size_of_index cMem).2
    have := invR.bounds cMem
    exact ⟨low _ (by omega),
      fun nonzero => low _ (by have := size.mp (index ▸ nonzero); omega)⟩
  · intro c member _ notHole
    rcases List.mem_append.mp member with old | new
    · exact List.mem_append_left _ old
    · exact absurd (by rw [List.mem_singleton.mp new]; exact List.mem_singleton_self _) notHole
  · intro c member _ notHole
    rcases List.mem_append.mp member with old | new
    · exact ⟨List.mem_append_left _ old, notHole⟩
    · exact absurd (by rw [List.mem_singleton.mp new]; exact List.mem_singleton_self _) notHole

/-- Case 3 of the coalescing in `extend_heap`: the last block was free; it
leaves its bucket and absorbs the new block, and the epilogue is rewritten
with its allocated bit clear. -/
theorem grown_afterFree {pre : List Blk} {L : Blk} (inv : HeapInv s (pre ++ [L]) Ls [])
    (free : L.alloc = false) (big : minBlockSize < L.size) (aligned : size % 16 = 0)
    (large : minBlockSize < size) (fits : s.brk + size ≤ 2 ^ 64)
    (prevFree : extractPrevAlloc (s.mem (s.brk - 8)) = false) :
    ∃ s' Ls', coalesceBlock (s.brk - 8) (s.grown size) = .ok (L.addr, s') ∧
      s'.lo = s.lo ∧ s'.heapStart = s.heapStart ∧ s'.refuse = s.refuse ∧
      s'.sbrkCalls = s.sbrkCalls + 1 ∧
      HeapInv s' (pre ++ [⟨L.addr, L.size + size, false⟩]) Ls' [L.addr] ∧
        Keeps (pre ++ [L]) s s' := by
  have member : L ∈ pre ++ [L] := by simp
  have eight : 8 ≤ size := by simp only [minBlockSize, dsize, wsize] at large; omega
  obtain ⟨p, n, run, invR, pListed, nListed⟩ :=
    inv.remove (findIndex_lt L.size) (inv.complete L member free (List.not_mem_nil _))
  /- Link words of listed blocks lie below the old epilogue. -/
  have linkBelow :
      ∀ i < numSegs, ∀ y ∈ Ls i, y + 8 < s.brk - 8 ∧ (i ≠ 0 → y + 16 < s.brk - 8) := by
    intro i bucket y listed
    obtain ⟨c, cMem, rfl, -, index⟩ := inv.listed_block bucket listed
    have := inv.bounds cMem
    have size := (inv.size_of_index cMem).2
    exact ⟨by omega, fun nonzero => by have := size.mp (index ▸ nonzero); omega⟩
  have above : ∀ a, s.brk - 8 ≤ a →
      ((s.grown size).unlink (findIndex L.size) p n).mem a = (s.grown size).mem a := by
    intro a away
    rw [unlink_mem]
    split_ifs with first second
    · have := (linkBelow _ (findIndex_lt _) n (nListed first.2.1)).2 first.1; omega
    · have := (linkBelow _ (findIndex_lt _) p (pListed second.1)).1; omega
    · rfl
  have remove := run (s.grown size) (by simp) (by simp) (by simp) fun y listed =>
    ⟨grown_mem_below eight (linkBelow _ (findIndex_lt _) y listed).1,
      fun nonzero => grown_mem_below eight ((linkBelow _ (findIndex_lt _) y listed).2 nonzero)⟩
  /- Besides the words above the old epilogue, the merge writes the links of
  `L`'s bucket neighbours and the header of `L`. -/
  have last := inv.last_end
  have keeps : Keeps (pre ++ [L]) s
      ((((s.grown size).unlink (findIndex L.size) p n).putBlock L.addr (L.size + size)
        false).putBlock (s.brk - 8 + size) 0 false) :=
    ((((inv.keeps_grown eight).unlink
      (fun nonzero => inv.not_inPayload_listed (findIndex_lt _) (pListed nonzero) (.inl (by omega)))
      fun upper nonzero => inv.not_inPayload_listed (findIndex_lt _) (nListed nonzero)
        (.inr ⟨upper, by omega⟩)).putBlock
      (inv.not_inPayload_header member) fun _ _ => inv.not_inPayload_above (by omega)).putBlock
      (inv.not_inPayload_above (by omega)) fun _ large => absurd large (by decide))
  exact ⟨_, _, inv.grown_afterFree_run free big aligned large fits prevFree remove above,
    by simp, by simp, by simp, by simp, invR.grown_afterFree_inv aligned large fits above, keeps⟩

/-- `extend_heap` on an initialised heap: NULL with nothing changed but the
provider's count when `mem_sbrk` refuses; otherwise a free block of at least
`size` bytes, the last of the heap and off the buckets, with the same
allocated blocks as before. -/
theorem extend (inv : HeapInv s bs Ls []) (aligned : size % 16 = 0) (large : minBlockSize < size)
    (small : size < 2 ^ 64) :
    (s.refuse s.sbrkCalls = true ∨ 2 ^ 64 < s.brk + size) ∧
        extendHeap size s = .ok (0, { s with sbrkCalls := s.sbrkCalls + 1 }) ∨
      ∃ s' pre b Ls', extendHeap size s = .ok (b.addr, s') ∧
        s'.lo = s.lo ∧ s'.heapStart = s.heapStart ∧ s'.refuse = s.refuse ∧
        s'.sbrkCalls = s.sbrkCalls + 1 ∧ HeapInv s' (pre ++ [b]) Ls' [b.addr] ∧
        Keeps bs s s' ∧ b.alloc = false ∧ size ≤ b.size ∧
        ∀ c, c ∈ pre ++ [b] ∧ c.alloc = true ↔ c ∈ bs ∧ c.alloc = true := by
  rcases extendHeap_eq inv.room aligned large small with refused | ⟨fits, run⟩
  · exact .inl refused
  refine .inr ?_
  cases prevAlloc : extractPrevAlloc (s.mem (s.brk - 8))
  · obtain ⟨alloc, clear, mini, word, cond⟩ := inv.epi
    rw [word, extractPrevAlloc_pack rfl] at prevAlloc
    obtain ⟨pre, L, rfl, free, big⟩ := cond prevAlloc
    obtain ⟨s', Ls', coalesced, lo, start, refuse, calls, inv', keeps⟩ :=
      inv.grown_afterFree free big aligned large fits
        (by rw [word, extractPrevAlloc_pack rfl, prevAlloc])
    refine ⟨s', pre, ⟨L.addr, L.size + size, false⟩, Ls', run.trans coalesced, lo, start,
      refuse, calls, inv', keeps, rfl, by simp, fun c => ?_⟩
    simp only [List.mem_append, List.mem_singleton]
    constructor
    · rintro ⟨old | rfl, used⟩
      exacts [⟨.inl old, used⟩, absurd used (by simp)]
    · rintro ⟨old | rfl, used⟩
      exacts [⟨.inl old, used⟩, absurd used (by simp [free])]
  · have inv' := inv.grown_afterAlloc aligned large fits prevAlloc
    have coalesced := inv'.coalesce_nextAlloc (b := ⟨s.brk - 8, size, false⟩) (by simp) rfl
      (by rw [grown_mem_epilogue, extractAlloc_pack rfl])
    refine ⟨_, bs, _, Ls, run.trans coalesced, by simp, by simp, by simp, by simp, inv',
      inv.keeps_grown (by simp only [minBlockSize, dsize, wsize] at large; omega), rfl, le_rfl,
      fun c => ?_⟩
    simp only [List.mem_append, List.mem_singleton]
    constructor
    · rintro ⟨old | rfl, used⟩
      exacts [⟨old, used⟩, absurd used (by simp)]
    · exact fun ⟨old, used⟩ => ⟨.inl old, used⟩

end HeapInv

/-- A first `malloc` above 4088 bytes extends the heap past the free first
chunk, and leaves the epilogue with its allocated bit clear. -/
theorem epilogue_freed_by_large_first_malloc :
    ∃ σ, runClient (Heap.initial (fun _ => 0) (fun _ => false)) true [.malloc 5000] = some σ ∧
      Reachable σ ∧ σ.heap.heapStart ≠ 0 ∧
      extractAlloc (σ.heap.mem (σ.heap.brk - 8)) = false :=
  ⟨_, runClient_eq_clientSession (by decide), clientSession_reachable (by decide), by decide,
    by decide⟩

end SegMalloc
