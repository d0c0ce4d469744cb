import SegMalloc.Frame

/-!
# `free` keeps the invariant

`free` turns the block into a hole, `coalesce_block` merges it with a free
successor (its predecessor is always allocated: every header has its
previous-allocated bit set), and `addToFree` lists the result.  The one way
out is the fault of case 2 when the epilogue word reads free: then
`removeFromFree` reads past the end of the heap.
-/

namespace SegMalloc

variable {s : Heap}

/-- `coalesce_block` on a block whose previous-allocated bit is set: cases 1
and 2 of the source, after the reads they share. -/
theorem coalesceBlock_prevAlloc {X S sN : Nat} (validX : s.Valid X) (validN : s.Valid (X + S))
    (size : extractSize (s.mem X) = S) (nextSize : extractSize (s.mem (X + S)) = sN)
    (prevAlloc : extractPrevAlloc (s.mem X) = true) :
    coalesceBlock X s =
      if extractAlloc (s.mem (X + S)) then
        (do writeBlock X S false
            let nextSize ← getSize (X + S)
            writeBlock (X + S) nextSize true
            return X) s
      else
        (do let nextSize ← getSize (X + S)
            removeFromFree (X + S) (findIndex nextSize)
            writeBlock X (wrap (sN + S)) false
            writeBlock (X + S) (wrap (sN + S)) true
            return X) s := by
  simp only [coalesceBlock]
  rw [bind_ok (findNext_ok validX), size, bind_ok (getPrevAlloc_ok validX), prevAlloc,
    bind_ok (getAlloc_ok validN)]
  simp only [Bool.not_true, Bool.false_eq_true, ite_false, ite_true]
  rw [bind_ok (pure_run _), bind_ok (getSize_ok validX), size, bind_ok (getSize_ok validN),
    nextSize]
  split <;> rfl

namespace HeapInv

section Words

variable {bs : List Blk} {Ls : Nat → List Nat} {holes : List Nat} (inv : HeapInv s bs Ls holes)
include inv

/-- After a block comes the epilogue or the next block. -/
theorem next_word {b : Blk} (member : b ∈ bs) :
    b.addr + b.size = s.brk - 8 ∨ ∃ c ∈ bs, c.addr = b.addr + b.size := by
  obtain ⟨pre, post, rfl, -, -, -, rest⟩ := inv.layout.split_at member
  rcases Layout.next_cases rest with ⟨-, last⟩ | ⟨c, rest, rfl, addr⟩
  · exact .inl last
  · exact .inr ⟨c, by simp, addr⟩

/-- `write_block` on a block of the tiling, with its own size. -/
theorem writeBlock_at {b : Blk} (member : b ∈ bs) (alloc : Bool) :
    writeBlock b.addr b.size alloc s = .ok ((), s.putBlock b.addr b.size alloc) :=
  writeBlock_ok (by simpa using inv.valid member (Nat.zero_le _) rfl) (inv.bounds member).2.2.2.1
    (inv.small member) fun _ _ => inv.valid_footer member

/-- Rewriting the word after a block with what it reads back changes nothing. -/
theorem writeBlock_next {b : Blk} (member : b ∈ bs) :
    writeBlock (b.addr + b.size) (extractSize (s.mem (b.addr + b.size)))
      (extractAlloc (s.mem (b.addr + b.size))) s = .ok ((), s) := by
  rcases inv.next_word member with last | ⟨c, cMem, addr⟩
  · rw [last, inv.epilogue_size, writeBlock_ok inv.valid_epilogue rfl (by decide)
      fun _ large => absurd large (by decide), inv.putBlock_epilogue]
  · have hdr := inv.header cMem
    rw [← addr, hdr.1, hdr.2.1, inv.writeBlock_at cMem, inv.putBlock_same cMem]

theorem valid_next {b : Blk} (member : b ∈ bs) : s.Valid (b.addr + b.size) := by
  rcases inv.next_word member with last | ⟨c, cMem, addr⟩
  · exact last ▸ inv.valid_epilogue
  · simpa [addr] using inv.valid cMem (Nat.zero_le _) rfl

end Words

variable {pre post : List Blk} {Ls : Nat → List Nat} {holes : List Nat}

/-- `write_block(block, size, false)` on an allocated block: it becomes a
free block off the buckets. -/
theorem release {b : Blk} (inv : HeapInv s (pre ++ [b] ++ post) Ls holes) (used : b.alloc = true) :
    HeapInv (s.putBlock b.addr b.size false) (pre ++ [⟨b.addr, b.size, false⟩] ++ post) Ls
      (b.addr :: holes) := by
  have member : b ∈ pre ++ [b] ++ post := by simp
  have bounds := inv.bounds member
  refine inv.resegment (List.cons_ne_nil _ _) ⟨rfl, bounds.2.2.1, bounds.2.2.2.1, rfl⟩
    ⟨rfl, bounds.2.2.1, bounds.2.2.2.1, rfl⟩ (by simp) (by simp) (by simp) (by simp)
    (fun a outside _ => putBlock_mem_outside (by omega) outside) ?_ ?_ ?_ ?_ ?_ ?_
  · simp only [List.mem_singleton, forall_eq]
    exact putBlock_tagOk (inv.header member).2.2
  · refine (inv.epi.replace (List.cons_ne_nil _ _) fun _ c found free _ => ?_).frame
      (putBlock_mem_outside (by omega) (.inr (by omega)))
    simp only [List.getLast?_singleton, Option.mem_def, Option.some.injEq] at found
    simp [← found, used] at free
  · simp [used]
  · simp
  · exact fun _ _ _ hole => List.mem_cons_of_mem _ hole
  · intro i bucket a hole listed
    rcases List.mem_cons.mp hole with rfl | hole
    · obtain ⟨c, cMem, addr, free, -⟩ := inv.listed_block bucket listed
      simp [inv.layout.eq_of_addr cMem member addr, used] at free
    · exact inv.off i bucket a hole listed

/-- Case 2 of `coalesce_block`: a hole and the free block after it, already
off its bucket, become one hole; `write_block(next, size, true)` leaves its
word inside the merged block. -/
theorem merge {b c : Blk} (inv : HeapInv s (pre ++ [b, c] ++ post) Ls holes)
    (bHole : b.addr ∈ holes) (cHole : c.addr ∈ holes) :
    HeapInv ((s.putBlock b.addr (c.size + b.size) false).putBlock c.addr (c.size + b.size) true)
      (pre ++ [⟨b.addr, c.size + b.size, false⟩] ++ post) Ls (holes.erase c.addr) := by
  have bMem : b ∈ pre ++ [b, c] ++ post := by simp
  have cMem : c ∈ pre ++ [b, c] ++ post := by simp
  obtain ⟨x, y, -, ⟨rfl, bMin, bMul, cAddr, cMin, cMul, rfl⟩, -⟩ :=
    Layout.append3_iff.mp inv.layout
  have span : Layout b.addr [b, c] (b.addr + b.size + c.size) :=
    ⟨rfl, bMin, bMul, cAddr, cMin, cMul, rfl⟩
  have span' : Layout b.addr [(⟨b.addr, c.size + b.size, false⟩ : Blk)]
      (b.addr + b.size + c.size) :=
    ⟨rfl, by simp; omega, by simp; omega, by simp; omega⟩
  have apart : b.addr ≠ c.addr := by omega
  have second : ∀ a, a ≠ c.addr →
      ((s.putBlock b.addr (c.size + b.size) false).putBlock c.addr (c.size + b.size) true).mem a =
        (s.putBlock b.addr (c.size + b.size) false).mem a := fun a other =>
    putBlock_mem_other other (by simp)
  refine inv.resegment (List.cons_ne_nil _ _) span span' (by simp) (by simp) (by simp) (by simp)
    (fun a outside _ => ?_) ?_ ?_ ?_ ?_ ?_ ?_
  · rw [second a (by omega), putBlock_mem_outside (by omega) (by omega)]
  · simp only [List.mem_singleton, forall_eq]
    refine (putBlock_tagOk (inv.header bMem).2.2).congr (second _ apart) fun _ _ => second _ ?_
    simp only; omega
  · refine (inv.epi.replace (List.cons_ne_nil _ _) fun _ d found _ _ => ?_).frame ?_
    · exact ⟨⟨b.addr, c.size + b.size, false⟩, rfl, rfl, by
        simp only [minBlockSize, dsize, wsize]; omega⟩
    · have := inv.bounds cMem
      rw [second _ (by omega), putBlock_mem_outside (by omega) (by omega)]
  · simp only [List.mem_cons, List.mem_singleton, List.not_mem_nil, or_false, forall_eq_or_imp,
      forall_eq]
    exact ⟨fun _ => bHole, fun _ => cHole⟩
  · simp only [List.mem_singleton, forall_eq]
    exact fun _ => (List.mem_erase_of_ne apart).mpr bHole
  · intro d side _ hole
    exact (List.mem_erase_of_ne (inv.layout.addr_ne_of_mid side (by simp))).mpr hole
  · exact fun i bucket a hole => inv.off i bucket a (List.mem_of_mem_erase hole)

/-- A last block ends at the epilogue. -/
theorem last_end {b : Blk} (inv : HeapInv s (pre ++ [b]) Ls holes) :
    b.addr + b.size = s.brk - 8 := by
  obtain ⟨x, -, ⟨rfl, -, -, rest⟩⟩ := Layout.append_iff.mp inv.layout
  exact rest

/-- The block after `b` starts where `b` ends. -/
theorem next_addr {b c : Blk} (inv : HeapInv s (pre ++ [b, c] ++ post) Ls holes) :
    c.addr = b.addr + b.size := by
  obtain ⟨x, y, -, ⟨rfl, -, -, addr, -⟩, -⟩ := Layout.append3_iff.mp inv.layout
  exact addr

/-- Case 1 of `coalesce_block`: the successor is allocated, and rewriting
both blocks with what they hold changes nothing. -/
theorem coalesce_nextAlloc {bs : List Blk} {b : Blk} (inv : HeapInv s bs Ls holes)
    (member : b ∈ bs)
    (free : b.alloc = false) (nextAlloc : extractAlloc (s.mem (b.addr + b.size)) = true) :
    coalesceBlock b.addr s = .ok (b.addr, s) := by
  have hdr := inv.header member
  have same := inv.putBlock_same member
  have next := inv.writeBlock_next member
  rw [free] at same
  rw [nextAlloc] at next
  rw [coalesceBlock_prevAlloc (by simpa using inv.valid member (Nat.zero_le _) rfl)
      (inv.valid_next member) hdr.1 rfl hdr.2.2, if_pos nextAlloc,
    bind_ok (inv.writeBlock_at member false), same, bind_ok (getSize_ok (inv.valid_next member)),
    bind_ok next]
  rfl

/-- Case 2 of `coalesce_block`: a hole followed by a listed free block; the
successor leaves its bucket and the two become one hole. -/
theorem coalesce_nextFree {b c : Blk} (inv : HeapInv s (pre ++ [b, c] ++ post) Ls holes)
    (hole : b.addr ∈ holes) (cFree : c.alloc = false) (cListed : c.addr ∉ holes) :
    ∃ s' Ls', coalesceBlock b.addr s = .ok (b.addr, s') ∧ s.SameRegion s' ∧
      HeapInv s' (pre ++ [⟨b.addr, c.size + b.size, false⟩] ++ post) Ls' holes ∧
      Keeps (pre ++ [b, c] ++ post) s s' := by
  have bMem : b ∈ pre ++ [b, c] ++ post := by simp
  have cMem : c ∈ pre ++ [b, c] ++ post := by simp
  have hdr := inv.header bMem
  have cHdr := inv.header cMem
  have addr := inv.next_addr
  have cBounds := inv.bounds cMem
  have top := inv.top
  have validC : s.Valid c.addr := by simpa using inv.valid cMem (Nat.zero_le _) rfl
  obtain ⟨p, n, run, inv2, pListed, nListed⟩ :=
    inv.remove (findIndex_lt c.size) (inv.complete c cMem cFree cListed)
  have run2 := run s rfl le_rfl rfl fun _ _ => ⟨rfl, fun _ => rfl⟩
  set s2 := s.unlink (findIndex c.size) p n
  have region2 : s.SameRegion s2 :=
    ⟨by simp [s2], by simp [s2], by simp [s2], by simp [s2], by simp [s2]⟩
  have small : c.size + b.size < 2 ^ 64 := by have := inv.bounds bMem; omega
  have aligned : (c.size + b.size) % 16 = 0 := by have := inv.bounds bMem; omega
  have write3 : writeBlock b.addr (c.size + b.size) false s2 =
      .ok ((), s2.putBlock b.addr (c.size + b.size) false) :=
    writeBlock_ok (by simpa using inv2.valid bMem (Nat.zero_le _) rfl) aligned small fun _ _ => by
      have := inv2.valid_footer cMem
      rwa [addr, show b.addr + b.size + c.size - 8 = b.addr + (c.size + b.size) - 8 by omega]
        at this
  have write4 : writeBlock c.addr (c.size + b.size) true
      (s2.putBlock b.addr (c.size + b.size) false) =
      .ok ((), (s2.putBlock b.addr (c.size + b.size) false).putBlock c.addr
        (c.size + b.size) true) :=
    writeBlock_ok (by simpa using inv2.valid cMem (Nat.zero_le _) rfl) aligned small (by simp)
  rw [coalesceBlock_prevAlloc (by simpa using inv.valid bMem (Nat.zero_le _) rfl) (addr ▸ validC)
      hdr.1 (addr ▸ cHdr.1) hdr.2.2, if_neg (by rw [← addr, cHdr.2.1, cFree]; decide), ← addr,
    bind_ok (getSize_ok validC), cHdr.1, bind_ok run2, wrap, Nat.mod_eq_of_lt small, bind_ok write3,
    bind_ok write4]
  have merged := inv2.merge (List.mem_cons_of_mem _ hole) (List.mem_cons_self _ _)
  rw [List.erase_cons_head] at merged
  /- The links of the successor's bucket neighbours, then the merged block's
  header and footer, and the successor's old header. -/
  have keeps : Keeps (pre ++ [b, c] ++ post) s
      ((s2.putBlock b.addr (c.size + b.size) false).putBlock c.addr (c.size + b.size) true) :=
    (((Keeps.refl _ s).unlink
      (fun nonzero => inv.not_inPayload_listed (findIndex_lt _) (pListed nonzero) (.inl (by omega)))
      fun upper nonzero => inv.not_inPayload_listed (findIndex_lt _) (nListed nonzero)
        (.inr ⟨upper, by omega⟩)).putBlock
      (inv.not_inPayload_header bMem) fun _ _ =>
        inv.not_inPayload_free cMem cFree (by omega) (by omega)).putBlock
      (inv.not_inPayload_header cMem) (by simp)
  exact ⟨_, _, rfl, region2.trans ⟨by simp, by simp, by simp, by simp, by simp⟩, merged,
    keeps⟩

/-- Case 2 of `coalesce_block` when the word after the last block is the
epilogue with its allocated bit clear: `removeFromFree` on the epilogue reads
its `prev` field, past the end of the heap. -/
theorem coalesce_epilogueFree {b : Blk} (inv : HeapInv s (pre ++ [b]) Ls holes)
    (epiFree : extractAlloc (s.mem (s.brk - 8)) = false) :
    coalesceBlock b.addr s = .error (.segv (s.brk + 8)) := by
  have member : b ∈ pre ++ [b] := by simp
  have hdr := inv.header member
  have last := inv.last_end
  have room := inv.room
  rw [coalesceBlock_prevAlloc (by simpa using inv.valid member (Nat.zero_le _) rfl)
      (last ▸ inv.valid_epilogue) hdr.1 (last ▸ inv.epilogue_size) hdr.2.2, last,
    if_neg (by rw [epiFree]; decide), bind_ok (getSize_ok inv.valid_epilogue), inv.epilogue_size]
  have fault : removeFromFree (s.brk - 8) (findIndex 0) s = .error (.segv (s.brk + 8)) := by
    simp only [removeFromFree]
    rw [bind_error (load_error fun valid => by have := valid.2; omega),
      show s.brk - 8 + 16 = s.brk + 8 by omega]
  rw [bind_error fault]

/-- The tail of `free`: `addToFree` on the coalesced hole. -/
theorem relist {b : Blk} (inv : HeapInv s (pre ++ [b] ++ post) Ls [b.addr])
    (free : b.alloc = false) :
    ∃ s' Ls', (do let blockSize ← getSize b.addr; addToFree b.addr (findIndex blockSize)) s =
      .ok ((), s') ∧ s.SameRegion s' ∧ HeapInv s' (pre ++ [b] ++ post) Ls' [] ∧
      Keeps (pre ++ [b] ++ post) s s' := by
  have member : b ∈ pre ++ [b] ++ post := by simp
  obtain ⟨run, region, inv'⟩ := inv.insert member free (List.not_mem_nil _)
  rw [bind_ok (getSize_ok (by simpa using inv.valid member (Nat.zero_le _) rfl)),
    (inv.header member).1]
  have bounds := inv.bounds member
  have sizes := (inv.size_of_index member).2
  /- The block's own links, and the `prev` link of the old head. -/
  refine ⟨_, _, run, region, inv', (Keeps.refl _ s).push
    (inv.not_inPayload_free member free (by omega) (by omega))
    (fun upper => inv.not_inPayload_free member free (by omega) (by have := sizes.mp upper; omega))
    fun upper nonempty => inv.not_inPayload_listed (findIndex_lt _)
      (inv.freeLists.head_mem (findIndex_lt _) nonempty) (.inr ⟨upper, by omega⟩)⟩

/-- `free` of an allocated block.  It faults exactly when the block is the
last one and the epilogue word reads free; otherwise the block, merged with a
free successor if there is one, is listed again, and no other payload
changes. -/
theorem free_spec {b : Blk} (inv : HeapInv s (pre ++ [b] ++ post) Ls []) (used : b.alloc = true) :
    (post = [] ∧ extractAlloc (s.mem (s.brk - 8)) = false ∧
      free (b.addr + 8) s = .error (.segv (s.brk + 8))) ∨
    ∃ s' size rest Ls', free (b.addr + 8) s = .ok ((), s') ∧ s.SameRegion s' ∧
      HeapInv s' (pre ++ [⟨b.addr, size, false⟩] ++ rest) Ls' [] ∧
      Keeps (pre ++ post) s s' ∧
      (rest = post ∨ ∃ c, c.alloc = false ∧ post = c :: rest) := by
  have member : b ∈ pre ++ [b] ++ post := by simp
  have inv1 := inv.release used
  have member' : (⟨b.addr, b.size, false⟩ : Blk) ∈
      pre ++ [⟨b.addr, b.size, false⟩] ++ post := by simp
  have start : free (b.addr + 8) s = (do
      let block ← coalesceBlock b.addr
      let blockSize ← getSize block
      addToFree block (findIndex blockSize)) (s.putBlock b.addr b.size false) := by
    simp only [free, payloadToHeader, wsize, Nat.add_sub_cancel, Nat.add_eq_zero,
      OfNat.ofNat_ne_zero, and_false, ite_false]
    rw [bind_ok (pure_run _),
      bind_ok (getSize_ok (by simpa using inv.valid member (Nat.zero_le _) rfl)),
      (inv.header member).1, bind_ok (inv.writeBlock_at member false)]
  /- `write_block` rewrites the block's own header and footer. -/
  have bounds := inv.bounds member
  have kept1 : Keeps (pre ++ post) s (s.putBlock b.addr b.size false) :=
    (Keeps.refl _ s).putBlock (inv.not_inPayload_mid (List.mem_singleton_self b) le_rfl (by omega))
      fun _ _ => inv.not_inPayload_mid (List.mem_singleton_self b) (by omega) (by omega)
  /- After coalescing, the hole at `b.addr` is listed. -/
  have finish : ∀ {s' : Heap} {size : Nat} {rest : List Blk} {Ls' : Nat → List Nat},
      coalesceBlock b.addr (s.putBlock b.addr b.size false) = .ok (b.addr, s') →
      s.SameRegion s' → HeapInv s' (pre ++ [⟨b.addr, size, false⟩] ++ rest) Ls' [b.addr] →
      ∃ s'' Ls'', free (b.addr + 8) s = .ok ((), s'') ∧ s.SameRegion s'' ∧
        HeapInv s'' (pre ++ [⟨b.addr, size, false⟩] ++ rest) Ls'' [] ∧
        Keeps (pre ++ [⟨b.addr, size, false⟩] ++ rest) s' s'' := by
    intro s' size rest Ls' coalesced region inv'
    obtain ⟨s'', Ls'', run, region', inv'', keeps⟩ := inv'.relist rfl
    exact ⟨s'', Ls'', by rw [start, bind_ok coalesced]; exact run, region.trans region', inv'',
      keeps⟩
  /- The payloads of the other blocks are payloads of the heap after the merge. -/
  have others : ∀ {size : Nat} {rest : List Blk},
      (rest = post ∨ ∃ c, c.alloc = false ∧ post = c :: rest) →
      ∀ a, InPayload (pre ++ post) a →
        InPayload (pre ++ [⟨b.addr, size, false⟩] ++ rest) a := by
    rintro size rest (rfl | ⟨c, cFree, rfl⟩) a pay
    · simpa [inPayload_append, inPayload_cons_free] using pay
    · simpa [inPayload_append, inPayload_cons_free, cFree] using pay
  have region1 : s.SameRegion (s.putBlock b.addr b.size false) :=
    ⟨by simp, by simp, by simp, by simp, by simp⟩
  rcases post with _ | ⟨c, rest⟩
  · simp only [List.append_nil] at inv1 member'
    have last := inv1.last_end
    have epilogue : (s.putBlock b.addr b.size false).mem (s.brk - 8) = s.mem (s.brk - 8) :=
      putBlock_mem_outside (by omega) (.inr (by simp at last; omega))
    cases epi : extractAlloc (s.mem (s.brk - 8))
    · refine .inl ⟨rfl, rfl, ?_⟩
      rw [start, bind_error (inv1.coalesce_epilogueFree (by rw [putBlock_brk, epilogue, epi]))]
      simp
    · obtain ⟨s'', Ls'', run, region, inv'', keeps⟩ := finish
        (inv1.coalesce_nextAlloc (b := ⟨b.addr, b.size, false⟩) member' rfl
          (by rw [last]; simpa [epilogue] using epi)) region1
        (by simpa using inv1)
      exact .inr ⟨s'', _, [], Ls'', run, region, by simpa using inv'',
        kept1.trans (keeps.mono (others (.inl rfl))), .inl rfl⟩
  · have addr := (show HeapInv _ (pre ++ [⟨b.addr, b.size, false⟩, c] ++ rest) Ls [b.addr] by
      simpa using inv1).next_addr
    have cMem : c ∈ pre ++ [⟨b.addr, b.size, false⟩] ++ c :: rest := by simp
    have cHdr := inv1.header cMem
    cases cAlloc : c.alloc
    · obtain ⟨s', Ls', coalesced, region, inv', merged⟩ :=
        (show HeapInv _ (pre ++ [⟨b.addr, b.size, false⟩, c] ++ rest) Ls [b.addr] by
          simpa using inv1)
          |>.coalesce_nextFree (List.mem_singleton_self _) cAlloc
          (by simp only [List.mem_singleton]; simp only at addr; omega)
      obtain ⟨s'', Ls'', run, region', inv'', keeps⟩ :=
        finish coalesced (region1.trans region) inv'
      have shape : ∃ d, d.alloc = false ∧ c :: rest = d :: rest := ⟨c, cAlloc, rfl⟩
      refine .inr ⟨s'', _, rest, Ls'', run, region', inv'',
        kept1.trans ((merged.mono fun a pay => ?_).trans (keeps.mono (others (.inr shape)))),
        .inr shape⟩
      simpa [inPayload_append, inPayload_cons_free, cAlloc] using pay
    · obtain ⟨s'', Ls'', run, region, inv'', keeps⟩ := finish
        (inv1.coalesce_nextAlloc (b := ⟨b.addr, b.size, false⟩) member' rfl
          (by simp only at addr; rw [← addr, cHdr.2.1, cAlloc]))
        region1 inv1
      exact .inr ⟨s'', _, c :: rest, Ls'', run, region, inv'',
        kept1.trans (keeps.mono (others (.inl rfl))), .inl rfl⟩

end HeapInv

/-- After `mm_init` and `malloc(5000)`, an exact-fit `malloc(4088)` of the
last block and its `free` fault: the epilogue's allocated bit is clear, and
`free` takes the epilogue for a free neighbour. -/
theorem free_after_exact_fit_faults :
    ∃ σ, runClient (Heap.initial (fun _ => 0) (fun _ => false)) true [.malloc 5000] = some σ ∧
      Reachable σ ∧
      ∃ p s', malloc 4088 σ.heap = .ok (p, s') ∧ p ≠ 0 ∧
        free p s' = .error (.segv (s'.brk + 8)) :=
  ⟨_, runClient_eq_clientSession (by decide), clientSession_reachable (by decide), _, _,
    eq_ok_of_faultOf (by decide), by decide, eq_error_of_faultOf (by decide)⟩

end SegMalloc
