import SegMalloc.Release

/-!
# Placing a request in a free block

`malloc` marks the chosen block allocated and sets the previous-allocated
bit of the word after it; `split_block` then carves a free tail off when at
least a minimum block remains, and lists the tail.
-/

namespace SegMalloc

variable {s : Heap}

namespace HeapInv

variable {pre post : List Blk} {Ls : Nat → List Nat}

/-- The marking sequence of `malloc` on a hole: the block becomes allocated,
and the word after it gets its previous-allocated bit. -/
theorem allocate {b : Blk} (inv : HeapInv s (pre ++ [b] ++ post) Ls [b.addr])
    (free : b.alloc = false) :
    ∃ s', (∀ {α : Type} (k : M α),
        (do writeBlock b.addr b.size true
            let next ← findNext b.addr
            let header ← load next
            store next (header ||| 0x2)
            let nextSize ← getSize next
            let nextAlloc ← getAlloc next
            writeBlock next nextSize nextAlloc
            k) s = k s') ∧
      s.SameRegion s' ∧ HeapInv s' (pre ++ [⟨b.addr, b.size, true⟩] ++ post) Ls [] ∧
      Keeps (pre ++ post) s s' := by
  have member : b ∈ pre ++ [b] ++ post := by simp
  have hdr := inv.header member
  have bounds := inv.bounds member
  have validX : s.Valid b.addr := by simpa using inv.valid member (Nat.zero_le _) rfl
  have validN := inv.valid_next member
  set s1 := s.putBlock b.addr b.size true
  have header1 : s1.mem b.addr = pack b.size true true (extractPrevMiniBlock (s.mem b.addr)) := by
    rw [putBlock_mem_block, blockWord, hdr.2.2]
  have outside : ∀ a, a < b.addr ∨ b.addr + b.size ≤ a → s1.mem a = s.mem a := fun a away =>
    putBlock_mem_outside (by omega) away
  have next1 : findNext b.addr s1 = .ok (b.addr + b.size, s1) := by
    rw [findNext_ok (by simpa [s1] using validX), header1,
      extractSize_pack bounds.2.2.2.1 (inv.small member)]
  /- The word after the block, rewritten with the bit set: the next header
  does not change, the epilogue gets its previous-allocated bit. -/
  obtain ⟨word, marked, same, epi⟩ : ∃ word, (∀ {α : Type} (k : M α), (do
        let header ← load (b.addr + b.size)
        store (b.addr + b.size) (header ||| 0x2)
        let nextSize ← getSize (b.addr + b.size)
        let nextAlloc ← getAlloc (b.addr + b.size)
        writeBlock (b.addr + b.size) nextSize nextAlloc
        k) s1 = k (s1.write (b.addr + b.size) word)) ∧
      (b.addr + b.size ≠ s.brk - 8 → word = s1.mem (b.addr + b.size)) ∧
      EpiOk (s1.write (b.addr + b.size) word).mem (pre ++ [⟨b.addr, b.size, true⟩] ++ post)
        (s.brk - 8) := by
    have valid1 : s1.Valid (b.addr + b.size) := by simpa [s1] using validN
    rcases post with _ | ⟨c, rest⟩
    · have last : b.addr + b.size = s.brk - 8 :=
        (show HeapInv s (pre ++ [b]) Ls [b.addr] by simpa using inv).last_end
      obtain ⟨alloc, prevAlloc, mini, word, -⟩ := inv.epi
      have old : s1.mem (b.addr + b.size) = pack 0 alloc prevAlloc mini := by
        rw [outside _ (.inr le_rfl), last, word]
      refine ⟨pack 0 alloc true mini, fun k => ?_, fun away => absurd last away, ?_⟩
      · have written : (s1.write (b.addr + b.size) (pack 0 alloc true mini)).mem
            (b.addr + b.size) = pack 0 alloc true mini := by simp
        rw [bind_ok (load_ok valid1), old, pack_lor_two, bind_ok (store_ok valid1),
          bind_ok (getSize_ok (by simpa using valid1)),
          bind_ok (getAlloc_ok (by simpa using valid1)),
          written, extractSize_pack rfl (by decide), extractAlloc_pack rfl,
          bind_ok (writeBlock_ok (by simpa using valid1) rfl (by decide)
            fun _ large => absurd large (by decide)),
          putBlock_self rfl written fun _ large => absurd large (by decide)]
      · rw [← last]
        exact ⟨alloc, true, mini, by simp, fun clear => absurd clear (by simp)⟩
    · have addr : c.addr = b.addr + b.size := by
        simpa using
          (show HeapInv s (pre ++ [b, c] ++ rest) Ls [b.addr] by simpa using inv).next_addr
      have cMem : c ∈ pre ++ [b] ++ c :: rest := by simp
      have cBounds := inv.bounds cMem
      obtain ⟨mini, cWord⟩ := (inv.tags c cMem).1
      have old : s1.mem (b.addr + b.size) = pack c.size c.alloc true mini := by
        rw [outside _ (.inr le_rfl), ← addr, cWord]
      have footer : c.alloc = false → minBlockSize < c.size →
          s1.mem (b.addr + b.size + c.size - 8) = s1.mem (b.addr + b.size) := fun free large => by
        rw [outside _ (.inr (by omega)), outside _ (.inr le_rfl), ← addr]
        exact (inv.tags c cMem).2 free large
      refine ⟨s1.mem (b.addr + b.size), fun k => ?_, fun _ => rfl, ?_⟩
      · rw [bind_ok (load_ok valid1), old, pack_lor_two, ← old, bind_ok (store_ok valid1),
          Heap.write_self, bind_ok (getSize_ok valid1), bind_ok (getAlloc_ok valid1), old,
          extractSize_pack cBounds.2.2.2.1 (inv.small cMem), extractAlloc_pack cBounds.2.2.2.1,
          bind_ok (writeBlock_ok valid1 cBounds.2.2.2.1 (inv.small cMem) fun _ _ => by
            simpa [s1, addr] using inv.valid_footer cMem),
          putBlock_self cBounds.2.2.2.1 old footer]
      · rw [Heap.write_self]
        refine (inv.epi.replace (List.cons_ne_nil _ _)
          fun empty => absurd empty (List.cons_ne_nil _ _)).frame (outside _ (.inr (by omega)))
  /- Only the block's header and the word after it are written. -/
  have keeps : Keeps (pre ++ post) s (s1.write (b.addr + b.size) word) :=
    ((Keeps.refl _ s).putBlock (inv.not_inPayload_mid (List.mem_singleton_self b) le_rfl (by omega))
      (by simp)).write fun pay => inv.not_inPayload_end member pay.sides
  refine ⟨s1.write (b.addr + b.size) word, fun k => ?_,
    ⟨by simp [s1], by simp [s1], by simp [s1], by simp [s1], by simp [s1]⟩, ?_, keeps⟩
  · rw [bind_ok (inv.writeBlock_at member true), bind_ok next1, marked k]
  · refine inv.resegment (List.cons_ne_nil _ _) ⟨rfl, bounds.2.2.1, bounds.2.2.2.1, rfl⟩
      ⟨rfl, bounds.2.2.1, bounds.2.2.2.1, rfl⟩ (by simp [s1]) (by simp [s1]) (by simp [s1])
      (by simp [s1]) (fun a away notEpi => ?_) ?_ epi (by simp [free]) (by simp) ?_ (by simp)
    · rw [Heap.write_mem]
      split_ifs with here
      · rw [same (here ▸ notEpi), here, outside _ (.inr le_rfl)]
      · exact outside a away
    · simp only [List.mem_singleton, forall_eq]
      refine ⟨⟨extractPrevMiniBlock (s.mem b.addr), ?_⟩, fun used => absurd used (by simp)⟩
      show (s1.write (b.addr + b.size) word).mem b.addr = _
      rw [Heap.write_mem, if_neg (by omega), header1]
    · intro c side _ hole
      exact absurd (List.mem_singleton.mp hole)
        (inv.layout.addr_ne_of_mid side (List.mem_singleton_self b))

/-- `split_block` on an allocated block: when at least a minimum block
remains beyond `asize`, the block shrinks to `asize` and the rest becomes a
listed free block; otherwise nothing changes. -/
theorem split {X S asize : Nat} (inv : HeapInv s (pre ++ [⟨X, S, true⟩] ++ post) Ls [])
    (aligned : asize % 16 = 0) (min : 16 ≤ asize) (fits : asize ≤ S) :
    ∃ s' mid Ls', splitBlock X asize s = .ok ((), s') ∧ s.SameRegion s' ∧
      HeapInv s' (pre ++ mid ++ post) Ls' [] ∧ Keeps (pre ++ post) s s' ∧
      (S < asize + 16 ∧ mid = [⟨X, S, true⟩] ∨
        asize + 16 ≤ S ∧ mid = [⟨X, asize, true⟩, ⟨X + asize, S - asize, false⟩]) := by
  have member : (⟨X, S, true⟩ : Blk) ∈ pre ++ [⟨X, S, true⟩] ++ post := by simp
  have hdr := inv.header member
  have bounds := inv.bounds member
  have top := inv.top
  simp only at hdr bounds
  have validX : s.Valid X := by simpa using inv.valid member (Nat.zero_le _) rfl
  simp only [splitBlock]
  rw [bind_ok (getSize_ok validX), hdr.1, wrapSub_eq fits (by omega)]
  by_cases room : asize + 16 ≤ S
  swap
  · rw [if_neg (by simp only [minBlockSize, dsize, wsize]; omega)]
    exact ⟨s, _, Ls, rfl, ⟨rfl, rfl, rfl, rfl, rfl⟩, inv, .refl _ s,
      .inl ⟨by omega, rfl⟩⟩
  rw [if_pos (by simp only [minBlockSize, dsize, wsize]; omega)]
  set s1 := s.putBlock X asize true
  set s2 := s1.write (X + asize) (s.mem (X + asize) ||| 0x2)
  set s3 := s2.putBlock (X + asize) (S - asize) false
  have validTail : s.Valid (X + asize) := ⟨by omega, by omega⟩
  have header1 : s1.mem X = pack asize true true (extractPrevMiniBlock (s.mem X)) := by
    rw [putBlock_mem_block, blockWord, hdr.2.2]
  have tail1 : s1.mem (X + asize) = s.mem (X + asize) := putBlock_mem_other (by omega) (by simp)
  have small : S - asize < 2 ^ 64 := by omega
  have tailAligned : (S - asize) % 16 = 0 := by omega
  /- The state after the tail is written, before it is listed. -/
  have inv3 : HeapInv s3 (pre ++ [⟨X, asize, true⟩, ⟨X + asize, S - asize, false⟩] ++ post)
      Ls [X + asize] := by
    have outside : ∀ a, a < X ∨ X + S ≤ a → s3.mem a = s.mem a := fun a away => by
      rw [putBlock_mem_outside (by omega) (by omega), Heap.write_mem, if_neg (by omega),
        putBlock_mem_outside (by omega) (by omega)]
    refine inv.resegment (List.cons_ne_nil _ _) ⟨rfl, bounds.2.2.1, bounds.2.2.2.1, rfl⟩
      ⟨rfl, min, aligned, rfl, show 16 ≤ S - asize by omega, tailAligned,
        show X + asize + (S - asize) = X + S by omega⟩ (by simp [s3, s2, s1])
      (by simp [s3, s2, s1]) (by simp [s3, s2, s1]) (by simp [s3, s2, s1])
      (fun a away _ => outside a away) ?_ ?_ (by simp) (by simp) (by simp) ?_
    · simp only [List.mem_cons, List.mem_singleton, List.not_mem_nil, or_false,
        forall_eq_or_imp, forall_eq]
      refine ⟨⟨⟨extractPrevMiniBlock (s.mem X), ?_⟩, fun used => absurd used (by simp)⟩,
        putBlock_tagOk (by simp [s2, extractPrevAlloc_lor_two])⟩
      show s3.mem X = _
      rw [putBlock_mem_outside (by omega) (.inl (by omega)), Heap.write_mem, if_neg (by omega),
        header1]
    · refine (inv.epi.replace (List.cons_ne_nil _ _) fun _ c found free _ => ?_).frame
        (outside _ (.inr bounds.2.1))
      simp only [List.getLast?_singleton, Option.mem_def, Option.some.injEq] at found
      simp [← found] at free
    · intro i bucket a hole listed
      obtain rfl := List.mem_singleton.mp hole
      obtain ⟨c, cMem, addr, -⟩ := inv.listed_block bucket listed
      have := inv.layout.disjoint c cMem _ member (by simp only; omega)
      simp only at this
      omega
  have tailMem : (⟨X + asize, S - asize, false⟩ : Blk) ∈
      pre ++ [⟨X, asize, true⟩, ⟨X + asize, S - asize, false⟩] ++ post := by simp
  obtain ⟨run4, region4, inv4⟩ := inv3.insert tailMem rfl (List.not_mem_nil _)
  have hdr3 := inv3.header tailMem
  have hdr4 := inv4.header tailMem
  simp only at hdr3 hdr4 run4
  have next4 := inv4.writeBlock_next tailMem
  simp only at next4
  /- Every write lies inside the old block, or on the `prev` link of the
  bucket's old head. -/
  have inside : ∀ {a}, X ≤ a → a < X + S → ¬ InPayload (pre ++ post) a := fun low high =>
    inv.not_inPayload_mid (List.mem_singleton_self _) low high
  have sizes := (inv3.size_of_index tailMem).2
  simp only at sizes
  have keeps : Keeps (pre ++ post) s (s3.push (findIndex (S - asize)) (X + asize)) :=
    ((((Keeps.refl _ s).putBlock (inside le_rfl (by omega)) (by simp)).write
      (inside (by omega) (by omega))).putBlock
      (inside (by omega) (by omega)) fun _ _ => inside (by omega) (by omega)).push
      (inside (by omega) (by omega))
      (fun upper => inside (by omega) (by have := sizes.mp upper; omega)) fun upper nonempty pay =>
        inv3.not_inPayload_listed (findIndex_lt _)
          (inv3.freeLists.head_mem (findIndex_lt _) nonempty) (.inr ⟨upper, by omega⟩) pay.sides
  refine ⟨_, _, _, ?_, ⟨by simp [s3, s2, s1, region4.lo], by simp [s3, s2, s1, region4.brk],
    by simp [s3, s2, s1, region4.heapStart], by simp [s3, s2, s1, region4.refuse],
    by simp [s3, s2, s1, region4.sbrkCalls]⟩, inv4, keeps, .inr ⟨room, rfl⟩⟩
  have valid3 : s3.Valid (X + asize) := by simpa [s3, s2, s1] using validTail
  rw [bind_ok (writeBlock_ok validX aligned (by omega) (by simp)),
    bind_ok (findNext_ok (by simpa using validX)), header1, extractSize_pack aligned (by omega),
    bind_ok (load_ok (by simpa [s1] using validTail)), tail1,
    bind_ok (store_ok (by simpa [s1] using validTail)),
    bind_ok (writeBlock_ok (by simpa [s2, s1] using validTail) tailAligned small fun _ _ => by
      simpa [s2, s1, show X + asize + (S - asize) - 8 = X + S - 8 by omega] using
        inv.valid_footer member),
    bind_ok (getSize_ok valid3), hdr3.1, bind_ok run4,
    bind_ok (findNext_ok (by simpa [region4.lo, region4.brk] using valid3)), hdr4.1,
    bind_ok (getSize_ok (inv4.valid_next tailMem)),
    bind_ok (getAlloc_ok (inv4.valid_next tailMem)), next4]

end HeapInv

end SegMalloc
