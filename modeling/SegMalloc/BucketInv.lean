import SegMalloc.Invariant

/-!
# Bucket edits keep the invariant

Taking a listed block off its bucket leaves it a hole; pushing a free block
that is in no bucket onto the bucket of its size class fills its hole.
Neither edit touches a header, a footer or the epilogue, nor the links of
another bucket.
-/

namespace SegMalloc

/-- `s'` keeps the heap region, `heap_start` and the provider of `s`. -/
structure Heap.SameRegion (s s' : Heap) : Prop where
  lo : s'.lo = s.lo
  brk : s'.brk = s.brk
  heapStart : s'.heapStart = s.heapStart
  refuse : s'.refuse = s.refuse
  sbrkCalls : s'.sbrkCalls = s.sbrkCalls

theorem Heap.SameRegion.trans {s t u : Heap} (first : s.SameRegion t) (second : t.SameRegion u) :
    s.SameRegion u :=
  ⟨second.lo.trans first.lo, second.brk.trans first.brk, second.heapStart.trans first.heapStart,
    second.refuse.trans first.refuse, second.sbrkCalls.trans first.sbrkCalls⟩

namespace HeapInv

variable {s : Heap} {bs : List Blk} {Ls : Nat → List Nat} {holes : List Nat}
  (inv : HeapInv s bs Ls holes)
include inv

/-- `removeFromFree` on a listed block: the block leaves its bucket and
becomes a hole.  The run is the same from any state that agrees on the
bucket's head and links and has at least this heap. -/
theorem remove {i x : Nat} (bucket : i < numSegs) (member : x ∈ Ls i) :
    ∃ p n, (∀ t : Heap, t.lo = s.lo → s.brk ≤ t.brk → t.segList = s.segList →
        (∀ y ∈ Ls i, t.mem (y + 8) = s.mem (y + 8) ∧
          (i ≠ 0 → t.mem (y + 16) = s.mem (y + 16))) →
        removeFromFree x i t = .ok ((), t.unlink i p n)) ∧
      HeapInv (s.unlink i p n) bs (setBucket Ls i ((Ls i).erase x)) (x :: holes) ∧
      (p ≠ 0 → p ∈ Ls i) ∧ (n ≠ 0 → n ∈ Ls i) := by
  obtain ⟨p, n, run, lists, pListed, nListed⟩ := inv.freeLists.remove bucket member
  refine ⟨p, n, run, ?_, pListed, nListed⟩
  have tagsAndEpi : (∀ b ∈ bs, TagOk (s.unlink i p n).mem b) ∧
      EpiOk (s.unlink i p n).mem bs (s.brk - 8) := inv.tags_frame fun a differ => by
    rw [unlink_mem] at differ
    split_ifs at differ with first second
    · obtain ⟨b, bMem, addr, free, index⟩ := inv.listed_block bucket (nListed first.2.1)
      exact ⟨b, bMem, free, .inr ⟨((inv.size_of_index bMem).2.mp (index ▸ first.1)),
        addr ▸ first.2.2⟩⟩
    · obtain ⟨b, bMem, addr, free, -⟩ := inv.listed_block bucket (pListed second.1)
      exact ⟨b, bMem, free, .inl (addr ▸ second.2)⟩
    · exact absurd rfl differ
  refine ⟨by simpa using inv.lo_pos, by simpa using inv.start, by simpa using inv.room,
    by simpa using inv.top, by simpa using inv.layout, tagsAndEpi.1,
    by simpa using tagsAndEpi.2, lists.chains, lists.prevs, ?_, lists.nodup, ?_, ?_⟩
  · intro j jBucket y yMem
    by_cases same : j = i
    · subst same
      rw [setBucket_same] at yMem
      exact inv.listed_block jBucket (List.mem_of_mem_erase yMem)
    · rw [setBucket_other _ _ same] at yMem
      exact inv.listed_block jBucket yMem
  · intro b bMem free notHole
    have listed := inv.complete b bMem free (fun hole => notHole (List.mem_cons_of_mem _ hole))
    by_cases same : findIndex b.size = i
    · rw [same, setBucket_same]
      rw [same] at listed
      exact (List.mem_erase_of_ne fun clash =>
          notHole (by rw [clash]; exact List.mem_cons_self _ _)).mpr
        listed
    · rw [setBucket_other _ _ same]
      exact listed
  · intro j jBucket y yHole
    by_cases same : j = i
    · subst same
      rw [setBucket_same]
      rcases List.mem_cons.mp yHole with rfl | yHole
      · exact (inv.nodup j jBucket).not_mem_erase
      · exact fun listed => inv.off j jBucket y yHole (List.mem_of_mem_erase listed)
    · rw [setBucket_other _ _ same]
      rcases List.mem_cons.mp yHole with rfl | yHole
      · exact fun listed => same (inv.bucket_unique jBucket bucket listed member)
      · exact inv.off j jBucket y yHole

end HeapInv

/-- `addToFree` on a hole: the block goes to the front of the bucket of its
size class. -/
theorem HeapInv.insert {s : Heap} {bs : List Blk} {Ls : Nat → List Nat}
    {holes : List Nat} {b : Blk}
    (inv : HeapInv s bs Ls (b.addr :: holes)) (member : b ∈ bs) (free : b.alloc = false)
    (fresh : b.addr ∉ holes) :
    addToFree b.addr (findIndex b.size) s = .ok ((), s.push (findIndex b.size) b.addr) ∧
      s.SameRegion (s.push (findIndex b.size) b.addr) ∧
      HeapInv (s.push (findIndex b.size) b.addr) bs
        (setBucket Ls (findIndex b.size) (b.addr :: Ls (findIndex b.size))) holes := by
  set i := findIndex b.size
  set x := b.addr
  have bucket : i < numSegs := findIndex_lt _
  have bounds := inv.bounds member
  have sizes := inv.size_of_index member
  obtain ⟨run, lists⟩ := inv.freeLists.insert bucket
    (fun j jBucket => inv.off j jBucket x (List.mem_cons_self _ _)) (by omega) bounds.2.2.2.2
    ⟨by simpa using inv.valid member (Nat.zero_le _) rfl, inv.valid member (by omega) rfl,
      inv.valid member (by omega) rfl⟩
  refine ⟨run, ⟨by simp, by simp, by simp, by simp, by simp⟩, ?_⟩
  have tagsAndEpi : (∀ c ∈ bs, TagOk (s.push i x).mem c) ∧
      EpiOk (s.push i x).mem bs (s.brk - 8) :=
    inv.tags_frame fun a differ => by
      rw [push_mem] at differ
      split_ifs at differ with first second third
      · obtain ⟨c, cMem, addr, cFree, index⟩ := inv.listed_block bucket
          (inv.freeLists.head_mem bucket first.2.1)
        exact ⟨c, cMem, cFree,
            .inr ⟨(inv.size_of_index cMem).2.mp (index ▸ first.1), addr ▸ first.2.2⟩⟩
      · exact ⟨b, member, free, .inl second⟩
      · exact ⟨b, member, free, .inr ⟨sizes.2.mp third.1, third.2⟩⟩
      · exact absurd rfl differ
  refine ⟨by simpa using inv.lo_pos, by simpa using inv.start, by simpa using inv.room,
    by simpa using inv.top, by simpa using inv.layout, tagsAndEpi.1, by simpa using tagsAndEpi.2,
    lists.chains, lists.prevs, ?_, lists.nodup, ?_, ?_⟩
  · intro j jBucket y yMem
    by_cases same : j = i
    · subst same
      rw [setBucket_same] at yMem
      rcases List.mem_cons.mp yMem with rfl | yMem
      · exact ⟨b, member, rfl, free, rfl⟩
      · exact inv.listed_block jBucket yMem
    · rw [setBucket_other _ _ same] at yMem
      exact inv.listed_block jBucket yMem
  · intro c cMem cFree notHole
    by_cases same : c.addr = x
    · obtain rfl := inv.layout.eq_of_addr cMem member same
      rw [setBucket_same]
      exact List.mem_cons_self _ _
    · have listed := inv.complete c cMem cFree fun hole =>
        (List.mem_cons.mp hole).elim same notHole
      by_cases index : findIndex c.size = i
      · rw [index, setBucket_same]
        exact List.mem_cons_of_mem _ (index ▸ listed)
      · rw [setBucket_other _ _ index]
        exact listed
  · intro j jBucket y yHole
    have off := inv.off j jBucket y (List.mem_cons_of_mem _ yHole)
    by_cases same : j = i
    · subst same
      rw [setBucket_same, List.mem_cons, not_or]
      exact ⟨fun clash => fresh (clash ▸ yHole), off⟩
    · rwa [setBucket_other _ _ same]

end SegMalloc
