import SegMalloc.Layout

/-!
# Running the code symbolically

One lemma per primitive and per short helper: under its bounds it runs to a
named result.  Callers rewrite with these through `bind_ok` and never unfold
the callee.  `Heap.putBlock` is the state `write_block` leaves.
-/

namespace SegMalloc

variable {α β : Type} {s s' : Heap}

theorem bind_ok {x : M α} {f : α → M β} {a : α} (run : x s = .ok (a, s')) :
    (x >>= f) s = f a s' := by
  show (do let p ← x s; f p.1 p.2 : Except Fault (β × Heap)) = _
  rw [run]; rfl

theorem bind_error {x : M α} {f : α → M β} {e : Fault} (run : x s = .error e) :
    (x >>= f) s = .error e := by
  show (do let p ← x s; f p.1 p.2 : Except Fault (β × Heap)) = _
  rw [run]; rfl

/-- What a successful composite run is made of. -/
theorem bind_ok_iff {x : M α} {f : α → M β} {b : β} :
    (x >>= f) s = .ok (b, s') ↔ ∃ a t, x s = .ok (a, t) ∧ f a t = .ok (b, s') := by
  constructor
  · intro run
    cases first : x s with
    | error e => rw [bind_error first] at run; cases run
    | ok p =>
      obtain ⟨a, t⟩ := p
      exact ⟨a, t, rfl, by rw [bind_ok first] at run; exact run⟩
  · rintro ⟨a, t, first, second⟩
    rw [bind_ok first, second]

@[simp] theorem pure_run (a : α) : (pure a : M α) s = .ok (a, s) := rfl

theorem load_ok {a : Nat} (valid : s.Valid a) : load a s = .ok (s.mem a, s) := by
  simp [load, valid]

theorem store_ok {a v : Nat} (valid : s.Valid a) : store a v s = .ok ((), s.write a v) := by
  simp [store, valid]

theorem load_error {a : Nat} (invalid : ¬ s.Valid a) : load a s = .error (.segv a) := by
  simp [load, invalid]

@[simp] theorem getSeg_run (i : Nat) : getSeg i s = .ok (s.segList i, s) := rfl

@[simp] theorem putSeg_run (i v : Nat) : putSeg i v s = .ok ((), s.setSeg i v) := rfl

theorem getSize_ok {a : Nat} (valid : s.Valid a) :
    getSize a s = .ok (extractSize (s.mem a), s) := by
  simp only [getSize]; rw [bind_ok (load_ok valid)]; rfl

theorem getAlloc_ok {a : Nat} (valid : s.Valid a) :
    getAlloc a s = .ok (extractAlloc (s.mem a), s) := by
  simp only [getAlloc]; rw [bind_ok (load_ok valid)]; rfl

theorem getPrevAlloc_ok {a : Nat} (valid : s.Valid a) :
    getPrevAlloc a s = .ok (extractPrevAlloc (s.mem a), s) := by
  simp only [getPrevAlloc]; rw [bind_ok (load_ok valid)]; rfl

theorem getPrevMiniBlock_ok {a : Nat} (valid : s.Valid a) :
    getPrevMiniBlock a s = .ok (extractPrevMiniBlock (s.mem a), s) := by
  simp only [getPrevMiniBlock]; rw [bind_ok (load_ok valid)]; rfl

theorem findNext_ok {a : Nat} (valid : s.Valid a) :
    findNext a s = .ok (a + extractSize (s.mem a), s) := by
  simp only [findNext]; rw [bind_ok (getSize_ok valid)]; rfl

/-- The header word `write_block` puts at `block`: new size and allocated
bit, the old status bits. -/
def blockWord (s : Heap) (block size : Nat) (alloc : Bool) : Nat :=
  pack size alloc (extractPrevAlloc (s.mem block)) (extractPrevMiniBlock (s.mem block))

/-- The state `write_block block size alloc` leaves, for a size that is a
multiple of 16. -/
def Heap.putBlock (s : Heap) (block size : Nat) (alloc : Bool) : Heap :=
  if alloc = false ∧ minBlockSize < size then
    (s.write block (blockWord s block size alloc)).write (block + size - 8)
      (blockWord s block size alloc)
  else s.write block (blockWord s block size alloc)

theorem writeBlock_ok {block size : Nat} {alloc : Bool} (valid : s.Valid block)
    (aligned : size % 16 = 0) (small : size < 2 ^ 64)
    (footerValid : alloc = false → minBlockSize < size → s.Valid (block + size - 8)) :
    writeBlock block size alloc s = .ok ((), s.putBlock block size alloc) := by
  simp only [writeBlock]
  rw [bind_ok (getPrevAlloc_ok valid), bind_ok (getPrevMiniBlock_ok valid),
      bind_ok (store_ok valid)]
  cases alloc with
  | true => simp [Heap.putBlock, blockWord]
  | false =>
    by_cases large : size > minBlockSize
    · have footer : headerToFooter block (s.write block (blockWord s block size false)) =
          .ok (block + size - 8, s.write block (blockWord s block size false)) := by
        simp only [headerToFooter]
        rw [bind_ok (getSize_ok (by simpa using valid))]
        simp only [Heap.write_mem, ite_true, blockWord, extractSize_pack aligned small, wsize,
          dsize, pure_run, Except.ok.injEq, Prod.mk.injEq, and_true]
        omega
      simp only [large, ite_true, if_pos]
      change (headerToFooter block >>= fun footer => store footer (blockWord s block size false))
        (s.write block (blockWord s block size false)) = _
      rw [bind_ok footer, store_ok (by simpa using footerValid rfl large)]
      simp [Heap.putBlock, large, blockWord]
    · simp [large, Heap.putBlock, blockWord]

@[simp] theorem putBlock_lo (s : Heap) (b n : Nat) (a : Bool) : (s.putBlock b n a).lo = s.lo := by
  unfold Heap.putBlock; split <;> rfl
@[simp] theorem putBlock_brk (s : Heap) (b n : Nat) (a : Bool) :
    (s.putBlock b n a).brk = s.brk := by
  unfold Heap.putBlock; split <;> rfl
@[simp] theorem putBlock_heapStart (s : Heap) (b n : Nat) (a : Bool) :
    (s.putBlock b n a).heapStart = s.heapStart := by
  unfold Heap.putBlock; split <;> rfl
@[simp] theorem putBlock_segList (s : Heap) (b n : Nat) (a : Bool) :
    (s.putBlock b n a).segList = s.segList := by
  unfold Heap.putBlock; split <;> rfl
@[simp] theorem putBlock_refuse (s : Heap) (b n : Nat) (a : Bool) :
    (s.putBlock b n a).refuse = s.refuse := by
  unfold Heap.putBlock; split <;> rfl
@[simp] theorem putBlock_sbrkCalls (s : Heap) (b n : Nat) (a : Bool) :
    (s.putBlock b n a).sbrkCalls = s.sbrkCalls := by
  unfold Heap.putBlock; split <;> rfl
@[simp] theorem putBlock_valid (s : Heap) (b n : Nat) (a : Bool) (x : Nat) :
    (s.putBlock b n a).Valid x ↔ s.Valid x := by
  unfold Heap.putBlock; split <;> rfl

/-- The words `write_block` changes: the header, and the footer of a free
block above the minimum. -/
theorem putBlock_mem (s : Heap) (block size : Nat) (alloc : Bool) (x : Nat) :
    (s.putBlock block size alloc).mem x =
      if x = block ∨ (alloc = false ∧ minBlockSize < size ∧ x = block + size - 8) then
        blockWord s block size alloc
      else s.mem x := by
  unfold Heap.putBlock
  by_cases footer : alloc = false ∧ minBlockSize < size
  · simp only [footer, and_self, ite_true, Heap.write_mem]
    by_cases here : x = block <;> by_cases foot : x = block + size - 8 <;> simp_all
  · have noFooter : ¬ (alloc = false ∧ minBlockSize < size ∧ x = block + size - 8) :=
      fun ⟨free, large, _⟩ => footer ⟨free, large⟩
    simp only [footer, ite_false, Heap.write_mem, noFooter, or_false]

end SegMalloc
