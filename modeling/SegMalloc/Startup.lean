import SegMalloc.Malloc
import SegMalloc.Session

/-!
# The first calls

`mm_init` on an empty heap either leaves it uninitialised (the provider
refused the prologue and epilogue words) or sets up an initialised heap with
no allocated block.  `malloc` on an uninitialised heap runs `mm_init` first;
when that left the heap uninitialised, `malloc` goes on with `heap_start`
NULL, and a granted `extend_heap` then writes its header just below the heap.
-/

namespace SegMalloc

variable {s : Heap}

theorem Heap.setSeg_self (s : Heap) (i : Nat) : s.setSeg i (s.segList i) = s := by
  simp [Heap.setSeg]

/-- Emptying buckets that are already empty changes nothing. -/
theorem clearSegList_zero (zero : ∀ i, s.segList i = 0) :
    ∀ js, clearSegList js s = .ok ((), s)
  | [] => rfl
  | i :: rest => by
    simp only [clearSegList]
    rw [bind_ok (putSeg_run i 0), ← zero i, Heap.setSeg_self]
    exact clearSegList_zero zero rest

/-- An empty initialised heap: the prologue and epilogue words only. -/
theorem HeapInv.started (fresh : Fresh s) (fits : s.brk + 2 * 8 ≤ 2 ^ 64) :
    HeapInv { ((({ s with brk := s.brk + 2 * 8, sbrkCalls := s.sbrkCalls + 1 } : Heap).write s.brk
        (pack 0 true false false)).write (s.brk + 8) (pack 0 true true false)) with
        heapStart := s.brk + 8 } [] (fun _ => []) [] := by
  have := fresh.brk
  have := fresh.lo_pos
  refine ⟨fresh.lo_pos, by simp; omega, by simp; omega, by simpa using fits, by simp,
    by simp, ⟨true, true, false, ?_, fun clear => absurd clear (by simp)⟩,
    fun i _ => (fresh.segList i : _), fun _ _ _ => trivial, by simp, by simp, by simp, by simp⟩
  simp [show s.brk + 2 * 8 - 8 = s.brk + 8 by omega]

/-- `mm_init` on an empty heap never faults: it leaves the heap
uninitialised when the provider refuses the first request, and otherwise
sets up an initialised heap without allocated blocks. -/
theorem mmInit_spec (fresh : Fresh s) :
    ∃ ok s', mmInit s = .ok (ok, s') ∧ s'.lo = s.lo ∧ s'.refuse = s.refuse ∧
      (Fresh s' ∨ ∃ bs Ls, HeapInv s' bs Ls [] ∧ ∀ q, ¬ Payloads bs q) := by
  simp only [mmInit, wsize]
  by_cases refused : s.refuse s.sbrkCalls = true ∨ 2 ^ 64 < s.brk + 2 * 8
  · refine ⟨false, { s with sbrkCalls := s.sbrkCalls + 1 }, ?_, rfl, rfl,
      .inl ⟨fresh.heapStart, fresh.brk, fresh.segList, fresh.lo_pos⟩⟩
    rw [bind_ok (show memSbrk (2 * 8) s = _ from if_pos refused), if_pos rfl]
    rfl
  set s3 : Heap :=
    { ((({ s with brk := s.brk + 2 * 8, sbrkCalls := s.sbrkCalls + 1 } : Heap).write s.brk
      (pack 0 true false false)).write (s.brk + 8) (pack 0 true true false)) with
      heapStart := s.brk + 8 }
  have inv : HeapInv s3 [] (fun _ => []) [] := HeapInv.started fresh (by omega)
  rw [bind_ok (show memSbrk (2 * 8) s = _ from if_neg refused),
    if_neg (by simp only [sbrkFailed]; omega), bind_ok (pure_run _),
    bind_ok (store_ok ⟨by simp [fresh.brk], by simp⟩),
    bind_ok (store_ok ⟨by simp [fresh.brk], by simp⟩),
    bind_ok (rfl : (modify _ : M Unit) _ = _),
    bind_ok (clearSegList_zero (by simpa [s3] using fresh.segList) _)]
  rcases inv.extend (show chunksize % 16 = 0 by decide) (by decide) (by decide) with
    ⟨-, run⟩ | ⟨s', pre, b, Ls', run, lo, -, refuse, -, inv', -, free, -, allocs⟩
  · exact ⟨false, { s3 with sbrkCalls := s3.sbrkCalls + 1 },
      by rw [bind_ok run, if_pos rfl]; rfl, rfl, rfl, .inr ⟨[], _, inv.bump _, by simp⟩⟩
  · have member : b ∈ pre ++ [b] := by simp
    obtain ⟨run4, region4, inv4⟩ := inv'.insert member free (List.not_mem_nil _)
    have nonzero : b.addr ≠ 0 := by have := inv'.bounds member; omega
    have valid' : s'.Valid b.addr := by simpa using inv'.valid member (Nat.zero_le _) rfl
    have valid4 : (s'.push (findIndex b.size) b.addr).Valid b.addr := by simpa using valid'
    refine ⟨true, _, ?_, region4.lo.trans (by simpa [s3] using lo),
      region4.refuse.trans (by simpa [s3] using refuse),
      .inr ⟨pre ++ [b], _, inv4, fun q => ?_⟩⟩
    · rw [bind_ok run, if_neg nonzero, bind_ok (pure_run _), bind_ok (getSize_ok valid'),
        (inv'.header member).1, bind_ok run4, bind_ok (findNext_ok valid4),
        (inv4.header member).1, bind_ok (getSize_ok (inv4.valid_next member)),
        bind_ok (getAlloc_ok (inv4.valid_next member)), bind_ok (inv4.writeBlock_next member)]
      rfl
    · rw [payloads_congr allocs]
      exact payloads_nil

/-- `extend_heap` with `heap_start` still NULL: the provider refuses, or the
new block's header would sit just below the heap and reading it faults. -/
theorem extendHeap_fresh {size : Nat} (fresh : Fresh s) (aligned : size % 16 = 0)
    (large : minBlockSize < size) (small : size < 2 ^ 64) :
    (s.refuse s.sbrkCalls = true ∨ 2 ^ 64 < s.brk + size) ∧
        extendHeap size s = .ok (0, { s with sbrkCalls := s.sbrkCalls + 1 }) ∨
      extendHeap size s = .error (.segv (s.lo - 8)) := by
  simp only [minBlockSize, dsize, wsize] at large
  simp only [extendHeap, roundUp_dsize aligned small]
  by_cases refused : s.refuse s.sbrkCalls = true ∨ 2 ^ 64 < s.brk + size
  · refine .inl ⟨refused, ?_⟩
    rw [bind_ok (show memSbrk size s = _ from if_pos refused), if_pos rfl]
    rfl
  · set s0 : Heap := { s with brk := s.brk + size, sbrkCalls := s.sbrkCalls + 1 }
    have below : ¬ s0.Valid (s.lo - 8) := fun valid => by
      have low : s.lo ≤ s.lo - 8 := valid.1
      have := fresh.lo_pos
      omega
    have fault : writeBlock (s.lo - 8) size false s0 = .error (.segv (s.lo - 8)) := by
      simp only [writeBlock, getPrevAlloc]
      rw [bind_error (bind_error (load_error below))]
    refine .inr ?_
    rw [bind_ok (show memSbrk size s = _ from if_neg refused),
      if_neg (by simp only [sbrkFailed]; omega), bind_ok (pure_run _)]
    simp only [payloadToHeader, wsize]
    rw [show s.brk - 8 = s.lo - 8 by rw [fresh.brk], bind_error fault]

/-- `malloc` runs `mm_init` first on an uninitialised heap; once that has
set up the heap, the call goes on as on an initialised one. -/
theorem malloc_after_init {n : Nat} {ok : Bool} {s1 : Heap} (unstarted : s.heapStart = 0)
    (init : mmInit s = .ok (ok, s1)) (started : s1.heapStart ≠ 0) : malloc n s = malloc n s1 := by
  have read : ∀ t : Heap,
      (fun s : Heap => (Except.ok (s.heapStart, s) : Except Fault (Nat × Heap))) t =
      .ok (t.heapStart, t) := fun _ => rfl
  simp only [malloc]
  rw [bind_ok (read s), bind_ok (read s1)]
  simp only [unstarted, started, ite_true, ite_false]
  rw [bind_ok init]

/-- `malloc` on an uninitialised heap.  When its `mm_init` sets up the heap,
it is `malloc` on that heap; when the provider refused, it returns NULL with
the heap still uninitialised, or faults writing below the heap. -/
theorem malloc_fresh (fresh : Fresh s) (n : Nat) :
    (∃ s', malloc n s = .ok (0, s') ∧ Fresh s' ∧ s'.lo = s.lo ∧ s'.refuse = s.refuse) ∨
      malloc n s = .error (.segv (s.lo - 8)) ∨
      ∃ s1 bs Ls, malloc n s = malloc n s1 ∧ s1.lo = s.lo ∧ s1.refuse = s.refuse ∧
        HeapInv s1 bs Ls [] ∧ ∀ q, ¬ Payloads bs q := by
  obtain ⟨ok, s1, init, lo, refuse, fresh1 | ⟨bs, Ls, inv1, none⟩⟩ := mmInit_spec fresh
  swap
  · exact .inr (.inr ⟨s1, bs, Ls,
      malloc_after_init fresh.heapStart init (by rw [inv1.start]; omega), lo, refuse, inv1,
      none⟩)
  have read : (fun s : Heap => (Except.ok (s.heapStart, s) : Except Fault (Nat × Heap))) s =
      .ok (s.heapStart, s) := rfl
  simp only [malloc]
  rw [bind_ok read]
  simp only [fresh.heapStart, ite_true]
  rw [bind_ok init]
  by_cases zero : n = 0
  · exact .inl ⟨s1, by simp [zero], fresh1, lo, refuse⟩
  obtain ⟨aligned, -, small⟩ := asize_facts (wrap (n + wsize))
  set A := max (roundUp (wrap (n + wsize)) dsize) minBlockSize
  have none : referenceFit s1.mem (fun _ => []) A = 0 :=
    referenceFit_mem.resolve_right fun ⟨_, _, member, _⟩ => List.not_mem_nil _ member
  simp only [pure_bind, zero, ite_false]
  rw [bind_ok (findFit_eq A (FreeLists.empty fresh1.segList)), none]
  simp only [ite_true]
  rcases extendHeap_fresh fresh1 (show max A chunksize % 16 = 0 by simp only [chunksize]; omega)
    (by simp only [chunksize, minBlockSize, dsize, wsize]; omega)
    (by simp only [chunksize]; omega) with
    ⟨-, run⟩ | fault
  · refine .inl ⟨{ s1 with sbrkCalls := s1.sbrkCalls + 1 }, by rw [bind_ok run, if_pos rfl]; rfl,
      ⟨fresh1.heapStart, fresh1.brk, fresh1.segList, fresh1.lo_pos⟩, lo, refuse⟩
  · exact .inr (.inl (by rw [bind_error fault, lo]))

/-- When the provider refuses `mm_init`'s request and grants the next,
`malloc(1)` reads the header of its new block below the heap. -/
theorem malloc_after_refused_init_faults :
    Reachable ⟨Heap.initial (fun _ => 0) (fun k => k == 0), []⟩ ∧
      malloc 1 (Heap.initial (fun _ => 0) (fun k => k == 0)) = .error (.segv 4088) :=
  ⟨.fresh (Heap.initial_fresh _ _), eq_error_of_faultOf (by decide)⟩

end SegMalloc
