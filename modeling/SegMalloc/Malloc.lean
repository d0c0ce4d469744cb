import SegMalloc.Extend
import SegMalloc.Search

/-!
# `malloc` and `mm_init` keep the invariant

On an initialised heap `malloc` never faults: the search reads only listed
blocks, the chosen block is taken off its bucket or comes fresh from
`extend_heap`, and the placement marks and splits it.  The payloads handed
out are exactly those of the allocated blocks.
-/

namespace SegMalloc

/-- The payload addresses of the allocated blocks of a tiling. -/
def Payloads (bs : List Blk) (p : Nat) : Prop :=
  ∃ b ∈ bs, b.alloc = true ∧ p = b.addr + 8

theorem payloads_append {xs ys : List Blk} {p : Nat} :
    Payloads (xs ++ ys) p ↔ Payloads xs p ∨ Payloads ys p := by
  simp only [Payloads, List.mem_append, or_and_right, exists_or]

theorem payloads_cons {b : Blk} {bs : List Blk} {p : Nat} :
    Payloads (b :: bs) p ↔ (b.alloc = true ∧ p = b.addr + 8) ∨ Payloads bs p := by
  simp only [Payloads, List.mem_cons, or_and_right, exists_or, exists_eq_left]

@[simp] theorem payloads_nil {p : Nat} : ¬ Payloads [] p := by simp [Payloads]

theorem payloads_free {b : Blk} {p : Nat} (free : b.alloc = false) : ¬ Payloads [b] p := by
  simp [Payloads, free]

/-- Tilings with the same allocated blocks have the same payloads. -/
theorem payloads_congr {xs ys : List Blk}
    (same : ∀ c, c ∈ xs ∧ c.alloc = true ↔ c ∈ ys ∧ c.alloc = true) (p : Nat) :
    Payloads xs p ↔ Payloads ys p := by
  constructor
  · rintro ⟨c, member, used, rfl⟩
    exact ⟨c, ((same c).mp ⟨member, used⟩).1, used, rfl⟩
  · rintro ⟨c, member, used, rfl⟩
    exact ⟨c, ((same c).mpr ⟨member, used⟩).1, used, rfl⟩

variable {s : Heap}

/-- The request size `malloc` computes, rounded in `size_t`, is a multiple
of 16 of at least 16 bytes. -/
theorem asize_facts (x : Nat) :
    max (roundUp x dsize) minBlockSize % 16 = 0 ∧ 16 ≤ max (roundUp x dsize) minBlockSize ∧
      max (roundUp x dsize) minBlockSize < 2 ^ 64 := by
  simp only [roundUp, dsize, wsize, minBlockSize, wrap]
  omega

/-- Up to `2^64 - 24` bytes, the size `malloc` computes in `size_t` is
`max(round_up(n + 8, 16), 16)` over the unbounded integers. -/
theorem asize_unbounded {n : Nat} (small : n + 23 < 2 ^ 64) :
    max (roundUp (wrap (n + wsize)) dsize) minBlockSize = max (16 * ((n + 8 + 15) / 16)) 16 := by
  simp only [roundUp, wrap, wsize, dsize, minBlockSize]
  omega

/-- From `2^64 - 23` bytes on, `size + wsize` or the rounding wraps and
`malloc` asks for a minimum block. -/
theorem asize_wraps {n : Nat} (large : 2 ^ 64 - 23 ≤ n) (small : n < 2 ^ 64) :
    max (roundUp (wrap (n + wsize)) dsize) minBlockSize = minBlockSize := by
  simp only [roundUp, wrap, wsize, dsize, minBlockSize]
  omega

/-- `malloc(SIZE_MAX)` after `mm_init` hands out a 16-byte block. -/
theorem malloc_max_size_gives_minimum_block :
    ∃ σ, runClient (Heap.initial (fun _ => 0) (fun _ => false)) true [] = some σ ∧
      Reachable σ ∧
      ∃ p s', malloc (2 ^ 64 - 1) σ.heap = .ok (p, s') ∧ p ≠ 0 ∧
        extractAlloc (s'.mem (payloadToHeader p)) = true ∧
        extractSize (s'.mem (payloadToHeader p)) = 16 :=
  ⟨_, runClient_eq_clientSession (by decide), clientSession_reachable (by decide), _, _,
    eq_ok_of_faultOf (by decide), by decide, by decide, by decide⟩

/-- `realloc(y, SIZE_MAX)` copies the 40 bytes of `y` into the 16-byte block
`malloc(SIZE_MAX)` hands out, over the live block after it. -/
theorem realloc_max_size_overwrites_neighbour :
    ∃ σ, runClient (Heap.initial (fun a => if a = 4128 then 7 else 0) (fun _ => false)) true
        [.malloc 40, .malloc 1, .malloc 1, .free 4160] = some σ ∧
      Reachable σ ∧ 4112 ∈ σ.live ∧ 4176 ∈ σ.live ∧
      ∃ r s', realloc 4112 (2 ^ 64 - 1) σ.heap = .ok (r, s') ∧ r ≠ 0 ∧
        s'.mem 4176 ≠ σ.heap.mem 4176 :=
  ⟨_, runClient_eq_clientSession (by decide), clientSession_reachable (by decide), by decide,
    by decide, _, _, eq_ok_of_faultOf (by decide), by decide, by decide⟩

/-- `realloc(y, SIZE_MAX)` of a 1-byte allocation, with a free 16-byte block
on the mini bucket, succeeds with that block: its payload holds 8 of the
requested bytes. -/
theorem realloc_max_size_gives_minimum_block :
    ∃ σ, runClient (Heap.initial (fun _ => 0) (fun _ => false)) true
        [.malloc 1, .malloc 1, .malloc 1, .free 4128] = some σ ∧
      Reachable σ ∧ 4112 ∈ σ.live ∧
      ∃ q s', realloc 4112 (2 ^ 64 - 1) σ.heap = .ok (q, s') ∧ q ≠ 0 ∧
        extractAlloc (s'.mem (payloadToHeader q)) = true ∧
        extractSize (s'.mem (payloadToHeader q)) = 16 :=
  ⟨_, runClient_eq_clientSession (by decide), clientSession_reachable (by decide), by decide,
    _, _, eq_ok_of_faultOf (by decide), by decide, by decide, by decide⟩

namespace HeapInv

variable {pre post : List Blk} {Ls : Nat → List Nat}

/-- The placement of `malloc` in a hole of at least `asize` bytes: the block
is marked allocated, split, and its payload returned. -/
theorem place {b : Blk} {asize : Nat} (inv : HeapInv s (pre ++ [b] ++ post) Ls [b.addr])
    (free : b.alloc = false) (aligned : asize % 16 = 0) (min : 16 ≤ asize)
    (fits : asize ≤ b.size) :
    ∃ s' bs' Ls',
      (do let currBlockSize ← getSize b.addr
          writeBlock b.addr currBlockSize true
          let next ← findNext b.addr
          let header ← load next
          store next (header ||| 0x2)
          let nextSize ← getSize next
          let nextAlloc ← getAlloc next
          writeBlock next nextSize nextAlloc
          splitBlock b.addr asize
          pure (headerToPayload b.addr)) s = .ok (b.addr + 8, s') ∧
      s.SameRegion s' ∧ HeapInv s' bs' Ls' [] ∧ Keeps (pre ++ post) s s' ∧
      (∀ c ∈ pre ++ post, c ∈ bs') ∧ ⟨b.addr, asize, true⟩ ∈ bs' ∧
      ∀ q, Payloads bs' q ↔ q = b.addr + 8 ∨ Payloads (pre ++ post) q := by
  have member : b ∈ pre ++ [b] ++ post := by simp
  obtain ⟨s1, marked, region1, inv1, keeps1⟩ := inv.allocate free
  obtain ⟨s2, mid, Ls2, split, region2, inv2, keeps2, shape⟩ := inv1.split aligned min fits
  refine ⟨s2, _, Ls2, ?_, region1.trans region2, inv2, keeps1.trans keeps2, fun c side => ?_,
    ?_, fun q => ?_⟩
  · rw [bind_ok (getSize_ok (by simpa using inv.valid member (Nat.zero_le _) rfl)),
      (inv.header member).1, marked, bind_ok split]
    rfl
  · simp only [List.mem_append] at side ⊢
    tauto
  · rcases shape with ⟨short, rfl⟩ | ⟨-, rfl⟩
    · have exact : b.size = asize := by have := (inv.bounds member).2.2.2.1; omega
      simp [exact]
    · simp
  · have midPayloads : ∀ q, Payloads mid q ↔ q = b.addr + 8 := by
      rcases shape with ⟨-, rfl⟩ | ⟨-, rfl⟩ <;> simp [Payloads]
    rw [payloads_append, payloads_append, midPayloads, payloads_append]
    tauto

/-- Only the provider's count changed. -/
theorem bump {bs : List Blk} {holes : List Nat} (inv : HeapInv s bs Ls holes) (k : Nat) :
    HeapInv { s with sbrkCalls := k } bs Ls holes :=
  ⟨inv.lo_pos, inv.start, inv.room, inv.top, inv.layout, inv.tags, inv.epi, inv.chains, inv.prevs,
    inv.listed, inv.nodup, inv.complete, inv.off⟩

/-- `malloc` on an initialised heap never faults.  It returns NULL for a zero
request or when the heap cannot grow, with the same allocated blocks; or a
payload that was not handed out, added to the allocated ones. -/
theorem malloc_spec {bs : List Blk} (inv : HeapInv s bs Ls []) (n : Nat) :
    ∃ p s' bs' Ls', malloc n s = .ok (p, s') ∧ s'.lo = s.lo ∧ s'.refuse = s.refuse ∧
      HeapInv s' bs' Ls' [] ∧ Keeps bs s s' ∧ (∀ c ∈ bs, c.alloc = true → c ∈ bs') ∧
      (p = 0 ∧ (∀ q, Payloads bs' q ↔ Payloads bs q) ∨
        p ≠ 0 ∧
          ⟨p - 8, max (roundUp (wrap (n + wsize)) dsize) minBlockSize, true⟩ ∈ bs' ∧
          ¬ Payloads bs p ∧ ∀ q, Payloads bs' q ↔ q = p ∨ Payloads bs q) := by
  have started : s.heapStart ≠ 0 := by rw [inv.start]; omega
  have read : (fun s : Heap => (Except.ok (s.heapStart, s) : Except Fault (Nat × Heap))) s =
      .ok (s.heapStart, s) := rfl
  by_cases zero : n = 0
  · refine ⟨0, s, bs, Ls, ?_, rfl, rfl, inv, .refl bs s, fun _ member _ => member,
      .inl ⟨rfl, fun _ => Iff.rfl⟩⟩
    simp only [malloc]
    rw [bind_ok read]
    simp [started, zero]
  obtain ⟨aligned, min, small⟩ := asize_facts (wrap (n + wsize))
  set A := max (roundUp (wrap (n + wsize)) dsize) minBlockSize
  obtain ⟨fit, search, found⟩ := inv.findFit_spec A
  simp only [malloc]
  rw [bind_ok read]
  simp only [started, zero, ite_false, pure_bind]
  rw [bind_ok search]
  rcases found with rfl | ⟨i, bucket, listed, fits⟩
  · simp only [ite_true]
    rcases inv.extend (show max A chunksize % 16 = 0 by simp only [chunksize]; omega)
      (by simp only [chunksize, minBlockSize, dsize, wsize]; omega)
      (by simp only [chunksize]; omega) with
      ⟨-, run⟩ | ⟨s', pre, b, Ls', run, lo, -, refuse, -, inv', keepsE, free, big, allocs⟩
    · exact ⟨0, { s with sbrkCalls := s.sbrkCalls + 1 }, bs, Ls,
        by rw [bind_ok run, if_pos rfl]; rfl, rfl, rfl, inv.bump _, .of_mem rfl,
        fun _ member _ => member, .inl ⟨rfl, fun _ => Iff.rfl⟩⟩
    · have bounds := inv'.bounds (b := b) (by simp)
      obtain ⟨s'', bs'', Ls'', run', region, inv'', keepsP, kept, block, pays⟩ :=
        (show HeapInv s' (pre ++ [b] ++ []) Ls' [b.addr] by simpa using inv').place free aligned min
          (by have := le_max_left A chunksize; omega)
      have before : ∀ q, Payloads bs q ↔ Payloads pre q := fun q =>
        (payloads_congr allocs q).symm.trans
          (payloads_append.trans (or_iff_left (payloads_free free)))
      refine ⟨b.addr + 8, s'', bs'', Ls'', by rw [bind_ok run, if_neg (by omega), run'],
        region.lo.trans lo, region.refuse.trans refuse, inv'',
        keepsE.trans (keepsP.mono fun a pay => ?_), fun c member used => kept c ?_,
        .inr ⟨by omega, by simpa using block, ?_, fun q => ?_⟩⟩
      · simpa [inPayload_append, inPayload_cons_free free] using (inPayload_congr allocs a).mpr pay
      · have := ((allocs c).mpr ⟨member, used⟩).1
        simp only [List.mem_append, List.mem_singleton] at this
        rcases this with old | rfl
        exacts [by simpa using old, absurd used (by simp [free])]
      · rw [before]
        rintro ⟨c, old, -, addr⟩
        exact (show Layout _ (pre ++ [b] ++ []) _ by simpa using inv'.layout).addr_ne_of_mid
          (by simpa using old) (List.mem_singleton_self b) (by omega)
      · rw [pays q, List.append_nil, before]
  · obtain ⟨c, cMem, rfl, free, index⟩ := inv.listed_block bucket listed
    obtain ⟨pre, post, rfl, -⟩ := inv.layout.split_at cMem
    have inv0 : HeapInv s (pre ++ [c] ++ post) Ls [] := by simpa using inv
    have member : c ∈ pre ++ [c] ++ post := by simp
    have hdr := inv0.header member
    have nonzero : c.addr ≠ 0 := by have := inv0.bounds member; omega
    obtain ⟨p, n', run, invR, pListed, nListed⟩ := inv0.remove bucket listed
    obtain ⟨s'', bs'', Ls'', run', region, inv'', keepsP, kept, block, pays⟩ :=
      invR.place free aligned min (by rw [hdr.1] at fits; exact fits)
    /- Taking the block off its bucket writes only links of listed blocks. -/
    have keepsR : Keeps (pre ++ [c] ++ post) s (s.unlink i p n') := (Keeps.refl _ s).unlink
      (fun nonzero => inv0.not_inPayload_listed bucket (pListed nonzero) (.inl (by omega)))
      fun upper nonzero => inv0.not_inPayload_listed bucket (nListed nonzero)
        (.inr ⟨upper, by omega⟩)
    have before : ∀ q, Payloads (pre ++ c :: post) q ↔ Payloads (pre ++ post) q := fun q => by
      rw [show pre ++ c :: post = pre ++ [c] ++ post by simp, payloads_append, payloads_append,
        payloads_append, or_iff_left (payloads_free free)]
    refine ⟨c.addr + 8, s'', bs'', Ls'', ?_, by simpa using region.lo,
      by simpa using region.refuse, inv'',
      (keepsR.trans (keepsP.mono fun a pay => ?_)).mono fun a pay => by simpa using pay,
      fun d member used => kept d ?_,
      .inr ⟨by omega, by simpa using block, ?_, fun q => by rw [pays q, before]⟩⟩
    · rw [if_neg nonzero,
        bind_ok (getSize_ok (by simpa using inv0.valid member (Nat.zero_le _) rfl)), hdr.1,
        index, bind_ok (run s rfl le_rfl rfl fun _ _ => ⟨rfl, fun _ => rfl⟩), if_neg nonzero,
        run']
    · simpa [inPayload_append, inPayload_cons_free free] using pay
    · simp only [List.mem_append, List.mem_cons] at member ⊢
      rcases member with old | rfl | old
      exacts [.inl old, absurd used (by simp [free]), .inr old]
    · rintro ⟨d, dMem, used, addr⟩
      have := inv0.layout.eq_of_addr (by simpa using dMem) member (by omega)
      simp [this, free] at used

end HeapInv

end SegMalloc
