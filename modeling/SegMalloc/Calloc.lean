import SegMalloc.Safety

/-!
# `calloc`

`calloc(k, n)` multiplies in `size_t` and checks the product by dividing it
back; the check is exact, so every product that does not fit is refused.  A
product that fits goes to `malloc`, whose own size computation wraps for the
last 23 values below `2^64` and hands out a 16-byte block there.  `memset`
then cannot complete: a heap whose break keeps the alignment of
`mem_heap_lo()` has no room for that many bytes after the block.  So when
`calloc` returns a payload, the block has room for the product, the bytes
read zero, and nothing outside them changed.
-/

namespace SegMalloc

variable {s s' : Heap}

/-- The `n` bytes from the word-aligned address `p` read zero: the whole
words, and the low bytes of the last, partial one (the machine is
little-endian). -/
def ZeroBytes (mem : Nat → Nat) (p n : Nat) : Prop :=
  (∀ j < n / 8, mem (p + 8 * j) = 0) ∧ mem (p + 8 * (n / 8)) % 2 ^ (8 * (n % 8)) = 0

theorem store_inv {a v : Nat} {u : Unit} (run : store a v s = .ok (u, s')) :
    s.Valid a ∧ s' = s.write a v := by
  unfold store at run
  split at run
  · cases run; exact ⟨‹_›, rfl⟩
  · cases run

theorem storeLow_inv {a count v : Nat} {u : Unit} (run : storeLow a count v s = .ok (u, s')) :
    s.lo ≤ a ∧ a + count ≤ s.brk ∧
      s' = s.write a (v % 2 ^ (8 * count) + (s.mem a - s.mem a % 2 ^ (8 * count))) := by
  unfold storeLow at run
  split at run
  · cases run; exact ⟨‹_ ∧ _›.1, ‹_ ∧ _›.2, rfl⟩
  · cases run

/-- A run of `words` zero stores from `dest`: each stored word lies in the
heap and reads zero afterwards, and no other word changed. -/
theorem zeroWords_inv {dest : Nat} : ∀ {words : Nat} {s s' : Heap} {u : Unit},
    zeroWords dest words s = .ok (u, s') →
    (∀ j < words, s.Valid (dest + 8 * j)) ∧ s'.lo = s.lo ∧ s'.brk = s.brk ∧
      (∀ j < words, s'.mem (dest + 8 * j) = 0) ∧
      ∀ a, s'.mem a ≠ s.mem a → dest ≤ a ∧ a < dest + 8 * words
  | 0, _, _, _, run => by
    cases run
    exact ⟨fun _ none => absurd none (Nat.not_lt_zero _), rfl, rfl,
      fun _ none => absurd none (Nat.not_lt_zero _), fun _ same => absurd rfl same⟩
  | k + 1, s, s', _, run => by
    obtain ⟨_, t, first, last⟩ := bind_ok_iff.mp run
    obtain ⟨valid, lo, brk, zero, frame⟩ := zeroWords_inv first
    obtain ⟨here, rfl⟩ := store_inv last
    refine ⟨fun j below => ?_, lo, brk, fun j below => ?_, fun a differ => ?_⟩
    · rcases Nat.lt_succ_iff_lt_or_eq.mp below with below | rfl
      · exact valid j below
      · exact ⟨lo ▸ here.1, brk ▸ here.2⟩
    · rw [Heap.write_mem]
      split_ifs with atEnd
      · rfl
      · exact zero j (by omega)
    · rw [Heap.write_mem] at differ
      split_ifs at differ with atEnd
      · omega
      · have := frame a differ; omega

/-- A `memset` of `n` zero bytes from `dest` that runs: the bytes lie in the
heap and read zero afterwards, and no word outside them changed. -/
theorem memsetZero_inv {dest n : Nat} {u : Unit} (run : memsetZero dest n s = .ok (u, s')) :
    (0 < n → dest + n ≤ s.brk) ∧ s'.lo = s.lo ∧ s'.brk = s.brk ∧
      ZeroBytes s'.mem dest n ∧ ∀ a, s'.mem a ≠ s.mem a → dest ≤ a ∧ a < dest + n := by
  obtain ⟨_, t, words, tail⟩ := bind_ok_iff.mp run
  obtain ⟨valid, lo, brk, zero, frame⟩ := zeroWords_inv words
  have whole : 8 * (n / 8) + n % 8 = n := Nat.div_add_mod n 8
  by_cases exact : n % 8 ≠ 0
  · rw [if_pos exact] at tail
    obtain ⟨low, high, rfl⟩ := storeLow_inv tail
    refine ⟨fun _ => by omega, lo, brk, ⟨fun j below => ?_, ?_⟩, fun a differ => ?_⟩
    · rw [Heap.write_mem, if_neg (by omega)]
      exact zero j below
    · rw [Heap.write_mem, if_pos rfl, Nat.zero_mod, Nat.zero_add]
      exact Nat.sub_mod_eq_zero_of_mod_eq (Nat.mod_mod _ _).symm
    · rw [Heap.write_mem] at differ
      split_ifs at differ with atEnd
      · omega
      · have := frame a differ; omega
  · rw [if_neg exact] at tail
    cases tail
    refine ⟨fun positive => ?_, lo, brk,
      ⟨zero, by simp [show n % 8 = 0 by omega, Nat.mod_one]⟩, fun a differ => ?_⟩
    · have := (valid (n / 8 - 1) (by omega)).2
      omega
    · have := frame a differ; omega

/-- The division test of `calloc` fails exactly when the product of the two
`size_t` arguments does not fit in a `size_t`. -/
theorem wrap_mul_div_ne_iff {k n : Nat} (positive : 0 < k) :
    wrap (k * n) / k ≠ n ↔ 2 ^ 64 ≤ k * n := by
  constructor
  · intro differ
    by_contra fits
    exact differ (by rw [wrap, Nat.mod_eq_of_lt (by omega), Nat.mul_div_cancel_left n positive])
  · intro over same
    have low : n * k ≤ wrap (k * n) := (Nat.le_div_iff_mul_le positive).mp same.ge
    rw [Nat.mul_comm] at low
    simp only [wrap] at low
    omega

/-- The low end of a reachable heap is never address 0. -/
theorem SessionInv.lo_pos {σ : Session} (inv : SessionInv σ) : 0 < σ.heap.lo := by
  rcases inv with ⟨fresh, -⟩ | ⟨bs, Ls, inv, -⟩
  exacts [fresh.lo_pos, inv.lo_pos]

/-- `calloc(k, n)` refuses `k = 0` and every product
that does not fit in a `size_t`, which its division test detects exactly,
and then changes nothing; when it returns a payload, its block is allocated
with room for the `k · n` bytes, they read zero, and `memset` changed no
word outside them. -/
theorem calloc_zeroes_product {σ : Session} (reach : Reachable σ) (k n : Nat) :
    (0 < k → (wrap (k * n) / k ≠ n ↔ 2 ^ 64 ≤ k * n)) ∧
      (k = 0 ∨ 2 ^ 64 ≤ k * n → calloc k n σ.heap = .ok (0, σ.heap)) ∧
      ∀ p s', calloc k n σ.heap = .ok (p, s') → p ≠ 0 →
        extractAlloc (s'.mem (payloadToHeader p)) = true ∧
        k * n ≤ extractSize (s'.mem (payloadToHeader p)) - wsize ∧
        ZeroBytes s'.mem p (k * n) ∧
        ∃ s1, malloc (k * n) σ.heap = .ok (p, s1) ∧
          ∀ a, s'.mem a ≠ s1.mem a → p ≤ a ∧ a < p + k * n := by
  have refuses : k = 0 ∨ 2 ^ 64 ≤ k * n → calloc k n σ.heap = .ok (0, σ.heap) := by
    rintro (rfl | over)
    · rfl
    · have positive : 0 < k := Nat.pos_of_ne_zero fun zero => by simp [zero] at over
      simp only [calloc, if_neg (Nat.pos_iff_ne_zero.mp positive), ne_eq,
        (wrap_mul_div_ne_iff positive).mpr over, not_false_eq_true, ite_true]
      rfl
  refine ⟨fun positive => wrap_mul_div_ne_iff positive, refuses, fun p s' run nonzero => ?_⟩
  have fits : 0 < k ∧ k * n < 2 ^ 64 := by
    by_contra refused
    rw [refuses (by omega)] at run
    cases run
    exact nonzero rfl
  have same : wrap (k * n) = k * n := Nat.mod_eq_of_lt fits.2
  simp only [calloc, same, if_neg (Nat.pos_iff_ne_zero.mp fits.1), Nat.mul_div_cancel_left n fits.1,
    ne_eq, not_true_eq_false, ite_false, pure_bind] at run
  obtain ⟨q, s1, allocated, rest⟩ := bind_ok_iff.mp run
  have positive : q ≠ 0 := fun zero => by rw [if_pos zero] at rest; cases rest; exact nonzero rfl
  rw [if_neg positive] at rest
  obtain ⟨_, s2, filled, back⟩ := bind_ok_iff.mp rest
  cases back
  obtain ⟨alloc, size, aligned, lo, low, room, top, brkMod⟩ :=
    reach.sessionInv.malloc_block allocated positive
  obtain ⟨inHeap, -, -, zero, frame⟩ := memsetZero_inv filled
  have loPos := reach.sessionInv.lo_pos
  have header : s'.mem (payloadToHeader p) = s1.mem (payloadToHeader p) := by
    by_contra differ
    have := frame _ differ
    simp only [payloadToHeader, wsize] at this
    omega
  rw [header]
  by_cases small : k * n + 23 < 2 ^ 64
  · rw [asize_unbounded small] at size
    refine ⟨alloc, by rw [size, wsize]; omega, zero, s1, allocated, frame⟩
  · /- `malloc` wrapped and handed out a 16-byte block: the product's bytes
    cannot all lie below the break. -/
    rw [asize_wraps (by omega) fits.2] at size
    have := inHeap (by omega)
    omega

/-- After `mm_init`, three `malloc(1)` and the `free` of the middle one,
`calloc(1, 8)` returns that 16-byte block, and its 8 bytes read zero. -/
theorem calloc_zeroes_reused_block :
    ∃ p s', calloc 1 8 (clientSession (fun _ => 0) (fun _ => false) true
        [.malloc 1, .malloc 1, .malloc 1, .free 4128]).heap = .ok (p, s') ∧
      p = 4128 ∧ ZeroBytes s'.mem p 8 :=
  ⟨_, _, eq_ok_of_faultOf (by decide), by decide,
    ((calloc_zeroes_product (clientSession_reachable (by decide)) 1 8).2.2 _ _
      (eq_ok_of_faultOf (by decide)) (by decide)).2.2.1⟩

end SegMalloc
