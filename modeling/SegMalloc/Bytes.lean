import SegMalloc.Calloc
import SegMalloc.Regions

/-!
# The bytes a client reads

The heap holds a word at each word-aligned address; a client reads bytes.
Byte `j` from a word-aligned address `p` is byte `j % 8` of the word at
`p + 8 * (j / 8)` (`byteAt`).  Over this view `mem_memcpy` copies bytes and
`mem_memset` zeroes them, and a store of a word changes the eight bytes it
covers.
-/

namespace SegMalloc

variable {s s' : Heap}

/-- Byte `j` from the word-aligned address `p`. -/
def byteAt (mem : Nat → Nat) (p j : Nat) : Nat := wordByte (mem (p + 8 * (j / 8))) (j % 8)

/-- The `n` bytes from `p`. -/
def bytesAt (mem : Nat → Nat) (p n : Nat) : List Nat := (List.range n).map (byteAt mem p)

@[simp] theorem length_bytesAt (mem : Nat → Nat) (p n : Nat) : (bytesAt mem p n).length = n := by
  simp [bytesAt]

/-- Bytes read the same where their words do. -/
theorem bytesAt_congr {mem mem' : Nat → Nat} {p n : Nat}
    (same : ∀ j < n, mem' (p + 8 * (j / 8)) = mem (p + 8 * (j / 8))) :
    bytesAt mem' p n = bytesAt mem p n :=
  List.map_congr_left fun j member => by rw [byteAt, byteAt, same j (List.mem_range.mp member)]

theorem byteAt_of_bytesAt {mem mem' : Nat → Nat} {p n j : Nat}
    (same : bytesAt mem' p n = bytesAt mem p n) (low : j < n) :
    byteAt mem' p j = byteAt mem p j :=
  List.map_inj_left.mp same j (List.mem_range.mpr low)

theorem take_bytesAt (mem : Nat → Nat) (p n k : Nat) :
    (bytesAt mem p n).take k = bytesAt mem p (min k n) := by
  rw [bytesAt, ← List.map_take, List.take_range, bytesAt]

/-! ## Bytes of a word -/

@[simp] theorem wordByte_zero (i : Nat) : wordByte 0 i = 0 := by simp [wordByte]

/-- The low `c` bytes of a word are those of its remainder modulo `2 ^ (8 * c)`. -/
theorem wordByte_mod {w c i : Nat} (low : i < c) : wordByte (w % 2 ^ (8 * c)) i = wordByte w i := by
  have dvd : 2 ^ (8 * i) * 256 ∣ 2 ^ (8 * c) := by
    rw [show 256 = 2 ^ 8 from rfl, ← pow_add]
    exact Nat.pow_dvd_pow 2 (by omega)
  rw [wordByte, wordByte, ← Nat.mod_mul_right_div_self, ← Nat.mod_mul_right_div_self w,
      Nat.mod_mod_of_dvd _ dvd]

/-- The word `storeLow` writes has the low `c` bytes of `v` and the other
bytes of `m`. -/
theorem wordByte_lowBytes (v m c i : Nat) :
    wordByte (v % 2 ^ (8 * c) + (m - m % 2 ^ (8 * c))) i =
      if i < c then wordByte v i else wordByte m i := by
  have pos : 0 < 2 ^ (8 * c) := Nat.two_pow_pos _
  have high : m - m % 2 ^ (8 * c) = 2 ^ (8 * c) * (m / 2 ^ (8 * c)) := by
    have := Nat.mod_add_div m (2 ^ (8 * c))
    omega
  rw [high]
  split_ifs with low
  · rw [← wordByte_mod low, Nat.add_mul_mod_self_left, Nat.mod_mod, wordByte_mod low]
  · have split : 2 ^ (8 * i) = 2 ^ (8 * c) * 2 ^ (8 * (i - c)) := by
      rw [← pow_add]
      congr 1
      omega
    rw [wordByte, wordByte, split, ← Nat.div_div_eq_div_mul, ← Nat.div_div_eq_div_mul m,
        Nat.add_mul_div_left _ _ pos,
      Nat.div_eq_of_lt (Nat.mod_lt _ pos), Nat.zero_add]

/-! ## `mem_memcpy` -/

theorem load_inv {a w : Nat} (run : load a s = .ok (w, s')) :
    s.Valid a ∧ w = s.mem a ∧ s' = s := by
  unfold load at run
  split at run
  · cases run; exact ⟨‹_›, rfl, rfl⟩
  · cases run

theorem loadLow_inv {a count w : Nat} (run : loadLow a count s = .ok (w, s')) :
    w = s.mem a % 2 ^ (8 * count) ∧ s' = s := by
  unfold loadLow at run
  split at run
  · cases run; exact ⟨rfl, rfl⟩
  · cases run

/-- A run of `k` word copies between words that do not meet: each
destination word holds its source word, and no other word changed. -/
theorem copyWords_inv {dest src : Nat} : ∀ {k : Nat} {s s' : Heap} {u : Unit},
    (∀ i < k, ∀ j < k, dest + 8 * i ≠ src + 8 * j) →
      copyWords dest src k s = .ok (u, s') →
    (∃ mem, s' = { s with mem := mem }) ∧
      (∀ i < k, s'.mem (dest + 8 * i) = s.mem (src + 8 * i)) ∧
      ∀ a, s'.mem a ≠ s.mem a → ∃ i < k, a = dest + 8 * i
  | 0, _, _, _, _, run => by
    cases run
    exact ⟨⟨_, rfl⟩, fun _ none => absurd none (Nat.not_lt_zero _),
      fun _ same => absurd rfl same⟩
  | k + 1, s, s', _, apart, run => by
    obtain ⟨_, t, first, rest⟩ := bind_ok_iff.mp run
    obtain ⟨⟨mem, rfl⟩, copied, frame⟩ :=
        copyWords_inv (fun i low j high => apart i (by omega) j (by omega)) first
    obtain ⟨w, t', read, write⟩ := bind_ok_iff.mp rest
    obtain ⟨-, rfl, rfl⟩ := load_inv read
    obtain ⟨-, rfl⟩ := store_inv write
    /- The source word was not overwritten by an earlier copy. -/
    have source : mem (src + 8 * k) = s.mem (src + 8 * k) := by
      by_contra differ
      obtain ⟨i, low, same⟩ := frame _ differ
      exact apart i (by omega) k (by omega) same.symm
    refine ⟨⟨_, rfl⟩, fun i low => ?_, fun a differ => ?_⟩
    · rw [Heap.write_mem]
      split_ifs with here
      · rw [show i = k by omega]
        exact source
      · exact copied i (by omega)
    · rw [Heap.write_mem] at differ
      split_ifs at differ with here
      · exact ⟨k, by omega, here⟩
      · obtain ⟨i, low, rfl⟩ := frame a differ
        exact ⟨i, by omega, rfl⟩

/-- A `memcpy` of `n` bytes between ranges that do not meet, that runs: byte
`j < n` at `dest` reads afterwards what byte `j` at `src` read before, and
no word outside the `n` bytes at `dest` changed. -/
theorem memcpy_inv {dest src n : Nat} {u : Unit} (apart : src + n ≤ dest ∨ dest + n ≤ src)
    (run : memcpy dest src n s = .ok (u, s')) :
    (∃ mem, s' = { s with mem := mem }) ∧
      (∀ j < n, byteAt s'.mem dest j = byteAt s.mem src j) ∧
      ∀ a, s'.mem a ≠ s.mem a → dest ≤ a ∧ a < dest + n := by
  obtain ⟨_, t, words, tail⟩ := bind_ok_iff.mp run
  have whole : 8 * (n / 8) + n % 8 = n := Nat.div_add_mod n 8
  obtain ⟨⟨mem, rfl⟩, copied, frame⟩ := copyWords_inv (fun i low j high => by omega) words
  by_cases ragged : n % 8 ≠ 0
  · rw [if_pos ragged] at tail
    obtain ⟨w, t', read, write⟩ := bind_ok_iff.mp tail
    obtain ⟨rfl, rfl⟩ := loadLow_inv read
    obtain ⟨-, -, rfl⟩ := storeLow_inv write
    have source : mem (src + 8 * (n / 8)) = s.mem (src + 8 * (n / 8)) := by
      by_contra differ
      obtain ⟨i, low, same⟩ := frame _ differ
      omega
    refine ⟨⟨_, rfl⟩, fun j low => ?_, fun a differ => ?_⟩
    · by_cases last : j / 8 = n / 8
      · rw [byteAt, byteAt, Heap.write_mem, last, if_pos rfl, wordByte_lowBytes, if_pos (by omega),
          wordByte_mod (by omega)]
        exact congrArg (wordByte · _) source
      · rw [byteAt, byteAt, Heap.write_mem, if_neg (by omega)]
        exact congrArg (wordByte · _) (copied _ (by omega))
    · rw [Heap.write_mem] at differ
      split_ifs at differ with here
      · omega
      · obtain ⟨i, low, rfl⟩ := frame a differ
        omega
  · rw [if_neg ragged] at tail
    cases tail
    refine ⟨⟨_, rfl⟩, fun j low => congrArg (wordByte · _) (copied _ (by omega)),
        fun a differ => ?_⟩
    obtain ⟨i, low, rfl⟩ := frame a differ
    omega

/-! ## `mem_memset` and stores -/

theorem zeroWords_withMem {dest : Nat} : ∀ {words : Nat} {s s' : Heap} {u : Unit},
    zeroWords dest words s = .ok (u, s') → ∃ mem, s' = { s with mem := mem }
  | 0, _, _, _, run => by
    cases run
    exact ⟨_, rfl⟩
  | k + 1, s, s', _, run => by
    obtain ⟨_, t, first, last⟩ := bind_ok_iff.mp run
    obtain ⟨mem, rfl⟩ := zeroWords_withMem first
    obtain ⟨-, rfl⟩ := store_inv last
    exact ⟨_, rfl⟩

/-- `memset` changes only words. -/
theorem memsetZero_withMem {dest n : Nat} {u : Unit} (run : memsetZero dest n s = .ok (u, s')) :
    ∃ mem, s' = { s with mem := mem } := by
  obtain ⟨_, t, words, tail⟩ := bind_ok_iff.mp run
  obtain ⟨mem, rfl⟩ := zeroWords_withMem words
  split_ifs at tail
  · obtain ⟨-, -, rfl⟩ := storeLow_inv tail
    exact ⟨_, rfl⟩
  · cases tail
    exact ⟨_, rfl⟩

/-- The bytes `ZeroBytes` covers read zero. -/
theorem ZeroBytes.bytesAt_eq {mem : Nat → Nat} {p n : Nat} (zero : ZeroBytes mem p n) :
    bytesAt mem p n = List.replicate n 0 := by
  refine List.eq_replicate_iff.mpr ⟨length_bytesAt _ _ _, fun b member => ?_⟩
  obtain ⟨j, low, rfl⟩ := List.mem_map.mp member
  have low := List.mem_range.mp low
  by_cases last : j / 8 = n / 8
  · rw [byteAt, last, ← wordByte_mod (show j % 8 < n % 8 by omega), zero.2, wordByte_zero]
  · rw [byteAt, zero.1 _ (by omega), wordByte_zero]

/-- A store of `w` at word `k` from `p` changes the eight bytes it covers. -/
theorem bytesAt_write (p m k w : Nat) :
    bytesAt (s.write (p + 8 * k) w).mem p m = Region.storeWord (bytesAt s.mem p m) k w := by
  rw [Region.storeWord, length_bytesAt, bytesAt, bytesAt]
  refine List.map_congr_left fun j member => ?_
  have low := List.mem_range.mp member
  by_cases here : j / 8 = k
  · simp [byteAt, here]
  · simp [byteAt, here, low, List.getD_eq_getElem?_getD, show 8 * (j / 8) ≠ 8 * k by omega]

end SegMalloc
