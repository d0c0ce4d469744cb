import Mathlib.Data.Nat.Bitwise

/-!
# Words, sizes and the boundary-tag codec

`mm.c` runs on a 64-bit machine: `size_t` and `word_t` arithmetic wraps modulo
`2 ^ 64`.  A header (or footer) word packs a block size, a multiple of 16, with
three status bits in its low nibble.  This file gives the constants of the
allocator, the wrapping `size_t` operations the code relies on, `pack` and the
extractors exactly as the code computes them with masks, and their arithmetic
meaning on well-formed words.
-/

namespace SegMalloc

/-- Word and header size (bytes). -/
def wsize : Nat := 8

/-- Double word size (bytes). -/
def dsize : Nat := 2 * wsize

/-- Minimum block size (bytes). -/
def minBlockSize : Nat := dsize

/-- Amount the heap is extended by. -/
def chunksize : Nat := 1 <<< 12

/-- Mask of the allocated bit. -/
def allocMask : Nat := 0x1

/-- Mask of the size field: `~(word_t)0xF`. -/
def sizeMask : Nat := 2 ^ 64 - 1 - 0xF

/-- Number of segregated free lists. -/
def numSegs : Nat := 15

/-- `size_t` arithmetic: the result modulo `2 ^ 64`. -/
def wrap (x : Nat) : Nat := x % 2 ^ 64

/-- `size_t` subtraction, wrapping below zero. -/
def wrapSub (x y : Nat) : Nat := wrap (x + 2 ^ 64 - y % 2 ^ 64)

/-- `(void *)-1`, what `mem_sbrk` returns when it refuses. -/
def sbrkFailed : Nat := 2 ^ 64 - 1

/-- `round_up`: `size` rounded up to the next multiple of `n`, in `size_t`. -/
def roundUp (size n : Nat) : Nat := wrap (n * (wrap (size + (n - 1)) / n))

/-- `pack`: the size with the allocation bits or-ed in, as the code builds it. -/
def pack (size : Nat) (alloc isPrevAlloc isPrevMiniBlock : Bool) : Nat :=
  let word := size
  let word := if alloc then word ||| allocMask else word
  let word := if isPrevAlloc then word ||| 0x2 else word
  if isPrevMiniBlock then word ||| 0x4 else word

/-- `extract_size`: clear the low four bits. -/
def extractSize (word : Nat) : Nat := word &&& sizeMask

/-- `extract_alloc`: the lowest bit. -/
def extractAlloc (word : Nat) : Bool := word &&& allocMask != 0

/-- The previous-allocated bit, as `getPrevAlloc` reads it from a header. -/
def extractPrevAlloc (word : Nat) : Bool := (word &&& 0x2) >>> 1 != 0

/-- The previous-mini-block bit, as `getPrevMiniBlock` reads it from a header. -/
def extractPrevMiniBlock (word : Nat) : Bool := (word &&& 0x4) >>> 2 != 0

/-! ## Arithmetic meaning of the bit operations -/

theorem extractSize_eq {word : Nat} (small : word < 2 ^ 64) :
    extractSize word = word / 16 * 16 := by
  have mask : sizeMask = (2 ^ 60 - 1) <<< 4 := by decide
  have shifted : word / 16 * 16 = (word >>> 4) <<< 4 := by
    simp [Nat.shiftLeft_eq, Nat.shiftRight_eq_div_pow]
  rw [extractSize, mask, shifted]
  apply Nat.eq_of_testBit_eq
  intro i
  simp only [Nat.testBit_and, Nat.testBit_shiftLeft, Nat.testBit_shiftRight,
    Nat.testBit_two_pow_sub_one]
  by_cases low : 4 ≤ i
  · by_cases high : i < 64
    · simp [low, show i - 4 < 60 by omega, Nat.add_sub_cancel' low]
    · have beyond : word.testBit i = false :=
        Nat.testBit_lt_two_pow (lt_of_lt_of_le small (Nat.pow_le_pow_right (by omega) (by omega)))
      simp [low, show ¬ i - 4 < 60 by omega, beyond]
  · simp [low]

theorem extractAlloc_eq (word : Nat) : extractAlloc word = decide (word % 2 = 1) := by
  simp only [extractAlloc, allocMask, Nat.and_one_is_mod]
  cases Nat.mod_two_eq_zero_or_one word <;> simp [*]

theorem extractPrevAlloc_eq (word : Nat) :
    extractPrevAlloc word = decide (word / 2 % 2 = 1) := by
  have bit : (word &&& 0x2) >>> 1 = word / 2 % 2 := by
    rw [Nat.shiftRight_eq_div_pow, pow_one, Nat.and_div_two]
    simp
  simp only [extractPrevAlloc, bit]
  cases Nat.mod_two_eq_zero_or_one (word / 2) <;> simp [*]

theorem extractPrevMiniBlock_eq (word : Nat) :
    extractPrevMiniBlock word = decide (word / 4 % 2 = 1) := by
  have bit : (word &&& 0x4) >>> 2 = word / 4 % 2 := by
    rw [Nat.shiftRight_eq_div_pow, show 2 ^ 2 = 2 * 2 by rfl, ← Nat.div_div_eq_div_mul,
      Nat.and_div_two, Nat.and_div_two, Nat.div_div_eq_div_mul word]
    simp
  simp only [extractPrevMiniBlock, bit]
  cases Nat.mod_two_eq_zero_or_one (word / 4) <;> simp [*]

/-- `size_t` subtraction that does not go below zero. -/
theorem wrapSub_eq {x y : Nat} (le : y ≤ x) (small : x < 2 ^ 64) : wrapSub x y = x - y := by
  have shifted : x + 2 ^ 64 - y = x - y + 2 ^ 64 := by omega
  rw [wrapSub, wrap, Nat.mod_eq_of_lt (by omega : y < 2 ^ 64), shifted, Nat.add_mod_right,
    Nat.mod_eq_of_lt (by omega)]

/-- Rounding a multiple of 16 up to a multiple of 16 keeps it. -/
theorem roundUp_dsize {size : Nat} (aligned : size % 16 = 0) (small : size < 2 ^ 64) :
    roundUp size dsize = size := by
  have below : size + 15 < 2 ^ 64 := by omega
  simp only [roundUp, dsize, wsize, wrap, Nat.mod_eq_of_lt below]
  rw [show 2 * 8 * ((size + (2 * 8 - 1)) / (2 * 8)) = size by omega, Nat.mod_eq_of_lt small]

/-- Or-ing the low flag bits into a multiple of 16 adds them. -/
theorem lor_flags {size flags : Nat} (aligned : size % 16 = 0) (low : flags < 16) :
    size ||| flags = size + flags := by
  obtain ⟨q, rfl⟩ : ∃ q, size = 2 ^ 4 * q := ⟨size / 16, by omega⟩
  exact (Nat.mul_add_lt_is_or low q).symm

theorem pack_eq {size : Nat} (aligned : size % 16 = 0) (alloc isPrevAlloc isPrevMiniBlock : Bool) :
    pack size alloc isPrevAlloc isPrevMiniBlock =
      size + alloc.toNat + 2 * isPrevAlloc.toNat + 4 * isPrevMiniBlock.toNat := by
  have assoc (a b c : Nat) : a ||| b ||| c = a ||| (b ||| c) := Nat.lor_assoc a b c
  cases alloc <;> cases isPrevAlloc <;> cases isPrevMiniBlock <;>
    simp only [pack, allocMask, ite_true, ite_false, Bool.false_eq_true, assoc, Nat.reduceOr] <;>
    (try rw [lor_flags aligned (by decide)]) <;> simp

@[simp] theorem extractSize_pack {size : Nat} (aligned : size % 16 = 0) (small : size < 2 ^ 64)
    (alloc isPrevAlloc isPrevMiniBlock : Bool) :
    extractSize (pack size alloc isPrevAlloc isPrevMiniBlock) = size := by
  rw [pack_eq aligned, extractSize_eq] <;> cases alloc <;> cases isPrevAlloc <;>
    cases isPrevMiniBlock <;> simp <;> omega

@[simp] theorem extractAlloc_pack {size : Nat} (aligned : size % 16 = 0)
    (alloc isPrevAlloc isPrevMiniBlock : Bool) :
    extractAlloc (pack size alloc isPrevAlloc isPrevMiniBlock) = alloc := by
  rw [pack_eq aligned, extractAlloc_eq]
  cases alloc <;> cases isPrevAlloc <;> cases isPrevMiniBlock <;> simp <;> omega

@[simp] theorem extractPrevAlloc_pack {size : Nat} (aligned : size % 16 = 0)
    (alloc isPrevAlloc isPrevMiniBlock : Bool) :
    extractPrevAlloc (pack size alloc isPrevAlloc isPrevMiniBlock) = isPrevAlloc := by
  rw [pack_eq aligned, extractPrevAlloc_eq]
  cases alloc <;> cases isPrevAlloc <;> cases isPrevMiniBlock <;> simp <;> omega

@[simp] theorem extractPrevMiniBlock_pack {size : Nat} (aligned : size % 16 = 0)
    (alloc isPrevAlloc isPrevMiniBlock : Bool) :
    extractPrevMiniBlock (pack size alloc isPrevAlloc isPrevMiniBlock) = isPrevMiniBlock := by
  rw [pack_eq aligned, extractPrevMiniBlock_eq]
  cases alloc <;> cases isPrevAlloc <;> cases isPrevMiniBlock <;> simp <;> omega

/-- A header word packs back from the four fields the code reads out of it
exactly when its unused bit 3 is clear: the format keeps every other bit. -/
theorem pack_extract_iff {word : Nat} (small : word < 2 ^ 64) :
    pack (extractSize word) (extractAlloc word) (extractPrevAlloc word)
      (extractPrevMiniBlock word) = word ↔
      word / 8 % 2 = 0 := by
  rw [pack_eq (by rw [extractSize_eq small]; omega), extractSize_eq small, extractAlloc_eq,
    extractPrevAlloc_eq, extractPrevMiniBlock_eq]
  have bit (x : Nat) : (decide (x % 2 = 1)).toNat = x % 2 := by
    rcases Nat.mod_two_eq_zero_or_one x with low | low <;> simp [low]
  rw [bit, bit, bit]
  omega

/-- The prologue word `mm_init` writes packs back from its fields. -/
theorem pack_extract_prologue :
    pack 0 true false false < 2 ^ 64 ∧
      pack (extractSize (pack 0 true false false)) (extractAlloc (pack 0 true false false))
          (extractPrevAlloc (pack 0 true false false))
          (extractPrevMiniBlock (pack 0 true false false)) =
        pack 0 true false false :=
  ⟨by decide, (pack_extract_iff (by decide)).mpr (by decide)⟩

/-- Or-ing `0x2` into a header sets its previous-allocated bit. -/
theorem pack_lor_two (size : Nat) (alloc isPrevAlloc isPrevMiniBlock : Bool) :
    pack size alloc isPrevAlloc isPrevMiniBlock ||| 0x2 = pack size alloc true isPrevMiniBlock := by
  cases alloc <;> cases isPrevAlloc <;> cases isPrevMiniBlock <;>
    simp only [pack, allocMask, ite_true, ite_false, Bool.false_eq_true, Nat.lor_assoc,
      Nat.reduceOr]

/-- Whatever a word held, after or-ing `0x2` its previous-allocated bit reads set. -/
theorem extractPrevAlloc_lor_two (word : Nat) : extractPrevAlloc (word ||| 0x2) = true := by
  rw [extractPrevAlloc_eq, ← Nat.testBit_to_div_mod (i := 1), Nat.testBit_lor,
    show Nat.testBit 2 1 = true by decide, Bool.or_true]

end SegMalloc
