import SegMalloc.Session

/-!
# Block layouts

The abstract picture of the implicit list: blocks laid end to end, each with
its header address, size and allocated bit.  Everything here is arithmetic on
the list of blocks; how the headers store it is `Tags`' business.  The main
facts: distinct blocks occupy disjoint byte ranges, and splitting, merging
and appending a block keep a layout a layout.
-/

namespace SegMalloc

/-- A block of the implicit list. -/
structure Blk where
  addr : Nat
  size : Nat
  alloc : Bool
  deriving DecidableEq, Repr

/-- The blocks `bs` lie end to end from `a` to `e`, each a multiple of 16 of
at least the minimum size. -/
def Layout : Nat → List Blk → Nat → Prop
  | a, [], e => a = e
  | a, b :: bs, e => b.addr = a ∧ 16 ≤ b.size ∧ b.size % 16 = 0 ∧ Layout (a + b.size) bs e

namespace Layout

variable {a e : Nat} {bs : List Blk}

@[simp] theorem nil_iff : Layout a [] e ↔ a = e := Iff.rfl

theorem cons_iff {b : Blk} :
    Layout a (b :: bs) e ↔ b.addr = a ∧ 16 ≤ b.size ∧ b.size % 16 = 0 ∧
      Layout (a + b.size) bs e :=
  Iff.rfl

theorem le : ∀ {a : Nat} {bs : List Blk}, Layout a bs e → a ≤ e
  | _, [], h => Nat.le_of_eq h
  | _, _ :: _, ⟨_, _, _, rest⟩ => by have := rest.le; omega

theorem append_iff {bs₂ : List Blk} :
    ∀ {a : Nat} {bs₁ : List Blk},
      Layout a (bs₁ ++ bs₂) e ↔ ∃ m, Layout a bs₁ m ∧ Layout m bs₂ e
  | a, [] => by simp
  | a, b :: bs₁ => by
    simp only [List.cons_append, cons_iff, append_iff]
    constructor
    · rintro ⟨addr, min, mul, m, first, second⟩
      exact ⟨m, ⟨addr, min, mul, first⟩, second⟩
    · rintro ⟨m, ⟨addr, min, mul, first⟩, second⟩
      exact ⟨addr, min, mul, m, first, second⟩

/-- Where a block of a layout lies, and its shape. -/
theorem bounds : ∀ {a : Nat} {bs : List Blk}, Layout a bs e → ∀ b ∈ bs,
    a ≤ b.addr ∧ b.addr + b.size ≤ e ∧ 16 ≤ b.size ∧ b.size % 16 = 0 ∧
      b.addr % 16 = a % 16
  | _, [], _, _, member => by simp at member
  | a, c :: bs, ⟨addr, min, mul, rest⟩, b, member => by
    rcases List.mem_cons.mp member with rfl | member
    · have := rest.le; omega
    · have := bounds rest b member; omega

/-- Blocks of a layout at different addresses occupy disjoint ranges. -/
theorem disjoint : ∀ {a : Nat} {bs : List Blk}, Layout a bs e → ∀ b ∈ bs, ∀ c ∈ bs,
    b.addr ≠ c.addr → b.addr + b.size ≤ c.addr ∨ c.addr + c.size ≤ b.addr
  | _, [], _, _, member, _, _ => by simp at member
  | a, d :: bs, ⟨addr, min, mul, rest⟩, b, bMem, c, cMem => by
    intro apart
    rcases List.mem_cons.mp bMem with rfl | bTail <;> rcases List.mem_cons.mp cMem with rfl | cTail
    · exact absurd rfl apart
    · have := bounds rest c cTail; omega
    · have := bounds rest b bTail; omega
    · exact disjoint rest b bTail c cTail apart

/-- A layout has at most one block at each address. -/
theorem eq_of_addr (layout : Layout a bs e) {b c : Blk} (bMem : b ∈ bs) (cMem : c ∈ bs)
    (same : b.addr = c.addr) : b = c := by
  induction bs generalizing a with
  | nil => simp at bMem
  | cons d bs ih =>
    obtain ⟨addr, min, mul, rest⟩ := layout
    rcases List.mem_cons.mp bMem with rfl | bTail <;> rcases List.mem_cons.mp cMem with rfl | cTail
    · rfl
    · have := bounds rest c cTail; omega
    · have := bounds rest b bTail; omega
    · exact ih rest bTail cTail

/-- Cut a layout at one of its blocks. -/
theorem split_at {b : Blk} (layout : Layout a bs e) (member : b ∈ bs) :
    ∃ pre post, bs = pre ++ b :: post ∧ Layout a pre b.addr ∧
      16 ≤ b.size ∧ b.size % 16 = 0 ∧ Layout (b.addr + b.size) post e := by
  obtain ⟨pre, post, rfl⟩ := List.append_of_mem member
  obtain ⟨m, first, addr, min, mul, second⟩ := append_iff.mp layout
  subst addr
  exact ⟨pre, post, rfl, first, min, mul, second⟩

/-- What follows a block: the epilogue, or the next block at its end. -/
theorem next_cases {post : List Blk} (layout : Layout a post e) :
    post = [] ∧ a = e ∨ ∃ c rest, post = c :: rest ∧ c.addr = a := by
  cases post with
  | nil => exact .inl ⟨rfl, layout⟩
  | cons c rest => exact .inr ⟨c, rest, rfl, layout.1⟩

/-- A layout cut into three stretches. -/
theorem append3_iff {pre mid post : List Blk} :
    Layout a (pre ++ mid ++ post) e ↔
      ∃ x y, Layout a pre x ∧ Layout x mid y ∧ Layout y post e := by
  simp only [append_iff]
  constructor
  · rintro ⟨y, ⟨x, first, middle⟩, last⟩
    exact ⟨x, y, first, middle, last⟩
  · rintro ⟨x, y, first, middle, last⟩
    exact ⟨y, ⟨x, first, middle⟩, last⟩

/-- A tiling from a given start ends at one place. -/
theorem end_eq : ∀ {a e e' : Nat} {bs : List Blk}, Layout a bs e → Layout a bs e' → e = e'
  | _, _, _, [], first, second => first.symm.trans second
  | _, _, _, _ :: _, ⟨_, _, _, first⟩, ⟨_, _, _, second⟩ => end_eq first second

/-- A tiling of multiples of 16 ends where it starts, modulo 16. -/
theorem end_mod : ∀ {a : Nat} {bs : List Blk}, Layout a bs e → e % 16 = a % 16
  | _, [], layout => by rw [layout]
  | _, _ :: _, ⟨_, _, mul, rest⟩ => by rw [rest.end_mod]; omega

/-- A nonempty tiling starts at its first block. -/
theorem start_eq {a a' e e' : Nat} {bs : List Blk} (nonempty : bs ≠ []) (first : Layout a bs e)
    (second : Layout a' bs e') : a = a' := by
  cases bs with
  | nil => exact absurd rfl nonempty
  | cons b bs => exact first.1.symm.trans second.1

/-- Blocks outside a middle stretch of a tiling sit at other addresses than
the blocks of the stretch. -/
theorem addr_ne_of_mid {pre mid post : List Blk} (layout : Layout a (pre ++ mid ++ post) e)
    {b c : Blk} (side : b ∈ pre ++ post) (middle : c ∈ mid) : b.addr ≠ c.addr := by
  obtain ⟨x, y, first, second, third⟩ := append3_iff.mp layout
  have := second.bounds c middle
  rcases List.mem_append.mp side with side | side
  · have := first.bounds b side; omega
  · have := third.bounds b side; omega

end Layout

end SegMalloc
