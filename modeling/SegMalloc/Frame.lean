import SegMalloc.Reshape

/-!
# The payloads the allocator leaves alone

A client owns the payload of each block it holds: the words from just past
the header to the end of the block.  The allocator's own words are the
headers, the words of free blocks (links and footers) and the epilogue.
`InPayload` names the client's words, and `HeapInv.inPayload_apart` shows
that under the invariant they are apart from every header, from every free
block and from the epilogue.  Two consequences:

* writes inside payloads keep the invariant (`HeapInv.payload_frame`), so the
  client may store into what it holds, and `memcpy` and `memset` may fill it;
* a step that writes only the allocator's words keeps every payload
  (`Keeps`); the step lemmas of `malloc` and `free` say so, one rule per
  state transformer (`Keeps.putBlock`, `Keeps.unlink`, `Keeps.push`).
-/

namespace SegMalloc

/-- `a` lies in the payload of an allocated block of `bs`. -/
def InPayload (bs : List Blk) (a : Nat) : Prop :=
  ∃ b ∈ bs, b.alloc = true ∧ b.addr + 8 ≤ a ∧ a < b.addr + b.size

/-- Every word in the payloads of `bs` reads in `s'` what it read in `s`. -/
def Keeps (bs : List Blk) (s s' : Heap) : Prop :=
  ∀ a, InPayload bs a → s'.mem a = s.mem a

theorem inPayload_append {xs ys : List Blk} {a : Nat} :
    InPayload (xs ++ ys) a ↔ InPayload xs a ∨ InPayload ys a := by
  simp only [InPayload, List.mem_append, or_and_right, exists_or]

theorem inPayload_cons_free {b : Blk} {bs : List Blk} {a : Nat} (free : b.alloc = false) :
    InPayload (b :: bs) a ↔ InPayload bs a := by
  simp [InPayload, free]

@[simp] theorem not_inPayload_nil {a : Nat} : ¬ InPayload [] a := by simp [InPayload]

/-- Tilings with the same allocated blocks have the same payload words. -/
theorem inPayload_congr {xs ys : List Blk}
    (same : ∀ c, c ∈ xs ∧ c.alloc = true ↔ c ∈ ys ∧ c.alloc = true) (a : Nat) :
    InPayload xs a ↔ InPayload ys a := by
  constructor
  · rintro ⟨c, member, used, rest⟩
    exact ⟨c, ((same c).mp ⟨member, used⟩).1, used, rest⟩
  · rintro ⟨c, member, used, rest⟩
    exact ⟨c, ((same c).mpr ⟨member, used⟩).1, used, rest⟩

theorem InPayload.sides {pre mid post : List Blk} {a : Nat} (pay : InPayload (pre ++ post) a) :
    InPayload (pre ++ mid ++ post) a := by
  obtain ⟨b, member, rest⟩ := pay
  exact ⟨b, by simp only [List.mem_append] at member ⊢; tauto, rest⟩

namespace Keeps

variable {bs : List Blk} {s t u : Heap}

theorem refl (bs : List Blk) (s : Heap) : Keeps bs s s := fun _ _ => rfl

theorem trans (first : Keeps bs s t) (second : Keeps bs t u) : Keeps bs s u := fun a pay =>
  (second a pay).trans (first a pay)

theorem mono {bs' : List Blk} (keeps : Keeps bs s t)
    (sub : ∀ a, InPayload bs' a → InPayload bs a) :
    Keeps bs' s t := fun a pay => keeps a (sub a pay)

theorem of_mem (same : t.mem = s.mem) : Keeps bs s t := fun a _ => congrFun same a

theorem write {a v : Nat} (keeps : Keeps bs s t) (outside : ¬ InPayload bs a) :
    Keeps bs s (t.write a v) :=
  fun x pay => by
    rw [Heap.write_mem, if_neg fun (same : x = a) => outside (same ▸ pay)]
    exact keeps x pay

theorem setSeg {i v : Nat} (keeps : Keeps bs s t) : Keeps bs s (t.setSeg i v) := keeps

theorem putBlock {block size : Nat} {alloc : Bool} (keeps : Keeps bs s t)
    (header : ¬ InPayload bs block)
    (footer : alloc = false → minBlockSize < size → ¬ InPayload bs (block + size - 8)) :
    Keeps bs s (t.putBlock block size alloc) := fun x pay => by
  rw [putBlock_mem_other (fun (same : x = block) => header (same ▸ pay)) fun free large
    (same : x = block + size - 8) => footer free large (same ▸ pay)]
  exact keeps x pay

theorem unlink {i p n : Nat} (keeps : Keeps bs s t) (prev : p ≠ 0 → ¬ InPayload bs (p + 8))
    (next : i ≠ 0 → n ≠ 0 → ¬ InPayload bs (n + 16)) :
    Keeps bs s (t.unlink i p n) := fun x pay => by
  rw [unlink_mem]
  split_ifs with atNext atPrev
  · exact absurd (atNext.2.2 ▸ pay) (next atNext.1 atNext.2.1)
  · exact absurd (atPrev.2 ▸ pay) (prev atPrev.1)
  · exact keeps x pay

theorem push {i b : Nat} (keeps : Keeps bs s t) (link : ¬ InPayload bs (b + 8))
    (prev : i ≠ 0 → ¬ InPayload bs (b + 16))
    (head : i ≠ 0 → t.segList i ≠ 0 → ¬ InPayload bs (t.segList i + 16)) :
    Keeps bs s (t.push i b) :=
  fun x pay => by
    rw [push_mem]
    split_ifs with atHead atLink atPrev
    · exact absurd (atHead.2.2 ▸ pay) (head atHead.1 atHead.2.1)
    · exact absurd (atLink ▸ pay) link
    · exact absurd (atPrev.2 ▸ pay) (prev atPrev.1)
    · exact keeps x pay

end Keeps

namespace HeapInv

variable {s : Heap} {bs : List Blk} {Ls : Nat → List Nat} {holes : List Nat}
  (inv : HeapInv s bs Ls holes)
include inv

/-- A payload word lies in the payload of the block around it, or wholly
before or after a block: never on a header, in a free block, or on the word
just past a block. -/
theorem inPayload_apart {a : Nat} (pay : InPayload bs a) {c : Blk} (member : c ∈ bs) :
    (c.alloc = true ∧ c.addr + 8 ≤ a ∧ a < c.addr + c.size) ∨ a < c.addr ∨
      c.addr + c.size + 8 ≤ a := by
  obtain ⟨d, dMem, used, low, high⟩ := pay
  by_cases same : d.addr = c.addr
  · obtain rfl := inv.layout.eq_of_addr dMem member same
    exact .inl ⟨used, low, high⟩
  · have := inv.layout.disjoint d dMem c member same
    omega

theorem not_inPayload_header {c : Blk} (member : c ∈ bs) : ¬ InPayload bs c.addr := fun pay => by
  have := inv.inPayload_apart pay member
  omega

theorem not_inPayload_end {c : Blk} (member : c ∈ bs) :
    ¬ InPayload bs (c.addr + c.size) := fun pay => by
  have := inv.inPayload_apart pay member
  omega

theorem not_inPayload_free {c : Blk} (member : c ∈ bs) (free : c.alloc = false) {a : Nat}
    (low : c.addr ≤ a) (high : a < c.addr + c.size) : ¬ InPayload bs a := fun pay => by
  have := inv.inPayload_apart pay member
  simp only [free, Bool.false_eq_true, false_and, false_or] at this
  omega

/-- The epilogue and every word after it belong to no payload. -/
theorem not_inPayload_above {a : Nat} (above : s.brk - 8 ≤ a) : ¬ InPayload bs a := by
  rintro ⟨d, dMem, -, -, high⟩
  have := (inv.bounds dMem).2.1
  omega

/-- The links of a listed block: `next` in every bucket, `prev` above bucket 0. -/
theorem not_inPayload_listed {i x : Nat} (bucket : i < numSegs) (member : x ∈ Ls i) {k : Nat}
    (inside : k < 16 ∨ i ≠ 0 ∧ k < 32) : ¬ InPayload bs (x + k) := by
  obtain ⟨c, cMem, rfl, free, index⟩ := inv.listed_block bucket member
  have := inv.bounds cMem
  have := (inv.size_of_index cMem).2
  exact inv.not_inPayload_free cMem free (Nat.le_add_right _ _) (by rw [index] at this; omega)

/-- Writes inside payloads keep the invariant: it reads no payload word. -/
theorem payload_frame {s' : Heap} (region : s.SameRegion s') (segList : s'.segList = s.segList)
    (inside : ∀ a, s'.mem a ≠ s.mem a → InPayload bs a) : HeapInv s' bs Ls holes := by
  have same : ∀ a, ¬ InPayload bs a → s'.mem a = s.mem a :=
      fun a out => by_contra (out ∘ inside a)
  refine ⟨region.lo ▸ inv.lo_pos, by rw [region.heapStart, region.lo, inv.start], by
    rw [region.lo, region.brk]; exact inv.room, region.brk ▸ inv.top, by
    rw [region.heapStart, region.brk]; exact inv.layout, fun c cMem => ?_, ?_, fun i bucket => ?_,
    fun i bucket upper => ?_, inv.listed, inv.nodup, inv.complete, inv.off⟩
  · have := inv.bounds cMem
    exact (inv.tags c cMem).congr (same _ (inv.not_inPayload_header cMem)) fun free _ =>
      same _ (inv.not_inPayload_free cMem free (by omega) (by omega))
  · rw [region.brk]
    exact inv.epi.frame (same _ (inv.not_inPayload_above le_rfl))
  · rw [segList]
    exact (inv.chains i bucket).congr fun x member =>
      same _ (inv.not_inPayload_listed bucket member (.inl (by omega)))
  · exact (inv.prevs i bucket upper).congr fun x member =>
      same _ (inv.not_inPayload_listed bucket member (.inr ⟨upper, by omega⟩))

end HeapInv

/-- A word inside a block of `mid` lies in no payload of the blocks around it. -/
theorem HeapInv.not_inPayload_mid {s : Heap} {pre mid post : List Blk} {Ls : Nat → List Nat}
    {holes : List Nat} (inv : HeapInv s (pre ++ mid ++ post) Ls holes) {c : Blk}
    (member : c ∈ mid) {a : Nat} (low : c.addr ≤ a) (high : a < c.addr + c.size) :
    ¬ InPayload (pre ++ post) a := by
  rintro ⟨d, dMem, -, dLow, dHigh⟩
  have := inv.layout.disjoint d (by simp at dMem ⊢; tauto) c (by simp [member])
      (inv.layout.addr_ne_of_mid dMem member)
  omega

end SegMalloc
