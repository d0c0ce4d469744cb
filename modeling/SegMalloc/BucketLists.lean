import SegMalloc.Buckets
import Mathlib.Data.List.Perm.Basic

/-!
# The buckets as lists

The free-list part of the invariant, on its own: bucket `i` is the chain
`Ls i`, doubly linked above bucket 0, and no block is on two buckets or twice
on one.  Members are nonzero, aligned like block headers, and their header
and the two words after it lie in the heap, since `removeFromFree` reads the
`prev` word of a mini block too.

Under this invariant the two edits act on the lists and on nothing else a
list reads: `addToFree` puts a block that is on no bucket in front of bucket
`i`, `removeFromFree` deletes a member of bucket `i`, and every other bucket
keeps its head and its links.
-/

namespace SegMalloc

/-- Bucket `i` replaced by `l`. -/
def setBucket (Ls : Nat → List Nat) (i : Nat) (l : List Nat) : Nat → List Nat :=
  fun j => if j = i then l else Ls j

@[simp] theorem setBucket_same (Ls : Nat → List Nat) (i : Nat) (l : List Nat) :
    setBucket Ls i l i = l := by simp [setBucket]

theorem setBucket_other (Ls : Nat → List Nat) {i j : Nat} (l : List Nat) (other : j ≠ i) :
    setBucket Ls i l j = Ls j := by simp [setBucket, other]

/-- The buckets of `s` are the lists `Ls`. -/
structure FreeLists (s : Heap) (Ls : Nat → List Nat) : Prop where
  chains : ∀ i < numSegs, NextChain s.mem (s.segList i) (Ls i)
  prevs : ∀ i < numSegs, i ≠ 0 → PrevLinks s.mem 0 (Ls i)
  nodup : ∀ i < numSegs, (Ls i).Nodup
  unique : ∀ i < numSegs, ∀ j < numSegs, ∀ x ∈ Ls i, x ∈ Ls j → i = j
  aligned : ∀ i < numSegs, ∀ x ∈ Ls i, x % 16 = (s.lo + 8) % 16 ∧ x ≠ 0
  valid : ∀ i < numSegs, ∀ x ∈ Ls i, s.Valid x ∧ s.Valid (x + 8) ∧ s.Valid (x + 16)

instance (s : Heap) (Ls : Nat → List Nat) : Decidable (FreeLists s Ls) :=
  have : Decidable ((∀ i < numSegs, NextChain s.mem (s.segList i) (Ls i)) ∧
      ∀ i < numSegs, i ≠ 0 → PrevLinks s.mem 0 (Ls i)) := inferInstance
  have : Decidable ((∀ i < numSegs, (Ls i).Nodup) ∧
      ∀ i < numSegs, ∀ j < numSegs, ∀ x ∈ Ls i, x ∈ Ls j → i = j) := inferInstance
  have : Decidable ((∀ i < numSegs, ∀ x ∈ Ls i, x % 16 = (s.lo + 8) % 16 ∧ x ≠ 0) ∧
      ∀ i < numSegs, ∀ x ∈ Ls i, s.Valid x ∧ s.Valid (x + 8) ∧ s.Valid (x + 16)) :=
    inferInstance
  decidable_of_iff (((∀ i < numSegs, NextChain s.mem (s.segList i) (Ls i)) ∧
      ∀ i < numSegs, i ≠ 0 → PrevLinks s.mem 0 (Ls i)) ∧
    ((∀ i < numSegs, (Ls i).Nodup) ∧
      ∀ i < numSegs, ∀ j < numSegs, ∀ x ∈ Ls i, x ∈ Ls j → i = j) ∧
    ((∀ i < numSegs, ∀ x ∈ Ls i, x % 16 = (s.lo + 8) % 16 ∧ x ≠ 0) ∧
      ∀ i < numSegs, ∀ x ∈ Ls i, s.Valid x ∧ s.Valid (x + 8) ∧ s.Valid (x + 16)))
    ⟨fun ⟨⟨a, b⟩, ⟨c, d⟩, ⟨e, f⟩⟩ => ⟨a, b, c, d, e, f⟩,
    fun ⟨a, b, c, d, e, f⟩ => ⟨⟨a, b⟩, ⟨c, d⟩, ⟨e, f⟩⟩⟩

/-- Buckets that are all NULL are all empty. -/
theorem FreeLists.empty {s : Heap} (zero : ∀ i, s.segList i = 0) : FreeLists s fun _ => [] :=
  ⟨fun i _ => zero i, fun _ _ _ => trivial, fun _ _ => List.nodup_nil,
    fun _ _ _ _ _ member => absurd member (List.not_mem_nil _),
    fun _ _ _ member => absurd member (List.not_mem_nil _),
    fun _ _ _ member => absurd member (List.not_mem_nil _)⟩

namespace FreeLists

variable {s : Heap} {Ls : Nat → List Nat} (lists : FreeLists s Ls)
include lists

theorem spread {i : Nat} (bucket : i < numSegs) : Spread (Ls i) :=
  ⟨lists.nodup i bucket, fun x member => (lists.aligned i bucket x member).2,
    fun x xMem y yMem => by
      rw [(lists.aligned i bucket x xMem).1, (lists.aligned i bucket y yMem).1]⟩

/-- A bucket has fewer members than the heap has bytes, so a walk along it
never runs out of fuel. -/
theorem fuel {i : Nat} (bucket : i < numSegs) : (Ls i).length < loopFuel s := by
  have sub : Ls i ⊆ List.range' s.lo (s.brk - s.lo) := fun x member => by
    have := (lists.valid i bucket x member).1
    simp only [List.mem_range'_1, Heap.Valid] at this ⊢
    omega
  have := (List.subperm_of_subset (lists.nodup i bucket) sub).length_le
  simp only [List.length_range', loopFuel] at this ⊢
  omega

/-- The head of a nonempty bucket is a member. -/
theorem head_mem {i : Nat} (bucket : i < numSegs) (nonzero : s.segList i ≠ 0) :
    s.segList i ∈ Ls i := by
  have head := (lists.chains i bucket).head_eq
  cases list : Ls i with
  | nil => rw [list] at head; exact absurd head nonzero
  | cons y ys => rw [list] at head; simp [head]

/-- Replacing bucket `i` by a chain `l` of members of bucket `i` and of blocks
on no bucket, in a state that keeps the heap region, the other heads and the
links of the other buckets, keeps the invariant. -/
theorem setBucket {t : Heap} {i : Nat} {l : List Nat} (bucket : i < numSegs) (lo : t.lo = s.lo)
    (valid : ∀ a, t.Valid a ↔ s.Valid a) (chain : NextChain t.mem (t.segList i) l)
    (prevs : i ≠ 0 → PrevLinks t.mem 0 l) (nodup : l.Nodup)
    (members : ∀ x ∈ l, x ∈ Ls i ∨ (∀ j < numSegs, x ∉ Ls j) ∧
      x % 16 = (s.lo + 8) % 16 ∧ x ≠ 0 ∧ s.Valid x ∧ s.Valid (x + 8) ∧ s.Valid (x + 16))
    (heads : ∀ j < numSegs, j ≠ i → t.segList j = s.segList j)
    (links : ∀ j < numSegs, j ≠ i → ∀ y ∈ Ls j, t.mem (y + 8) = s.mem (y + 8) ∧
      t.mem (y + 16) = s.mem (y + 16)) :
    FreeLists t (SegMalloc.setBucket Ls i l) := by
  have shape : ∀ x ∈ l, x % 16 = (s.lo + 8) % 16 ∧ x ≠ 0 ∧ s.Valid x ∧
      s.Valid (x + 8) ∧ s.Valid (x + 16) :=
    fun x member => (members x member).elim
      (fun old => ⟨(lists.aligned i bucket x old).1, (lists.aligned i bucket x old).2,
        lists.valid i bucket x old⟩)
      fun fresh => fresh.2
  refine ⟨fun j jBucket => ?_, fun j jBucket nonzero => ?_, fun j jBucket => ?_,
    fun j jBucket k kBucket x xj xk => ?_, fun j jBucket x member => ?_,
    fun j jBucket x member => ?_⟩
  · by_cases same : j = i
    · subst same; rwa [setBucket_same]
    · rw [setBucket_other _ _ same, heads j jBucket same]
      exact (lists.chains j jBucket).congr fun y member => (links j jBucket same y member).1
  · by_cases same : j = i
    · subst same; rw [setBucket_same]; exact prevs nonzero
    · rw [setBucket_other _ _ same]
      exact (lists.prevs j jBucket nonzero).congr fun y member => (links j jBucket same y member).2
  · by_cases same : j = i
    · subst same; rwa [setBucket_same]
    · rw [setBucket_other _ _ same]; exact lists.nodup j jBucket
  · by_cases ji : j = i <;> by_cases ki : k = i
    · rw [ji, ki]
    · rw [ji, setBucket_same] at xj
      rw [setBucket_other _ _ ki] at xk
      rcases members x xj with old | ⟨fresh, -⟩
      · exact absurd (lists.unique i bucket k kBucket x old xk) (Ne.symm ki)
      · exact absurd xk (fresh k kBucket)
    · rw [ki, setBucket_same] at xk
      rw [setBucket_other _ _ ji] at xj
      rcases members x xk with old | ⟨fresh, -⟩
      · exact absurd (lists.unique j jBucket i bucket x xj old) ji
      · exact absurd xj (fresh j jBucket)
    · rw [setBucket_other _ _ ji] at xj
      rw [setBucket_other _ _ ki] at xk
      exact lists.unique j jBucket k kBucket x xj xk
  · rw [lo]
    by_cases same : j = i
    · subst same
      rw [setBucket_same] at member
      exact ⟨(shape x member).1, (shape x member).2.1⟩
    · rw [setBucket_other _ _ same] at member; exact lists.aligned j jBucket x member
  · simp only [valid]
    by_cases same : j = i
    · subst same; rw [setBucket_same] at member; exact (shape x member).2.2
    · rw [setBucket_other _ _ same] at member; exact lists.valid j jBucket x member

/-- `removeFromFree` on a member of bucket `i`: it deletes the member from
the bucket and keeps the invariant.  The run is the same from any state that
agrees on the bucket's head and links and has at least this heap. -/
theorem remove {i x : Nat} (bucket : i < numSegs) (member : x ∈ Ls i) :
    ∃ p n, (∀ t : Heap, t.lo = s.lo → s.brk ≤ t.brk → t.segList = s.segList →
        (∀ y ∈ Ls i, t.mem (y + 8) = s.mem (y + 8) ∧
          (i ≠ 0 → t.mem (y + 16) = s.mem (y + 16))) →
        removeFromFree x i t = .ok ((), t.unlink i p n)) ∧
      FreeLists (s.unlink i p n) (SegMalloc.setBucket Ls i ((Ls i).erase x)) ∧
      (p ≠ 0 → p ∈ Ls i) ∧ (n ≠ 0 → n ∈ Ls i) := by
  obtain ⟨pre, post, split⟩ := List.append_of_mem member
  have spread := lists.spread bucket
  rw [split] at spread
  have chain := lists.chains i bucket
  rw [split] at chain
  have inBucket : ∀ y ∈ pre ++ x :: post, y ∈ Ls i := fun y member => split ▸ member
  have fuel : pre.length < loopFuel s := by
    have := lists.fuel bucket; rw [split] at this; simp at this; omega
  refine ⟨pre.getLast?.getD 0, post.head?.getD 0, fun t lo grow segList agree => ?_, ?_⟩
  · have moved : ∀ y ∈ pre ++ x :: post, t.Valid (y + 8) ∧ t.Valid (y + 16) := by
      intro y yMem
      obtain ⟨-, ⟨low8, high8⟩, ⟨low16, high16⟩⟩ :=
        lists.valid i bucket y (inBucket y yMem)
      exact ⟨⟨by omega, by omega⟩, ⟨by omega, by omega⟩⟩
    refine removeFromFree_ok
      (by rw [segList]; exact chain.congr fun y yMem => (agree y (inBucket y yMem)).1)
      (fun nonzero => (split ▸ lists.prevs i bucket nonzero).congr fun y yMem =>
        (agree y (inBucket y yMem)).2 nonzero) spread.1 spread.2.1 moved ?_
    simp only [loopFuel] at fuel ⊢; omega
  set p := pre.getLast?.getD 0
  set n := post.head?.getD 0
  have pListed : p ≠ 0 → p ∈ Ls i := fun nonzero => by
    rcases List.eq_nil_or_concat pre with rfl | ⟨pre, l, rfl⟩
    · simp [p] at nonzero
    · have last : p = l := by simp [p]
      exact last ▸ inBucket l (by simp)
  have nListed : n ≠ 0 → n ∈ Ls i := fun nonzero => by
    cases post with
    | nil => simp [n] at nonzero
    | cons m post =>
      have first : n = m := by simp [n]
      exact first ▸ inBucket m (by simp)
  refine ⟨?_, pListed, nListed⟩
  have erase : (Ls i).erase x = pre ++ post := by
    rw [split, List.erase_append_right _ (fun clash => ?_), List.erase_cons_head]
    exact (List.nodup_cons.mp (List.nodup_middle.mp spread.1)).1 (List.mem_append_left _ clash)
  have links : ∀ j < numSegs, j ≠ i → ∀ y ∈ Ls j,
      (s.unlink i p n).mem (y + 8) = s.mem (y + 8) ∧
        (s.unlink i p n).mem (y + 16) = s.mem (y + 16) := by
    intro j jBucket other y yMem
    have yAligned := lists.aligned j jBucket y yMem
    refine ⟨unlink_next_word (fun same => ?_) (fun nonzero => ?_),
      unlink_prev_word (fun same => ?_) (fun nonzero => ?_)⟩
    · by_cases zero : p = 0
      · exact yAligned.2 (same.trans zero)
      · exact other (lists.unique j jBucket i bucket y yMem (same ▸ pListed zero))
    · rw [yAligned.1, (lists.aligned i bucket n (nListed nonzero)).1]
    · by_cases zero : n = 0
      · exact yAligned.2 (same.trans zero)
      · exact other (lists.unique j jBucket i bucket y yMem (same ▸ nListed zero))
    · rw [yAligned.1, (lists.aligned i bucket p (pListed nonzero)).1]
  refine lists.setBucket bucket (by simp) (by simp) ?_ ?_ ((lists.nodup i bucket).erase x)
    (fun y yMem => .inl (List.mem_of_mem_erase yMem)) (fun j _ other => ?_) links
  · rw [erase]; exact unlink_chain chain spread
  · intro nonzero
    rw [erase]
    exact unlink_prevs nonzero (split ▸ lists.prevs i bucket nonzero) spread
  · rw [unlink_segList, if_neg fun both => other both.2]

/-- `addToFree` of a block that is on no bucket: it goes in front of bucket
`i`, and the invariant is kept. -/
theorem insert {i b : Nat} (bucket : i < numSegs) (fresh : ∀ j < numSegs, b ∉ Ls j)
    (nonzero : b ≠ 0) (aligned : b % 16 = (s.lo + 8) % 16)
    (valid : s.Valid b ∧ s.Valid (b + 8) ∧ s.Valid (b + 16)) :
    addToFree b i s = .ok ((), s.push i b) ∧
      FreeLists (s.push i b) (SegMalloc.setBucket Ls i (b :: Ls i)) := by
  have headListed := lists.head_mem bucket
  have headAligned : s.segList i ≠ 0 → s.segList i % 16 = (s.lo + 8) % 16 := fun nonempty =>
    (lists.aligned i bucket _ (headListed nonempty)).1
  have shape : ∀ y ∈ b :: Ls i, y % 16 = (s.lo + 8) % 16 ∧ y ≠ 0 := by
    simp only [List.mem_cons, forall_eq_or_imp]
    exact ⟨⟨aligned, nonzero⟩, lists.aligned i bucket⟩
  have spread : Spread (b :: Ls i) :=
    ⟨List.nodup_cons.mpr ⟨fresh i bucket, lists.nodup i bucket⟩,
      fun y yMem => (shape y yMem).2,
      fun y yMem z zMem => by rw [(shape y yMem).1, (shape z zMem).1]⟩
  refine ⟨addToFree_ok nonzero valid.2.1 (fun _ => valid.2.2)
    fun _ nonempty => (lists.valid i bucket _ (headListed nonempty)).2.2, ?_⟩
  have links : ∀ j < numSegs, j ≠ i → ∀ y ∈ Ls j,
      (s.push i b).mem (y + 8) = s.mem (y + 8) ∧ (s.push i b).mem (y + 16) = s.mem (y + 16) := by
    intro j jBucket apart y yMem
    have yAligned := (lists.aligned j jBucket y yMem).1
    have yNotB : y ≠ b := fun same => fresh j jBucket (same ▸ yMem)
    have yNotHead : s.segList i ≠ 0 → y ≠ s.segList i := fun nonempty same =>
      apart (lists.unique j jBucket i bucket y yMem (same ▸ headListed nonempty))
    constructor <;> rw [push_mem] <;> split_ifs with first second third
    all_goals first
      | rfl
      | (have headMod := headAligned first.2.1; omega)
      | omega
  refine lists.setBucket bucket (by simp) (by simp) (push_chain (lists.chains i bucket) spread)
    (fun bucketPos => push_prevs bucketPos (lists.chains i bucket)
        (lists.prevs i bucket bucketPos) spread)
    spread.1 (fun y yMem => ?_) (fun j _ other => by rw [push_segList, if_neg other]) links
  rcases List.mem_cons.mp yMem with rfl | old
  · exact .inr ⟨fresh, aligned, nonzero, valid⟩
  · exact .inl old

end FreeLists

/-- Read as lists, `addToFree` puts a block that is on no bucket in front of
bucket `i`, and `removeFromFree` deletes a member of bucket `i`, walking the
mini bucket's chain to its predecessor when `i = 0`.  Every other bucket
keeps its members, and the list invariant holds after either edit, `prev`
links included. -/
theorem bucket_edits_on_lists {s : Heap} {Ls : Nat → List Nat} (lists : FreeLists s Ls) {i : Nat}
    (bucket : i < numSegs) :
    (∀ b, (∀ j < numSegs, b ∉ Ls j) → b ≠ 0 → b % 16 = (s.lo + 8) % 16 →
        s.Valid b ∧ s.Valid (b + 8) ∧ s.Valid (b + 16) →
      ∃ s', addToFree b i s = .ok ((), s') ∧ FreeLists s' (setBucket Ls i (b :: Ls i))) ∧
    ∀ b ∈ Ls i, ∃ s', removeFromFree b i s = .ok ((), s') ∧
      FreeLists s' (setBucket Ls i ((Ls i).erase b)) :=
  ⟨fun _ fresh nonzero aligned valid => ⟨_, lists.insert bucket fresh nonzero aligned valid⟩,
    fun _ member => by
      obtain ⟨p, n, run, lists', -⟩ := lists.remove bucket member
      exact ⟨_, run s rfl le_rfl rfl fun _ _ => ⟨rfl, fun _ => rfl⟩, lists'⟩⟩

/-- After `mm_init` the first chunk, at 4104, is alone in bucket 8, and
taking it off leaves the bucket empty. -/
theorem bucket_edits_after_init :
    FreeLists (clientSession (fun _ => 0) (fun _ => false) true []).heap
        (setBucket (fun _ => []) 8 [4104]) ∧
      8 < numSegs ∧
      ∃ s', removeFromFree 4104 8 (clientSession (fun _ => 0) (fun _ => false) true []).heap =
          .ok ((), s') ∧
        FreeLists s' (setBucket (setBucket (fun _ => []) 8 [4104]) 8 ([4104].erase 4104)) :=
  ⟨by decide, by decide, (bucket_edits_on_lists (by decide) (by decide)).2 4104 (by decide)⟩

end SegMalloc
