import SegMalloc.Exec
import Mathlib.Data.List.Nodup

/-!
# Bucket chains and their edits

A bucket is read as the list of blocks along its `next` links.  Chains read
only the `next` words of their members and `prev` links only the `prev`
words (the frame lemmas), and the two edits of the code act on the lists as
expected: `removeFromFree` deletes one member, `addToFree` pushes at the
head.  The link words of members never collide because members are distinct
and congruent modulo 16.
-/

namespace SegMalloc

variable {mem mem' : Nat → Nat}

/-- Following `next` from `head` through the blocks `xs` arrives at `t`. -/
def Segment (mem : Nat → Nat) : Nat → List Nat → Nat → Prop
  | head, [], t => head = t
  | head, x :: xs, t => head = x ∧ Segment mem (mem (x + 8)) xs t

theorem nextChain_iff_segment : ∀ {head : Nat} {xs : List Nat},
    NextChain mem head xs ↔ Segment mem head xs 0
  | _, [] => Iff.rfl
  | _, _ :: _ => and_congr_right fun _ => nextChain_iff_segment

theorem segment_append : ∀ {head t : Nat} {xs ys : List Nat},
    Segment mem head (xs ++ ys) t ↔ ∃ u, Segment mem head xs u ∧ Segment mem u ys t
  | _, _, [], _ => by simp [Segment]
  | _, _, x :: xs, ys => by
    show (_ = x ∧ Segment mem (mem (x + 8)) (xs ++ ys) _) ↔ _
    rw [segment_append]
    constructor
    · rintro ⟨rfl, u, first, second⟩; exact ⟨u, ⟨rfl, first⟩, second⟩
    · rintro ⟨u, ⟨rfl, first⟩, second⟩; exact ⟨rfl, u, first, second⟩

theorem Segment.congr : ∀ {head t : Nat} {xs : List Nat}, Segment mem head xs t →
    (∀ x ∈ xs, mem' (x + 8) = mem (x + 8)) → Segment mem' head xs t
  | _, _, [], chain, _ => chain
  | _, _, x :: _, ⟨rfl, rest⟩, same => by
    refine ⟨rfl, ?_⟩
    rw [same x (List.mem_cons_self _ _)]
    exact rest.congr fun y member => same y (List.mem_cons_of_mem _ member)

theorem NextChain.congr {head : Nat} {xs : List Nat} (chain : NextChain mem head xs)
    (same : ∀ x ∈ xs, mem' (x + 8) = mem (x + 8)) : NextChain mem' head xs :=
  nextChain_iff_segment.mpr ((nextChain_iff_segment.mp chain).congr same)

theorem PrevLinks.congr : ∀ {prev : Nat} {xs : List Nat}, PrevLinks mem prev xs →
    (∀ x ∈ xs, mem' (x + 16) = mem (x + 16)) → PrevLinks mem' prev xs
  | _, [], _, _ => trivial
  | _, x :: _, ⟨link, rest⟩, same =>
    ⟨(same x (List.mem_cons_self _ _)).trans link,
      rest.congr fun y member => same y (List.mem_cons_of_mem _ member)⟩

theorem prevLinks_append : ∀ {prev : Nat} {xs ys : List Nat},
    PrevLinks mem prev (xs ++ ys) ↔
      PrevLinks mem prev xs ∧ PrevLinks mem ((prev :: xs).getLast (List.cons_ne_nil _ _)) ys
  | _, [], _ => by simp [PrevLinks]
  | _, x :: xs, ys => by
    show (_ ∧ PrevLinks mem x (xs ++ ys)) ↔ _
    rw [prevLinks_append, List.getLast_cons_cons]
    exact and_assoc.symm

/-- The head of a chain, NULL when it is empty. -/
theorem NextChain.head_eq : ∀ {head : Nat} {xs : List Nat}, NextChain mem head xs →
    head = xs.head?.getD 0
  | _, [], chain => chain
  | _, _ :: _, chain => chain.1

end SegMalloc

namespace SegMalloc

variable {s : Heap}

/-! ## Removing a block -/

/-- The state `removeFromFree` leaves when the block sits between `prev` and
`next` in bucket `index` (NULL at the ends): the predecessor, or the head,
skips it, and in a doubly linked bucket the successor points back past it. -/
def Heap.unlink (s : Heap) (index prev next : Nat) : Heap :=
  let s := if prev = 0 then s.setSeg index next else s.write (prev + 8) next
  if index ≠ 0 ∧ next ≠ 0 then s.write (next + 16) prev else s

theorem shiftHelperLoop_ok {block : Nat} : ∀ (ys : List Nat) (fuel temp prev : Nat),
    ys.length < fuel → Segment s.mem temp ys block → block ∉ ys →
    (∀ y ∈ ys, s.Valid (y + 8)) → s.Valid (block + 8) →
    s.Valid ((prev :: ys).getLast (List.cons_ne_nil _ _) + 8) →
    shiftHelperLoop block fuel temp prev s =
      .ok ((), s.write ((prev :: ys).getLast (List.cons_ne_nil _ _) + 8) (s.mem (block + 8)))
  | [], fuel + 1, temp, prev, _, arrive, _, _, blockValid, prevValid => by
    cases arrive
    simp only [List.getLast_singleton] at prevValid ⊢
    simp only [shiftHelperLoop, ne_eq, not_true_eq_false, ite_false]
    rw [bind_ok (load_ok blockValid), store_ok prevValid]
  | y :: ys, fuel + 1, temp, prev, length, ⟨atY,
      rest⟩, outside, valid, blockValid, prevValid => by
    subst atY
    have apart : temp ≠ block := fun same => outside (same ▸ List.mem_cons_self _ _)
    simp only [shiftHelperLoop, ne_eq, apart, not_false_eq_true, ite_true]
    rw [bind_ok (load_ok (valid temp (List.mem_cons_self _ _)))]
    rw [List.getLast_cons_cons] at prevValid ⊢
    exact shiftHelperLoop_ok ys fuel _ temp (by simp at length; omega) rest
      (fun member => outside (List.mem_cons_of_mem _ member))
      (fun y member => valid y (List.mem_cons_of_mem _ member)) blockValid prevValid

theorem removeFromFree_ok {block index : Nat} {pre post : List Nat}
    (chain : NextChain s.mem (s.segList index) (pre ++ block :: post))
    (prevs : index ≠ 0 → PrevLinks s.mem 0 (pre ++ block :: post))
    (nodup : (pre ++ block :: post).Nodup)
    (nonzero : ∀ x ∈ pre ++ block :: post, x ≠ 0)
    (valid : ∀ x ∈ pre ++ block :: post, s.Valid (x + 8) ∧ s.Valid (x + 16))
    (fuel : pre.length < loopFuel s) :
    removeFromFree block index s =
      .ok ((), s.unlink index (pre.getLast?.getD 0) (post.head?.getD 0)) := by
  have blockMem : block ∈ pre ++ block :: post := by simp
  obtain ⟨u, toBlock, atBlock, nextChain⟩ :=
    segment_append.mp (nextChain_iff_segment.mp chain)
  rw [atBlock] at toBlock
  have next : s.mem (block + 8) = post.head?.getD 0 :=
    (nextChain_iff_segment.mpr nextChain).head_eq
  have outside : block ∉ pre ++ post := (List.nodup_cons.mp (List.nodup_middle.mp nodup)).1
  have postNonzero : ∀ x ∈ post, x ≠ 0 := fun x member => nonzero x (by simp [member])
  have preNonzero : ∀ x ∈ pre, x ≠ 0 := fun x member => nonzero x (by simp [member])
  have nextZero : post.head?.getD 0 = 0 ↔ post = [] := by
    cases post with
    | nil => simp
    | cons n post => simpa using postNonzero n (List.mem_cons_self _ _)
  simp only [removeFromFree]
  rw [bind_ok (load_ok (valid block blockMem).2), bind_ok (load_ok (valid block blockMem).1),
    next]
  simp only [ne_eq, nonzero block blockMem, not_false_eq_true, ite_true]
  by_cases bucket : index = 0
  · subst bucket
    simp only [ne_eq, not_true_eq_false, ite_false]
    rw [bind_ok (getSeg_run 0)]
    cases pre with
    | nil =>
      cases toBlock
      simp only [not_true_eq_false, ite_false]
      rw [bind_ok (load_ok (valid _ blockMem).1), next]
      simp [Heap.unlink]
    | cons p pre =>
      obtain ⟨head, toBlock⟩ := toBlock
      have apart : block ≠ p := by
        rintro rfl; simp at nodup
      have pValid := valid p (by simp)
      simp only [head, apart, not_false_eq_true, ite_true]
      rw [bind_ok (load_ok pValid.1)]
      have walk := shiftHelperLoop_ok (s := s) pre (loopFuel s) (s.mem (p + 8)) p
        (by simp at fuel; omega) toBlock (fun member => outside (by simp [member]))
        (fun y member => (valid y (by simp [member])).1) (valid block blockMem).1
        (by
          rcases List.eq_nil_or_concat pre with rfl | ⟨pre, last, rfl⟩
          · simpa using pValid.1
          · simpa [List.getLast_cons, List.getLast_append] using (valid last (by simp)).1)
      simp only [shiftHelper]
      rw [walk, next]
      simp [Heap.unlink, List.getLast?_eq_getLast, preNonzero _ (List.getLast_mem _)]
  · have before : s.mem (block + 16) = pre.getLast?.getD 0 := by
      have links := (prevLinks_append.mp (prevs bucket)).2.1
      rw [links]
      rcases List.eq_nil_or_concat pre with rfl | ⟨pre, last, rfl⟩ <;>
          simp [List.getLast_append]
    simp only [bucket, not_false_eq_true, ite_true]
    rw [before]
    have postValid : ∀ x ∈ post, s.Valid (x + 16) :=
        fun x member => (valid x (by simp [member])).2
    rcases List.eq_nil_or_concat pre with rfl | ⟨pre, last, rfl⟩
    · simp only [List.getLast?_nil, Option.getD_none, not_true_eq_false, ite_false]
      rw [bind_ok (putSeg_run _ _)]
      cases post with
      | nil => simp [Heap.unlink]
      | cons n post =>
        have nValid := postValid n (List.mem_cons_self _ _)
        simp only [List.head?_cons, Option.getD_some, postNonzero n (List.mem_cons_self _ _),
          not_false_eq_true, ite_true]
        rw [bind_ok (getSeg_run _)]
        simp only [Heap.setSeg_segList, ite_true]
        rw [store_ok (by simpa using nValid)]
        simp [Heap.unlink, bucket, postNonzero n (List.mem_cons_self _ _)]
    · rw [List.concat_eq_append] at *
      have lastMem : last ∈ pre ++ [last] ++ block :: post := by simp
      have lastWord : (pre ++ [last]).getLast?.getD 0 = last := by simp
      simp only [lastWord, nonzero last lastMem, not_false_eq_true, ite_true]
      rw [bind_ok (store_ok (valid last lastMem).1)]
      cases post with
      | nil => simp [Heap.unlink, nonzero last lastMem]
      | cons n post =>
        have nValid := postValid n (List.mem_cons_self _ _)
        simp only [List.head?_cons, Option.getD_some, postNonzero n (List.mem_cons_self _ _),
          not_false_eq_true, ite_true]
        rw [store_ok (by simpa using nValid)]
        simp [Heap.unlink, bucket, nonzero last lastMem, postNonzero n (List.mem_cons_self _ _)]

end SegMalloc

namespace SegMalloc

variable {s : Heap}

@[simp] theorem unlink_lo (s : Heap) (i p n : Nat) : (s.unlink i p n).lo = s.lo := by
  unfold Heap.unlink; split <;> split <;> rfl
@[simp] theorem unlink_brk (s : Heap) (i p n : Nat) : (s.unlink i p n).brk = s.brk := by
  unfold Heap.unlink; split <;> split <;> rfl
@[simp] theorem unlink_heapStart (s : Heap) (i p n : Nat) :
    (s.unlink i p n).heapStart = s.heapStart := by
  unfold Heap.unlink; split <;> split <;> rfl
@[simp] theorem unlink_refuse (s : Heap) (i p n : Nat) : (s.unlink i p n).refuse = s.refuse := by
  unfold Heap.unlink; split <;> split <;> rfl
@[simp] theorem unlink_sbrkCalls (s : Heap) (i p n : Nat) :
    (s.unlink i p n).sbrkCalls = s.sbrkCalls := by
  unfold Heap.unlink; split <;> split <;> rfl
@[simp] theorem unlink_valid (s : Heap) (i p n a : Nat) : (s.unlink i p n).Valid a ↔
    s.Valid a := by
  unfold Heap.unlink; split <;> split <;> rfl

theorem unlink_segList (s : Heap) (i p n j : Nat) :
    (s.unlink i p n).segList j = if p = 0 ∧ j = i then n else s.segList j := by
  unfold Heap.unlink
  split_ifs <;> simp_all

/-- The words `removeFromFree` changes: the predecessor's `next` and, in a
doubly linked bucket, the successor's `prev`. -/
theorem unlink_mem (s : Heap) (i p n a : Nat) :
    (s.unlink i p n).mem a =
      if i ≠ 0 ∧ n ≠ 0 ∧ a = n + 16 then p
      else if p ≠ 0 ∧ a = p + 8 then n else s.mem a := by
  unfold Heap.unlink
  split_ifs <;> simp_all

end SegMalloc

namespace SegMalloc

variable {s : Heap} {pre post : List Nat} {block i : Nat}

/-- Members of one bucket are distinct, nonzero, and congruent modulo 16. -/
def Spread (xs : List Nat) : Prop :=
  xs.Nodup ∧ (∀ x ∈ xs, x ≠ 0) ∧ ∀ x ∈ xs, ∀ y ∈ xs, x % 16 = y % 16

theorem getLast_zero_cons (xs : List Nat) :
    (0 :: xs).getLast (List.cons_ne_nil _ _) = xs.getLast?.getD 0 := by
  rcases List.eq_nil_or_concat xs with rfl | ⟨xs, l, rfl⟩ <;> simp [List.getLast_append]

variable {p n x : Nat}

theorem unlink_next_word (apart : x ≠ p) (aligned : n ≠ 0 → x % 16 = n % 16) :
    (s.unlink i p n).mem (x + 8) = s.mem (x + 8) := by
  rw [unlink_mem]
  split_ifs with first second
  · have := aligned first.2.1; omega
  · omega
  · rfl

theorem unlink_prev_word (apart : x ≠ n) (aligned : p ≠ 0 → x % 16 = p % 16) :
    (s.unlink i p n).mem (x + 16) = s.mem (x + 16) := by
  rw [unlink_mem]
  split_ifs with first second
  · omega
  · have := aligned second.1; omega
  · rfl

theorem unlink_at_prev (nonzero : p ≠ 0) (aligned : n ≠ 0 → p % 16 = n % 16) :
    (s.unlink i p n).mem (p + 8) = n := by
  rw [unlink_mem]
  split_ifs with first second
  · have := aligned first.2.1; omega
  · rfl
  · exact absurd ⟨nonzero, rfl⟩ second

theorem unlink_at_next (bucket : i ≠ 0) (nonzero : n ≠ 0) :
    (s.unlink i p n).mem (n + 16) = p := by
  rw [unlink_mem, if_pos ⟨bucket, nonzero, rfl⟩]

theorem unlink_chain (chain : NextChain s.mem (s.segList i) (pre ++ block :: post))
    (spread : Spread (pre ++ block :: post)) :
    NextChain (s.unlink i (pre.getLast?.getD 0) (post.head?.getD 0)).mem
      ((s.unlink i (pre.getLast?.getD 0) (post.head?.getD 0)).segList i) (pre ++ post) := by
  obtain ⟨nodup, nonzero, aligned⟩ := spread
  obtain ⟨u, toBlock, atBlock, nextChain⟩ := segment_append.mp (nextChain_iff_segment.mp chain)
  rw [atBlock] at toBlock
  rw [(nextChain_iff_segment.mpr nextChain).head_eq] at nextChain
  have nextAligned : ∀ y ∈ pre ++ block :: post,
      post.head?.getD 0 ≠ 0 → y % 16 = post.head?.getD 0 % 16 := by
    intro y member nonempty
    cases post with
    | nil => simp at nonempty
    | cons m post => exact aligned y member m (by simp)
  have postSame : ∀ y ∈ post, y ≠ pre.getLast?.getD 0 →
      (s.unlink i (pre.getLast?.getD 0) (post.head?.getD 0)).mem (y + 8) = s.mem (y + 8) :=
    fun y member apart => unlink_next_word apart (nextAligned y (by simp [member]))
  rcases List.eq_nil_or_concat pre with rfl | ⟨pre, l, rfl⟩
  · simp only [List.getLast?_nil, Option.getD_none, unlink_segList, and_self, ite_true,
      List.nil_append]
    exact nextChain_iff_segment.mpr (nextChain.congr fun y member =>
      postSame y member (nonzero y (by simp [member])))
  · rw [List.concat_eq_append] at *
    have lastWord : (pre ++ [l]).getLast?.getD 0 = l := by simp
    have lMem : l ∈ pre ++ [l] ++ block :: post := by simp
    rw [lastWord] at postSame ⊢
    obtain ⟨v, toLast, atLast, lastLink⟩ := segment_append.mp toBlock
    rw [atLast] at toLast
    have lUnique : l ∉ pre ++ block :: post := (List.nodup_cons.mp
      (List.nodup_middle.mp (by simpa using nodup : (pre ++ l :: block :: post).Nodup))).1
    have lFresh : l ∉ pre := fun member => lUnique (by simp [member])
    have lOutside : l ∉ post := fun member => lUnique (by simp [member])
    simp only [unlink_segList, nonzero l lMem, false_and, ite_false, List.append_assoc,
      List.singleton_append]
    refine nextChain_iff_segment.mpr (segment_append.mpr ⟨l, ?_, rfl, ?_⟩)
    · exact toLast.congr fun y member => unlink_next_word (fun same => lFresh (same ▸ member))
        (nextAligned y (by simp [member]))
    · rw [unlink_at_prev (nonzero l lMem) (nextAligned l lMem)]
      exact nextChain.congr fun y member => postSame y member fun same => lOutside (same ▸ member)


end SegMalloc

namespace SegMalloc

variable {s : Heap} {pre post : List Nat} {block i : Nat}

theorem unlink_prevs (bucket : i ≠ 0) (prevs : PrevLinks s.mem 0 (pre ++ block :: post))
    (spread : Spread (pre ++ block :: post)) :
    PrevLinks (s.unlink i (pre.getLast?.getD 0) (post.head?.getD 0)).mem 0 (pre ++ post) := by
  obtain ⟨nodup, nonzero, aligned⟩ := spread
  obtain ⟨prePrevs, -, postPrevs⟩ := prevLinks_append.mp prevs
  have blockUnique : block ∉ pre ++ post := (List.nodup_cons.mp (List.nodup_middle.mp nodup)).1
  have prevAligned : ∀ y ∈ pre ++ block :: post,
      pre.getLast?.getD 0 ≠ 0 → y % 16 = pre.getLast?.getD 0 % 16 := by
    intro y member nonempty
    rcases List.eq_nil_or_concat pre with rfl | ⟨pre, l, rfl⟩
    · simp at nonempty
    · simpa using aligned y member l (by simp)
  refine prevLinks_append.mpr ⟨prePrevs.congr fun y member => ?_, ?_⟩
  · refine unlink_prev_word ?_ (prevAligned y (by simp [member]))
    intro same
    cases post with
    | nil => exact nonzero y (by simp [member]) same
    | cons m post =>
      simp only [List.head?_cons, Option.getD_some] at same
      subst same
      exact (List.nodup_append.mp (List.nodup_middle.mp nodup |>.of_cons)).2.2 member
        (List.mem_cons_self _ _)
  · rw [getLast_zero_cons]
    cases post with
    | nil => trivial
    | cons m post =>
      have mMem : m ∈ pre ++ block :: m :: post := by simp
      have mFresh : m ∉ post := (List.nodup_cons.mp (List.nodup_append.mp
        (List.nodup_middle.mp nodup |>.of_cons)).2.1).1
      refine ⟨unlink_at_next bucket (nonzero m mMem), postPrevs.2.congr fun y member => ?_⟩
      refine unlink_prev_word (fun same => mFresh ?_) (prevAligned y (by simp [member]))
      simp only [List.head?_cons, Option.getD_some] at same
      exact same ▸ member

end SegMalloc

namespace SegMalloc

variable {s : Heap} {block i : Nat}

/-! ## Pushing a block -/

/-- The state `addToFree block index` leaves: `block` pushed at the head of
bucket `index`. -/
def Heap.push (s : Heap) (index block : Nat) : Heap :=
  if index = 0 then (s.setSeg 0 block).write (block + 8) (s.segList 0)
  else if s.segList index = 0 then ((s.write (block + 16) 0).write (block + 8) 0).setSeg index block
  else (((s.write (block + 16) 0).write (block + 8) (s.segList index)).write
    (s.segList index + 16) block).setSeg index block

theorem addToFree_ok (nonzero : block ≠ 0) (valid : s.Valid (block + 8))
    (prevValid : i ≠ 0 → s.Valid (block + 16))
    (headValid : i ≠ 0 → s.segList i ≠ 0 → s.Valid (s.segList i + 16)) :
    addToFree block i s = .ok ((), s.push i block) := by
  simp only [addToFree, nonzero, ite_false]
  rw [bind_ok (pure_run _), bind_ok (getSeg_run i)]
  by_cases bucket : i = 0
  · subst bucket
    simp only [ne_eq, not_true_eq_false, ite_false]
    rw [bind_ok (putSeg_run _ _), bind_ok (getSeg_run _)]
    simp only [Heap.setSeg_segList, ite_true]
    rw [store_ok (by simpa using valid)]
    simp [Heap.push]
  · simp only [ne_eq, bucket, not_false_eq_true, ite_true]
    rw [bind_ok (store_ok (prevValid bucket)), bind_ok (store_ok (by simpa using valid))]
    by_cases empty : s.segList i = 0
    · simp only [empty, not_true_eq_false, ite_false]
      rw [bind_ok (pure_run _), putSeg_run]
      simp [Heap.push, bucket, empty]
    · simp only [empty, not_false_eq_true, ite_true]
      rw [bind_ok (getSeg_run _)]
      simp only [Heap.write_segList]
      rw [bind_ok (store_ok (by simpa using headValid bucket empty)), putSeg_run]
      simp [Heap.push, bucket, empty]

@[simp] theorem push_lo (s : Heap) (i b : Nat) : (s.push i b).lo = s.lo := by
  unfold Heap.push; split_ifs <;> rfl
@[simp] theorem push_brk (s : Heap) (i b : Nat) : (s.push i b).brk = s.brk := by
  unfold Heap.push; split_ifs <;> rfl
@[simp] theorem push_heapStart (s : Heap) (i b : Nat) : (s.push i b).heapStart = s.heapStart := by
  unfold Heap.push; split_ifs <;> rfl
@[simp] theorem push_refuse (s : Heap) (i b : Nat) : (s.push i b).refuse = s.refuse := by
  unfold Heap.push; split_ifs <;> rfl
@[simp] theorem push_sbrkCalls (s : Heap) (i b : Nat) : (s.push i b).sbrkCalls = s.sbrkCalls := by
  unfold Heap.push; split_ifs <;> rfl
@[simp] theorem push_valid (s : Heap) (i b a : Nat) : (s.push i b).Valid a ↔ s.Valid a := by
  unfold Heap.push; split_ifs <;> rfl

@[simp] theorem push_segList (s : Heap) (i b j : Nat) :
    (s.push i b).segList j = if j = i then b else s.segList j := by
  unfold Heap.push; split_ifs <;> simp_all

/-- The words `addToFree` changes: the block's own links and the old head's
`prev`. -/
theorem push_mem (s : Heap) (i b a : Nat) :
    (s.push i b).mem a =
      if i ≠ 0 ∧ s.segList i ≠ 0 ∧ a = s.segList i + 16 then b
      else if a = b + 8 then s.segList i
      else if i ≠ 0 ∧ a = b + 16 then 0 else s.mem a := by
  unfold Heap.push
  by_cases bucket : i = 0
  · by_cases here : a = b + 8 <;> simp [bucket, here]
  · by_cases empty : s.segList i = 0 <;> by_cases head : a = s.segList i + 16 <;>
      by_cases here : a = b + 8 <;> by_cases prev : a = b + 16 <;> simp_all

variable {xs : List Nat}

theorem push_chain (chain : NextChain s.mem (s.segList i) xs) (spread : Spread (block :: xs)) :
    NextChain (s.push i block).mem ((s.push i block).segList i) (block :: xs) := by
  obtain ⟨nodup, nonzero, aligned⟩ := spread
  have head := chain.head_eq
  have headAligned : s.segList i ≠ 0 → ∀ y ∈ block :: xs, y % 16 = s.segList i % 16 := by
    intro nonempty y member
    cases xs with
    | nil => simp [head] at nonempty
    | cons h xs => rw [head]; exact aligned y member h (by simp)
  refine ⟨by simp, ?_⟩
  have blockAligned := fun nonempty => headAligned nonempty block (List.mem_cons_self _ _)
  rw [push_mem, if_neg (fun clash => by have := blockAligned clash.2.1; omega), if_pos rfl]
  refine chain.congr fun y member => ?_
  have apart : y ≠ block := fun same => (List.nodup_cons.mp nodup).1 (same ▸ member)
  have yAligned := aligned y (List.mem_cons_of_mem _ member) block (List.mem_cons_self _ _)
  have yHead := fun nonempty => headAligned nonempty y (List.mem_cons_of_mem _ member)
  rw [push_mem, if_neg (fun clash => by have := yHead clash.2.1; omega), if_neg (by omega),
    if_neg (by omega)]

theorem push_prevs (bucket : i ≠ 0) (chain : NextChain s.mem (s.segList i) xs)
    (prevs : PrevLinks s.mem 0 xs) (spread : Spread (block :: xs)) :
    PrevLinks (s.push i block).mem 0 (block :: xs) := by
  obtain ⟨nodup, nonzero, aligned⟩ := spread
  have head := chain.head_eq
  have fresh := (List.nodup_cons.mp nodup).1
  have notHead : block ≠ s.segList i := by
    rw [head]
    cases xs with
    | nil => exact nonzero block (List.mem_cons_self _ _)
    | cons h ys => exact fun same => fresh (by simp [same])
  refine ⟨?_, ?_⟩
  · rw [push_mem, if_neg (fun clash => notHead (by omega)), if_neg (by omega),
      if_pos ⟨bucket, rfl⟩]
  · cases xs with
    | nil => trivial
    | cons h ys =>
      simp only [head, List.head?_cons, Option.getD_some] at notHead ⊢
      have hNonzero := nonzero h (by simp)
      refine ⟨by rw [push_mem,
          if_pos ⟨bucket, by simpa [head] using hNonzero, by simp [head]⟩], ?_⟩
      refine prevs.2.congr fun y member => ?_
      have yh : y ≠ h := fun same =>
        (List.nodup_cons.mp (List.nodup_cons.mp nodup).2).1 (same ▸ member)
      have yb : y ≠ block := fun same => fresh (same ▸ List.mem_cons_of_mem _ member)
      have := aligned y (by simp [member]) block (List.mem_cons_self _ _)
      rw [push_mem, if_neg (fun clash => yh (by simp [head] at clash; omega)), if_neg (by omega),
        if_neg (by omega)]

end SegMalloc
