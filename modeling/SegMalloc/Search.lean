import SegMalloc.Invariant
import Mathlib.Data.List.MinMax

/-!
# `find_fit` is the best of the first five fits

The search reads and never writes.  Within one bucket it follows the `next`
chain with a budget of five fitting blocks, keeping the first of least size;
it stops at the first bucket from `findIndex asize` on where something fits.
Since a chain is no longer than the heap has bytes, the walk's fuel never
runs out.

`referenceFit` states the policy of the specification on the bucket lists;
`find_fit` computes exactly it.  Because sizes never go to a lower bucket,
skipping the buckets below `findIndex asize` loses no fitting block.
-/

namespace SegMalloc

/-- The first of least size among the first five blocks of `xs` of at least
`asize` bytes, NULL when there is none. -/
def bestOfFive (mem : Nat → Nat) (asize : Nat) (xs : List Nat) : Nat :=
  (((xs.filter fun x => asize ≤ extractSize (mem x)).take 5).argmin
    fun x => extractSize (mem x)).getD 0

/-- The placement policy of the specification, on the bucket lists `Ls`:
take the least bucket from `findIndex asize` on that holds a block of at
least `asize` bytes and return the best of its first five such blocks; NULL
when there is no such bucket. -/
def referenceFit (mem : Nat → Nat) (Ls : Nat → List Nat) (asize : Nat) : Nat :=
  match (List.range' (findIndex asize) (numSegs - findIndex asize)).find?
      (fun i => (Ls i).any fun x => asize ≤ extractSize (mem x)) with
  | none => 0
  | some i => bestOfFive mem asize (Ls i)

/-- The best of five is NULL or a fitting block of the list. -/
theorem bestOfFive_mem {mem : Nat → Nat} {asize : Nat} {xs : List Nat}
    (nonzero : bestOfFive mem asize xs ≠ 0) :
    bestOfFive mem asize xs ∈ xs ∧ asize ≤ extractSize (mem (bestOfFive mem asize xs)) := by
  unfold bestOfFive at *
  cases best : List.argmin (fun x => extractSize (mem x))
      ((xs.filter fun x => asize ≤ extractSize (mem x)).take 5) with
  | none => rw [best] at nonzero; exact absurd rfl nonzero
  | some m =>
    have := List.mem_of_mem_take (List.argmin_mem best)
    simp only [List.mem_filter, decide_eq_true_eq] at this
    simpa using this

/-- A list with a fitting block has a best of five among its members. -/
theorem bestOfFive_ne_zero {mem : Nat → Nat} {asize : Nat} {xs : List Nat}
    (nonzero : ∀ x ∈ xs, x ≠ 0)
    (fits : xs.any (fun x => asize ≤ extractSize (mem x)) = true) :
    bestOfFive mem asize xs ≠ 0 := by
  obtain ⟨x, member, fit⟩ := List.any_eq_true.mp fits
  have nonempty : (xs.filter fun x => asize ≤ extractSize (mem x)).take 5 ≠ [] := by
    cases filtered : xs.filter fun x => asize ≤ extractSize (mem x) with
    | nil => exact absurd (List.mem_filter.mpr ⟨member, fit⟩) (filtered ▸ List.not_mem_nil x)
    | cons y ys => simp
  obtain ⟨m, best⟩ := Option.ne_none_iff_exists'.mp
    ((List.argmin_eq_none (f := fun x => extractSize (mem x))).not.mpr nonempty)
  unfold bestOfFive
  rw [best]
  exact nonzero m (List.mem_of_mem_filter (List.mem_of_mem_take (List.argmin_mem best)))

/-- `referenceFit` is NULL or a fitting member of some bucket. -/
theorem referenceFit_mem {mem : Nat → Nat} {Ls : Nat → List Nat} {asize : Nat} :
    referenceFit mem Ls asize = 0 ∨
      ∃ i < numSegs, referenceFit mem Ls asize ∈ Ls i ∧
        asize ≤ extractSize (mem (referenceFit mem Ls asize)) := by
  unfold referenceFit
  split
  · exact .inl rfl
  · rename_i i found
    have bucket := List.mem_range'_1.mp (List.mem_of_find?_eq_some found)
    by_cases zero : bestOfFive mem asize (Ls i) = 0
    · exact .inl zero
    · exact .inr ⟨i, by omega, bestOfFive_mem zero⟩

variable {s : Heap}

section Scan

variable (asize : Nat)

/-- One bucket's walk, from a budget of `5 - P.length` after the fitting
blocks `P`: it ends with the best of `P` and the fitting blocks it met, up
to five in all, and leaves the state alone. -/
theorem findFitScan_eq : ∀ (xs : List Nat) (fuel head : Nat) (P : List Nat) (least : Nat),
    NextChain s.mem head xs → (∀ x ∈ xs, x ≠ 0 ∧ s.Valid x ∧ s.Valid (x + 8)) →
    xs.length < fuel → P.length ≤ 5 →
    (P ≠ [] →
      least = extractSize (s.mem ((P.argmin fun x => extractSize (s.mem x)).getD 0))) →
    ∃ least', findFitScan asize fuel head (5 - P.length)
        ((P.argmin fun x => extractSize (s.mem x)).getD 0) least s =
      .ok ((5 - (P ++ (xs.filter fun x => asize ≤ extractSize (s.mem x)).take
          (5 - P.length)).length,
        ((P ++ (xs.filter fun x => asize ≤ extractSize (s.mem x)).take (5 - P.length)).argmin
          fun x => extractSize (s.mem x)).getD 0, least'), s)
  | _, 0, _, _, _, _, _, fuel, _, _ => absurd fuel (Nat.not_lt_zero _)
  | [], fuel + 1, head, P, least, chain, _, _, _, _ => by
    simp only [findFitScan, show head = 0 from chain, ne_eq, not_true_eq_false, false_and,
      ite_false]
    exact ⟨least, by simp⟩
  | x :: rest, fuel + 1, head, P, least, ⟨atX, chain⟩, valid, enough, small, best => by
    subst head
    obtain ⟨nonzero, here, link⟩ := valid x (List.mem_cons_self _ _)
    have rest_valid : ∀ y ∈ rest, y ≠ 0 ∧ s.Valid y ∧ s.Valid (y + 8) := fun y member =>
      valid y (List.mem_cons_of_mem _ member)
    have rest_fuel : rest.length < fuel := by simp at enough; omega
    simp only [findFitScan]
    by_cases spent : P.length = 5
    · simp only [spent, Nat.sub_self, List.take_zero, List.append_nil, lt_irrefl, and_false,
        ite_false]
      exact ⟨least, rfl⟩
    rw [if_pos ⟨nonzero, by omega⟩, bind_ok (getSize_ok here)]
    by_cases fits : asize ≤ extractSize (s.mem x)
    · /- `x` joins the candidates: the budget drops by one and the best so
      far is the best of `P ++ [x]`. -/
      have step : (P ++ [x]).argmin (fun y => extractSize (s.mem y)) =
          some (if P = [] then x else if extractSize (s.mem x) < least then x
            else (P.argmin fun y => extractSize (s.mem y)).getD 0) := by
        rw [List.argmin_concat]
        cases old : P.argmin fun y => extractSize (s.mem y) with
        | none => simp [List.argmin_eq_none.mp old]
        | some c =>
          have nonempty : P ≠ [] := fun empty => by simp [empty] at old
          rw [best nonempty, old]
          simp only [nonempty, ite_false, Option.getD_some]
          split <;> rfl
      obtain ⟨least', run⟩ := findFitScan_eq rest fuel (s.mem (x + 8)) (P ++ [x])
        (extractSize (s.mem ((P ++ [x]).argmin (fun y => extractSize (s.mem y)) |>.getD 0)))
        chain rest_valid rest_fuel (by simp; omega) fun _ => rfl
      have budget : 5 - (P ++ [x]).length = 5 - P.length - 1 := by simp; omega
      have taken :
          (P ++ [x]) ++ (rest.filter fun y => asize ≤ extractSize (s.mem y)).take
            (5 - P.length - 1) =
          P ++ ((x :: rest).filter fun y => asize ≤ extractSize (s.mem y)).take
            (5 - P.length) := by
        rw [List.filter_cons_of_pos (by simpa using fits),
          show 5 - P.length = 5 - P.length - 1 + 1 by omega, List.take_succ_cons,
          List.append_assoc, List.singleton_append]
        simp
      rw [budget, taken] at run
      refine ⟨least', ?_⟩
      rw [if_pos fits]
      by_cases first : P.length = 0
      · obtain rfl := List.length_eq_zero.mp first
        simp only [List.length_nil, Nat.sub_zero, ite_true] at run ⊢
        rw [bind_ok (getSize_ok here)]
        simp only [pure_bind]
        rw [bind_ok (getSize_ok here)]
        simp only [lt_irrefl, ite_false, pure_bind]
        rw [bind_ok (load_ok link)]
        simpa [step] using run
      · have nonempty : P ≠ [] := fun empty => first (by simp [empty])
        simp only [show 5 - P.length ≠ 5 by omega, ite_false, pure_bind,
          bind_ok (getSize_ok here)]
        rw [step, if_neg nonempty, Option.getD_some] at run
        split
        · rename_i better
          rw [if_pos better] at run
          rw [bind_ok (getSize_ok here), bind_ok (load_ok link)]
          exact run
        · rename_i worse
          rw [if_neg worse, ← best nonempty] at run
          rw [bind_ok (load_ok link)]
          exact run
    · rw [if_neg fits, bind_ok (load_ok link)]
      obtain ⟨least', run⟩ :=
        findFitScan_eq rest fuel (s.mem (x + 8)) P least chain rest_valid rest_fuel small best
      rw [List.filter_cons_of_neg (by simpa using fits)]
      exact ⟨least', run⟩

/-- The walk over the buckets `js` before any fit: it returns the best of
five of the first bucket of `js` that has a fitting block, and NULL when none
has one. -/
theorem findFitBuckets_eq {Ls : Nat → List Nat} (lists : FreeLists s Ls) :
    ∀ (js : List Nat), (∀ j ∈ js, j < numSegs) → ∀ least,
      findFitBuckets asize js 5 0 least s =
        .ok (match js.find? (fun i => (Ls i).any fun x => asize ≤ extractSize (s.mem x)) with
          | none => 0
          | some i => bestOfFive s.mem asize (Ls i), s)
  | [], _, _ => rfl
  | i :: rest, buckets, least => by
    have bucket := buckets i (List.mem_cons_self _ _)
    obtain ⟨least', scan⟩ := findFitScan_eq asize (Ls i) (loopFuel s) (s.segList i) [] least
      (lists.chains i bucket)
      (fun x member => ⟨(lists.aligned i bucket x member).2, (lists.valid i bucket x member).1,
        (lists.valid i bucket x member).2.1⟩)
      (lists.fuel bucket) (by simp) (fun nonempty => absurd rfl nonempty)
    have run : findFitScan asize (loopFuel s) (s.segList i) 5 0 least s =
        .ok ((5 - (((Ls i).filter fun x => asize ≤ extractSize (s.mem x)).take 5).length,
          bestOfFive s.mem asize (Ls i), least'), s) := by
      simpa [bestOfFive] using scan
    simp only [findFitBuckets]
    rw [bind_ok (getSeg_run i),
      bind_ok (x := fun s => findFitScan asize (loopFuel s) _ 5 0 least s) run]
    have fitsIn : ∀ j, (fun i => (Ls i).any fun x => asize ≤ extractSize (s.mem x)) j =
        (Ls j).any fun x => asize ≤ extractSize (s.mem x) := fun _ => rfl
    by_cases fits : (Ls i).any (fun x => asize ≤ extractSize (s.mem x)) = true
    · rw [List.find?_cons_of_pos rest ((fitsIn i).trans fits),
        if_pos (bestOfFive_ne_zero (fun x member => (lists.aligned i bucket x member).2) fits)]
      rfl
    · have none : (Ls i).filter (fun x => asize ≤ extractSize (s.mem x)) = [] :=
        List.filter_eq_nil_iff.mpr fun x member fit =>
          fits (List.any_eq_true.mpr ⟨x, member, fit⟩)
      have zero : bestOfFive s.mem asize (Ls i) = 0 := by simp [bestOfFive, none]
      rw [List.find?_cons_of_neg rest (fun fit => fits ((fitsIn i).symm.trans fit)), zero,
        if_neg (not_not.mpr rfl), bind_ok (pure_run _)]
      simp only [none, List.take_nil, List.length_nil, Nat.sub_zero]
      exact findFitBuckets_eq lists rest
        (fun j member => buckets j (List.mem_cons_of_mem _ member)) least'

/-- `find_fit` on buckets that satisfy the list invariant computes
`referenceFit` and changes nothing. -/
theorem findFit_eq {Ls : Nat → List Nat} (lists : FreeLists s Ls) :
    findFit asize s = .ok (referenceFit s.mem Ls asize, s) :=
  findFitBuckets_eq asize lists _
    (fun j member => by simp only [List.mem_range'_1] at member; omega) 0

end Scan

/-- On buckets that satisfy the list invariant and hold each block in the
bucket of its size, `find_fit(asize)` is the specification's policy: NULL
exactly when no bucket holds a block of `asize` bytes or more, and otherwise
the first block of least size among the first five fitting blocks of the
least bucket from `findIndex asize` on that has one. -/
theorem findFit_best_of_five {Ls : Nat → List Nat} (lists : FreeLists s Ls)
    (sized : ∀ i < numSegs, ∀ x ∈ Ls i, findIndex (extractSize (s.mem x)) = i) (asize : Nat) :
    findFit asize s = .ok (referenceFit s.mem Ls asize, s) ∧
      (referenceFit s.mem Ls asize = 0 ↔
        ∀ i < numSegs, ∀ x ∈ Ls i, extractSize (s.mem x) < asize) := by
  refine ⟨findFit_eq asize lists, ?_⟩
  unfold referenceFit
  split
  · rename_i none
    simp only [true_iff]
    intro i bucket x member
    by_contra fits
    have above : findIndex asize ≤ i := sized i bucket x member ▸ findIndex_mono (by omega)
    have := List.find?_eq_none.mp none i (List.mem_range'_1.mpr ⟨above, by omega⟩)
    exact this (List.any_eq_true.mpr ⟨x, member, by simpa using fits⟩)
  · rename_i i found
    have bucket := List.mem_range'_1.mp (List.mem_of_find?_eq_some found)
    have fits := List.find?_some found
    refine iff_of_false
      (bestOfFive_ne_zero (fun x member => (lists.aligned i (by omega) x member).2) fits)
      fun none => ?_
    obtain ⟨x, member, fit⟩ := List.any_eq_true.mp fits
    exact absurd (none i (by omega) x member) (by simpa using fit)

/-- After `mm_init` the first chunk, at 4104, is alone in bucket 8, and a
request of 32 bytes gets it. -/
theorem findFit_best_of_five_after_init :
    FreeLists (clientSession (fun _ => 0) (fun _ => false) true []).heap
      (setBucket (fun _ => []) 8 [4104]) ∧
      (∀ i < numSegs, ∀ x ∈ setBucket (fun _ => []) 8 [4104] i,
        findIndex
          (extractSize ((clientSession (fun _ => 0) (fun _ => false) true []).heap.mem x)) =
            i) ∧
      findFit 32 (clientSession (fun _ => 0) (fun _ => false) true []).heap =
        .ok (referenceFit (clientSession (fun _ => 0) (fun _ => false) true []).heap.mem
          (setBucket (fun _ => []) 8 [4104]) 32,
          (clientSession (fun _ => 0) (fun _ => false) true []).heap) ∧
      (referenceFit (clientSession (fun _ => 0) (fun _ => false) true []).heap.mem
          (setBucket (fun _ => []) 8 [4104]) 32 = 0 ↔
        ∀ i < numSegs, ∀ x ∈ setBucket (fun _ => []) 8 [4104] i,
          extractSize ((clientSession (fun _ => 0) (fun _ => false) true []).heap.mem x) < 32) :=
  ⟨by decide, by decide, findFit_best_of_five (by decide) (by decide) 32⟩

example : referenceFit (clientSession (fun _ => 0) (fun _ => false) true []).heap.mem
    (setBucket (fun _ => []) 8 [4104]) 32 = 4104 := by decide

namespace HeapInv

variable {bs : List Blk} {Ls : Nat → List Nat} {holes : List Nat} (inv : HeapInv s bs Ls holes)
include inv

/-- `find_fit` returns NULL or a listed block of at least the requested size,
and changes nothing. -/
theorem findFit_spec (asize : Nat) :
    ∃ fit, findFit asize s = .ok (fit, s) ∧
      (fit = 0 ∨ ∃ i < numSegs, fit ∈ Ls i ∧ asize ≤ extractSize (s.mem fit)) :=
  ⟨_, findFit_eq asize inv.freeLists, referenceFit_mem⟩

end HeapInv

end SegMalloc
