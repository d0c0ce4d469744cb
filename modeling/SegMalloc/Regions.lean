import Mathlib.Data.Nat.Bitwise
import Mathlib.Data.List.Pairwise
import Mathlib.Data.List.Range

/-!
# What a client of the allocator relies on

An abstract allocator, with no heap layout: a client holds regions, each an
address and the bytes it reads there.  `malloc` may refuse with NULL, or hand
out a region of the requested length that meets no region the client holds;
`free` takes a region back; `realloc` may refuse, or moves a region and keeps
the bytes both lengths cover; `calloc` hands out the product of its
arguments of zero bytes; a word the client stores into a region changes the
eight bytes it covers.  Along every run the held regions stay non-empty,
above NULL and pairwise apart (`Regions.Reachable.wf`).  A call keeps every
region it does not act on (`Regions.Step.keeps`), and a `realloc` that
returns a pointer holds a region there that begins with the bytes both
lengths cover (`Regions.Step.realloc_result`).
-/

namespace SegMalloc

/-- Byte `i` of the word `w`; the machine is little-endian. -/
def wordByte (w i : Nat) : Nat := w / 2 ^ (8 * i) % 256

/-- A region a client holds: where it starts, and its bytes. -/
structure Region where
  base : Nat
  bytes : List Nat
  deriving DecidableEq, Repr

namespace Region

/-- The byte ranges of two regions do not meet. -/
def Apart (r r' : Region) : Prop :=
  r.base + r.bytes.length ≤ r'.base ∨ r'.base + r'.bytes.length ≤ r.base

theorem Apart.symm {r r' : Region} (apart : r.Apart r') : r'.Apart r := Or.symm apart

/-- The bytes after a store of the word `w` at word `k`: the eight bytes it
covers, those that lie in the region. -/
def storeWord (bytes : List Nat) (k w : Nat) : List Nat :=
  (List.range bytes.length).map fun j => if j / 8 = k then wordByte w (j % 8) else bytes.getD j 0

@[simp] theorem length_storeWord (bytes : List Nat) (k w : Nat) :
    (storeWord bytes k w).length = bytes.length := by
  simp [storeWord]

end Region

/-- A call of the interface, or a store of a word by the client. -/
inductive Op where
  | malloc (size : Nat)
  | free (ptr : Nat)
  | realloc (ptr size : Nat)
  | calloc (elements size : Nat)
  /-- The client stores `word` at word `index` of the region at `ptr`. -/
  | store (ptr index word : Nat)
  deriving DecidableEq, Repr

/-- The held region a call acts on: the pointer argument of `free`,
`realloc` and a store. -/
def Op.target : Op → Option Nat
  | .free p | .realloc p _ | .store p _ _ => some p
  | .malloc _ | .calloc _ _ => none

namespace Regions

/-- `n` bytes at `p`, above NULL, meet no region of `R`. -/
def Available (R : List Region) (p n : Nat) : Prop :=
  0 < p ∧ ∀ r ∈ R, p + n ≤ r.base ∨ r.base + r.bytes.length ≤ p

/-- The regions but the one at `p`. -/
def drop (R : List Region) (p : Nat) : List Region := R.filter fun r => r.base ≠ p

theorem Available.drop {R : List Region} {q n : Nat} (room : Available R q n) (p : Nat) :
    Available (Regions.drop R p) q n :=
  ⟨room.1, fun r member => room.2 r (List.mem_of_mem_filter member)⟩

/-- A store of `w` at word `k` of the region at `p`. -/
def store (R : List Region) (p k w : Nat) : List Region :=
  R.map fun r => if r.base = p then ⟨p, Region.storeWord r.bytes k w⟩ else r

/-- One call on the held regions `R` returns `x` and leaves `R'`.  A refused
call returns NULL and changes nothing; `realloc(p, 0)` is a `free`, and
`realloc(NULL, n)` a `malloc`. -/
inductive Step : List Region → Op → Nat → List Region → Prop
  | mallocNull {R : List Region} {n : Nat} : Step R (.malloc n) 0 R
  | malloc {R : List Region} {n p : Nat} {bytes : List Nat} : 0 < n → Available R p n →
      bytes.length = n → Step R (.malloc n) p (⟨p, bytes⟩ :: R)
  | freeNull {R : List Region} : Step R (.free 0) 0 R
  | free {R : List Region} {r : Region} : r ∈ R → Step R (.free r.base) 0 (drop R r.base)
  | reallocZero {R R' : List Region} {p : Nat} : Step R (.free p) 0 R' →
      Step R (.realloc p 0) 0 R'
  | reallocNull {R R' : List Region} {n q : Nat} : 0 < n → Step R (.malloc n) q R' →
      Step R (.realloc 0 n) q R'
  | reallocFail {R : List Region} {r : Region} {n : Nat} : r ∈ R → 0 < n →
      Step R (.realloc r.base n) 0 R
  | realloc {R : List Region} {r : Region} {n q : Nat} {bytes : List Nat} : r ∈ R → 0 < n →
      Available (drop R r.base) q n → bytes.length = n →
      bytes.take r.bytes.length = r.bytes.take n →
      Step R (.realloc r.base n) q (⟨q, bytes⟩ :: drop R r.base)
  | callocNull {R : List Region} {k n : Nat} : Step R (.calloc k n) 0 R
  | calloc {R : List Region} {k n p : Nat} : 0 < k * n → Available R p (k * n) →
      Step R (.calloc k n) p (⟨p, List.replicate (k * n) 0⟩ :: R)
  | store {R : List Region} {r : Region} {k w : Nat} : r ∈ R → 8 * k < r.bytes.length →
      Step R (.store r.base k w) 0 (store R r.base k w)

/-- A run of calls on the held regions `R`: the calls `ops` return `xs` and
leave `R'`. -/
inductive Runs : List Region → List Op → List Nat → List Region → Prop
  | nil {R : List Region} : Runs R [] [] R
  | cons {R R' R'' : List Region} {op : Op} {x : Nat} {ops : List Op} {xs : List Nat} :
      Step R op x R' → Runs R' ops xs R'' → Runs R (op :: ops) (x :: xs) R''

/-- The held regions after any run of calls from none. -/
inductive Reachable : List Region → Prop
  | nil : Reachable []
  | step {R R' : List Region} {op : Op} {x : Nat} : Reachable R → Step R op x R' → Reachable R'

/-- Held regions are non-empty, start above NULL, and are pairwise apart. -/
structure Wf (R : List Region) : Prop where
  pos : ∀ r ∈ R, 0 < r.base ∧ 0 < r.bytes.length
  apart : R.Pairwise Region.Apart

namespace Wf

variable {R : List Region}

theorem drop (wf : Wf R) (p : Nat) : Wf (Regions.drop R p) :=
  ⟨fun r member => wf.pos r (List.mem_of_mem_filter member), wf.apart.filter _⟩

theorem cons {p : Nat} {bytes : List Nat} (wf : Wf R) (nonempty : 0 < bytes.length)
    (room : Available R p bytes.length) : Wf (⟨p, bytes⟩ :: R) :=
  ⟨by simpa using ⟨⟨room.1, nonempty⟩, wf.pos⟩,
    List.pairwise_cons.mpr ⟨room.2, wf.apart⟩⟩

/-- A store keeps every base and every length. -/
theorem store (wf : Wf R) (p k w : Nat) : Wf (Regions.store R p k w) := by
  have same : ∀ r : Region,
      (if r.base = p then (⟨p, Region.storeWord r.bytes k w⟩ : Region) else r).base = r.base ∧
      (if r.base = p then (⟨p, Region.storeWord r.bytes k w⟩ : Region) else r).bytes.length =
        r.bytes.length :=
    fun r => by split_ifs with here <;> simp [here]
  refine ⟨fun r member => ?_, List.pairwise_map.mpr (wf.apart.imp fun {r r'} apart => ?_)⟩
  · obtain ⟨r, old, rfl⟩ := List.mem_map.mp member
    rw [(same r).1, (same r).2]
    exact wf.pos r old
  · unfold Region.Apart
    rw [(same r).1, (same r).2, (same r').1, (same r').2]
    exact apart

/-- Two held regions that start at one address are one region. -/
theorem eq_of_base {r r' : Region} (wf : Wf R) (member : r ∈ R) (member' : r' ∈ R)
    (same : r.base = r'.base) : r = r' := by
  by_contra differ
  have apart := wf.apart.forall (fun _ _ => Region.Apart.symm) member member' differ
  have := (wf.pos r member).2
  have := (wf.pos r' member').2
  unfold Region.Apart at apart
  omega

end Wf

/-- One call keeps the held regions well formed. -/
theorem Step.wf {R R' : List Region} {op : Op} {x : Nat} (step : Step R op x R')
    (wf : Wf R) : Wf R' := by
  induction step with
  | mallocNull | freeNull | callocNull | reallocFail => exact wf
  | malloc nonempty room length => exact wf.cons (length ▸ nonempty) (length ▸ room)
  | free => exact wf.drop _
  | reallocZero _ ih | reallocNull _ _ ih => exact ih
  | realloc _ nonempty room length => exact (wf.drop _).cons (length ▸ nonempty) (length ▸ room)
  | calloc nonempty room => exact wf.cons (by simpa using nonempty) (by simpa using room)
  | store => exact wf.store _ _ _

/-- Along every run the held regions are non-empty, above NULL and
pairwise apart. -/
theorem Reachable.wf {R : List Region} (reach : Reachable R) : Wf R := by
  induction reach with
  | nil => exact ⟨by simp, List.Pairwise.nil⟩
  | step _ step ih => exact step.wf ih

/-! ## What a call keeps -/

section Keeps

variable {R R' : List Region} {op : Op} {x : Nat}

theorem mem_drop_iff {r : Region} {p : Nat} : r ∈ drop R p ↔ r ∈ R ∧ r.base ≠ p := by
  simp [drop]

/-- A call keeps every held region it does not act on. -/
theorem Step.keeps (step : Step R op x R') {r : Region} (member : r ∈ R)
    (other : op.target ≠ some r.base) : r ∈ R' := by
  induction step with
  | mallocNull | freeNull | callocNull | reallocFail => exact member
  | malloc | calloc => exact List.mem_cons_of_mem _ member
  | free => exact mem_drop_iff.mpr ⟨member, fun same => other (by rw [same]; rfl)⟩
  | reallocZero _ ih => exact ih other
  | reallocNull _ _ ih => exact ih nofun
  | realloc => exact List.mem_cons_of_mem _ (mem_drop_iff.mpr
      ⟨member, fun same => other (by rw [same]; rfl)⟩)
  | store => exact List.mem_map.mpr ⟨r, member, if_neg fun same => other (by rw [same]; rfl)⟩

/-- A `realloc` of a held region that returns a pointer holds, in place of
the old region, one at the result whose bytes begin with those both lengths
cover. -/
theorem Step.realloc_result {r : Region} {p n q : Nat} (wf : Wf R) (member : r ∈ R)
    (base : r.base = p) (step : Step R (.realloc p n) q R') (nonnull : q ≠ 0) :
    ∃ bytes, R' = ⟨q, bytes⟩ :: drop R p ∧ bytes.length = n ∧
      bytes.take r.bytes.length = r.bytes.take n := by
  cases step with
  | reallocZero | reallocFail => exact absurd rfl nonnull
  | reallocNull => exact absurd base (wf.pos r member).1.ne'
  | realloc member' _ _ length kept =>
    obtain rfl := wf.eq_of_base member member' base
    exact ⟨_, rfl, length, kept⟩

end Keeps

end Regions

end SegMalloc
