import SegMalloc.Api

/-!
# Runs of the allocator and what they leave in the heap

A session is the allocator state together with the payloads `malloc` has
handed out and `free` has not taken back.  `Reachable` collects the sessions
a client can produce from a state before the first call: an optional explicit
`mm_init` first, then any `malloc` of a `size_t` and any `free` of NULL or of
a live payload.

The heap is read back through three shapes of the code: the implicit walk by
`find_next` from `heap_start` to the epilogue, a bucket's chain of `next`
links ending in NULL, and the `prev` links of a doubly linked bucket.
-/

namespace SegMalloc

/-- The state before the first call: no heap yet and every bucket empty. -/
structure Fresh (s : Heap) : Prop where
  heapStart : s.heapStart = 0
  brk : s.brk = s.lo
  segList : ∀ i, s.segList i = 0
  lo_pos : 0 < s.lo

/-- An allocator state with the payloads currently handed out. -/
structure Session where
  heap : Heap
  live : List Nat

/-- Sessions reachable from a fresh state by `mm_init` (first, at most once),
`malloc` and `free`, under any answers of the heap provider. -/
inductive Reachable : Session → Prop
  | fresh {s : Heap} : Fresh s → Reachable ⟨s, []⟩
  | init {s s' : Heap} {ok : Bool} : Fresh s → mmInit s = .ok (ok, s') → Reachable ⟨s', []⟩
  | malloc {σ : Session} {n p : Nat} {s' : Heap} : Reachable σ → n < 2 ^ 64 →
      SegMalloc.malloc n σ.heap = .ok (p, s') →
      Reachable ⟨s', if p = 0 then σ.live else p :: σ.live⟩
  | free {σ : Session} {p : Nat} {s' : Heap} : Reachable σ → (p = 0 ∨ p ∈ σ.live) →
      SegMalloc.free p σ.heap = .ok ((), s') → Reachable ⟨s', σ.live.erase p⟩

/-- `ws` lists the headers the implicit walk visits from `a`, by `find_next`,
before it lands on the word `e`. -/
def Walk (mem : Nat → Nat) (e : Nat) : Nat → List Nat → Prop
  | a, [] => a = e
  | a, x :: ws => x = a ∧ a ≠ e ∧ Walk mem e (a + extractSize (mem a)) ws

instance Walk.decidable (mem : Nat → Nat) (e : Nat) : ∀ a ws, Decidable (Walk mem e a ws)
  | a, [] => inferInstanceAs (Decidable (a = e))
  | a, x :: ws =>
    have := Walk.decidable mem e (a + extractSize (mem a)) ws
    inferInstanceAs (Decidable (x = a ∧ a ≠ e ∧ Walk mem e (a + extractSize (mem a)) ws))

/-- `xs` lists the blocks met along `next` links from `head`, which end in NULL. -/
def NextChain (mem : Nat → Nat) : Nat → List Nat → Prop
  | head, [] => head = 0
  | head, x :: xs => head = x ∧ NextChain mem (mem (x + 8)) xs

/-- Each block of `xs` has the one before it (first: `prev`) as its `prev` link. -/
def PrevLinks (mem : Nat → Nat) : Nat → List Nat → Prop
  | _, [] => True
  | prev, x :: xs => mem (x + 16) = prev ∧ PrevLinks mem x xs

instance NextChain.decidable (mem : Nat → Nat) : ∀ head xs, Decidable (NextChain mem head xs)
  | head, [] => inferInstanceAs (Decidable (head = 0))
  | head, x :: xs =>
    have := NextChain.decidable mem (mem (x + 8)) xs
    inferInstanceAs (Decidable (head = x ∧ NextChain mem (mem (x + 8)) xs))

instance PrevLinks.decidable (mem : Nat → Nat) : ∀ prev xs, Decidable (PrevLinks mem prev xs)
  | _, [] => inferInstanceAs (Decidable True)
  | prev, x :: xs =>
    have := PrevLinks.decidable mem x xs
    inferInstanceAs (Decidable (mem (x + 16) = prev ∧ PrevLinks mem x xs))

/-! ## Running a client -/

/-- A heap region at address 4096, not yet extended, holding the words `mem`,
whose provider refuses the requests `refuse` picks. -/
def Heap.initial (mem : Nat → Nat) (refuse : Nat → Bool) : Heap :=
  ⟨mem, 4096, 4096, 0, fun _ => 0, refuse, 0⟩

theorem Heap.initial_fresh (mem : Nat → Nat) (refuse : Nat → Bool) :
    Fresh (Heap.initial mem refuse) :=
  ⟨rfl, rfl, fun _ => rfl, Nat.succ_pos 4095⟩

instance : Inhabited Heap := ⟨Heap.initial (fun _ => 0) (fun _ => false)⟩

/-- A client call after start-up. -/
inductive Call where
  | malloc (n : Nat)
  | free (p : Nat)
  deriving DecidableEq, Repr

/-- The fault a run stops with, if any. -/
def faultOf {α : Type} : Except Fault α → Option Fault
  | .error f => some f
  | .ok _ => none

/-- What a run that does not fault returns. -/
def resultOf {α : Type} [Inhabited α] : Except Fault α → α
  | .ok a => a
  | .error _ => default

theorem eq_error_of_faultOf {α : Type} {r : Except Fault α} {f : Fault}
    (fault : faultOf r = some f) : r = .error f := by
  cases r <;> simp_all [faultOf]

theorem eq_ok_of_faultOf {α β : Type} [Inhabited α] [Inhabited β] {r : Except Fault (α × β)}
    (ok : faultOf r = none) : r = .ok ((resultOf r).1, (resultOf r).2) := by
  cases r <;> simp_all [faultOf, resultOf]

/-- Run a client's calls from a session.  The run stops with `none` at a
fault, and at a call the client may not make: a size beyond `size_t`, or a
`free` of a pointer that is neither NULL nor live. -/
def Session.run : Session → List Call → Option Session
  | σ, [] => some σ
  | σ, .malloc n :: calls =>
    let r := SegMalloc.malloc n σ.heap
    if n < 2 ^ 64 ∧ faultOf r = none then
      Session.run
        ⟨(resultOf r).2, if (resultOf r).1 = 0 then σ.live else (resultOf r).1 :: σ.live⟩
        calls
    else none
  | σ, .free p :: calls =>
    let r := SegMalloc.free p σ.heap
    if (p = 0 ∨ p ∈ σ.live) ∧ faultOf r = none then
      Session.run ⟨(resultOf r).2, σ.live.erase p⟩ calls
    else none

/-- A client from a fresh heap: an optional explicit `mm_init`, then `calls`. -/
def runClient (s : Heap) (init : Bool) (calls : List Call) : Option Session :=
  if init then
    let r := mmInit s
    if faultOf r = none then Session.run ⟨(resultOf r).2, []⟩ calls else none
  else Session.run ⟨s, []⟩ calls

/-- The session a client reaches from `Heap.initial mem refuse`; the start
when the run stops early. -/
def clientSession (mem : Nat → Nat) (refuse : Nat → Bool) (init : Bool) (calls : List Call) :
    Session :=
  (runClient (Heap.initial mem refuse) init calls).getD ⟨Heap.initial mem refuse, []⟩

/-- Every session a run of calls reaches from a reachable one is reachable. -/
theorem Reachable.run {σ' : Session} : ∀ {σ : Session} {calls : List Call},
    Reachable σ → σ.run calls = some σ' → Reachable σ'
  | _, [], reach, done => Option.some.inj done ▸ reach
  | σ, .malloc n :: calls, reach, run => by
    unfold Session.run at run
    dsimp only at run
    by_cases ok : n < 2 ^ 64 ∧ faultOf (SegMalloc.malloc n σ.heap) = none
    · rw [if_pos ok] at run
      exact Reachable.run (reach.malloc ok.1 (eq_ok_of_faultOf ok.2)) run
    · rw [if_neg ok] at run
      cases run
  | σ, .free p :: calls, reach, run => by
    unfold Session.run at run
    dsimp only at run
    split_ifs at run with ok
    exact Reachable.run (reach.free ok.1 (eq_ok_of_faultOf ok.2)) run

theorem runClient_reachable {s : Heap} {init : Bool} {calls : List Call} {σ : Session}
    (fresh : Fresh s) (run : runClient s init calls = some σ) : Reachable σ := by
  unfold runClient at run
  dsimp only at run
  split_ifs at run with init ok
  · exact (Reachable.init fresh (eq_ok_of_faultOf ok)).run run
  · exact (Reachable.fresh fresh).run run

theorem runClient_eq_clientSession {mem : Nat → Nat} {refuse : Nat → Bool} {init : Bool}
    {calls : List Call} (ran : (runClient (Heap.initial mem refuse) init calls).isSome = true) :
    runClient (Heap.initial mem refuse) init calls =
      some (clientSession mem refuse init calls) := by
  unfold clientSession
  cases run : runClient (Heap.initial mem refuse) init calls with
  | none => simp [run] at ran
  | some σ => rfl

theorem clientSession_reachable {mem : Nat → Nat} {refuse : Nat → Bool} {init : Bool}
    {calls : List Call} (ran : (runClient (Heap.initial mem refuse) init calls).isSome = true) :
    Reachable (clientSession mem refuse init calls) :=
  runClient_reachable (Heap.initial_fresh mem refuse) (runClient_eq_clientSession ran)

end SegMalloc
