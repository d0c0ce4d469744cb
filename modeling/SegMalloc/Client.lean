import SegMalloc.Bytes

/-!
# A client of the whole interface

A client calls `malloc`, `free`, `realloc` and `calloc`, and stores words
into the payloads it holds; it keeps, for each payload, the number of bytes
it asked for.  `Client.Step` runs the source's functions on the heap, under
the arguments a client may pass.

`ClientInv` is what a client's state satisfies: the heap invariant, the held
payloads exactly those of the allocated blocks, and each block with room for
the bytes asked.  What the client reads there is `view`, one region per held
payload.  This module shows how `malloc`, `free` and a store change both:
each keeps the invariant, and keeps every byte of the other held payloads.
-/

namespace SegMalloc

/-- A client of the allocator: the allocator's state, and each payload it
holds with the number of bytes it asked for. -/
structure Client where
  heap : Heap
  held : List (Nat × Nat)

/-- The payloads held but `p`. -/
def forget (held : List (Nat × Nat)) (p : Nat) : List (Nat × Nat) :=
    held.filter fun x => x.1 ≠ p

/-- What a client holds after `realloc(p, n)` returned `q`: a NULL result
leaves `p` held, unless `n` was 0 and `realloc` freed it. -/
def afterRealloc (held : List (Nat × Nat)) (p n q : Nat) : List (Nat × Nat) :=
  if q = 0 then (if n = 0 then forget held p else held) else (q, n) :: forget held p

/-- One call of a client, returning `x`.  The size `n` of `malloc(n)` and of
`realloc(p, n)` has `n + 23 < 2^64`: beyond it `malloc`'s rounding of `n + 8`
up to 16 wraps `size_t`, and the block it hands out is smaller than asked.
`calloc` takes two `size_t`s, a pointer argument is NULL or held, a store lies
in the bytes asked for, and the call runs without a fault. -/
inductive Client.Step : Client → Op → Nat → Client → Prop
  | malloc {c : Client} {n p : Nat} {s' : Heap} : n + 23 < 2 ^ 64 →
      SegMalloc.malloc n c.heap = .ok (p, s') →
      Client.Step c (.malloc n) p ⟨s', if p = 0 then c.held else (p, n) :: c.held⟩
  | free {c : Client} {p : Nat} {s' : Heap} : (p = 0 ∨ p ∈ c.held.map Prod.fst) →
      SegMalloc.free p c.heap = .ok ((), s') → Client.Step c (.free p) 0 ⟨s', forget c.held p⟩
  | realloc {c : Client} {p n q : Nat} {s' : Heap} : (p = 0 ∨ p ∈ c.held.map Prod.fst) →
      n + 23 < 2 ^ 64 → SegMalloc.realloc p n c.heap = .ok (q, s') →
      Client.Step c (.realloc p n) q ⟨s', afterRealloc c.held p n q⟩
  | calloc {c : Client} {k n p : Nat} {s' : Heap} : k < 2 ^ 64 → n < 2 ^ 64 →
      SegMalloc.calloc k n c.heap = .ok (p, s') →
      Client.Step c (.calloc k n) p ⟨s', if p = 0 then c.held else (p, k * n) :: c.held⟩
  | store {c : Client} {p m k w : Nat} {s' : Heap} : (p, m) ∈ c.held → 8 * k < m →
      SegMalloc.store (p + 8 * k) w c.heap = .ok ((), s') →
      Client.Step c (.store p k w) 0 ⟨s', c.held⟩

/-- Client states reachable from a fresh heap, after an optional `mm_init`,
by calls of `Client.Step`: every `malloc(n)` and `realloc(p, n)` of the whole
history has `n + 23 < 2^64`. -/
inductive Client.Reachable : Client → Prop
  | fresh {s : Heap} : Fresh s → Client.Reachable ⟨s, []⟩
  | init {s s' : Heap} {ok : Bool} : Fresh s → mmInit s = .ok (ok, s') →
      Client.Reachable ⟨s', []⟩
  | step {c c' : Client} {op : Op} {x : Nat} : Client.Reachable c → Client.Step c op x c' →
      Client.Reachable c'

/-- A run of a client's calls: the calls `ops` return `xs`. -/
inductive Client.Runs : Client → List Op → List Nat → Client → Prop
  | nil {c : Client} : Client.Runs c [] [] c
  | cons {c c' c'' : Client} {op : Op} {x : Nat} {ops : List Op} {xs : List Nat} :
      Client.Step c op x c' → Client.Runs c' ops xs c'' →
      Client.Runs c (op :: ops) (x :: xs) c''

/-- Run a client's calls from a state.  The run stops with `none` at a fault
and at a call the client may not make. -/
def Client.run : Client → List Op → Option Client
  | c, [] => some c
  | c, .malloc n :: ops =>
    let r := SegMalloc.malloc n c.heap
    if n + 23 < 2 ^ 64 ∧ faultOf r = none then
      Client.run ⟨(resultOf r).2,
        if (resultOf r).1 = 0 then c.held else ((resultOf r).1, n) :: c.held⟩ ops
    else none
  | c, .free p :: ops =>
    let r := SegMalloc.free p c.heap
    if (p = 0 ∨ p ∈ c.held.map Prod.fst) ∧ faultOf r = none then
      Client.run ⟨(resultOf r).2, forget c.held p⟩ ops
    else none
  | c, .realloc p n :: ops =>
    let r := SegMalloc.realloc p n c.heap
    if (p = 0 ∨ p ∈ c.held.map Prod.fst) ∧ n + 23 < 2 ^ 64 ∧ faultOf r = none then
      Client.run ⟨(resultOf r).2, afterRealloc c.held p n (resultOf r).1⟩ ops
    else none
  | c, .calloc k n :: ops =>
    let r := SegMalloc.calloc k n c.heap
    if k < 2 ^ 64 ∧ n < 2 ^ 64 ∧ faultOf r = none then
      Client.run ⟨(resultOf r).2,
        if (resultOf r).1 = 0 then c.held else ((resultOf r).1, k * n) :: c.held⟩ ops
    else none
  | c, .store p k w :: ops =>
    let r := SegMalloc.store (p + 8 * k) w c.heap
    if (∃ x ∈ c.held, x.1 = p ∧ 8 * k < x.2) ∧ faultOf r = none then
      Client.run ⟨(resultOf r).2, c.held⟩ ops
    else none

/-- A client from a fresh heap: an optional explicit `mm_init`, then `ops`. -/
def Client.start (s : Heap) (init : Bool) (ops : List Op) : Option Client :=
  if init then
    let r := mmInit s
    if faultOf r = none then Client.run ⟨(resultOf r).2, []⟩ ops else none
  else Client.run ⟨s, []⟩ ops

theorem some_of_ite {α : Type} {c : Prop} [Decidable c] {x : Option α} {y : α}
    (run : (if c then x else none) = some y) : c ∧ x = some y := by
  split_ifs at run with holds
  exact ⟨holds, run⟩

/-- Every state a run of calls reaches from a reachable one is reachable. -/
theorem Client.Reachable.run {c' : Client} : ∀ {c : Client} {ops : List Op},
    Client.Reachable c → c.run ops = some c' → Client.Reachable c'
  | _, [], reach, done => Option.some.inj done ▸ reach
  | c, .malloc n :: ops, reach, run => by
    obtain ⟨ok, rest⟩ := some_of_ite run
    exact Client.Reachable.run (reach.step (.malloc ok.1 (eq_ok_of_faultOf ok.2))) rest
  | c, .free p :: ops, reach, run => by
    obtain ⟨ok, rest⟩ := some_of_ite run
    exact Client.Reachable.run (reach.step (.free ok.1 (eq_ok_of_faultOf ok.2))) rest
  | c, .realloc p n :: ops, reach, run => by
    obtain ⟨ok, rest⟩ := some_of_ite run
    exact Client.Reachable.run (reach.step (.realloc ok.1 ok.2.1 (eq_ok_of_faultOf ok.2.2))) rest
  | c, .calloc k n :: ops, reach, run => by
    obtain ⟨ok, rest⟩ := some_of_ite run
    exact Client.Reachable.run (reach.step (.calloc ok.1 ok.2.1 (eq_ok_of_faultOf ok.2.2))) rest
  | c, .store p k w :: ops, reach, run => by
    obtain ⟨⟨⟨⟨q, m⟩, member, same, low⟩, ok⟩, rest⟩ := some_of_ite run
    subst same
    exact Client.Reachable.run (reach.step (.store member low (eq_ok_of_faultOf ok))) rest

theorem Client.start_reachable {s : Heap} {init : Bool} {ops : List Op} {c : Client}
    (fresh : Fresh s) (run : Client.start s init ops = some c) : Client.Reachable c := by
  unfold Client.start at run
  split_ifs at run with init
  · obtain ⟨ok, rest⟩ := some_of_ite run
    exact (Client.Reachable.init fresh (eq_ok_of_faultOf ok)).run rest
  · exact (Client.Reachable.fresh fresh).run run

/-- The client a run of calls reaches from `Heap.initial mem refuse`; the
start when the run stops early. -/
def Client.after (mem : Nat → Nat) (refuse : Nat → Bool) (init : Bool)
    (ops : List Op) : Client :=
  (Client.start (Heap.initial mem refuse) init ops).getD ⟨Heap.initial mem refuse, []⟩

/-- A run that does not fault and whose result is `a` returns `a`. -/
theorem eq_ok_of_resultOf {α β : Type} [Inhabited α] [Inhabited β]
    {r : Except Fault (α × β)} {a : α} (ok : faultOf r = none) (result : (resultOf r).1 = a) :
    r = .ok (a, (resultOf r).2) :=
  result ▸ eq_ok_of_faultOf ok

section After

variable {mem : Nat → Nat} {refuse : Nat → Bool} {init : Bool} {ops : List Op}

theorem Client.start_eq_after
    (ran : (Client.start (Heap.initial mem refuse) init ops).isSome = true) :
    Client.start (Heap.initial mem refuse) init ops = some (Client.after mem refuse init ops) := by
  obtain ⟨c, run⟩ := Option.isSome_iff_exists.mp ran
  rw [Client.after, run]
  rfl

theorem Client.after_reachable
    (ran : (Client.start (Heap.initial mem refuse) init ops).isSome = true) :
    Client.Reachable (Client.after mem refuse init ops) :=
  Client.start_reachable (Heap.initial_fresh mem refuse) (Client.start_eq_after ran)

end After

/-- What a client reads: each held payload with the bytes it asked for. -/
def view (mem : Nat → Nat) (held : List (Nat × Nat)) : List Region :=
  held.map fun x => ⟨x.1, bytesAt mem x.1 x.2⟩

/-- What the client of `c` reads. -/
def Client.view (c : Client) : List Region := SegMalloc.view c.heap.mem c.held

@[simp] theorem view_cons (mem : Nat → Nat) (x : Nat × Nat) (held : List (Nat × Nat)) :
    view mem (x :: held) = ⟨x.1, bytesAt mem x.1 x.2⟩ :: view mem held := rfl

/-- The held payloads read back from the view: each region's base and length. -/
theorem map_view (mem : Nat → Nat) (held : List (Nat × Nat)) :
    (view mem held).map (fun r => (r.base, r.bytes.length)) = held := by
  simp [view, Function.comp_def]

theorem view_forget (mem : Nat → Nat) (held : List (Nat × Nat)) (p : Nat) :
    view mem (forget held p) = Regions.drop (view mem held) p := by
  simp only [view, forget, Regions.drop, List.filter_map]
  rfl

theorem forget_of_not_mem {held : List (Nat × Nat)} {p : Nat} (absent : p ∉ held.map Prod.fst) :
    forget held p = held :=
  List.filter_eq_self.mpr fun x member => by
    simpa using fun same : x.1 = p => absent (same ▸ List.mem_map_of_mem _ member)

/-! ## Held payloads and their blocks -/

/-- The block of payload `x.1` is allocated and has room for `x.2` bytes
after its header. -/
def Holds (bs : List Blk) (x : Nat × Nat) : Prop :=
  ∃ b ∈ bs, b.alloc = true ∧ x.1 = b.addr + 8 ∧ x.2 + 8 ≤ b.size

/-- The held payloads are distinct, are those of the allocated blocks, and
each block has room for the bytes asked. -/
structure Tracks (bs : List Blk) (held : List (Nat × Nat)) : Prop where
  nodup : (held.map Prod.fst).Nodup
  payloads : ∀ p, p ∈ held.map Prod.fst ↔ Payloads bs p
  holds : ∀ x ∈ held, Holds bs x

/-- The invariant of a client: a fresh heap with nothing held, or an
initialised heap whose allocated blocks are the held payloads. -/
def ClientInv (c : Client) : Prop :=
  (Fresh c.heap ∧ c.held = []) ∨ ∃ bs Ls, HeapInv c.heap bs Ls [] ∧ Tracks bs c.held

variable {s s' : Heap} {bs : List Blk} {held : List (Nat × Nat)}

theorem Holds.pos {x : Nat × Nat} (holds : Holds bs x) : 0 < x.1 := by
  obtain ⟨b, -, -, addr, -⟩ := holds
  omega

/-- The bytes asked for lie in the block's payload. -/
theorem Holds.inPayload {x : Nat × Nat} (holds : Holds bs x) {a : Nat} (low : a < x.2) :
    InPayload bs (x.1 + a) := by
  obtain ⟨b, member, used, addr, room⟩ := holds
  exact ⟨b, member, used, by omega, by omega⟩

theorem Holds.mono {bs' : List Blk} {x : Nat × Nat} (holds : Holds bs x)
    (kept : ∀ b ∈ bs, b.alloc = true → b ∈ bs') : Holds bs' x := by
  obtain ⟨b, member, used, rest⟩ := holds
  exact ⟨b, kept b member used, used, rest⟩

/-- Two held payloads at different addresses: their bytes do not meet. -/
theorem Holds.apart {Ls : Nat → List Nat} {holes : List Nat} (inv : HeapInv s bs Ls holes)
    {x y : Nat × Nat} (hx : Holds bs x) (hy : Holds bs y) (ne : x.1 ≠ y.1) :
    x.1 + x.2 ≤ y.1 ∨ y.1 + y.2 ≤ x.1 := by
  obtain ⟨b, bMem, -, bAddr, bRoom⟩ := hx
  obtain ⟨c, cMem, -, cAddr, cRoom⟩ := hy
  have := inv.layout.disjoint b bMem c cMem (by omega)
  omega

/-- A payload whose block holds `n` bytes, apart from the held ones, has room
for a new region of `n` bytes. -/
theorem Holds.available {Ls : Nat → List Nat} {holes : List Nat} (inv : HeapInv s bs Ls holes)
    {p n : Nat} (new : Holds bs (p, n)) (others : ∀ x ∈ held, Holds bs x ∧ x.1 ≠ p)
    (mem : Nat → Nat) :
    Regions.Available (view mem held) p n := by
  refine ⟨new.pos, fun r member => ?_⟩
  obtain ⟨x, xMem, rfl⟩ := List.mem_map.mp member
  simpa using new.apart inv (others x xMem).1 (others x xMem).2.symm

/-- A step that keeps the payloads of `bs` keeps what the client reads. -/
theorem Keeps.view_eq (keeps : Keeps bs s s') (holds : ∀ x ∈ held, Holds bs x) :
    view s'.mem held = view s.mem held :=
  List.map_congr_left fun x member => by
    rw [bytesAt_congr fun j low => keeps _ ((holds x member).inPayload (by omega))]

theorem Tracks.mem_forget (tracks : Tracks bs held) (p : Nat) (q : Nat) :
    q ∈ (forget held p).map Prod.fst ↔ q ≠ p ∧ Payloads bs q := by
  rw [← tracks.payloads]
  simp only [forget, List.mem_map, List.mem_filter, decide_eq_true_eq]
  constructor
  · rintro ⟨x, ⟨member, other⟩, rfl⟩
    exact ⟨other, x, member, rfl⟩
  · rintro ⟨other, x, member, rfl⟩
    exact ⟨x, ⟨member, other⟩, rfl⟩

theorem bytesAt_of_view {mem mem' : Nat → Nat} (same : view mem' held = view mem held)
    {x : Nat × Nat} (member : x ∈ held) : bytesAt mem' x.1 x.2 = bytesAt mem x.1 x.2 := by
  simpa using List.map_inj_left.mp same x member

/-- A client's state is a session of the held payloads. -/
theorem ClientInv.sessionInv {c : Client} (inv : ClientInv c) :
    SessionInv ⟨c.heap, c.held.map Prod.fst⟩ := by
  rcases inv with ⟨fresh, none⟩ | ⟨bs, Ls, inv, tracks⟩
  · exact .inl ⟨fresh, by simp [none]⟩
  · exact .inr ⟨bs, Ls, inv, tracks.nodup, tracks.payloads⟩

theorem ClientInv.null_not_held {c : Client} (inv : ClientInv c) : 0 ∉ c.held.map Prod.fst := by
  rcases inv with ⟨-, none⟩ | ⟨bs, Ls, -, tracks⟩
  · simp [none]
  · exact fun member => ((tracks.payloads 0).mp member).pos rfl

section Inside

variable {Ls : Nat → List Nat} {holes : List Nat} {q len : Nat} {mem mem' : Nat → Nat}

/-- Writes inside the bytes a held payload asked for keep the invariant. -/
theorem HeapInv.frame_inside (inv : HeapInv s bs Ls holes) (holds : Holds bs (q, len))
    (inside : ∀ a, mem a ≠ s.mem a → q ≤ a ∧ a < q + len) :
      HeapInv { s with mem := mem } bs Ls holes :=
  inv.payload_frame ⟨rfl, rfl, rfl, rfl, rfl⟩ rfl fun a differ => by
    obtain ⟨low, high⟩ := inside a differ
    simpa [Nat.add_sub_cancel' low] using holds.inPayload (a := a - q) (by simp only; omega)

/-- Writes inside the bytes of one held payload leave what the client reads
of the others. -/
theorem view_apart (inv : HeapInv s bs Ls holes) (others : ∀ x ∈ held, Holds bs x ∧ x.1 ≠ q)
    (target : Holds bs (q, len)) (inside : ∀ a, mem' a ≠ mem a → q ≤ a ∧ a < q + len) :
    view mem' held = view mem held :=
  List.map_congr_left fun x member => by
    have apart := (others x member).1.apart inv target (others x member).2
    simp only at apart
    congr 1
    refine bytesAt_congr fun j low => by_contra fun differ => ?_
    have := inside _ differ
    omega

end Inside

/-! ## `malloc` -/

theorem malloc_zero_started (started : s.heapStart ≠ 0) : malloc 0 s = .ok (0, s) := by
  have read : (fun s : Heap => (Except.ok (s.heapStart, s) : Except Fault (Nat × Heap))) s =
      .ok (s.heapStart, s) := rfl
  simp only [malloc]
  rw [bind_ok read]
  simp [started]

/-- `malloc` on an initialised heap: no held byte changes; a payload handed
out is new and, for a size with room for the rounding, has room for the
bytes asked, apart from every held payload. -/
theorem HeapInv.malloc_client {Ls : Nat → List Nat} {n p : Nat} (inv : HeapInv s bs Ls [])
    (tracks : Tracks bs held) (run : malloc n s = .ok (p, s')) :
    view s'.mem held = view s.mem held ∧
      (p = 0 ∧ (∃ bs' Ls', HeapInv s' bs' Ls' [] ∧ Tracks bs' held) ∨
        p ≠ 0 ∧ 0 < n ∧ (n + 23 < 2 ^ 64 → Regions.Available (view s.mem held) p n ∧
          ∃ bs' Ls', HeapInv s' bs' Ls' [] ∧ Tracks bs' ((p, n) :: held))) := by
  obtain ⟨p', s'', bs', Ls', run', -, -, inv', keeps, kept, result⟩ := inv.malloc_spec n
  obtain ⟨rfl, rfl⟩ : p = p' ∧ s' = s'' := by simpa [run] using run'
  refine ⟨keeps.view_eq tracks.holds, ?_⟩
  have old : ∀ x ∈ held, Holds bs' x := fun x member => (tracks.holds x member).mono kept
  rcases result with ⟨rfl, same⟩ | ⟨nonzero, block, fresh, added⟩
  · exact .inl ⟨rfl, bs', Ls', inv', tracks.nodup,
      fun q => (tracks.payloads q).trans (same q).symm, old⟩
  have positive : 0 < n := Nat.pos_of_ne_zero fun zero => by
    rw [zero, malloc_zero_started (by rw [inv.start]; omega)] at run
    cases run
    exact nonzero rfl
  refine .inr ⟨nonzero, positive, fun small => ?_⟩
  have new : Holds bs' (p, n) := by
    refine ⟨_, block, rfl, by have := (inv'.bounds block).1; simp only at this ⊢; omega, ?_⟩
    show n + 8 ≤ max (roundUp (wrap (n + wsize)) dsize) minBlockSize
    rw [asize_unbounded small]
    exact le_trans (by omega) (le_max_left _ _)
  have absent : p ∉ held.map Prod.fst := fun member => fresh ((tracks.payloads p).mp member)
  refine ⟨new.available inv' (fun x member => ⟨old x member, fun same => absent ?_⟩) _,
    bs', Ls', inv', List.nodup_cons.mpr ⟨absent, tracks.nodup⟩, fun q => ?_, ?_⟩
  · exact same ▸ List.mem_map_of_mem _ member
  · rw [List.map_cons, List.mem_cons, added, tracks.payloads]
  · exact fun x member => (List.mem_cons.mp member).elim (fun same => same ▸ new) (old x)

/-- `malloc` from any client state. -/
theorem ClientInv.malloc {c : Client} {n p : Nat} (inv : ClientInv c)
    (run : SegMalloc.malloc n c.heap = .ok (p, s')) :
    view s'.mem c.held = c.view ∧
      (p = 0 ∧ ClientInv ⟨s', c.held⟩ ∨ p ≠ 0 ∧ 0 < n ∧
        (n + 23 < 2 ^ 64 → Regions.Available c.view p n ∧
          ∃ bs Ls, HeapInv s' bs Ls [] ∧ Tracks bs ((p, n) :: c.held))) := by
  have started : ∀ {bs : List Blk} {Ls : Nat → List Nat} {t : Heap},
      HeapInv t bs Ls [] → Tracks bs c.held →
      SegMalloc.malloc n t = .ok (p, s') → view t.mem c.held = c.view →
      view s'.mem c.held = c.view ∧
        (p = 0 ∧ ClientInv ⟨s', c.held⟩ ∨ p ≠ 0 ∧ 0 < n ∧
          (n + 23 < 2 ^ 64 → Regions.Available c.view p n ∧
            ∃ bs Ls, HeapInv s' bs Ls [] ∧ Tracks bs ((p, n) :: c.held))) := by
    intro bs Ls t inv tracks run same
    obtain ⟨kept, result⟩ := inv.malloc_client tracks run
    rw [same] at kept result
    exact ⟨kept, result.imp_left fun ⟨zero, rest⟩ => ⟨zero, Or.inr rest⟩⟩
  rcases inv with ⟨fresh, none⟩ | ⟨bs, Ls, inv, tracks⟩
  · obtain ⟨heap, held⟩ := c
    simp only at fresh none run ⊢
    subst none
    rcases malloc_fresh fresh n with ⟨s'', run', fresh', -⟩ | fault |
        ⟨s1, bs, Ls, same, -, -, inv1, empty⟩
    · obtain ⟨rfl, rfl⟩ : p = 0 ∧ s' = s'' := by simpa [run] using run'
      exact ⟨rfl, .inl ⟨rfl, Or.inl ⟨fresh', rfl⟩⟩⟩
    · simp [run] at fault
    · exact started inv1
        ⟨List.nodup_nil, fun q => iff_of_false (List.not_mem_nil _) (empty q), by simp⟩
        (same ▸ run) rfl
  · exact started inv tracks run rfl

/-! ## `free` -/

/-- `free` of NULL or of a held payload on an initialised heap: the payload
is no longer held, and no other held byte changes. -/
theorem HeapInv.free_client {Ls : Nat → List Nat} {p : Nat} (inv : HeapInv s bs Ls [])
    (tracks : Tracks bs held) (arg : p = 0 ∨ p ∈ held.map Prod.fst)
    (run : free p s = .ok ((), s')) :
    view s'.mem (forget held p) = view s.mem (forget held p) ∧
      ∃ bs' Ls', HeapInv s' bs' Ls' [] ∧ Tracks bs' (forget held p) := by
  rcases arg with rfl | live
  · obtain rfl : s' = s := by simpa [free] using run.symm
    have absent : 0 ∉ held.map Prod.fst := fun member => ((tracks.payloads 0).mp member).pos rfl
    rw [forget_of_not_mem absent]
    exact ⟨rfl, bs, Ls, inv, tracks⟩
  obtain ⟨b, member, used, rfl⟩ := (tracks.payloads _).mp live
  obtain ⟨pre, post, rfl, -⟩ := inv.layout.split_at member
  have inv0 : HeapInv s (pre ++ [b] ++ post) Ls [] := by simpa using inv
  rcases inv0.free_spec used with ⟨-, -, fault⟩ |
      ⟨s'', size, rest, Ls', run', -, inv', keeps, shape⟩
  · simp [run] at fault
  obtain rfl : s' = s'' := by simpa [run] using run'
  /- The blocks of the other held payloads lie around the freed one. -/
  have sides : ∀ x ∈ forget held (b.addr + 8), Holds (pre ++ post) x := by
    intro x member
    obtain ⟨member, other⟩ := List.mem_filter.mp member
    obtain ⟨c, cMem, used, addr, room⟩ := tracks.holds x member
    refine ⟨c, ?_, used, addr, room⟩
    rcases List.mem_append.mp cMem with side | middle
    · exact List.mem_append_left _ side
    rcases List.mem_cons.mp middle with rfl | side
    · simp [addr] at other
    · exact List.mem_append_right _ side
  refine ⟨keeps.view_eq sides, _, Ls', inv',
    ⟨(tracks.nodup.sublist ((List.filter_sublist _).map _)), fun q => ?_,
    fun x member => (sides x member).mono fun c cMem cUsed => ?_⟩⟩
  · rw [tracks.mem_forget, payloads_after_free inv0 shape,
      show pre ++ [b] ++ post = pre ++ b :: post by simp]
  · rcases shape with rfl | ⟨d, free, rfl⟩
    · simp only [List.mem_append] at cMem ⊢
      tauto
    · have : c ≠ d := fun same => by simp [same, free] at cUsed
      simp only [List.mem_append, List.mem_cons] at cMem ⊢
      tauto

/-- `free` from any client state. -/
theorem ClientInv.free {c : Client} {p : Nat} (inv : ClientInv c)
    (arg : p = 0 ∨ p ∈ c.held.map Prod.fst)
    (run : SegMalloc.free p c.heap = .ok ((), s')) :
    ClientInv ⟨s', forget c.held p⟩ ∧
      view s'.mem (forget c.held p) = view c.heap.mem (forget c.held p) := by
  rcases inv with ⟨fresh, none⟩ | ⟨bs, Ls, inv, tracks⟩
  · rw [none] at arg ⊢
    obtain rfl : p = 0 := by simpa using arg
    obtain rfl : s' = c.heap := by simpa [SegMalloc.free] using run.symm
    exact ⟨Or.inl ⟨fresh, rfl⟩, rfl⟩
  · obtain ⟨same, bs', Ls', inv', tracks'⟩ := inv.free_client tracks arg run
    exact ⟨Or.inr ⟨bs', Ls', inv', tracks'⟩, same⟩

/-! ## A store by the client -/

/-- A store of a word into the bytes a held payload asked for keeps the
invariant, and changes exactly the eight bytes it covers. -/
theorem ClientInv.store {c : Client} {p m k w : Nat} (inv : ClientInv c)
    (member : (p, m) ∈ c.held) (low : 8 * k < m)
    (run : SegMalloc.store (p + 8 * k) w c.heap = .ok ((), s')) :
    ClientInv ⟨s', c.held⟩ ∧ view s'.mem c.held = Regions.store c.view p k w := by
  rcases inv with ⟨-, none⟩ | ⟨bs, Ls, inv, tracks⟩
  · simp [none] at member
  obtain ⟨-, rfl⟩ := store_inv run
  have target := (tracks.holds _ member).inPayload (a := 8 * k) low
  refine ⟨Or.inr ⟨bs, Ls,
    inv.payload_frame ⟨rfl, rfl, rfl, rfl, rfl⟩ rfl fun a differ => ?_, tracks⟩, ?_⟩
  · rw [Heap.write_mem] at differ
    split_ifs at differ with here
    · exact here ▸ target
    · exact absurd rfl differ
  rw [Client.view, view, view, Regions.store, List.map_map]
  refine List.map_congr_left fun x xMem => ?_
  by_cases here : x.1 = p
  · simp only [Function.comp, here, if_true, bytesAt_write]
  · simp only [Function.comp, here, if_false]
    congr 1
    refine bytesAt_congr fun j below => ?_
    have := (tracks.holds x xMem).apart inv (tracks.holds _ member) here
    rw [Heap.write_mem, if_neg (by simp only at this; omega)]

end SegMalloc
