import SegMalloc.Client

/-!
# The heap refines the abstract allocator

`realloc` and `calloc` are built from `malloc`, `mem_memcpy`, `mem_memset`
and `free`.  With the lemmas of `Client`, each call of a client keeps the
client invariant and changes what the client reads as the abstract allocator
of `Regions` may (`ClientInv.step`).  So every reachable client state
satisfies the invariant, and reads regions that the abstract allocator
reaches by the same calls with the same results (`Client.Reachable.refines`),
and from a reachable state every run of calls is a run of the abstract
allocator with the same results (`Client.Runs.trace_refines`).  So held
regions never meet, a call that returns NULL changes nothing, `realloc`
keeps the bytes both sizes cover, and the bytes of `calloc` read zero.
-/

namespace SegMalloc

variable {s s' : Heap}

/-! ## What `realloc` and `calloc` do -/

theorem pure_inv {α : Type} {a b : α} (run : (pure a : M α) s = .ok (b, s')) :
    b = a ∧ s' = s := by
  cases run
  exact ⟨rfl, rfl⟩

theorem getSize_inv {a w : Nat} (run : getSize a s = .ok (w, s')) :
    w = extractSize (s.mem a) ∧ s' = s := by
  obtain ⟨_, t, read, back⟩ := bind_ok_iff.mp run
  obtain ⟨-, rfl, rfl⟩ := load_inv read
  exact pure_inv back

theorem getPayloadSize_inv {a w : Nat} (run : getPayloadSize a s = .ok (w, s')) :
    w = wrapSub (extractSize (s.mem a)) wsize ∧ s' = s := by
  obtain ⟨_, t, read, back⟩ := bind_ok_iff.mp run
  obtain ⟨rfl, rfl⟩ := getSize_inv read
  exact pure_inv back

/-- A run of `realloc` that does not fault: a `free` for size 0, a `malloc`
for NULL, a refusal of `malloc`, or a new payload, a copy of as many bytes
as the old payload and the new size both have, and the `free` of the old
payload. -/
theorem realloc_inv {p n q : Nat} (run : realloc p n s = .ok (q, s')) :
    n = 0 ∧ q = 0 ∧ free p s = .ok ((), s') ∨
      0 < n ∧ p = 0 ∧ malloc n s = .ok (q, s') ∨
      0 < n ∧ p ≠ 0 ∧ q = 0 ∧ malloc n s = .ok (0, s') ∨
      0 < n ∧ p ≠ 0 ∧ q ≠ 0 ∧ ∃ s1 size s2, malloc n s = .ok (q, s1) ∧
        size = wrapSub (extractSize (s1.mem (payloadToHeader p))) wsize ∧
        memcpy q p (if n < size then n else size) s1 = .ok ((), s2) ∧
        free p s2 = .ok ((), s') := by
  simp only [realloc, pure_bind] at run
  split_ifs at run with zero null
  · obtain ⟨_, t, freed, back⟩ := bind_ok_iff.mp run
    obtain ⟨rfl, rfl⟩ := pure_inv back
    exact .inl ⟨zero, rfl, freed⟩
  · exact .inr (.inl ⟨by omega, null, run⟩)
  obtain ⟨q', s1, allocated, rest⟩ := bind_ok_iff.mp run
  split_ifs at rest with fail
  · obtain ⟨rfl, rfl⟩ := pure_inv rest
    exact .inr (.inr (.inl ⟨by omega, null, rfl, fail ▸ allocated⟩))
  obtain ⟨size, t, sized, copy⟩ := bind_ok_iff.mp rest
  obtain ⟨payload, rfl⟩ := getPayloadSize_inv sized
  obtain ⟨_, s2, copied, release⟩ := bind_ok_iff.mp copy
  obtain ⟨_, s3, freed, back⟩ := bind_ok_iff.mp release
  obtain ⟨rfl, rfl⟩ := pure_inv back
  exact .inr (.inr (.inr ⟨by omega, null, fail, t, size, s2, allocated, payload, copied,
    freed⟩))

/-- A run of `calloc` that does not fault: a refusal of a zero count or of a
product beyond `size_t`, a refusal of `malloc`, or a payload of `malloc`
filled with zero bytes. -/
theorem calloc_inv {k n p : Nat} (run : calloc k n s = .ok (p, s')) :
    p = 0 ∧ s' = s ∧ (k = 0 ∨ 2 ^ 64 ≤ k * n) ∨
      0 < k ∧ k * n < 2 ^ 64 ∧ (p = 0 ∧ malloc (k * n) s = .ok (0, s') ∨
        p ≠ 0 ∧ ∃ s1, malloc (k * n) s = .ok (p, s1) ∧
          memsetZero p (k * n) s1 = .ok ((), s')) := by
  simp only [calloc, pure_bind] at run
  split_ifs at run with zero over
  · obtain ⟨rfl, rfl⟩ := pure_inv run
    exact .inl ⟨rfl, rfl, .inl zero⟩
  · obtain ⟨rfl, rfl⟩ := pure_inv run
    exact .inl ⟨rfl, rfl, .inr ((wrap_mul_div_ne_iff (Nat.pos_of_ne_zero zero)).mp over)⟩
  have fits : k * n < 2 ^ 64 := by
    by_contra big
    exact over ((wrap_mul_div_ne_iff (Nat.pos_of_ne_zero zero)).mpr (by omega))
  rw [show wrap (k * n) = k * n from Nat.mod_eq_of_lt fits] at run
  obtain ⟨q, s1, allocated, rest⟩ := bind_ok_iff.mp run
  split_ifs at rest with fail
  · obtain ⟨rfl, rfl⟩ := pure_inv rest
    exact .inr ⟨Nat.pos_of_ne_zero zero, fits, .inl ⟨rfl, fail ▸ allocated⟩⟩
  obtain ⟨_, s2, filled, back⟩ := bind_ok_iff.mp rest
  obtain ⟨rfl, rfl⟩ := pure_inv back
  exact .inr ⟨Nat.pos_of_ne_zero zero, fits, .inr ⟨fail, s1, allocated, filled⟩⟩

/-! ## Each call, against the abstract allocator -/

variable {c : Client}

theorem ClientInv.malloc_step {n p : Nat} (inv : ClientInv c) (small : n + 23 < 2 ^ 64)
    (run : SegMalloc.malloc n c.heap = .ok (p, s')) :
    ClientInv ⟨s', if p = 0 then c.held else (p, n) :: c.held⟩ ∧
      Regions.Step c.view (.malloc n) p
        (view s'.mem (if p = 0 then c.held else (p, n) :: c.held)) := by
  obtain ⟨same, ⟨rfl, inv'⟩ | ⟨nonzero, positive, fits⟩⟩ := inv.malloc run
  · rw [if_pos rfl, same]
    exact ⟨inv', .mallocNull⟩
  · obtain ⟨room, bs, Ls, inv', tracks⟩ := fits small
    rw [if_neg nonzero, view_cons, same]
    exact ⟨Or.inr ⟨bs, Ls, inv', tracks⟩, .malloc positive room (length_bytesAt _ _ _)⟩

theorem ClientInv.free_step {p : Nat} (inv : ClientInv c)
    (arg : p = 0 ∨ p ∈ c.held.map Prod.fst) (run : SegMalloc.free p c.heap = .ok ((), s')) :
    ClientInv ⟨s', forget c.held p⟩ ∧ Regions.Step c.view (.free p) 0
      (view s'.mem (forget c.held p)) := by
  obtain ⟨inv', same⟩ := inv.free arg run
  refine ⟨inv', ?_⟩
  rw [same]
  rcases arg with rfl | member
  · rw [forget_of_not_mem inv.null_not_held]
    exact .freeNull
  · obtain ⟨x, xMem, rfl⟩ := List.mem_map.mp member
    rw [view_forget]
    exact .free (r := ⟨x.1, bytesAt c.heap.mem x.1 x.2⟩) (List.mem_map_of_mem _ xMem)

theorem ClientInv.store_step {p m k w : Nat} (inv : ClientInv c) (member : (p, m) ∈ c.held)
    (low : 8 * k < m) (run : SegMalloc.store (p + 8 * k) w c.heap = .ok ((), s')) :
    ClientInv ⟨s', c.held⟩ ∧ Regions.Step c.view (.store p k w) 0 (view s'.mem c.held) := by
  obtain ⟨inv', same⟩ := inv.store member low run
  rw [same]
  exact ⟨inv', .store (r := ⟨p, bytesAt c.heap.mem p m⟩) (List.mem_map_of_mem _ member)
    (by simpa using low)⟩

/-- `realloc` of a held payload to a new block: the old payload's bytes, as
many as both sizes cover, are copied, the old payload is freed, and no other
held byte changes. -/
theorem ClientInv.realloc_moved {x : Nat × Nat} {n q size : Nat} {s1 s2 : Heap}
    (inv : ClientInv c) (xMem : x ∈ c.held) (small : n + 23 < 2 ^ 64) (nonzero : q ≠ 0)
    (allocated : SegMalloc.malloc n c.heap = .ok (q, s1))
    (payload : size = wrapSub (extractSize (s1.mem (payloadToHeader x.1))) wsize)
    (copied : memcpy q x.1 (if n < size then n else size) s1 = .ok ((), s2))
    (freed : SegMalloc.free x.1 s2 = .ok ((), s')) :
    ClientInv ⟨s', (q, n) :: forget c.held x.1⟩ ∧
      Regions.Step c.view (.realloc x.1 n) q (view s'.mem ((q, n) :: forget c.held x.1)) := by
  obtain ⟨same1, ⟨zero, -⟩ | ⟨-, positive, fits⟩⟩ := inv.malloc allocated
  · exact absurd zero nonzero
  obtain ⟨room, bs, Ls, inv1, tracks1⟩ := fits small
  have holdsQ : Holds bs (q, n) := tracks1.holds _ (List.mem_cons_self _ _)
  have absent : q ∉ c.held.map Prod.fst := (List.nodup_cons.mp tracks1.nodup).1
  have fresh : x.1 ≠ q := fun same => absent (by rw [← same]; exact List.mem_map_of_mem _ xMem)
  /- The old block `b` and the new block `d`. -/
  obtain ⟨b, bMem, -, bAddr, bRoom⟩ := tracks1.holds _ (List.mem_cons_of_mem _ xMem)
  obtain ⟨d, dMem, -, dAddr, dRoom⟩ := tracks1.holds _ (List.mem_cons_self _ _)
  have blocks := inv1.layout.disjoint b bMem d dMem (by omega)
  have header : payloadToHeader x.1 = b.addr := by simp [payloadToHeader, bAddr, wsize]
  rw [header, (inv1.header bMem).1,
    wrapSub_eq (by have := (inv1.bounds bMem).2.2.1; simp only [wsize]; omega) (inv1.small bMem)]
    at payload
  have copySize : (if n < size then n else size) ≤ n ∧
      (if n < size then n else size) + 8 ≤ b.size ∧
      min n x.2 ≤ (if n < size then n else size) := by
    simp only [wsize] at payload
    split_ifs <;> omega
  obtain ⟨⟨mem2, rfl⟩, bytes2, frame2⟩ := memcpy_inv (by omega) copied
  have inside : ∀ a, mem2 a ≠ s1.mem a → q ≤ a ∧ a < q + n := fun a differ => by
    have := frame2 a differ
    omega
  have others : ∀ y ∈ forget c.held x.1, Holds bs y ∧ y.1 ≠ q := fun y member =>
    have yMem := (List.mem_filter.mp member).1
    ⟨tracks1.holds y (List.mem_cons_of_mem _ yMem),
      fun same => absent (by rw [← same]; exact List.mem_map_of_mem _ yMem)⟩
  obtain ⟨kept, bs3, Ls3, inv3, tracks3⟩ :=
    (inv1.frame_inside holdsQ inside).free_client tracks1
      (.inr (List.mem_cons_of_mem _ (List.mem_map_of_mem _ xMem))) freed
  have shape : forget ((q, n) :: c.held) x.1 = (q, n) :: forget c.held x.1 := by
    simp [forget, Ne.symm fresh]
  rw [shape] at kept tracks3
  refine ⟨Or.inr ⟨bs3, Ls3, inv3, tracks3⟩, ?_⟩
  rw [kept, view_cons, view_apart inv1 others holdsQ inside, view_forget, same1]
  refine .realloc (r := ⟨x.1, bytesAt c.heap.mem x.1 x.2⟩) (List.mem_map_of_mem _ xMem) positive
    (room.drop _) (length_bytesAt _ _ _) ?_
  /- The bytes both sizes cover are copied from the old payload, which
  `malloc` left as it was. -/
  simp only [length_bytesAt, take_bytesAt]
  show bytesAt mem2 q (min x.2 n) = bytesAt c.heap.mem x.1 (min n x.2)
  rw [Nat.min_comm, bytesAt, bytesAt]
  refine List.map_congr_left fun j member => ?_
  have low := List.mem_range.mp member
  rw [bytes2 j (by omega)]
  exact byteAt_of_bytesAt (bytesAt_of_view same1 xMem) (by omega)

theorem ClientInv.realloc_step {p n q : Nat} (inv : ClientInv c)
    (arg : p = 0 ∨ p ∈ c.held.map Prod.fst) (small : n + 23 < 2 ^ 64)
    (run : SegMalloc.realloc p n c.heap = .ok (q, s')) :
    ClientInv ⟨s', afterRealloc c.held p n q⟩ ∧
      Regions.Step c.view (.realloc p n) q (view s'.mem (afterRealloc c.held p n q)) := by
  rcases realloc_inv run with ⟨rfl, rfl, freed⟩ | ⟨positive, rfl, allocated⟩ |
      ⟨positive, nonnull, rfl, allocated⟩ |
      ⟨positive, nonnull, nonzero, s1, size, s2, allocated, payload, copied, freed⟩
  · obtain ⟨inv', step⟩ := inv.free_step arg freed
    exact ⟨inv', .reallocZero step⟩
  · obtain ⟨inv', step⟩ := inv.malloc_step small allocated
    have held : afterRealloc c.held 0 n q = if q = 0 then c.held else (q, n) :: c.held := by
      rw [afterRealloc, forget_of_not_mem inv.null_not_held, if_neg positive.ne']
    rw [held]
    exact ⟨inv', .reallocNull positive step⟩
  · obtain ⟨x, xMem, rfl⟩ := List.mem_map.mp (arg.resolve_left nonnull)
    obtain ⟨same, ⟨-, inv'⟩ | ⟨fail, -⟩⟩ := inv.malloc allocated
    · rw [afterRealloc, if_pos rfl, if_neg positive.ne', same]
      exact ⟨inv', .reallocFail (r := ⟨x.1, bytesAt c.heap.mem x.1 x.2⟩)
        (List.mem_map_of_mem _ xMem) positive⟩
    · exact absurd rfl fail
  · obtain ⟨x, xMem, rfl⟩ := List.mem_map.mp (arg.resolve_left nonnull)
    rw [afterRealloc, if_neg nonzero]
    exact inv.realloc_moved xMem small nonzero allocated payload copied freed

/-- `calloc`: a refusal changes no held byte; a payload handed out has zero
bytes, as many as the product, apart from every held payload. -/
theorem ClientInv.calloc_step {k n p : Nat} (inv : ClientInv c)
    (run : SegMalloc.calloc k n c.heap = .ok (p, s')) :
    ClientInv ⟨s', if p = 0 then c.held else (p, k * n) :: c.held⟩ ∧
      Regions.Step c.view (.calloc k n) p
        (view s'.mem (if p = 0 then c.held else (p, k * n) :: c.held)) := by
  rcases calloc_inv run with ⟨rfl, rfl, -⟩ |
      ⟨-, fits, ⟨rfl, allocated⟩ | ⟨nonzero, s1, allocated, filled⟩⟩
  · rw [if_pos rfl]
    exact ⟨inv, .callocNull⟩
  · obtain ⟨same, ⟨-, inv'⟩ | ⟨fail, -⟩⟩ := inv.malloc allocated
    · rw [if_pos rfl, same]
      exact ⟨inv', .callocNull⟩
    · exact absurd rfl fail
  obtain ⟨same1, ⟨zero, -⟩ | ⟨-, positive, fits1⟩⟩ := inv.malloc allocated
  · exact absurd zero nonzero
  /- `memset` completes only if `malloc` did not wrap the size. -/
  have small : k * n + 23 < 2 ^ 64 := by
    by_contra big
    obtain ⟨-, size, aligned, lo, low, -, top, brkMod⟩ :=
      inv.sessionInv.malloc_block allocated nonzero
    have loPos := inv.sessionInv.lo_pos
    rw [asize_wraps (by omega) fits] at size
    have := (memsetZero_inv filled).1 positive
    omega
  obtain ⟨room, bs, Ls, inv1, tracks1⟩ := fits1 small
  have holds : Holds bs (p, k * n) := tracks1.holds _ (List.mem_cons_self _ _)
  have absent : p ∉ c.held.map Prod.fst := (List.nodup_cons.mp tracks1.nodup).1
  have others : ∀ y ∈ c.held, Holds bs y ∧ y.1 ≠ p := fun y member =>
    ⟨tracks1.holds y (List.mem_cons_of_mem _ member),
      fun same => absent (by rw [← same]; exact List.mem_map_of_mem _ member)⟩
  obtain ⟨mem', rfl⟩ := memsetZero_withMem filled
  obtain ⟨-, -, -, zero, inside⟩ := memsetZero_inv filled
  rw [if_neg nonzero, view_cons, view_apart inv1 others holds inside, same1]
  refine ⟨Or.inr ⟨bs, Ls, inv1.frame_inside holds inside, tracks1⟩, ?_⟩
  rw [show bytesAt mem' p (k * n) = List.replicate (k * n) 0 from zero.bytesAt_eq]
  exact .calloc positive room

/-- One call of a client keeps the client invariant and changes what the
client reads as the abstract allocator may, with the same result. -/
theorem ClientInv.step {c' : Client} {op : Op} {x : Nat} (inv : ClientInv c)
    (step : Client.Step c op x c') :
    ClientInv c' ∧ Regions.Step c.view op x c'.view := by
  cases step with
  | malloc small run => exact inv.malloc_step small run
  | free arg run => exact inv.free_step arg run
  | realloc arg small run => exact inv.realloc_step arg small run
  | calloc _ _ run => exact inv.calloc_step run
  | store member low run => exact inv.store_step member low run

/-! ## Whole runs -/

theorem ClientInv.init {ok : Bool} (fresh : Fresh s) (run : mmInit s = .ok (ok, s')) :
    ClientInv ⟨s', []⟩ := by
  rcases sessionInv_init fresh run with ⟨fresh', -⟩ | ⟨bs, Ls, inv, -, payloads⟩
  · exact .inl ⟨fresh', rfl⟩
  · exact .inr ⟨bs, Ls, inv, List.nodup_nil, payloads, by simp⟩

/-- Every reachable client state satisfies the client invariant, and reads
regions that the abstract allocator reaches. -/
theorem Client.Reachable.simulated (reach : Client.Reachable c) :
    ClientInv c ∧ Regions.Reachable c.view := by
  induction reach with
  | fresh fresh => exact ⟨.inl ⟨fresh, rfl⟩, .nil⟩
  | init fresh run => exact ⟨.init fresh run, .nil⟩
  | step _ step ih =>
    have next := ih.1.step step
    exact ⟨next.1, .step ih.2 next.2⟩

/-- The heap implementation refines the abstract allocator: each call of a
reachable client changes what the client reads as the abstract allocator
may, with the same result. -/
theorem Client.Reachable.step_refines {c' : Client} {op : Op} {x : Nat} (reach : Client.Reachable c)
    (step : Client.Step c op x c') : Regions.Step c.view op x c'.view :=
  (reach.simulated.1.step step).2

/-- After `mm_init` and `malloc(8)`, a store into the payload is a store into
the abstract region. -/
theorem step_refines_store :
    ∃ c s',
      Client.start (Heap.initial (fun _ => 0) (fun _ => false)) true [.malloc 8] = some c ∧
      SegMalloc.store (4112 + 8 * 0) 7 c.heap = .ok ((), s') ∧
      Regions.Step c.view (.store 4112 0 7) 0 (Client.view ⟨s', c.held⟩) :=
  ⟨_, _, Client.start_eq_after (by decide), eq_ok_of_faultOf (by decide),
    Client.Reachable.step_refines (Client.after_reachable (by decide))
      (.store (p := 4112) (m := 8) (k := 0) (w := 7) (by decide) (by decide)
        (eq_ok_of_faultOf (by decide)))⟩

/-- The bytes the held payloads of a reachable client asked for never meet. -/
theorem Client.Reachable.held_apart (reach : Client.Reachable c) :
    c.held.Pairwise fun x y => x.1 + x.2 ≤ y.1 ∨ y.1 + y.2 ≤ x.1 := by
  have apart := reach.simulated.2.wf.apart
  simpa [Client.view, SegMalloc.view, List.pairwise_map, Region.Apart] using apart

/-- After `mm_init` and two `malloc(8)`, the two payloads' bytes are apart. -/
theorem held_apart_two_mallocs :
    (Client.after (fun _ => 0) (fun _ => false) true [.malloc 8, .malloc 8]).held.Pairwise
      fun x y => x.1 + x.2 ≤ y.1 ∨ y.1 + y.2 ≤ x.1 :=
  Client.Reachable.held_apart (Client.after_reachable (by decide))

/-- Trace inclusion: from a reachable state, every run of a client's calls is
a run of the abstract allocator on what the client reads, through the same
calls with the same results. -/
theorem Client.Runs.trace_refines {c' : Client} {ops : List Op} {xs : List Nat}
    (runs : Client.Runs c ops xs c') (reach : Client.Reachable c) :
    Regions.Runs c.view ops xs c'.view := by
  induction runs with
  | nil => exact .nil
  | cons step _ ih => exact .cons (reach.simulated.1.step step).2 (ih (reach.step step))

/-- After `mm_init`, two `malloc(8)` return their payloads, and the abstract
allocator returns the same. -/
theorem trace_refines_two_mallocs :
    ∃ c xs c', Client.start (Heap.initial (fun _ => 0) (fun _ => false)) true [] = some c ∧
      Client.Runs c [.malloc 8, .malloc 8] xs c' ∧
      Regions.Runs c.view [.malloc 8, .malloc 8] xs c'.view := by
  have reach : Client.Reachable (Client.after (fun _ => 0) (fun _ => false) true []) :=
    Client.after_reachable (by decide)
  have first := eq_ok_of_faultOf
    (r := SegMalloc.malloc 8 (Client.after (fun _ => 0) (fun _ => false) true []).heap) (by decide)
  have second := eq_ok_of_faultOf (r := SegMalloc.malloc 8
    (resultOf (SegMalloc.malloc 8 (Client.after (fun _ => 0) (fun _ => false) true []).heap)).2)
    (by decide)
  have runs : Client.Runs (Client.after (fun _ => 0) (fun _ => false) true [])
      [.malloc 8, .malloc 8] _ _ :=
    .cons (.malloc (by decide) first) (.cons (.malloc (by decide) second) .nil)
  exact ⟨_, _, _, Client.start_eq_after (by decide), runs, Client.Runs.trace_refines runs reach⟩

end SegMalloc
