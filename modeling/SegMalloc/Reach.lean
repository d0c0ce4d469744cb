import SegMalloc.Startup

/-!
# The invariant of every reachable session

A reachable session has an uninitialised heap with nothing handed out, or an
initialised heap satisfying `HeapInv` with no hole, whose allocated blocks
are exactly the live payloads.  Each call keeps this, so every reachable
session has it.
-/

namespace SegMalloc

/-- The invariant of a session. -/
def SessionInv (σ : Session) : Prop :=
  (Fresh σ.heap ∧ σ.live = []) ∨
    ∃ bs Ls, HeapInv σ.heap bs Ls [] ∧ σ.live.Nodup ∧ ∀ p, p ∈ σ.live ↔ Payloads bs p

theorem Payloads.pos {bs : List Blk} {p : Nat} (payload : Payloads bs p) : p ≠ 0 := by
  obtain ⟨b, -, -, rfl⟩ := payload
  omega

variable {s s' : Heap}

/-- After `free` of an allocated block, the payloads are the old ones
without it. -/
theorem payloads_after_free {pre post rest : List Blk} {b : Blk} {size : Nat}
    {Ls : Nat → List Nat} (inv : HeapInv s (pre ++ [b] ++ post) Ls [])
    (shape : rest = post ∨ ∃ c, c.alloc = false ∧ post = c :: rest)
    (q : Nat) :
    Payloads (pre ++ [⟨b.addr, size, false⟩] ++ rest) q ↔ q ≠ b.addr + 8 ∧
      Payloads (pre ++ [b] ++ post) q := by
  have tail : Payloads post q ↔ Payloads rest q := by
    rcases shape with rfl | ⟨c, free, rfl⟩
    · rfl
    · rw [payloads_cons, or_iff_right (by simp [free])]
  have apart : ∀ c ∈ pre ++ post, c.addr + 8 ≠ b.addr + 8 := fun c side same =>
    inv.layout.addr_ne_of_mid side (List.mem_singleton_self b) (by omega)
  simp only [payloads_append, tail,
    payloads_free (rfl : (⟨b.addr, size, false⟩ : Blk).alloc = false), or_false]
  constructor
  · rintro (⟨c, member, used, rfl⟩ | ⟨c, member, used, rfl⟩)
    · exact ⟨apart c (by simp [member]), .inl (.inl ⟨c, member, used, rfl⟩)⟩
    · have post : c ∈ post := by rcases shape with rfl | ⟨d, -, rfl⟩ <;> simp [member]
      exact ⟨apart c (by simp [post]), .inr ⟨c, member, used, rfl⟩⟩
  · rintro ⟨other, (pre | ⟨c, member, used, rfl⟩) | rest⟩
    · exact .inl pre
    · simp at member; subst member; exact absurd rfl other
    · exact .inr rest

/-- `malloc` on an initialised heap whose allocated blocks are the live
payloads keeps the session invariant. -/
theorem sessionInv_malloc_started {bs : List Blk} {Ls : Nat → List Nat} {live : List Nat}
    {n p : Nat} (inv : HeapInv s bs Ls []) (nodup : live.Nodup)
    (payloads : ∀ q, q ∈ live ↔ Payloads bs q)
    (run : malloc n s = .ok (p, s')) : SessionInv ⟨s', if p = 0 then live else p :: live⟩ := by
  obtain ⟨p', s'', bs', Ls', run', -, -, inv', -, -, result⟩ := inv.malloc_spec n
  obtain ⟨rfl, rfl⟩ : p = p' ∧ s' = s'' := by simpa [run] using run'
  refine .inr ⟨bs', Ls', inv', ?_⟩
  rcases result with ⟨rfl, same⟩ | ⟨nonzero, -, fresh, added⟩
  · exact ⟨nodup, fun q => (payloads q).trans (same q).symm⟩
  · rw [if_neg nonzero]
    exact ⟨List.nodup_cons.mpr ⟨fun live => fresh ((payloads p).mp live), nodup⟩, fun q => by
      rw [List.mem_cons, added, payloads]⟩

/-- `mm_init` from a fresh state. -/
theorem sessionInv_init {ok : Bool} (fresh : Fresh s) (run : mmInit s = .ok (ok, s')) :
    SessionInv ⟨s', []⟩ := by
  obtain ⟨ok', s'', run', -, -, after⟩ := mmInit_spec fresh
  obtain ⟨-, rfl⟩ : ok = ok' ∧ s' = s'' := by simpa [run] using run'
  rcases after with fresh' | ⟨bs, Ls, inv, none⟩
  · exact .inl ⟨fresh', rfl⟩
  · exact .inr ⟨bs, Ls, inv, List.nodup_nil, fun q =>
      iff_of_false (List.not_mem_nil _) (none q)⟩

namespace SessionInv

variable {σ : Session}

/-- One `malloc` keeps the session invariant. -/
theorem malloc {n p : Nat} (inv : SessionInv σ) (run : SegMalloc.malloc n σ.heap = .ok (p, s')) :
    SessionInv ⟨s', if p = 0 then σ.live else p :: σ.live⟩ := by
  rcases inv with ⟨fresh, live⟩ | ⟨bs, Ls, inv, nodup, payloads⟩
  · rw [live]
    rcases malloc_fresh fresh n with ⟨s'', run', fresh', -⟩ | fault |
        ⟨s1, bs, Ls, same, -, -, inv1, none⟩
    · obtain ⟨rfl, rfl⟩ : p = 0 ∧ s' = s'' := by simpa [run] using run'
      exact .inl ⟨fresh', by simp⟩
    · simp [run] at fault
    · exact sessionInv_malloc_started inv1 List.nodup_nil
        (fun q => iff_of_false (List.not_mem_nil _) (none q)) (same ▸ run)
  · exact sessionInv_malloc_started inv nodup payloads run

/-- One `free` of NULL or of a live payload keeps the session invariant. -/
theorem free {p : Nat} (inv : SessionInv σ) (arg : p = 0 ∨ p ∈ σ.live)
    (run : SegMalloc.free p σ.heap = .ok ((), s')) : SessionInv ⟨s', σ.live.erase p⟩ := by
  have null : ∀ {t : Heap}, SegMalloc.free 0 t = .ok ((), t) := by
    intro t
    simp [SegMalloc.free]
  rcases inv with ⟨fresh, live⟩ | ⟨bs, Ls, inv, nodup, payloads⟩
  · rw [live] at arg ⊢
    obtain rfl : p = 0 := by simpa using arg
    obtain rfl : s' = σ.heap := by simpa [null] using run.symm
    exact .inl ⟨fresh, rfl⟩
  rcases arg with rfl | live
  · obtain rfl : s' = σ.heap := by simpa [null] using run.symm
    rw [List.erase_of_not_mem fun live => ((payloads 0).mp live).pos rfl]
    exact .inr ⟨bs, Ls, inv, nodup, payloads⟩
  obtain ⟨b, member, used, rfl⟩ := (payloads _).mp live
  obtain ⟨pre, post, rfl, -⟩ := inv.layout.split_at member
  have inv0 : HeapInv σ.heap (pre ++ [b] ++ post) Ls [] := by simpa using inv
  rcases inv0.free_spec used with ⟨-, -, fault⟩ |
      ⟨s'', size, rest, Ls', run', -, inv', -, shape⟩
  · simp [run] at fault
  obtain rfl : s' = s'' := by simpa [run] using run'
  refine .inr ⟨_, Ls', inv', nodup.erase _, fun q => ?_⟩
  rw [nodup.mem_erase_iff, payloads_after_free inv0 shape, payloads,
      show pre ++ b :: post = pre ++ [b] ++ post by
    simp]

end SessionInv

/-- Every reachable session satisfies the session invariant. -/
theorem Reachable.sessionInv {σ : Session} (reach : Reachable σ) : SessionInv σ := by
  induction reach with
  | fresh fresh => exact .inl ⟨fresh, rfl⟩
  | init fresh run => exact sessionInv_init fresh run
  | malloc _ _ run ih => exact ih.malloc run
  | free _ arg run ih => exact ih.free arg run

end SegMalloc
