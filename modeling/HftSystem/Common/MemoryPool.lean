import Mathlib.Data.Nat.Defs
import Mathlib.Data.List.Nodup
import Mathlib.Logic.Relation

/-!
# The slab object pool

`MemoryPool<T, PoolSize>` of `memory_pool.h` on one thread.  A pointer into the
slab is the index of its slot; `storage` holds the object constructed in a slot
(`none` once it is destroyed, or before it is first built).  On one thread the
`compare_exchange_weak` loop of `allocate` ends in its first successful
exchange, a spurious failure only rereading the same count, so `allocate` is
one step.  `allocate` takes a constructor of `T` that returns; with one that
throws (`allocateOrThrow`) the count and the `allocated_` flag the call has
already moved stay moved, and the slot is lost with its flag set over raw
storage (`throwing_constructor_leaks_slot`).
-/

set_option autoImplicit false

namespace Hft.Pool

/-- The members of `MemoryPool<T, PoolSize>`: the slab, the `allocated_` flags,
`free_count_` and the free-index stack `free_list_`. -/
structure MemoryPool (T : Type) (poolSize : Nat) where
  storage : Nat → Option T
  allocated : Nat → Bool
  freeCount : Nat
  freeList : Nat → Nat

variable {T : Type} {poolSize : Nat}

/-- The constructor: every slot free, the stack holding `0 .. PoolSize - 1`. -/
def MemoryPool.init : MemoryPool T poolSize :=
  ⟨fun _ => none, fun _ => false, poolSize, fun i => i⟩

/-- `allocate(args...)`: pop the top of the free stack, flag the slot, and
construct `obj` in it; `nullptr` when the pool is exhausted. -/
def MemoryPool.allocate (p : MemoryPool T poolSize) (obj : T) : Option Nat × MemoryPool T poolSize :=
  if p.freeCount = 0 then (none, p)
  else
    let idx := p.freeList (p.freeCount - 1)
    (some idx,
      { storage := fun i => if i = idx then some obj else p.storage i
        allocated := fun i => if i = idx then true else p.allocated i
        freeCount := p.freeCount - 1
        freeList := p.freeList })

/-- `deallocate(ptr)`: destroy the object, clear its flag and push its slot. -/
def MemoryPool.deallocate (p : MemoryPool T poolSize) : Option Nat → MemoryPool T poolSize
  | none => p
  | some idx =>
      { storage := fun i => if i = idx then none else p.storage i
        allocated := fun i => if i = idx then false else p.allocated i
        freeCount := p.freeCount + 1
        freeList := fun i => if i = p.freeCount then idx else p.freeList i }

/-- `available()`. -/
def MemoryPool.available (p : MemoryPool T poolSize) : Nat := p.freeCount

def MemoryPool.destroyedSlots (p : MemoryPool T poolSize) : List Nat :=
  (List.range poolSize).filter p.allocated

/-- The free stack `free_list_[0, free_count_)`, bottom first. -/
def MemoryPool.freeSlots (p : MemoryPool T poolSize) : List Nat :=
  (List.range p.freeCount).map p.freeList

def MemoryPool.write (p : MemoryPool T poolSize) (idx : Nat) (obj : T) : MemoryPool T poolSize :=
  { p with storage := fun i => if i = idx then some obj else p.storage i }

@[simp] theorem MemoryPool.available_init : (MemoryPool.init : MemoryPool T poolSize).available = poolSize :=
  rfl

theorem MemoryPool.allocate_cases (p : MemoryPool T poolSize) (obj : T) :
    (p.freeCount = 0 ∧ p.allocate obj = (none, p)) ∨
      (0 < p.freeCount ∧ (p.allocate obj).1 = some (p.freeList (p.freeCount - 1)) ∧
        (p.allocate obj).2.freeCount = p.freeCount - 1 ∧
        (p.allocate obj).2.freeList = p.freeList ∧
        (p.allocate obj).2.storage =
          fun i => if i = p.freeList (p.freeCount - 1) then some obj else p.storage i) := by
  unfold MemoryPool.allocate
  by_cases empty : p.freeCount = 0
  · exact Or.inl ⟨empty, if_pos empty⟩
  · rw [if_neg empty]
    exact Or.inr ⟨Nat.pos_of_ne_zero empty, rfl, rfl, rfl, rfl⟩

@[simp] theorem MemoryPool.write_freeCount (p : MemoryPool T poolSize) (idx : Nat) (obj : T) :
    (p.write idx obj).freeCount = p.freeCount :=
  rfl

@[simp] theorem MemoryPool.write_storage (p : MemoryPool T poolSize) (idx i : Nat) (obj : T) :
    (p.write idx obj).storage i = if i = idx then some obj else p.storage i :=
  rfl

/-! ## The single mutator -/

/-- One call of the single mutator, with the slots of the live objects that
its caller holds: `allocate` adds the slot it returns, `deallocate` takes a
pointer to a live object, or `nullptr`. -/
inductive PoolStep : MemoryPool T poolSize × List Nat → MemoryPool T poolSize × List Nat → Prop
  | allocate (p : MemoryPool T poolSize) (live : List Nat) (obj : T) :
      PoolStep (p, live) ((p.allocate obj).2, (p.allocate obj).1.toList ++ live)
  | deallocate (p : MemoryPool T poolSize) (live : List Nat) (idx : Nat) (owned : idx ∈ live) :
      PoolStep (p, live) (p.deallocate (some idx), live.erase idx)
  | deallocateNull (p : MemoryPool T poolSize) (live : List Nat) :
      PoolStep (p, live) (p.deallocate none, live)

/-- The pool against the slots of the live objects: the free stack and the live
slots together list every slot below `PoolSize` once, and exactly the live
slots are flagged and hold an object. -/
structure PoolInv (p : MemoryPool T poolSize) (live : List Nat) : Prop where
  nodup : (p.freeSlots ++ live).Nodup
  slots : ∀ i, i ∈ p.freeSlots ++ live ↔ i < poolSize
  allocated : ∀ i, p.allocated i = true ↔ i ∈ live
  built : ∀ i, (p.storage i).isSome ↔ i ∈ live

theorem poolInv_init : PoolInv (MemoryPool.init : MemoryPool T poolSize) [] where
  nodup := by simpa [MemoryPool.freeSlots, MemoryPool.init] using List.nodup_range poolSize
  slots := by simp [MemoryPool.freeSlots, MemoryPool.init]
  allocated := by simp [MemoryPool.init]
  built := by simp [MemoryPool.init]

theorem freeSlots_allocate (p : MemoryPool T poolSize) (obj : T) {c : Nat} (count : p.freeCount = c + 1) :
    (p.allocate obj).2.freeSlots ++ [p.freeList c] = p.freeSlots := by
  simp [MemoryPool.allocate, MemoryPool.freeSlots, count, List.range_succ]

theorem freeSlots_deallocate (p : MemoryPool T poolSize) (idx : Nat) :
    (p.deallocate (some idx)).freeSlots = p.freeSlots ++ [idx] := by
  simp only [MemoryPool.deallocate, MemoryPool.freeSlots, List.range_succ, List.map_append, List.map_singleton,
    if_pos rfl]
  congr 1
  exact List.map_congr_left fun i mem => if_neg (Nat.ne_of_lt (List.mem_range.1 mem))

section Invariant

variable {p : MemoryPool T poolSize} {live : List Nat}

theorem PoolInv.live_nodup (inv : PoolInv p live) : live.Nodup :=
  inv.nodup.of_append_right

theorem PoolInv.available_add (inv : PoolInv p live) : p.available + live.length = poolSize := by
  have perm : List.Perm (p.freeSlots ++ live) (List.range poolSize) :=
    (List.perm_ext_iff_of_nodup inv.nodup (List.nodup_range poolSize)).2 fun i => by
      rw [inv.slots, List.mem_range]
  simpa [MemoryPool.freeSlots, MemoryPool.available] using perm.length_eq

theorem poolInv_allocate (inv : PoolInv p live) (obj : T) {idx : Nat} (handed : (p.allocate obj).1 = some idx) :
    idx ∉ live ∧ PoolInv (p.allocate obj).2 (idx :: live) := by
  rcases p.allocate_cases obj with ⟨-, refused⟩ | ⟨pos, returned, -, -, storage⟩
  · rw [refused] at handed
    cases handed
  obtain ⟨c, count⟩ : ∃ c, p.freeCount = c + 1 := ⟨p.freeCount - 1, by omega⟩
  rw [returned, count, Nat.add_sub_cancel] at handed
  cases handed
  have same : (p.allocate obj).2.freeSlots ++ p.freeList c :: live = p.freeSlots ++ live := by
    rw [← freeSlots_allocate p obj count, List.append_assoc, List.singleton_append]
  have free : p.freeList c ∈ p.freeSlots := by
    rw [← freeSlots_allocate p obj count]
    exact List.mem_append_right _ (List.mem_singleton_self _)
  have flagged : ∀ i, (p.allocate obj).2.allocated i = if i = p.freeList c then true else p.allocated i := by
    intro i
    simp [MemoryPool.allocate, count]
  refine ⟨List.disjoint_of_nodup_append inv.nodup free, same ▸ inv.nodup, fun i => same ▸ inv.slots i,
    fun i => ?_, fun i => ?_⟩
  · rw [flagged, List.mem_cons]
    split_ifs with at_idx <;> simp [at_idx, inv.allocated]
  · simp only [storage, count, Nat.add_sub_cancel, List.mem_cons]
    split_ifs with at_idx <;> simp [at_idx, inv.built]

theorem poolInv_deallocate (inv : PoolInv p live) {idx : Nat} (owned : idx ∈ live) :
    PoolInv (p.deallocate (some idx)) (live.erase idx) := by
  have perm : List.Perm ((p.deallocate (some idx)).freeSlots ++ live.erase idx) (p.freeSlots ++ live) := by
    rw [freeSlots_deallocate, List.append_assoc, List.singleton_append]
    exact (List.perm_cons_erase owned).symm.append_left _
  have erased : ∀ i, i ∈ live.erase idx ↔ i ≠ idx ∧ i ∈ live := fun i => inv.live_nodup.mem_erase_iff
  refine ⟨perm.nodup_iff.2 inv.nodup, fun i => perm.mem_iff.trans (inv.slots i), fun i => ?_, fun i => ?_⟩
  · simp only [MemoryPool.deallocate, erased]
    split_ifs with at_idx <;> simp [at_idx, inv.allocated]
  · simp only [MemoryPool.deallocate, erased]
    split_ifs with at_idx <;> simp [at_idx, inv.built]

theorem poolInv_step {s s' : MemoryPool T poolSize × List Nat} (step : PoolStep s s') (inv : PoolInv s.1 s.2) :
    PoolInv s'.1 s'.2 := by
  cases step with
  | allocate p live obj =>
      cases handed : (p.allocate obj).1 with
      | none =>
          rcases p.allocate_cases obj with ⟨-, refused⟩ | ⟨-, returned, -⟩
          · simpa [refused] using inv
          · rw [returned] at handed
            cases handed
      | some idx => simpa [handed] using (poolInv_allocate inv obj handed).2
  | deallocate p live idx owned => exact poolInv_deallocate inv owned
  | deallocateNull p live => exact inv

theorem poolInv_of_reach (run : Relation.ReflTransGen PoolStep (MemoryPool.init, []) (p, live)) : PoolInv p live := by
  have reach : ∀ s : MemoryPool T poolSize × List Nat,
      Relation.ReflTransGen PoolStep (MemoryPool.init, []) s → PoolInv s.1 s.2 := by
    intro s reach
    induction reach with
    | refl => exact poolInv_init
    | tail _ step ih => exact poolInv_step step ih
  exact reach _ run

end Invariant

/-- Along every sequence of `allocate` and `deallocate` calls on one thread,
each `deallocate` on a pointer to a live object: `allocate` returns `nullptr`
exactly when `available()` is 0 and never returns the slot of a live object,
`available()` is `PoolSize` minus the number of live objects, and `allocated_`
flags exactly the live slots, which are the ones `~MemoryPool` destroys. -/
theorem single_mutator_pool {p : MemoryPool T poolSize} {live : List Nat}
    (run : Relation.ReflTransGen PoolStep (MemoryPool.init, []) (p, live)) :
    p.available = poolSize - live.length ∧
      (∀ i, p.allocated i = true ↔ i ∈ live) ∧
      (∀ i, i ∈ p.destroyedSlots ↔ i ∈ live) ∧
      ∀ obj : T, ((p.allocate obj).1 = none ↔ p.available = 0) ∧
        ∀ idx, (p.allocate obj).1 = some idx → idx ∉ live := by
  have inv := poolInv_of_reach run
  refine ⟨by have := inv.available_add; omega, inv.allocated, fun i => ?_, fun obj => ⟨?_, fun idx handed =>
    (poolInv_allocate inv obj handed).1⟩⟩
  · have inside : i ∈ live → i < poolSize := fun mem => (inv.slots i).1 (List.mem_append_right _ mem)
    simp only [MemoryPool.destroyedSlots, List.mem_filter, List.mem_range, inv.allocated]
    exact ⟨fun h => h.2, fun mem => ⟨inside mem, mem⟩⟩
  · rcases p.allocate_cases obj with ⟨empty, refused⟩ | ⟨pos, returned, -⟩
    · simp [refused, MemoryPool.available, empty]
    · simp [returned, MemoryPool.available, Nat.pos_iff_ne_zero.1 pos]

/-- A two-slot pool after one `allocate`, which hands out slot 1: one slot is
left and the next `allocate` returns slot 0. -/
theorem pool_after_one_allocate :
    Relation.ReflTransGen PoolStep ((MemoryPool.init : MemoryPool Nat 2), [])
        (((MemoryPool.init : MemoryPool Nat 2).allocate 7).2, [1]) ∧
      ((MemoryPool.init : MemoryPool Nat 2).allocate 7).2.available = 2 - 1 ∧
      (((MemoryPool.init : MemoryPool Nat 2).allocate 7).2.allocate 8).1 = some 0 := by
  have reach : Relation.ReflTransGen PoolStep ((MemoryPool.init : MemoryPool Nat 2), [])
      (((MemoryPool.init : MemoryPool Nat 2).allocate 7).2, [1]) :=
    Relation.ReflTransGen.single (PoolStep.allocate _ [] 7)
  exact ⟨reach, (single_mutator_pool reach).1, rfl⟩

/-! ## A throwing constructor -/

/-- `allocate(args...)` when `T(args...)` may throw: `construct` is what the
constructor does, build the object or throw.  The compare-exchange of the count
and the store `allocated_[idx] = true` come before the placement `new`, and
nothing undoes them when it throws; the exception leaves the call. -/
def MemoryPool.allocateOrThrow {ε : Type} (p : MemoryPool T poolSize) (construct : Except ε T) :
    Except ε (Option Nat) × MemoryPool T poolSize :=
  if p.freeCount = 0 then (.ok none, p)
  else
    let idx := p.freeList (p.freeCount - 1)
    let claimed : MemoryPool T poolSize :=
      { p with allocated := fun i => if i = idx then true else p.allocated i, freeCount := p.freeCount - 1 }
    match construct with
    | .ok obj => (.ok (some idx), { claimed with storage := fun i => if i = idx then some obj else p.storage i })
    | .error e => (.error e, claimed)

/-- For every pool the single mutator reaches with a free slot, a constructor
that throws leaves the exception to the caller and the slot on top of the free
stack claimed: `available()` drops by one, and the slot is flagged in
`allocated_` with no object built in it, so `~MemoryPool` runs `~T` on raw
storage there. -/
theorem throwing_constructor_leaks_slot {ε : Type} {p : MemoryPool T poolSize} {live : List Nat}
    (run : Relation.ReflTransGen PoolStep (MemoryPool.init, []) (p, live)) (room : 0 < p.available) (e : ε) :
    (p.allocateOrThrow (.error e : Except ε T)).1 = .error e ∧
      (p.allocateOrThrow (.error e : Except ε T)).2.available = p.available - 1 ∧
      ∃ idx, idx ∉ p.destroyedSlots ∧ idx ∈ (p.allocateOrThrow (.error e : Except ε T)).2.destroyedSlots ∧
        (p.allocateOrThrow (.error e : Except ε T)).2.storage idx = none := by
  have inv := poolInv_of_reach run
  have count : p.freeCount ≠ 0 := Nat.pos_iff_ne_zero.1 room
  set idx := p.freeList (p.freeCount - 1)
  -- the top of the free stack is a slot below `PoolSize` with no live object
  have free : idx ∈ p.freeSlots := List.mem_map_of_mem _ (List.mem_range.2 (by omega))
  have dead : idx ∉ live := List.disjoint_of_nodup_append inv.nodup free
  have inside : idx < poolSize := (inv.slots idx).1 (List.mem_append_left _ free)
  simp only [MemoryPool.allocateOrThrow, if_neg count]
  refine ⟨trivial, rfl, idx, ?_, ?_, ?_⟩
  · simp [MemoryPool.destroyedSlots, (inv.allocated idx).not.2 dead]
  · simp [MemoryPool.destroyedSlots, inside]
  · exact Option.not_isSome_iff_eq_none.1 ((inv.built idx).not.2 dead)

theorem throwing_constructor_on_fresh_pool :
    Relation.ReflTransGen PoolStep ((MemoryPool.init : MemoryPool Nat 2), []) (MemoryPool.init, []) ∧
      0 < (MemoryPool.init : MemoryPool Nat 2).available ∧
      ((MemoryPool.init : MemoryPool Nat 2).allocateOrThrow (.error () : Except Unit Nat)).1 = .error () ∧
      ((MemoryPool.init : MemoryPool Nat 2).allocateOrThrow (.error () : Except Unit Nat)).2.available =
        (MemoryPool.init : MemoryPool Nat 2).available - 1 ∧
      ∃ idx, idx ∉ (MemoryPool.init : MemoryPool Nat 2).destroyedSlots ∧
        idx ∈ ((MemoryPool.init : MemoryPool Nat 2).allocateOrThrow (.error () : Except Unit Nat)).2.destroyedSlots ∧
        ((MemoryPool.init : MemoryPool Nat 2).allocateOrThrow (.error () : Except Unit Nat)).2.storage idx = none :=
  ⟨.refl, by decide, throwing_constructor_leaks_slot .refl (by decide) ()⟩

end Hft.Pool
