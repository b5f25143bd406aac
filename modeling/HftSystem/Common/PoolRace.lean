import HftSystem.Common.MemoryPool

/-!
# The slab pool under interleaving

`MemoryPool<T, PoolSize>` of `memory_pool.h` with its calls cut into their
shared-memory accesses, one step each:

* `allocate(args...)`: load `free_count_`; if it is 0 return `nullptr`, else
  the compare-exchange of `free_count_` to `count - 1` (a failure reloads the
  count); load `free_list_[count - 1]`; set `allocated_[idx]`; construct the
  object and return its slot;
* `deallocate(ptr)`: return at once on `nullptr`; otherwise destroy the
  object; clear `allocated_[idx]`; load `free_count_`; store
  `free_list_[count]`; `fetch_add(1)` on `free_count_`.

A schedule says which thread takes the next step and, for a thread between
calls, which call it starts.  Accesses are sequentially consistent and a weak
compare-exchange does not fail spuriously.

`deallocate` pushes its slot with a load, a store and an increment that are
separate steps, so a `deallocate` racing an `allocate` puts a live slot back on
the free stack (`interleaving_hands_out_live_slot`).  When the calls do not
overlap, as on a single mutator thread, each call is the sequential
one of the pool model, and the pool keeps its free-list invariant
(`serial_calls_keep_pool`).
-/

set_option autoImplicit false

namespace Hft.PoolRace

open Hft.Pool

inductive PoolCall (T : Type) where
  | allocate (obj : T)
  | deallocate (ptr : Option Nat)

inductive PoolPc where
  | idle
  | allocLoaded
  | allocReload
  | allocClaimed
  | allocPopped
  | allocFlagged
  | freeDestroyed
  | freeCleared
  | freeLoaded
  | freeStored
  deriving DecidableEq

structure Thread (T : Type) where
  pc : PoolPc
  obj : T
  idx : Nat
  count : Nat

structure System (T : Type) (poolSize : Nat) where
  pool : MemoryPool T poolSize
  threads : Nat → Thread T

inductive Event where
  | allocated (thread : Nat) (slot : Option Nat)
  | deallocated (thread : Nat) (slot : Option Nat)
  deriving DecidableEq

variable {T : Type} {poolSize : Nat}

def System.init [Inhabited T] : System T poolSize :=
  ⟨MemoryPool.init, fun _ => ⟨.idle, default, 0, 0⟩⟩

def System.setThread (s : System T poolSize) (t : Nat) (th : Thread T) : System T poolSize :=
  { s with threads := fun u => if u = t then th else s.threads u }

/-- The next access of thread `t`; a thread between calls starts `call`. -/
def System.step (s : System T poolSize) (t : Nat) (call : PoolCall T) : System T poolSize × List Event :=
  let th := s.threads t
  let p := s.pool
  match th.pc with
  | .idle =>
      match call with
      | .allocate obj => (s.setThread t ⟨.allocLoaded, obj, th.idx, p.freeCount⟩, [])
      | .deallocate none => (s, [.deallocated t none])
      | .deallocate (some idx) =>
          ({ s.setThread t ⟨.freeDestroyed, th.obj, idx, th.count⟩ with
              pool := { p with storage := fun i => if i = idx then none else p.storage i } }, [])
  | .allocLoaded =>
      if th.count = 0 then (s.setThread t { th with pc := .idle }, [.allocated t none])
      else if p.freeCount = th.count then
        ({ s.setThread t { th with pc := .allocClaimed } with pool := { p with freeCount := th.count - 1 } }, [])
      else (s.setThread t { th with pc := .allocReload, count := p.freeCount }, [])
  | .allocReload => (s.setThread t { th with pc := .allocLoaded, count := p.freeCount }, [])
  | .allocClaimed => (s.setThread t { th with pc := .allocPopped, idx := p.freeList (th.count - 1) }, [])
  | .allocPopped =>
      ({ s.setThread t { th with pc := .allocFlagged } with
          pool := { p with allocated := fun i => if i = th.idx then true else p.allocated i } }, [])
  | .allocFlagged =>
      ({ s.setThread t { th with pc := .idle } with
          pool := { p with storage := fun i => if i = th.idx then some th.obj else p.storage i } },
        [.allocated t (some th.idx)])
  | .freeDestroyed =>
      ({ s.setThread t { th with pc := .freeCleared } with
          pool := { p with allocated := fun i => if i = th.idx then false else p.allocated i } }, [])
  | .freeCleared => (s.setThread t { th with pc := .freeLoaded, count := p.freeCount }, [])
  | .freeLoaded =>
      ({ s.setThread t { th with pc := .freeStored } with
          pool := { p with freeList := fun i => if i = th.count then th.idx else p.freeList i } }, [])
  | .freeStored =>
      ({ s.setThread t { th with pc := .idle } with pool := { p with freeCount := p.freeCount + 1 } },
        [.deallocated t (some th.idx)])

def System.runFrom (s : System T poolSize) (log : List Event) : List (Nat × PoolCall T) → System T poolSize × List Event
  | [] => (s, log)
  | (t, call) :: rest => (s.step t call).1.runFrom (log ++ (s.step t call).2) rest

@[simp] theorem setThread_pool (s : System T poolSize) (t : Nat) (th : Thread T) :
    (s.setThread t th).pool = s.pool :=
  rfl

@[simp] theorem setThread_threads (s : System T poolSize) (t u : Nat) (th : Thread T) :
    (s.setThread t th).threads u = if u = t then th else s.threads u :=
  rfl

/-! ## Calls that do not overlap -/

/-- How many accesses a call makes when no other thread moves in between:
`allocate` returns `nullptr` after its load, or goes through all five. -/
def System.stepsAlone (s : System T poolSize) : PoolCall T → Nat
  | .allocate _ => if s.pool.freeCount = 0 then 2 else 5
  | .deallocate none => 1
  | .deallocate (some _) => 5

def System.solo (s : System T poolSize) (t : Nat) (call : PoolCall T) : System T poolSize × List Event :=
  s.runFrom [] (List.replicate (s.stepsAlone call) (t, call))

section Solo

variable (s : System T poolSize) (t : Nat) (idle : (s.threads t).pc = .idle)
include idle

theorem solo_allocate (obj : T) :
    (s.solo t (.allocate obj)).1.pool = (s.pool.allocate obj).2 ∧
      (∀ u, ((s.solo t (.allocate obj)).1.threads u).pc = (s.threads u).pc) ∧
      (s.solo t (.allocate obj)).2 = [.allocated t (s.pool.allocate obj).1] := by
  by_cases empty : s.pool.freeCount = 0 <;>
  · simp [System.solo, System.stepsAlone, System.runFrom, System.step, MemoryPool.allocate, empty, idle]
    intro u
    split_ifs with same <;> simp [same, idle]

theorem solo_deallocate (ptr : Option Nat) :
    (s.solo t (.deallocate ptr)).1.pool = s.pool.deallocate ptr ∧
      (∀ u, ((s.solo t (.deallocate ptr)).1.threads u).pc = (s.threads u).pc) ∧
      (s.solo t (.deallocate ptr)).2 = [.deallocated t ptr] := by
  cases ptr with
  | none => simp [System.solo, System.stepsAlone, System.runFrom, System.step, MemoryPool.deallocate, idle]
  | some idx =>
      simp [System.solo, System.stepsAlone, System.runFrom, System.step, MemoryPool.deallocate, idle]
      intro u
      split_ifs with same <;> simp [same, idle]

end Solo

/-- Calls that do not overlap: one thread runs a whole call alone, and the
slots of its caller's live objects change by what the call returned;
`deallocate` is passed a pointer to a live object, or `nullptr`. -/
inductive Serial : System T poolSize × List Nat → System T poolSize × List Nat → Prop
  | allocate (s : System T poolSize) (live : List Nat) (t : Nat) (obj : T) (slot : Option Nat)
      (returned : (s.solo t (.allocate obj)).2 = [.allocated t slot]) :
      Serial (s, live) ((s.solo t (.allocate obj)).1, slot.toList ++ live)
  | deallocate (s : System T poolSize) (live : List Nat) (t idx : Nat) (owned : idx ∈ live) :
      Serial (s, live) ((s.solo t (.deallocate (some idx))).1, live.erase idx)
  | deallocateNull (s : System T poolSize) (live : List Nat) (t : Nat) :
      Serial (s, live) ((s.solo t (.deallocate none)).1, live)

theorem serial_step {a b : System T poolSize × List Nat} (step : Serial a b)
    (idle : ∀ u, (a.1.threads u).pc = .idle) :
    PoolStep (a.1.pool, a.2) (b.1.pool, b.2) ∧ ∀ u, (b.1.threads u).pc = .idle := by
  cases step with
  | allocate s live t obj slot returned =>
      obtain ⟨pool, pcs, log⟩ := solo_allocate s t (idle t) obj
      obtain rfl : slot = (s.pool.allocate obj).1 := by
        simpa [log] using returned.symm
      exact ⟨pool ▸ PoolStep.allocate _ _ _, fun u => (pcs u).trans (idle u)⟩
  | deallocate s live t idx owned =>
      obtain ⟨pool, pcs, -⟩ := solo_deallocate s t (idle t) (some idx)
      exact ⟨pool ▸ PoolStep.deallocate _ _ _ owned, fun u => (pcs u).trans (idle u)⟩
  | deallocateNull s live t =>
      obtain ⟨pool, pcs, -⟩ := solo_deallocate s t (idle t) none
      exact ⟨pool ▸ PoolStep.deallocateNull _ _, fun u => (pcs u).trans (idle u)⟩

theorem serial_reach [Inhabited T] {s : System T poolSize} {live : List Nat}
    (run : Relation.ReflTransGen Serial (System.init, []) (s, live)) :
    Relation.ReflTransGen PoolStep (MemoryPool.init, []) (s.pool, live) ∧ ∀ u, (s.threads u).pc = .idle := by
  have reach : ∀ x : System T poolSize × List Nat, Relation.ReflTransGen Serial (System.init, []) x →
      Relation.ReflTransGen PoolStep (MemoryPool.init, []) (x.1.pool, x.2) ∧ ∀ u, (x.1.threads u).pc = .idle := by
    intro x run
    induction run with
    | refl => exact ⟨.refl, fun _ => rfl⟩
    | tail _ step ih =>
        obtain ⟨pool, pcs⟩ := serial_step step ih.2
        exact ⟨ih.1.tail pool, pcs⟩
  exact reach _ run

/-- With calls that never overlap, each `deallocate` on a pointer to a live
object or `nullptr`: once every call has returned, `available()` is
`PoolSize` minus the number of live objects, and no `allocate` returns the
slot of a live object. -/
theorem serial_calls_keep_pool [Inhabited T] {s : System T poolSize} {live : List Nat}
    (run : Relation.ReflTransGen Serial (System.init, []) (s, live)) :
    (∀ u, (s.threads u).pc = .idle) ∧ s.pool.available = poolSize - live.length ∧
      ∀ t obj slot, (s.solo t (.allocate obj)).2 = [.allocated t (some slot)] → slot ∉ live := by
  obtain ⟨reach, idle⟩ := serial_reach run
  have inv := poolInv_of_reach reach
  refine ⟨idle, by have := inv.available_add; omega, fun t obj slot returned => ?_⟩
  have handed : (s.pool.allocate obj).1 = some slot := by
    simpa [(solo_allocate s t (idle t) obj).2.2] using returned
  exact (poolInv_allocate inv obj handed).1

/-- On a pool of two slots, thread 0 allocates slot 1 alone: one slot is
left, and no allocate that follows alone hands slot 1 out again. -/
theorem serial_allocate_then_allocate :
    Relation.ReflTransGen Serial (System.init, []) (((System.init : System Nat 2).solo 0 (.allocate 7)).1, [1]) ∧
      (∀ u, (((System.init : System Nat 2).solo 0 (.allocate 7)).1.threads u).pc = .idle) ∧
      ((System.init : System Nat 2).solo 0 (.allocate 7)).1.pool.available = 2 - [1].length ∧
      ∀ t obj slot, ((((System.init : System Nat 2).solo 0 (.allocate 7)).1.solo t (.allocate obj)).2 =
        [.allocated t (some slot)] → slot ∉ [1]) := by
  have reach : Relation.ReflTransGen Serial (System.init, [])
      (((System.init : System Nat 2).solo 0 (.allocate 7)).1, [1]) :=
    .single (Serial.allocate _ [] 0 7 (some 1) (by decide))
  exact ⟨reach, serial_calls_keep_pool reach⟩

/-! ## A deallocate racing an allocate -/

def liveSlotRace : List (Nat × PoolCall Nat) :=
  List.replicate 5 (1, .allocate 7) ++ List.replicate 3 (1, .deallocate (some 1)) ++
    List.replicate 5 (0, .allocate 8) ++ List.replicate 2 (1, .deallocate (some 1)) ++
    List.replicate 5 (0, .allocate 9)

/-- On a pool of two slots that schedule makes thread 0's second `allocate`
return slot 0, which its first one returned and nobody has deallocated. -/
theorem interleaving_hands_out_live_slot :
    ((System.init : System Nat 2).runFrom [] liveSlotRace).2 =
      [.allocated 1 (some 1), .allocated 0 (some 0), .deallocated 1 (some 1), .allocated 0 (some 0)] := by
  decide

end Hft.PoolRace
