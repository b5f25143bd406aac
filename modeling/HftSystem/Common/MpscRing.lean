import HftSystem.Common.Bytes

/-!
# The multi-producer ring on one thread

`MPSCCircularBuffer<T, Capacity>` of `circular_buffer.h`: a ring of slots, each
with a sequence number, and the two counters `head_` and `tail_`.  A producer
may claim the slot at `tail` when its sequence equals `tail`; the consumer may
take the slot at `head` when its sequence equals `head + 1`.  The comparison is
the `intptr_t` difference of the two `size_t` values.

Here every call runs alone.  On one thread `compare_exchange_weak` succeeds on
the value just loaded (a spurious failure reloads the same value and retries),
and the retry branch reloads the same counter and meets the same slot again, so
a call that reaches it never returns: `push` and `pop` return `none` then.

The constructor sets every slot's sequence to `0`, where the algorithm needs
slot `i` to start at `i`.  For a capacity of two or more the first push leaves
the ring in a state where no push succeeds again (`accepts_at_most_one_push`).
-/

set_option autoImplicit false

namespace Hft.Ring

open Hft.Bytes

/-- `static_cast<intptr_t>` of a `size_t`: two's complement reinterpretation. -/
def toIntptr (x : Nat) : Int := if x < 2 ^ 63 then x else (x : Int) - 2 ^ 64

/-- The members of `MPSCCircularBuffer`: `head_`, `tail_`, and each slot's
`sequence` and `data`. -/
structure MPSCCircularBuffer (T : Type) (size : Nat) where
  head : Nat
  tail : Nat
  sequence : Nat → Nat
  data : Nat → T

variable {T : Type} {size : Nat}

/-- The constructor: both counters and every slot's sequence `0`. -/
def MPSCCircularBuffer.init [Inhabited T] : MPSCCircularBuffer T size :=
  ⟨0, 0, fun _ => 0, fun _ => default⟩

/-- `push(item)` on one thread; `none` when it spins in the retry branch. -/
def MPSCCircularBuffer.push (b : MPSCCircularBuffer T size) (item : T) :
    Option (Bool × MPSCCircularBuffer T size) :=
  let pos := b.tail &&& (size - 1)
  let diff := toIntptr (b.sequence pos) - toIntptr b.tail
  if diff = 0 then
    some (true, { b with
      tail := (b.tail + 1) % 2 ^ 64
      data := fun i => if i = pos then item else b.data i
      sequence := fun i => if i = pos then (b.tail + 1) % 2 ^ 64 else b.sequence i })
  else if diff < 0 then some (false, b)
  else none

/-- `pop(item)` on one thread: the item taken, if any; `none` when it spins in
the retry branch. -/
def MPSCCircularBuffer.pop (b : MPSCCircularBuffer T size) :
    Option (Option T × MPSCCircularBuffer T size) :=
  let pos := b.head &&& (size - 1)
  let diff := toIntptr (b.sequence pos) - toIntptr ((b.head + 1) % 2 ^ 64)
  if diff = 0 then
    some (some (b.data pos), { b with
      head := (b.head + 1) % 2 ^ 64
      sequence := fun i => if i = pos then (b.head + size) % 2 ^ 64 else b.sequence i })
  else if diff < 0 then some (none, b)
  else none

inductive Call (T : Type) where
  | push (item : T)
  | pop

inductive Returned (T : Type) where
  | push (ok : Bool)
  | pop (item : Option T)
  deriving DecidableEq

def Returned.accepted : Returned T → Bool
  | .push ok => ok
  | .pop _ => false

def MPSCCircularBuffer.call (b : MPSCCircularBuffer T size) :
    Call T → Option (Returned T × MPSCCircularBuffer T size)
  | .push item => (b.push item).map fun r => (.push r.1, r.2)
  | .pop => b.pop.map fun r => (.pop r.1, r.2)

/-- Calls one after another on one thread; `none` if one of them never returns. -/
def MPSCCircularBuffer.run (b : MPSCCircularBuffer T size) :
    List (Call T) → Option (List (Returned T) × MPSCCircularBuffer T size)
  | [] => some ([], b)
  | c :: rest =>
      (b.call c).bind fun r => (r.2.run rest).map fun out => (r.1 :: out.1, out.2)

/-- The bounded FIFO queue of capacity `size` that the ring is meant to be. -/
def boundedFifo (size : Nat) (q : List T) : Call T → Returned T × List T
  | .push item => if q.length < size then (.push true, q ++ [item]) else (.push false, q)
  | .pop =>
      match q with
      | [] => (.pop none, [])
      | item :: rest => (.pop (some item), rest)

def boundedFifoRun (size : Nat) (q : List T) : List (Call T) → List (Returned T) × List T
  | [] => ([], q)
  | c :: rest =>
      let r := boundedFifo size q c
      let out := boundedFifoRun size r.2 rest
      (r.1 :: out.1, out.2)

/-! ## Runs from the constructor -/

/-- After the first push, and after the pop of its item: slot `1`, where both
counters now point, still has sequence `0`, which is behind both. -/
def Used (b : MPSCCircularBuffer T size) : Prop :=
  b.tail = 1 ∧ b.sequence 1 = 0 ∧ (b.head = 1 ∨ (b.head = 0 ∧ b.sequence 0 = 1))

theorem run_cons (b : MPSCCircularBuffer T size) (c : Call T) (rest : List (Call T))
    (r : Returned T) (b' : MPSCCircularBuffer T size) (called : b.call c = some (r, b')) :
    b.run (c :: rest) = (b'.run rest).map fun out => (r :: out.1, out.2) := by
  simp only [MPSCCircularBuffer.run, called, Option.some_bind]


section Stuck

variable (pow : size.isPowerOfTwo) (two : 2 ≤ size)
include pow two

omit two in
theorem slot_zero : 0 &&& (size - 1) = 0 := by
  rw [mask_eq_mod pow, Nat.zero_mod]

theorem slot_one : 1 &&& (size - 1) = 1 := by
  rw [mask_eq_mod pow, Nat.mod_eq_of_lt (by omega)]

theorem call_used (b : MPSCCircularBuffer T size) (used : Used b) (c : Call T) :
    ∃ r b', b.call c = some (r, b') ∧ r.accepted = false ∧ Used b' := by
  obtain ⟨tail, seq_one, heads⟩ := used
  cases c with
  | push item =>
      refine ⟨.push false, b, ?_, rfl, tail, seq_one, heads⟩
      simp [MPSCCircularBuffer.call, MPSCCircularBuffer.push, tail, slot_one pow two, seq_one, toIntptr]
  | pop =>
      rcases heads with head | ⟨head, seq_zero⟩
      · refine ⟨.pop none, b, ?_, rfl, tail, seq_one, Or.inl head⟩
        simp [MPSCCircularBuffer.call, MPSCCircularBuffer.pop, head, slot_one pow two, seq_one, toIntptr]
      · refine ⟨.pop (some (b.data 0)),
          ⟨1, b.tail, fun i => if i = 0 then size % 2 ^ 64 else b.sequence i, b.data⟩, ?_, rfl, tail,
          by simp [seq_one], Or.inl rfl⟩
        simp [MPSCCircularBuffer.call, MPSCCircularBuffer.pop, head, slot_zero pow, seq_zero, toIntptr]

theorem run_used : ∀ (calls : List (Call T)) (b : MPSCCircularBuffer T size), Used b →
    ∃ rs b', b.run calls = some (rs, b') ∧ rs.countP Returned.accepted = 0 := by
  intro calls
  induction calls with
  | nil => intro b _; exact ⟨[], b, rfl, rfl⟩
  | cons c rest ih =>
      intro b used
      obtain ⟨r, b', called, refused, used'⟩ := call_used pow two b used c
      obtain ⟨rs, b'', ran, none_accepted⟩ := ih b' used'
      refine ⟨r :: rs, b'', by rw [run_cons b c rest r b' called, ran]; rfl, ?_⟩
      simp [refused, none_accepted]

/-- For a power-of-two capacity of at least two, every sequence of calls on one
thread from a fresh ring returns, and at most one of its pushes succeeds. -/
theorem accepts_at_most_one_push [Inhabited T] (calls : List (Call T)) :
    ∃ rs b', (MPSCCircularBuffer.init : MPSCCircularBuffer T size).run calls = some (rs, b') ∧
      rs.countP Returned.accepted ≤ 1 := by
  induction calls with
  | nil => exact ⟨[], _, rfl, Nat.zero_le _⟩
  | cons c rest ih =>
      cases c with
      | pop =>
          obtain ⟨rs, b', ran, accepted⟩ := ih
          refine ⟨.pop none :: rs, b', ?_, by simpa using accepted⟩
          rw [run_cons _ .pop rest (.pop none) MPSCCircularBuffer.init (by simp [MPSCCircularBuffer.call, MPSCCircularBuffer.pop,
            MPSCCircularBuffer.init, slot_zero pow, toIntptr]), ran]
          rfl
      | push item =>
          set b₁ : MPSCCircularBuffer T size := ⟨0, 1, fun i => if i = 0 then 1 else 0,
            fun i => if i = 0 then item else default⟩
          have first : (MPSCCircularBuffer.init : MPSCCircularBuffer T size).call (.push item) =
              some (.push true, b₁) := by
            simp [MPSCCircularBuffer.call, MPSCCircularBuffer.push, MPSCCircularBuffer.init,
              slot_zero pow, toIntptr, b₁]
          obtain ⟨rs, b', ran, none_accepted⟩ :=
            run_used pow two rest b₁ ⟨rfl, by simp [b₁], Or.inr ⟨rfl, by simp [b₁]⟩⟩
          refine ⟨.push true :: rs, b', by rw [run_cons _ _ rest _ _ first, ran]; rfl, ?_⟩
          simp [Returned.accepted, none_accepted]

end Stuck

/-- Two pushes on a fresh ring of capacity two: at most one is accepted, where
the bounded FIFO of capacity two accepts both. -/
theorem two_pushes_one_accepted :
    (2 : Nat).isPowerOfTwo ∧ 2 ≤ 2 ∧
      (∃ rs b', (MPSCCircularBuffer.init : MPSCCircularBuffer Nat 2).run [.push 7, .push 8] = some (rs, b') ∧
        rs.countP Returned.accepted ≤ 1) ∧
      (boundedFifoRun 2 [] [Call.push 7, .push 8]).1.countP Returned.accepted = 2 :=
  ⟨⟨1, rfl⟩, le_rfl, accepts_at_most_one_push ⟨1, rfl⟩ le_rfl _, rfl⟩

end Hft.Ring
