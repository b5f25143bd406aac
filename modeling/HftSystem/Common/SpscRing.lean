import HftSystem.Common.Bytes

/-!
# The single-producer ring under every interleaving

`CircularBuffer<T, Capacity>` of `circular_buffer.h` with one thread in `push`
and one in `pop`, each call cut into its four shared-memory accesses:

* `push(item)`: load `tail_`, load `head_` and compare with the next tail
  (returning `false` when equal), write the slot, store `tail_`;
* `pop(item)`: load `head_`, load `tail_` and compare (returning `false` when
  equal), read the slot, store `head_`.

A schedule says which thread takes the next step, and what the producer pushes
when it starts a call; accesses are sequentially consistent.  Each call is
logged at its linearization point: a successful push at its `tail_` store, a
refused one at its `head_` load, a successful pop at its `head_` store and a
refused one at its `tail_` load.  `Inv` relates the ring to the calls pending
at that point, and `spsc_linearizable` shows that along every schedule the log
is a run of the bounded FIFO queue of capacity `Capacity - 1`.
-/

set_option autoImplicit false

namespace Hft.Spsc

open Hft.Bytes

/-- The members of `CircularBuffer`: `head_`, `tail_` and `buffer_`. -/
structure CircularBuffer (T : Type) (capacity : Nat) where
  head : Nat
  tail : Nat
  buffer : Nat → T

inductive ProducerPc where
  | idle
  | loadedTail
  | checkedHead
  | wroteSlot
  deriving DecidableEq

structure Producer (T : Type) where
  pc : ProducerPc
  item : T
  currentTail : Nat
  nextTail : Nat

inductive ConsumerPc where
  | idle
  | loadedHead
  | checkedTail
  | readSlot
  deriving DecidableEq

structure Consumer (T : Type) where
  pc : ConsumerPc
  currentHead : Nat
  item : T

structure System (T : Type) (capacity : Nat) where
  ring : CircularBuffer T capacity
  producer : Producer T
  consumer : Consumer T

inductive Event (T : Type) where
  | push (item : T) (ok : Bool)
  | pop (item : Option T)

variable {T : Type} {capacity : Nat}

def System.init [Inhabited T] : System T capacity :=
  ⟨⟨0, 0, fun _ => default⟩, ⟨.idle, default, 0, 0⟩, ⟨.idle, 0, default⟩⟩

/-- The producer's next access; an idle producer starts `push(item)`. -/
def System.producerStep (s : System T capacity) (item : T) : System T capacity × List (Event T) :=
  let p := s.producer
  match p.pc with
  | .idle =>
      ({ s with producer := ⟨.loadedTail, item, s.ring.tail, (s.ring.tail + 1) &&& (capacity - 1)⟩ }, [])
  | .loadedTail =>
      if p.nextTail = s.ring.head then ({ s with producer := { p with pc := .idle } }, [.push p.item false])
      else ({ s with producer := { p with pc := .checkedHead } }, [])
  | .checkedHead =>
      ({ s with
          ring := { s.ring with buffer := fun i => if i = p.currentTail then p.item else s.ring.buffer i }
          producer := { p with pc := .wroteSlot } }, [])
  | .wroteSlot =>
      ({ s with ring := { s.ring with tail := p.nextTail }, producer := { p with pc := .idle } },
        [.push p.item true])

/-- The consumer's next access; an idle consumer starts `pop`. -/
def System.consumerStep (s : System T capacity) : System T capacity × List (Event T) :=
  let c := s.consumer
  match c.pc with
  | .idle => ({ s with consumer := { c with pc := .loadedHead, currentHead := s.ring.head } }, [])
  | .loadedHead =>
      if c.currentHead = s.ring.tail then ({ s with consumer := { c with pc := .idle } }, [.pop none])
      else ({ s with consumer := { c with pc := .checkedTail } }, [])
  | .checkedTail =>
      ({ s with consumer := { c with pc := .readSlot, item := s.ring.buffer c.currentHead } }, [])
  | .readSlot =>
      ({ s with ring := { s.ring with head := (c.currentHead + 1) &&& (capacity - 1) }
                consumer := { c with pc := .idle } }, [.pop (some c.item)])

inductive Turn (T : Type) where
  | producer (item : T)
  | consumer

def System.step (s : System T capacity) : Turn T → System T capacity × List (Event T)
  | .producer item => s.producerStep item
  | .consumer => s.consumerStep

def System.runFrom (s : System T capacity) (log : List (Event T)) :
    List (Turn T) → System T capacity × List (Event T)
  | [] => (s, log)
  | t :: rest => (s.step t).1.runFrom (log ++ (s.step t).2) rest

/-- A schedule from the constructor. -/
def System.run [Inhabited T] (turns : List (Turn T)) : System T capacity × List (Event T) :=
  System.init.runFrom [] turns

/-- `size()`: the `size_t` difference of the two counters, masked. -/
def CircularBuffer.size (b : CircularBuffer T capacity) : Nat :=
  ((b.tail + 2 ^ 64 - b.head) % 2 ^ 64) &&& (capacity - 1)

/-- `empty()`. -/
def CircularBuffer.empty (b : CircularBuffer T capacity) : Bool := b.head == b.tail

/-! ## The bounded FIFO queue -/

/-- One linearized call replayed on the FIFO queue of capacity `bound`: `none`
when the call returned something the queue would not. -/
def fifoStep [DecidableEq T] (bound : Nat) (q : List T) : Event T → Option (List T)
  | .push item ok => if ok = decide (q.length < bound) then some (if ok then q ++ [item] else q) else none
  | .pop item => if item = q.head? then some q.tail else none

def fifoReplay [DecidableEq T] (bound : Nat) (q : List T) (events : List (Event T)) : Option (List T) :=
  events.foldl (fun acc e => acc.bind fun q => fifoStep bound q e) (some q)

theorem fifoReplay_append [DecidableEq T] (bound : Nat) (q : List T) (log more : List (Event T)) :
    fifoReplay bound q (log ++ more) = (fifoReplay bound q log).bind fun q => fifoReplay bound q more := by
  unfold fifoReplay
  rw [List.foldl_append]
  generalize List.foldl _ (some q) log = acc
  cases acc with
  | none =>
      simp only [Option.none_bind]
      induction more with
      | nil => rfl
      | cons e rest ih => exact ih
  | some q => rfl

/-! ## Ring arithmetic -/

section Arith

variable {n head len : Nat}

theorem mod_succ_eq_self (lt : head < n) (full : len + 1 = n) : (head + len + 1) % n = head := by
  rw [Nat.add_assoc, full, Nat.add_mod_right, Nat.mod_eq_of_lt lt]

theorem mod_succ_ne_self (lt : head < n) (room : len + 1 < n) : (head + len + 1) % n ≠ head := by
  have : (head + 0) % n ≠ (head + (len + 1)) % n := add_mod_ne (by omega) room
  rw [Nat.add_zero, Nat.mod_eq_of_lt lt, ← Nat.add_assoc] at this
  exact fun same => this same.symm

theorem mod_ne_self (lt : head < n) (pos : 0 < len) (below : len < n) : (head + len) % n ≠ head := by
  have : (head + 0) % n ≠ (head + len) % n := add_mod_ne pos below
  rw [Nat.add_zero, Nat.mod_eq_of_lt lt] at this
  exact fun same => this same.symm

theorem distance_mod (lt : head < n) (below : len < n) (word : n ∣ 2 ^ 64) :
    (((head + len) % n + 2 ^ 64 - head) % 2 ^ 64) % n = len := by
  obtain ⟨c, hc⟩ := word
  have pos : 0 < c := Nat.pos_of_ne_zero fun zero => by simp [zero] at hc
  rw [Nat.mod_mod_of_dvd _ ⟨c, hc⟩, hc]
  by_cases wrap : head + len < n
  · rw [Nat.mod_eq_of_lt wrap, show head + len + n * c - head = len + n * c by omega,
      Nat.add_mul_mod_self_left, Nat.mod_eq_of_lt below]
  · have big : n ≤ n * c := Nat.le_mul_of_pos_right n pos
    have inner : (head + len) % n = head + len - n := by
      rw [Nat.mod_eq_sub_mod (by omega : n ≤ head + len), Nat.mod_eq_of_lt (by omega)]
    rw [inner, show head + len - n + n * c - head = len + n * (c - 1) by rw [Nat.mul_sub_one]; omega,
      Nat.add_mul_mod_self_left, Nat.mod_eq_of_lt below]

end Arith

/-! ## The invariant -/

/-- The ring holds the pending calls `q` in the slots from `head_`, and each
thread's locals agree with the counters; a producer past its check has room,
and a consumer past its check has the oldest pending item ahead of it. -/
structure Inv (s : System T capacity) (q : List T) : Prop where
  head_lt : s.ring.head < capacity
  bound : q.length + 1 ≤ capacity
  tail_eq : s.ring.tail = (s.ring.head + q.length) % capacity
  slots : ∀ i < q.length, some (s.ring.buffer ((s.ring.head + i) % capacity)) = q[i]?
  producer : s.producer.pc ≠ .idle →
    s.producer.currentTail = s.ring.tail ∧ s.producer.nextTail = (s.ring.tail + 1) % capacity
  room : s.producer.pc = .checkedHead ∨ s.producer.pc = .wroteSlot → q.length + 1 < capacity
  written : s.producer.pc = .wroteSlot → s.ring.buffer s.producer.currentTail = s.producer.item
  consumer : s.consumer.pc ≠ .idle → s.consumer.currentHead = s.ring.head
  nonempty : s.consumer.pc = .checkedTail ∨ s.consumer.pc = .readSlot → q ≠ []
  taken : s.consumer.pc = .readSlot → q.head? = some s.consumer.item

theorem inv_init [Inhabited T] (pos : 0 < capacity) : Inv (System.init : System T capacity) [] where
  head_lt := pos
  bound := pos
  tail_eq := by simp [System.init]
  slots := by simp
  producer := by simp [System.init]
  room := by simp [System.init]
  written := by simp [System.init]
  consumer := by simp [System.init]
  nonempty := by simp [System.init]
  taken := by simp [System.init]

/-- What a step does: it keeps the invariant for the calls then pending, and
its log entry, if any, is a step of the FIFO queue from the calls pending
before it. -/
def StepOk [DecidableEq T] (q : List T) (out : System T capacity × List (Event T)) : Prop :=
  ∃ q', Inv out.1 q' ∧ fifoReplay (capacity - 1) q out.2 = some q'

section Steps

variable [DecidableEq T] (pow : capacity.isPowerOfTwo) {s : System T capacity} {q : List T}
include pow

theorem producerStep_ok (inv : Inv s q) (item : T) : StepOk q (s.producerStep item) := by
  obtain ⟨ring, ⟨pc, pitem, cur, next⟩, c⟩ := s
  have tail_eq : ring.tail = (ring.head + q.length) % capacity := inv.tail_eq
  cases pc with
  | idle =>
      exact ⟨q, { inv with
        producer := fun _ => ⟨rfl, mask_eq_mod pow _⟩
        room := fun busy => by simp [System.producerStep] at busy
        written := fun busy => by simp [System.producerStep] at busy }, rfl⟩
  | loadedTail =>
      obtain ⟨cur_eq, next_eq⟩ : cur = ring.tail ∧ next = (ring.tail + 1) % capacity := inv.producer (by simp)
      have next_is : next = (ring.head + q.length + 1) % capacity := by
        rw [next_eq, tail_eq, Nat.mod_add_mod]
      have bound := inv.bound
      by_cases full : next = ring.head
      · have len : q.length + 1 = capacity := by
          by_contra room
          exact mod_succ_ne_self inv.head_lt (by omega) (next_is ▸ full)
        have step : System.producerStep ⟨ring, ⟨.loadedTail, pitem, cur, next⟩, c⟩ item =
            (⟨ring, ⟨.idle, pitem, cur, next⟩, c⟩, [.push pitem false]) := by
          simp [System.producerStep, full]
        rw [StepOk, step]
        refine ⟨q, { inv with
          producer := fun idle => absurd rfl idle
          room := fun busy => by simp at busy
          written := fun busy => by simp at busy }, ?_⟩
        simp [fifoReplay, fifoStep]
        omega
      · have room : q.length + 1 < capacity := by
          by_contra no_room
          exact full (next_is ▸ mod_succ_eq_self inv.head_lt (by omega))
        have step : System.producerStep ⟨ring, ⟨.loadedTail, pitem, cur, next⟩, c⟩ item =
            (⟨ring, ⟨.checkedHead, pitem, cur, next⟩, c⟩, []) := by
          simp [System.producerStep, full]
        rw [StepOk, step]
        exact ⟨q, { inv with
          producer := fun _ => ⟨cur_eq, next_eq⟩
          room := fun _ => room
          written := fun busy => by simp at busy }, rfl⟩
  | checkedHead =>
      obtain ⟨cur_eq, next_eq⟩ : cur = ring.tail ∧ next = (ring.tail + 1) % capacity := inv.producer (by simp)
      have room : q.length + 1 < capacity := inv.room (by simp)
      refine ⟨q, { inv with
        slots := fun i lt => ?_
        producer := fun _ => ⟨cur_eq, next_eq⟩
        room := fun _ => room
        written := fun _ => by simp [System.producerStep] }, rfl⟩
      have other : (ring.head + i) % capacity ≠ cur := by
        rw [cur_eq, tail_eq]
        exact add_mod_ne lt (by omega)
      simpa [System.producerStep, other] using inv.slots i lt
  | wroteSlot =>
      obtain ⟨cur_eq, next_eq⟩ : cur = ring.tail ∧ next = (ring.tail + 1) % capacity := inv.producer (by simp)
      have room : q.length + 1 < capacity := inv.room (by simp)
      have written : ring.buffer cur = pitem := inv.written rfl
      refine ⟨q ++ [pitem], ⟨inv.head_lt, by simp; omega, ?_, fun i lt => ?_, fun idle => absurd rfl idle,
        fun busy => by simp [System.producerStep] at busy, fun busy => by simp [System.producerStep] at busy,
        inv.consumer, fun _ => by simp, fun reading => ?_⟩, ?_⟩
      · show next = (ring.head + (q ++ [pitem]).length) % capacity
        rw [next_eq, tail_eq, Nat.mod_add_mod, List.length_append, List.length_singleton, Nat.add_assoc]
      · show some (ring.buffer ((ring.head + i) % capacity)) = (q ++ [pitem])[i]?
        rw [List.length_append, List.length_singleton] at lt
        rcases Nat.lt_succ_iff_lt_or_eq.1 lt with old | last
        · rw [List.getElem?_append_left old]
          exact inv.slots i old
        · subst last
          rw [List.getElem?_append_right (le_refl _), Nat.sub_self, ← tail_eq, ← cur_eq, written]
          rfl
      · obtain ⟨x, rest, rfl⟩ := List.exists_cons_of_ne_nil (inv.nonempty (Or.inr reading))
        simpa using inv.taken reading
      · simp [System.producerStep, fifoReplay, fifoStep]
        omega

theorem consumerStep_ok (inv : Inv s q) : StepOk q s.consumerStep := by
  have pos : 0 < capacity := by obtain ⟨k, rfl⟩ := pow; exact Nat.two_pow_pos k
  obtain ⟨ring, p, ⟨pc, cur, citem⟩⟩ := s
  have bound := inv.bound
  have tail_eq : ring.tail = (ring.head + q.length) % capacity := inv.tail_eq
  cases pc with
  | idle =>
      exact ⟨q, { inv with
        consumer := fun _ => rfl
        nonempty := fun busy => by simp [System.consumerStep] at busy
        taken := fun busy => by simp [System.consumerStep] at busy }, rfl⟩
  | loadedHead =>
      have cur_eq : cur = ring.head := inv.consumer (by simp)
      by_cases empty : cur = ring.tail
      · have none_left : q = [] := by
          by_contra held
          exact mod_ne_self inv.head_lt (List.length_pos.2 held) (by omega)
            (tail_eq ▸ (cur_eq ▸ empty).symm)
        have step : System.consumerStep ⟨ring, p, ⟨.loadedHead, cur, citem⟩⟩ =
            (⟨ring, p, ⟨.idle, cur, citem⟩⟩, [.pop none]) := by
          simp [System.consumerStep, empty]
        rw [StepOk, step]
        refine ⟨q, { inv with
          consumer := fun idle => absurd rfl idle
          nonempty := fun busy => by simp at busy
          taken := fun busy => by simp at busy }, ?_⟩
        simp [fifoReplay, fifoStep, none_left]
      · have held : q ≠ [] := by
          rintro rfl
          exact empty (by rw [cur_eq, tail_eq, List.length_nil, Nat.add_zero, Nat.mod_eq_of_lt inv.head_lt])
        have step : System.consumerStep ⟨ring, p, ⟨.loadedHead, cur, citem⟩⟩ =
            (⟨ring, p, ⟨.checkedTail, cur, citem⟩⟩, []) := by
          simp [System.consumerStep, empty]
        rw [StepOk, step]
        exact ⟨q, { inv with
          consumer := fun _ => cur_eq
          nonempty := fun _ => held
          taken := fun busy => by simp at busy }, rfl⟩
  | checkedTail =>
      have cur_eq : cur = ring.head := inv.consumer (by simp)
      have held : q ≠ [] := inv.nonempty (by simp)
      have first := inv.slots 0 (List.length_pos.2 held)
      rw [Nat.add_zero, Nat.mod_eq_of_lt inv.head_lt, ← cur_eq] at first
      exact ⟨q, { inv with
        consumer := fun _ => cur_eq
        nonempty := fun _ => held
        taken := fun _ => by rw [List.head?_eq_getElem?, ← first]; rfl }, rfl⟩
  | readSlot =>
      have cur_eq : cur = ring.head := inv.consumer (by simp)
      obtain ⟨x, rest, rfl⟩ := List.exists_cons_of_ne_nil (inv.nonempty (by simp))
      have taken : x = citem := by simpa using inv.taken rfl
      subst taken
      have step : System.consumerStep ⟨ring, p, ⟨.readSlot, cur, x⟩⟩ =
          (⟨{ ring with head := (ring.head + 1) % capacity }, p, ⟨.idle, cur, x⟩⟩, [.pop (some x)]) := by
        simp [System.consumerStep, mask_eq_mod pow, cur_eq]
      rw [StepOk, step]
      refine ⟨rest, ⟨Nat.mod_lt _ pos, by simp at bound; omega, ?_, fun i lt => ?_, inv.producer,
        fun busy => by have := inv.room busy; simp at this; omega, inv.written,
        fun idle => absurd rfl idle, fun busy => by simp at busy, fun busy => by simp at busy⟩, ?_⟩
      · show ring.tail = ((ring.head + 1) % capacity + rest.length) % capacity
        rw [tail_eq, Nat.mod_add_mod, List.length_cons, Nat.add_right_comm, Nat.add_assoc]
      · show some (ring.buffer (((ring.head + 1) % capacity + i) % capacity)) = rest[i]?
        have := inv.slots (i + 1) (by simp; omega)
        rw [List.getElem?_cons_succ] at this
        rw [Nat.mod_add_mod, show ring.head + 1 + i = ring.head + (i + 1) by omega]
        exact this
      · simp [fifoReplay, fifoStep]

theorem step_ok (inv : Inv s q) (t : Turn T) : StepOk q (s.step t) := by
  cases t with
  | producer item => exact producerStep_ok pow inv item
  | consumer => exact consumerStep_ok pow inv

theorem runFrom_ok : ∀ (turns : List (Turn T)) (s : System T capacity) (log : List (Event T)) (q : List T),
    Inv s q → fifoReplay (capacity - 1) [] log = some q →
    ∃ q', Inv (s.runFrom log turns).1 q' ∧ fifoReplay (capacity - 1) [] (s.runFrom log turns).2 = some q' := by
  intro turns
  induction turns with
  | nil => intro s log q inv replayed; exact ⟨q, inv, replayed⟩
  | cons t rest ih =>
      intro s log q inv replayed
      obtain ⟨q', inv', stepped⟩ := step_ok pow inv t
      exact ih _ _ q' inv' (by rw [fifoReplay_append, replayed, Option.some_bind, stepped])

end Steps

/-- One producer and one consumer on a power-of-two ring with a `size_t`
capacity, interleaved access by access in any order: the calls, in the order of
their linearization points, are a run of the bounded FIFO queue of capacity
`Capacity - 1`, so each successful pop returns the oldest pending item, a push
is refused only with `Capacity - 1` items pending and a pop only with none.
The slot the consumer is about to read holds that oldest item, whose push has
completed, and is not the slot the producer is about to write; with both
threads idle `size()` is the number pending. -/
theorem spsc_linearizable [DecidableEq T] [Inhabited T] (pow : capacity.isPowerOfTwo)
    (fits : capacity < 2 ^ 64) (turns : List (Turn T)) :
    ∃ q, fifoReplay (capacity - 1) [] (System.run turns : System T capacity × _).2 = some q ∧
      ((System.run turns : System T capacity × _).1.consumer.pc = .checkedTail →
        some ((System.run turns : System T capacity × _).1.ring.buffer
          (System.run turns : System T capacity × _).1.consumer.currentHead) = q.head? ∧
        ((System.run turns : System T capacity × _).1.producer.pc = .checkedHead →
          (System.run turns : System T capacity × _).1.producer.currentTail ≠
            (System.run turns : System T capacity × _).1.consumer.currentHead)) ∧
      ((System.run turns : System T capacity × _).1.producer.pc = .idle →
        (System.run turns : System T capacity × _).1.consumer.pc = .idle →
        (System.run turns : System T capacity × _).1.ring.size = q.length) := by
  obtain ⟨k, rfl⟩ := pow
  have word : 2 ^ k ∣ 2 ^ 64 := Nat.pow_dvd_pow 2 (Nat.le_of_lt ((Nat.pow_lt_pow_iff_right (by decide)).1 fits))
  obtain ⟨q, inv, replayed⟩ := runFrom_ok ⟨k, rfl⟩ turns System.init [] [] (inv_init (Nat.two_pow_pos k)) rfl
  unfold System.run
  refine ⟨q, replayed, fun reading => ⟨?_, fun writing => ?_⟩, fun _ _ => ?_⟩
  · have first := inv.slots 0 (List.length_pos.2 (inv.nonempty (Or.inl reading)))
    rw [Nat.add_zero, Nat.mod_eq_of_lt inv.head_lt] at first
    rw [inv.consumer (by rw [reading]; simp), first, List.head?_eq_getElem?]
  · rw [(inv.producer (by rw [writing]; simp)).1, inv.consumer (by rw [reading]; simp), inv.tail_eq]
    exact mod_ne_self inv.head_lt (List.length_pos.2 (inv.nonempty (Or.inl reading)))
      (by have := inv.room (Or.inl writing); omega)
  · rw [CircularBuffer.size, mask_eq_mod ⟨k, rfl⟩, inv.tail_eq]
    exact distance_mod inv.head_lt (by have := inv.bound; omega) word

/-! ## Every call returns -/

theorem runFrom_append (s : System T capacity) (log : List (Event T)) (xs ys : List (Turn T)) :
    s.runFrom log (xs ++ ys) = (s.runFrom log xs).1.runFrom (s.runFrom log xs).2 ys := by
  induction xs generalizing s log with
  | nil => rfl
  | cons t rest ih => exact ih _ _

/-- Four slots, one push and one pop interleaved access by access. -/
theorem spsc_four_slots :
    (4 : Nat).isPowerOfTwo ∧ 4 < 2 ^ 64 ∧
      ∃ q, fifoReplay (4 - 1) [] (System.run [.producer 7, .consumer, .producer 7, .consumer, .producer 7,
          .consumer, .consumer, .producer 7] : System Nat 4 × _).2 = some q ∧
        ((System.run [.producer 7, .consumer, .producer 7, .consumer, .producer 7,
          .consumer, .consumer, .producer 7] : System Nat 4 × _).1.consumer.pc = .checkedTail →
          some ((System.run [.producer 7, .consumer, .producer 7, .consumer, .producer 7,
            .consumer, .consumer, .producer 7] : System Nat 4 × _).1.ring.buffer
            (System.run [.producer 7, .consumer, .producer 7, .consumer, .producer 7,
              .consumer, .consumer, .producer 7] : System Nat 4 × _).1.consumer.currentHead) = q.head? ∧
          ((System.run [.producer 7, .consumer, .producer 7, .consumer, .producer 7,
            .consumer, .consumer, .producer 7] : System Nat 4 × _).1.producer.pc = .checkedHead →
            (System.run [.producer 7, .consumer, .producer 7, .consumer, .producer 7,
              .consumer, .consumer, .producer 7] : System Nat 4 × _).1.producer.currentTail ≠
              (System.run [.producer 7, .consumer, .producer 7, .consumer, .producer 7,
                .consumer, .consumer, .producer 7] : System Nat 4 × _).1.consumer.currentHead)) ∧
        ((System.run [.producer 7, .consumer, .producer 7, .consumer, .producer 7,
          .consumer, .consumer, .producer 7] : System Nat 4 × _).1.producer.pc = .idle →
          (System.run [.producer 7, .consumer, .producer 7, .consumer, .producer 7,
            .consumer, .consumer, .producer 7] : System Nat 4 × _).1.consumer.pc = .idle →
          (System.run [.producer 7, .consumer, .producer 7, .consumer, .producer 7,
            .consumer, .consumer, .producer 7] : System Nat 4 × _).1.ring.size = q.length) :=
  ⟨⟨2, rfl⟩, by decide, spsc_linearizable ⟨2, rfl⟩ (by decide) _⟩

end Hft.Spsc
