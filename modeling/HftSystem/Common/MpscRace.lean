import HftSystem.Common.MpscRing

/-!
# The multi-producer ring under interleaving

`MPSCCircularBuffer<T, Capacity>` of `circular_buffer.h` with any number of
threads in `push` and one in `pop`, each call cut into its shared-memory
accesses, one step each:

* `push(item)`: load `tail_`; load `buffer_[pos].sequence` and compare (on
  `diff < 0` return `false`, on `diff > 0` go on to reload `tail_`); the
  compare-exchange of `tail_` (a failure reloads `tail`); write the payload;
  store the sequence `tail + 1` and return `true`;
* `pop(item)`: the same with `head_`, the expected sequence `head + 1`, a
  read of the payload, and the store of `head + SIZE`.

A schedule says which thread takes the next step, and what a producer pushes
when it starts a call; accesses are sequentially consistent, and a weak
compare-exchange does not fail spuriously (a schedule with spurious failures
only adds retries).  Each call is logged when it returns.

For a capacity of two or more the constructor's sequence 0 in slot 1 stops
every push after the first under every interleaving too: `Stuck` holds of
every reachable state, and at most one push returns `true`
(`concurrent_push_accepted_at_most_once`).  The `static_assert` also admits
`Capacity = 1`, where the slot a push publishes is at once free for the next
push: a second producer overwrites the payload the consumer is about to read,
and one value is popped twice (`capacity_one_pops_twice`).
-/

set_option autoImplicit false

namespace Hft.MpscRace

open Hft.Bytes Hft.Ring

inductive PushPc where
  | idle
  | loaded
  | reloading
  | claiming
  | claimed
  | written
  deriving DecidableEq

structure Producer (T : Type) where
  pc : PushPc
  item : T
  tail : Nat

inductive PopPc where
  | idle
  | loaded
  | reloading
  | claiming
  | claimed
  | read
  deriving DecidableEq

structure Consumer (T : Type) where
  pc : PopPc
  head : Nat
  item : T

structure System (T : Type) (size : Nat) where
  ring : MPSCCircularBuffer T size
  producers : Nat → Producer T
  consumer : Consumer T

inductive Event (T : Type) where
  | push (producer : Nat) (item : T) (ok : Bool)
  | pop (item : Option T)
  deriving DecidableEq

variable {T : Type} {size : Nat}

def System.init [Inhabited T] : System T size :=
  ⟨MPSCCircularBuffer.init, fun _ => ⟨.idle, default, 0⟩, ⟨.idle, 0, default⟩⟩

def System.setProducer (s : System T size) (p : Nat) (pr : Producer T) : System T size :=
  { s with producers := fun q => if q = p then pr else s.producers q }

/-- The next access of producer `p`; an idle producer starts `push(item)`. -/
def System.producerStep (s : System T size) (p : Nat) (item : T) : System T size × List (Event T) :=
  let pr := s.producers p
  let pos := pr.tail &&& (size - 1)
  match pr.pc with
  | .idle => (s.setProducer p ⟨.loaded, item, s.ring.tail⟩, [])
  | .loaded =>
      let diff := toIntptr (s.ring.sequence pos) - toIntptr pr.tail
      if diff = 0 then (s.setProducer p { pr with pc := .claiming }, [])
      else if diff < 0 then (s.setProducer p { pr with pc := .idle }, [.push p pr.item false])
      else (s.setProducer p { pr with pc := .reloading }, [])
  | .reloading => (s.setProducer p { pr with pc := .loaded, tail := s.ring.tail }, [])
  | .claiming =>
      if s.ring.tail = pr.tail then
        ({ s.setProducer p { pr with pc := .claimed } with
            ring := { s.ring with tail := (pr.tail + 1) % 2 ^ 64 } }, [])
      else (s.setProducer p { pr with pc := .loaded, tail := s.ring.tail }, [])
  | .claimed =>
      ({ s.setProducer p { pr with pc := .written } with
          ring := { s.ring with data := fun i => if i = pos then pr.item else s.ring.data i } }, [])
  | .written =>
      ({ s.setProducer p { pr with pc := .idle } with
          ring := { s.ring with
            sequence := fun i => if i = pos then (pr.tail + 1) % 2 ^ 64 else s.ring.sequence i } },
        [.push p pr.item true])

/-- The consumer's next access; an idle consumer starts `pop`. -/
def System.consumerStep (s : System T size) : System T size × List (Event T) :=
  let c := s.consumer
  let pos := c.head &&& (size - 1)
  match c.pc with
  | .idle => ({ s with consumer := { c with pc := .loaded, head := s.ring.head } }, [])
  | .loaded =>
      let diff := toIntptr (s.ring.sequence pos) - toIntptr ((c.head + 1) % 2 ^ 64)
      if diff = 0 then ({ s with consumer := { c with pc := .claiming } }, [])
      else if diff < 0 then ({ s with consumer := { c with pc := .idle } }, [.pop none])
      else ({ s with consumer := { c with pc := .reloading } }, [])
  | .reloading => ({ s with consumer := { c with pc := .loaded, head := s.ring.head } }, [])
  | .claiming =>
      if s.ring.head = c.head then
        ({ s with
            ring := { s.ring with head := (c.head + 1) % 2 ^ 64 }
            consumer := { c with pc := .claimed } }, [])
      else ({ s with consumer := { c with pc := .loaded, head := s.ring.head } }, [])
  | .claimed => ({ s with consumer := { c with pc := .read, item := s.ring.data pos } }, [])
  | .read =>
      ({ s with
          ring := { s.ring with
            sequence := fun i => if i = pos then (c.head + size) % 2 ^ 64 else s.ring.sequence i }
          consumer := { c with pc := .idle } }, [.pop (some c.item)])

inductive Turn (T : Type) where
  | producer (p : Nat) (item : T)
  | consumer

def System.step (s : System T size) : Turn T → System T size × List (Event T)
  | .producer p item => s.producerStep p item
  | .consumer => s.consumerStep

def System.runFrom (s : System T size) (log : List (Event T)) : List (Turn T) → System T size × List (Event T)
  | [] => (s, log)
  | t :: rest => (s.step t).1.runFrom (log ++ (s.step t).2) rest

/-- A schedule from the constructor. -/
def System.run [Inhabited T] (turns : List (Turn T)) : System T size × List (Event T) :=
  System.init.runFrom [] turns

@[simp] theorem setProducer_ring (s : System T size) (p : Nat) (pr : Producer T) :
    (s.setProducer p pr).ring = s.ring :=
  rfl

@[simp] theorem setProducer_consumer (s : System T size) (p : Nat) (pr : Producer T) :
    (s.setProducer p pr).consumer = s.consumer :=
  rfl

@[simp] theorem setProducer_producers (s : System T size) (p q : Nat) (pr : Producer T) :
    (s.setProducer p pr).producers q = if q = p then pr else s.producers q :=
  rfl

/-! ## Capacity two or more: one push at most -/

def Event.accepted : Event T → Bool
  | .push _ _ ok => ok
  | .pop _ => false

/-- A producer that has won `tail_` and not yet published its slot. -/
def PushPc.inFlight : PushPc → Bool
  | .claimed | .written => true
  | _ => false

/-- A producer about to try the compare-exchange of `tail_`, or past it. -/
def PushPc.claims : PushPc → Bool
  | .claiming | .claimed | .written => true
  | _ => false

/-- The consumer about to try the compare-exchange of `head_`, or past it. -/
def PopPc.takes : PopPc → Bool
  | .claiming | .claimed | .read => true
  | _ => false

/-- Every reachable state of a ring of two or more slots, as the constructor
leaves slot 1 at sequence 0, with `accepted` the pushes that returned `true`:
the counters never pass 1, only slot 0 is ever claimed, by one producer at a
time and only while `tail_` is 0, and at most the one push that published it
has returned `true`. -/
structure Stuck (s : System T size) (accepted : Nat) : Prop where
  ring_tail : s.ring.tail ≤ 1
  ring_head : s.ring.head ≤ 1
  seq_one : s.ring.sequence 1 = 0
  producer_tail : ∀ p, (s.producers p).tail ≤ 1
  claim_at_zero : ∀ p, (s.producers p).pc.claims = true → (s.producers p).tail = 0
  consumer_head : s.consumer.head ≤ 1
  take_at_zero : s.consumer.pc.takes = true → s.consumer.head = 0
  one_in_flight : ∀ p q, (s.producers p).pc.inFlight = true → (s.producers q).pc.inFlight = true → p = q
  fresh : s.ring.tail = 0 → ∀ p, (s.producers p).pc.inFlight = false
  unpublished : ∀ p, (s.producers p).pc.inFlight = true → accepted = 0
  untouched : s.ring.tail = 0 → accepted = 0
  accepted_le : accepted ≤ 1

theorem stuck_init [Inhabited T] : Stuck (System.init : System T size) 0 where
  ring_tail := by simp [System.init, MPSCCircularBuffer.init]
  ring_head := by simp [System.init, MPSCCircularBuffer.init]
  seq_one := rfl
  producer_tail _ := by simp [System.init]
  claim_at_zero _ _ := rfl
  consumer_head := by simp [System.init]
  take_at_zero _ := rfl
  one_in_flight _ _ flight := by simp [System.init, PushPc.inFlight] at flight
  fresh _ _ := rfl
  unpublished _ _ := rfl
  untouched _ := rfl
  accepted_le := Nat.zero_le 1

theorem claims_of_inFlight {pc : PushPc} (flight : pc.inFlight = true) : pc.claims = true := by
  cases pc <;> simp_all [PushPc.inFlight, PushPc.claims]

section Local

variable {s : System T size} {accepted : Nat}

theorem Stuck.setProducer (inv : Stuck s accepted) (p : Nat) (pr : Producer T) (tail : pr.tail ≤ 1)
    (claim : pr.pc.claims = true → pr.tail = 0)
    (flight : pr.pc.inFlight = true → (s.producers p).pc.inFlight = true) :
    Stuck (s.setProducer p pr) accepted where
  ring_tail := inv.ring_tail
  ring_head := inv.ring_head
  seq_one := inv.seq_one
  producer_tail q := by
    by_cases same : q = p
    · simpa [same] using tail
    · simpa [same] using inv.producer_tail q
  claim_at_zero q := by
    by_cases same : q = p
    · simpa [same] using claim
    · simpa [same] using inv.claim_at_zero q
  consumer_head := inv.consumer_head
  take_at_zero := inv.take_at_zero
  one_in_flight q r := by
    have old : ∀ u, ((s.setProducer p pr).producers u).pc.inFlight = true → (s.producers u).pc.inFlight = true := by
      intro u
      by_cases same : u = p
      · simpa [same] using flight
      · simp [same]
    exact fun fq fr => inv.one_in_flight q r (old q fq) (old r fr)
  fresh zero q := by
    by_cases same : q = p
    · simpa [same] using mt flight (by simp [inv.fresh zero p])
    · simpa [same] using inv.fresh zero q
  unpublished q := by
    by_cases same : q = p
    · simpa [same] using fun f => inv.unpublished p (flight f)
    · simpa [same] using inv.unpublished q
  untouched := inv.untouched
  accepted_le := inv.accepted_le

theorem Stuck.setData (inv : Stuck s accepted) (data : Nat → T) :
    Stuck ({ s with ring := { s.ring with data := data } } : System T size) accepted :=
  { inv with }

theorem Stuck.setConsumer (inv : Stuck s accepted) (c : Consumer T) (head : c.head ≤ 1)
    (take : c.pc.takes = true → c.head = 0) : Stuck { s with consumer := c } accepted :=
  { inv with consumer_head := head, take_at_zero := take }

end Local

section Stuck

variable (pow : size.isPowerOfTwo) (two : 2 ≤ size)
include pow two

theorem slot_of_le_one {x : Nat} (le : x ≤ 1) : x &&& (size - 1) = x := by
  rw [mask_eq_mod pow, Nat.mod_eq_of_lt (by omega)]

theorem stuck_producerStep {s : System T size} {accepted : Nat} (inv : Stuck s accepted) (p : Nat) (item : T) :
    Stuck (s.producerStep p item).1 (accepted + (s.producerStep p item).2.countP Event.accepted) := by
  simp only [System.producerStep]
  split
  next idle =>
    exact inv.setProducer p _ inv.ring_tail (by simp [PushPc.claims]) (by simp [PushPc.inFlight])
  next loaded =>
    split_ifs with equal behind
    · -- the sequence matched: slot 1 never does, so the producer is at slot 0
      have at_zero : (s.producers p).tail = 0 := by
        rcases Nat.le_one_iff_eq_zero_or_eq_one.1 (inv.producer_tail p) with zero | one
        · exact zero
        · rw [one, slot_of_le_one pow two le_rfl, inv.seq_one] at equal
          simp [toIntptr] at equal
      exact inv.setProducer p { s.producers p with pc := .claiming } (inv.producer_tail p) (fun _ => at_zero)
        (by simp [PushPc.inFlight])
    · exact inv.setProducer p { s.producers p with pc := .idle } (inv.producer_tail p) (by simp [PushPc.claims])
        (by simp [PushPc.inFlight])
    · exact inv.setProducer p { s.producers p with pc := .reloading } (inv.producer_tail p)
        (by simp [PushPc.claims]) (by simp [PushPc.inFlight])
  next reloading =>
    exact inv.setProducer p _ inv.ring_tail (by simp [PushPc.claims]) (by simp [PushPc.inFlight])
  next claiming =>
    split_ifs with won
    · -- the compare-exchange wins `tail_` from 0: the only claim there is
      have at_zero : (s.producers p).tail = 0 := inv.claim_at_zero p (by simp [claiming, PushPc.claims])
      have ring_zero : s.ring.tail = 0 := won.trans at_zero
      have only : ∀ q, ((s.setProducer p { s.producers p with pc := .claimed }).producers q).pc.inFlight = true →
          q = p := by
        intro q
        by_cases same : q = p
        · exact fun _ => same
        · simp [same, inv.fresh ring_zero q]
      exact {
        ring_tail := by simp [at_zero]
        ring_head := inv.ring_head
        seq_one := inv.seq_one
        producer_tail := fun q => by
          by_cases same : q = p
          · simpa [same] using inv.producer_tail p
          · simpa [same] using inv.producer_tail q
        claim_at_zero := fun q => by
          by_cases same : q = p
          · simp [same, at_zero]
          · simpa [same] using inv.claim_at_zero q
        consumer_head := inv.consumer_head
        take_at_zero := inv.take_at_zero
        one_in_flight := fun q r fq fr => (only q fq).trans (only r fr).symm
        fresh := fun zero => by simp [at_zero] at zero
        unpublished := fun _ _ => inv.untouched ring_zero
        untouched := fun _ => inv.untouched ring_zero
        accepted_le := by simp [inv.untouched ring_zero] }
    · exact inv.setProducer p _ inv.ring_tail (by simp [PushPc.claims]) (by simp [PushPc.inFlight])
  next claimed =>
    exact (inv.setProducer p { s.producers p with pc := .written } (inv.producer_tail p)
      (fun _ => inv.claim_at_zero p (by simp [claimed, PushPc.claims]))
      (fun _ => by simp [claimed, PushPc.inFlight])).setData _
  next written =>
    -- the publish of slot 0, and the one push that returns `true`
    have flight : (s.producers p).pc.inFlight = true := by simp [written, PushPc.inFlight]
    have at_zero : (s.producers p).tail = 0 := inv.claim_at_zero p (claims_of_inFlight flight)
    have claimed_once : s.ring.tail ≠ 0 := fun zero => by simp [inv.fresh zero p] at flight
    have none : ∀ q, ((s.setProducer p { s.producers p with pc := .idle }).producers q).pc.inFlight = false := by
      intro q
      by_cases same : q = p
      · simp [same, PushPc.inFlight]
      · simpa [same] using mt (fun f => inv.one_in_flight q p f flight) same
    have idle := inv.setProducer p { s.producers p with pc := .idle } (inv.producer_tail p)
      (by simp [PushPc.claims]) (by simp [PushPc.inFlight])
    exact {
      ring_tail := inv.ring_tail
      ring_head := inv.ring_head
      seq_one := by simp [at_zero, slot_zero pow, inv.seq_one]
      producer_tail := idle.producer_tail
      claim_at_zero := idle.claim_at_zero
      consumer_head := inv.consumer_head
      take_at_zero := inv.take_at_zero
      one_in_flight := fun q _ fq => absurd ((none q).symm.trans fq) Bool.false_ne_true
      fresh := fun _ => none
      unpublished := fun q fq => absurd ((none q).symm.trans fq) Bool.false_ne_true
      untouched := fun zero => absurd zero claimed_once
      accepted_le := by simp [inv.unpublished p flight, Event.accepted] }

theorem stuck_consumerStep {s : System T size} {accepted : Nat} (inv : Stuck s accepted) :
    Stuck s.consumerStep.1 (accepted + s.consumerStep.2.countP Event.accepted) := by
  simp only [System.consumerStep]
  split
  next idle =>
    exact inv.setConsumer { s.consumer with pc := .loaded, head := s.ring.head } inv.ring_head (by simp [PopPc.takes])
  next loaded =>
    split_ifs with equal behind
    · -- the sequence matched: slot 1 never does, so the consumer is at slot 0
      have at_zero : s.consumer.head = 0 := by
        rcases Nat.le_one_iff_eq_zero_or_eq_one.1 inv.consumer_head with zero | one
        · exact zero
        · rw [one, slot_of_le_one pow two le_rfl, inv.seq_one] at equal
          simp [toIntptr] at equal
      exact inv.setConsumer { s.consumer with pc := .claiming } inv.consumer_head (fun _ => at_zero)
    · exact inv.setConsumer { s.consumer with pc := .idle } inv.consumer_head (by simp [PopPc.takes])
    · exact inv.setConsumer { s.consumer with pc := .reloading } inv.consumer_head (by simp [PopPc.takes])
  next reloading =>
    exact inv.setConsumer { s.consumer with pc := .loaded, head := s.ring.head } inv.ring_head (by simp [PopPc.takes])
  next claiming =>
    have at_zero : s.consumer.head = 0 := inv.take_at_zero (by simp [claiming, PopPc.takes])
    split_ifs
    · exact { inv.setConsumer { s.consumer with pc := .claimed } inv.consumer_head (fun _ => at_zero) with
        ring_head := by simp [at_zero] }
    · exact inv.setConsumer { s.consumer with pc := .loaded, head := s.ring.head } inv.ring_head (by simp [PopPc.takes])
  next claimed =>
    exact inv.setConsumer { s.consumer with pc := .read, item := s.ring.data (s.consumer.head &&& (size - 1)) }
      inv.consumer_head (fun _ => inv.take_at_zero (by simp [claimed, PopPc.takes]))
  next read =>
    have at_zero : s.consumer.head = 0 := inv.take_at_zero (by simp [read, PopPc.takes])
    exact { inv.setConsumer { s.consumer with pc := .idle } inv.consumer_head (by simp [PopPc.takes]) with
      seq_one := by simp [at_zero, slot_zero pow, inv.seq_one] }

theorem stuck_runFrom : ∀ (turns : List (Turn T)) (s : System T size) (log : List (Event T)),
    Stuck s (log.countP Event.accepted) → Stuck (s.runFrom log turns).1 ((s.runFrom log turns).2.countP Event.accepted) := by
  intro turns
  induction turns with
  | nil => intro s log inv; exact inv
  | cons turn rest ih =>
      intro s log inv
      apply ih
      rw [List.countP_append]
      cases turn with
      | producer p item => exact stuck_producerStep pow two inv p item
      | consumer => exact stuck_consumerStep pow two inv

/-- On a ring of a power-of-two capacity of at least two, with any number of
producers and any interleaving of their steps with the consumer's, at most one
push returns `true`: the constructor's sequence 0 in slot 1 stops every push
after the first. -/
theorem concurrent_push_accepted_at_most_once [Inhabited T] (turns : List (Turn T)) :
    ((System.run turns : System T size × List (Event T)).2).countP Event.accepted ≤ 1 :=
  (stuck_runFrom pow two turns _ [] stuck_init).accepted_le

end Stuck

/-- Two slots, two producers racing on five pushes each. -/
theorem two_slots_push_accepted_at_most_once :
    (2 : Nat).isPowerOfTwo ∧ 2 ≤ 2 ∧
      ((System.run (List.replicate 5 (.producer 0 7) ++ List.replicate 5 (.producer 1 8)) :
        System Nat 2 × List (Event Nat)).2).countP Event.accepted ≤ 1 :=
  ⟨⟨1, rfl⟩, le_refl 2, concurrent_push_accepted_at_most_once ⟨1, rfl⟩ (le_refl 2) _⟩

/-! ## Capacity one -/

/-- Producer 0 pushes 7 to completion; the consumer starts a pop and wins
`head_`; producer 1 claims the same slot and writes 8; the consumer reads 8 and
publishes; producer 1 publishes; the consumer pops again. -/
def doublePop : List (Turn Nat) :=
  List.replicate 5 (.producer 0 7) ++ List.replicate 3 .consumer ++ List.replicate 4 (.producer 1 8) ++
    List.replicate 2 .consumer ++ [.producer 1 8] ++ List.replicate 5 .consumer

/-- `MPSCCircularBuffer<int, 1>` passes the `static_assert`; under `doublePop`
both pushes return `true` and both pops return 8: the pushed 8 is popped
twice and the pushed 7 never. -/
theorem capacity_one_pops_twice :
    (1 &&& (1 - 1) = 0) ∧
      ((System.run doublePop : System Nat 1 × List (Event Nat)).2 =
        [.push 0 7 true, .pop (some 8), .push 1 8 true, .pop (some 8)]) := by
  decide

end Hft.MpscRace
