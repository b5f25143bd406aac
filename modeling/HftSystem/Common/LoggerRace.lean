import HftSystem.Common.Logger

/-!
# The logger under interleaving

`Logger::log` called from many threads at once, each call cut into its
shared-memory accesses, one step each: the load of `min_level_` (the call
returns if its level is below); the `fetch_add(1)` on `write_index_` that gives
the call its ticket; the store of the timestamp; the store of the level; and
the copy of the message, `strncpy` and the final NUL as one step.
`set_level` is one store.  A schedule says which thread moves next and, for a
thread between calls, which call it starts and the reading `wall_clock_ns()`
will give it.

`fetch_add` hands out each ticket once.  While no more than `BUFFER_SIZE`
calls have taken a ticket, each call writes only its own slot, and no other
call writes that slot.  So once every call that took a ticket has returned,
`flush` prints every admitted call's line, in ticket order, under every
interleaving (`race_flush`).
-/

set_option autoImplicit false

namespace Hft.LogRace

open Hft.Bytes Hft.Log

inductive LogPc where
  | idle
  | admitted
  | ticketed
  | stamped
  | leveled
  deriving DecidableEq

def LogPc.inFlight : LogPc → Bool
  | .ticketed | .stamped | .leveled => true
  | _ => false

structure Caller where
  pc : LogPc
  level : Level
  message : List UInt8
  now : UInt64
  ticket : Nat

def Caller.line (c : Caller) : LogLine :=
  ⟨c.now, c.level.toNat, (cStr c.message).take 255⟩

structure System where
  logger : Logger
  callers : Nat → Caller

inductive Turn where
  | log (thread : Nat) (level : Level) (message : List UInt8) (now : UInt64)
  | setLevel (level : Level)

def System.init : System :=
  ⟨Logger.init, fun _ => ⟨.idle, .debug, [], 0, 0⟩⟩

def System.setCaller (s : System) (t : Nat) (c : Caller) : System :=
  { s with callers := fun u => if u = t then c else s.callers u }

def System.setEntry (s : System) (i : Nat) (e : LogEntry) : System :=
  { s with logger := { s.logger with buffer := fun j => if j = i then e else s.logger.buffer j } }

/-- The next access of thread `t`; the call's line is logged when it takes its
ticket. -/
def System.callerStep (s : System) (t : Nat) (level : Level) (message : List UInt8) (now : UInt64) :
    System × List LogLine :=
  let c := s.callers t
  let lg := s.logger
  let slot := c.ticket % bufferSize
  let e := lg.buffer slot
  match c.pc with
  | .idle =>
      if level.toNat < lg.minLevel.toNat then (s, [])
      else (s.setCaller t ⟨.admitted, level, message, now, c.ticket⟩, [])
  | .admitted =>
      ({ s.setCaller t { c with pc := .ticketed, ticket := lg.writeIndex } with
          logger := { lg with writeIndex := (lg.writeIndex + 1) % 2 ^ 64 } }, [c.line])
  | .ticketed => ((s.setCaller t { c with pc := .stamped }).setEntry slot { e with timestamp := c.now }, [])
  | .stamped => ((s.setCaller t { c with pc := .leveled }).setEntry slot { e with level := c.level }, [])
  | .leveled =>
      ((s.setCaller t { c with pc := .idle }).setEntry slot
        { e with message := (strncpy e.message c.message 255).set 255 0 }, [])

def System.step (s : System) : Turn → System × List LogLine
  | .log t level message now => s.callerStep t level message now
  | .setLevel level => ({ s with logger := s.logger.setLevel level }, [])

def System.runFrom (s : System) (log : List LogLine) : List Turn → System × List LogLine
  | [] => (s, log)
  | turn :: rest => (s.step turn).1.runFrom (log ++ (s.step turn).2) rest

@[simp] theorem setCaller_logger (s : System) (t : Nat) (c : Caller) : (s.setCaller t c).logger = s.logger :=
  rfl

@[simp] theorem setCaller_callers (s : System) (t u : Nat) (c : Caller) :
    (s.setCaller t c).callers u = if u = t then c else s.callers u :=
  rfl

@[simp] theorem setEntry_callers (s : System) (i : Nat) (e : LogEntry) : (s.setEntry i e).callers = s.callers :=
  rfl

@[simp] theorem setEntry_writeIndex (s : System) (i : Nat) (e : LogEntry) :
    (s.setEntry i e).logger.writeIndex = s.logger.writeIndex :=
  rfl

@[simp] theorem setEntry_minLevel (s : System) (i : Nat) (e : LogEntry) :
    (s.setEntry i e).logger.minLevel = s.logger.minLevel :=
  rfl

@[simp] theorem setEntry_buffer (s : System) (i j : Nat) (e : LogEntry) :
    (s.setEntry i e).logger.buffer j = if j = i then e else s.logger.buffer j :=
  rfl

def Turn.moves (u : Nat) : Turn → Bool
  | .log t _ _ _ => t == u
  | .setLevel _ => false

theorem runFrom_callers_other (u : Nat) (turns : List Turn) (absent : ∀ turn ∈ turns, turn.moves u = false) :
    ∀ (s : System) (log : List LogLine), (s.runFrom log turns).1.callers u = s.callers u := by
  induction turns with
  | nil => intro s log; rfl
  | cons turn rest ih =>
      intro s log
      rw [System.runFrom, ih (fun turn member => absent turn (List.mem_cons_of_mem _ member))]
      cases turn with
      | setLevel level => rfl
      | log t level message now =>
          have other : u ≠ t := fun same => by simp [Turn.moves, same] at absent
          simp only [System.step, System.callerStep]
          split <;> (try split_ifs) <;> simp [other]

/-! ## Every interleaving below `BUFFER_SIZE` tickets -/

/-- The system after the tickets `issued`, at most `BUFFER_SIZE` of them:
`write_index_` counts them; each call in flight holds one, no two the same,
and has stored its timestamp and level in its slot once its steps have come
that far; every other slot below the count holds the line of its ticket, and
every slot above it still has timestamp 0. -/
structure RaceInv (s : System) (issued : List LogLine) : Prop where
  index : s.logger.writeIndex = issued.length
  within : issued.length ≤ bufferSize
  sized : ∀ i, (s.logger.buffer i).message.length = 256
  ticket : ∀ t, (s.callers t).pc.inFlight →
    (s.callers t).ticket < issued.length ∧ issued[(s.callers t).ticket]? = some (s.callers t).line
  unique : ∀ t u, (s.callers t).pc.inFlight → (s.callers u).pc.inFlight →
    (s.callers t).ticket = (s.callers u).ticket → t = u
  stamped : ∀ t, (s.callers t).pc = .stamped ∨ (s.callers t).pc = .leveled →
    (s.logger.buffer (s.callers t).ticket).timestamp = (s.callers t).now
  leveled : ∀ t, (s.callers t).pc = .leveled → (s.logger.buffer (s.callers t).ticket).level = (s.callers t).level
  done : ∀ i < issued.length, (∀ t, (s.callers t).pc.inFlight → (s.callers t).ticket ≠ i) →
    (s.logger.buffer i).line = issued[i]?.getD blank
  fresh : ∀ i, issued.length ≤ i → i < bufferSize → (s.logger.buffer i).timestamp = 0

theorem raceInv_init : RaceInv System.init [] where
  index := rfl
  within := Nat.zero_le _
  sized _ := List.length_replicate 256 0
  ticket _ flight := absurd flight (by simp [System.init, LogPc.inFlight])
  unique _ _ flight := absurd flight (by simp [System.init, LogPc.inFlight])
  stamped _ pc := by simp [System.init] at pc
  leveled _ pc := by simp [System.init] at pc
  done _ lt := absurd lt (Nat.not_lt_zero _)
  fresh _ _ _ := rfl

section Steps

variable {s : System} {issued : List LogLine}

theorem RaceInv.slot (inv : RaceInv s issued) {t : Nat} (flight : (s.callers t).pc.inFlight) :
    (s.callers t).ticket % bufferSize = (s.callers t).ticket :=
  Nat.mod_eq_of_lt (lt_of_lt_of_le (inv.ticket t flight).1 inv.within)

theorem RaceInv.setCaller_quiet (inv : RaceInv s issued) (t : Nat) (c : Caller)
    (before : (s.callers t).pc.inFlight = false) (after : c.pc.inFlight = false) :
    RaceInv (s.setCaller t c) issued := by
  have other : ∀ u, ((s.setCaller t c).callers u).pc.inFlight → u ≠ t ∧ (s.setCaller t c).callers u = s.callers u :=
    fun u flight => by
      by_cases same : u = t
      · simp [same, after] at flight
      · exact ⟨same, by simp [same]⟩
  have idle : ∀ u, (s.callers u).pc.inFlight → u ≠ t := fun u flight same => by simp [same ▸ before] at flight
  refine ⟨inv.index, inv.within, inv.sized, fun u flight => ?_, fun u v fu fv same => ?_, fun u pc => ?_,
    fun u pc => ?_, fun i lt free => inv.done i lt fun u flight => ?_, inv.fresh⟩
  · have kept := (other u flight).2
    rw [kept] at flight ⊢
    exact inv.ticket u flight
  · have ku := (other u fu).2
    have kv := (other v fv).2
    rw [ku] at fu same
    rw [kv] at fv same
    exact inv.unique u v fu fv same
  · have kept := (other u (by rcases pc with pc | pc <;> rw [pc] <;> rfl)).2
    rw [kept] at pc ⊢
    exact inv.stamped u pc
  · have kept := (other u (by rw [pc]; rfl)).2
    rw [kept] at pc ⊢
    exact inv.leveled u pc
  · have kept := free u
    rw [setCaller_callers, if_neg (idle u flight)] at kept
    exact kept flight

theorem RaceInv.writeOwn (inv : RaceInv s issued) {t : Nat} (flight : (s.callers t).pc.inFlight)
    (c : Caller) (ticket : c.ticket = (s.callers t).ticket) (line : c.line = (s.callers t).line)
    (e : LogEntry) (sized : e.message.length = 256) (stamped : c.pc = .stamped ∨ c.pc = .leveled → e.timestamp = c.now)
    (leveled : c.pc = .leveled → e.level = c.level) (landed : c.pc.inFlight = false → e.line = c.line) :
    RaceInv ((s.setCaller t c).setEntry (s.callers t).ticket e) issued := by
  have owned := inv.ticket t flight
  -- another thread in flight has another slot
  have apart : ∀ u, u ≠ t → (s.callers u).pc.inFlight → (s.callers u).ticket ≠ (s.callers t).ticket :=
    fun u other fu same => other (inv.unique u t fu flight same)
  refine ⟨inv.index, inv.within, fun i => ?_, fun u fu => ?_, fun u v fu fv same => ?_, fun u pc => ?_,
    fun u pc => ?_, fun i lt free => ?_, fun i above inside => ?_⟩
  · simp only [setEntry_buffer, setCaller_logger]
    split_ifs
    · exact sized
    · exact inv.sized i
  · by_cases same : u = t
    · subst same
      simp only [setEntry_callers, setCaller_callers, if_true] at fu ⊢
      rw [ticket, line]
      exact owned
    · simp only [setEntry_callers, setCaller_callers, if_neg same] at fu ⊢
      exact inv.ticket u fu
  · simp only [setEntry_callers, setCaller_callers] at fu fv same
    by_cases hu : u = t <;> by_cases hv : v = t
    · rw [hu, hv]
    · simp only [if_pos hu, if_neg hv, ticket] at fv same
      exact absurd same.symm (apart v hv fv)
    · simp only [if_neg hu, if_pos hv, ticket] at fu same
      exact absurd same (apart u hu fu)
    · simp only [if_neg hu, if_neg hv] at fu fv same
      exact inv.unique u v fu fv same
  · by_cases same : u = t
    · subst same
      simp only [setEntry_callers, setCaller_callers, if_true, setEntry_buffer, ticket] at pc ⊢
      exact stamped pc
    · simp only [setEntry_callers, setCaller_callers, if_neg same, setEntry_buffer, setCaller_logger] at pc ⊢
      have fu : (s.callers u).pc.inFlight := by rcases pc with pc | pc <;> rw [pc] <;> rfl
      rw [if_neg (apart u same fu)]
      exact inv.stamped u pc
  · by_cases same : u = t
    · subst same
      simp only [setEntry_callers, setCaller_callers, if_true, setEntry_buffer, ticket] at pc ⊢
      exact leveled pc
    · simp only [setEntry_callers, setCaller_callers, if_neg same, setEntry_buffer, setCaller_logger] at pc ⊢
      rw [if_neg (apart u same (by rw [pc]; rfl))]
      exact inv.leveled u pc
  · simp only [setEntry_buffer, setCaller_logger]
    by_cases mine : i = (s.callers t).ticket
    · -- the slot of `t`, which has left flight
      subst mine
      rw [if_pos rfl]
      have left : c.pc.inFlight = false := by
        by_contra still
        exact free t (by simpa using still) (by simpa using ticket)
      rw [landed left, line, owned.2]
      rfl
    · rw [if_neg mine]
      refine inv.done i lt fun u fu => ?_
      by_cases same : u = t
      · exact fun owns => mine (same ▸ owns).symm
      · have kept := free u
        simp only [setEntry_callers, setCaller_callers, if_neg same] at kept
        exact kept fu
  · simp only [setEntry_buffer, setCaller_logger]
    rw [if_neg (by have := owned.1; omega)]
    exact inv.fresh i above inside

theorem RaceInv.take (inv : RaceInv s issued) {t : Nat} (admitted : (s.callers t).pc = .admitted)
    (room : issued.length + 1 ≤ bufferSize) :
    RaceInv (({ s with logger := { s.logger with writeIndex := (s.logger.writeIndex + 1) % 2 ^ 64 } } : System).setCaller
        t { s.callers t with pc := .ticketed, ticket := s.logger.writeIndex })
      (issued ++ [(s.callers t).line]) := by
  have quiet : (s.callers t).pc.inFlight = false := by rw [admitted]; rfl
  have idle : ∀ u, (s.callers u).pc.inFlight → u ≠ t := fun u flight same => by
    rw [same, quiet] at flight
    exact Bool.false_ne_true flight
  have older : ∀ k < issued.length, (issued ++ [(s.callers t).line])[k]? = issued[k]? :=
    fun k lt => List.getElem?_append_left lt
  refine ⟨?_, by simpa using room, inv.sized, fun u fu => ?_, fun u v fu fv same => ?_, fun u pc => ?_,
    fun u pc => ?_, fun i lt free => ?_, fun i above inside => inv.fresh i (by simp at above; omega) inside⟩
  · simp only [inv.index, List.length_append, List.length_singleton]
    exact Nat.mod_eq_of_lt (lt_of_le_of_lt room (by unfold bufferSize; decide))
  · simp only [setCaller_callers] at fu ⊢
    by_cases same : u = t
    · simp only [if_pos same, inv.index, List.length_append, List.length_singleton]
      exact ⟨Nat.lt_succ_self _, by rw [List.getElem?_append_right le_rfl, Nat.sub_self]; rfl⟩
    · simp only [if_neg same] at fu ⊢
      obtain ⟨lt, line⟩ := inv.ticket u fu
      exact ⟨by simp; omega, by rw [older _ lt, line]⟩
  · simp only [setCaller_callers] at fu fv same
    by_cases hu : u = t <;> by_cases hv : v = t
    · rw [hu, hv]
    · simp only [if_pos hu, if_neg hv, inv.index] at fv same
      exact absurd same (Nat.ne_of_gt (inv.ticket v fv).1)
    · simp only [if_neg hu, if_pos hv, inv.index] at fu same
      exact absurd same (Nat.ne_of_lt (inv.ticket u fu).1)
    · simp only [if_neg hu, if_neg hv] at fu fv same
      exact inv.unique u v fu fv same
  · by_cases same : u = t
    · simp [same] at pc
    · simp only [setCaller_callers, if_neg same] at pc ⊢
      exact inv.stamped u pc
  · by_cases same : u = t
    · simp [same] at pc
    · simp only [setCaller_callers, if_neg same] at pc ⊢
      exact inv.leveled u pc
  · simp only [List.length_append, List.length_singleton] at lt
    have old : i < issued.length := by
      refine lt_of_le_of_ne (Nat.le_of_lt_succ lt) fun last => free t ?_ ?_
      · simp
        rfl
      · simp [inv.index, last]
    rw [older i old]
    refine inv.done i old fun u fu => ?_
    have kept := free u
    simp only [setCaller_callers, if_neg (idle u fu)] at kept
    exact kept fu

end Steps

theorem raceInv_step {s : System} {issued : List LogLine} (inv : RaceInv s issued) (turn : Turn)
    (room : issued.length + (s.step turn).2.length ≤ bufferSize) :
    RaceInv (s.step turn).1 (issued ++ (s.step turn).2) := by
  cases turn with
  | setLevel level =>
      rw [System.step, List.append_nil]
      exact ⟨inv.index, inv.within, inv.sized, inv.ticket, inv.unique, inv.stamped, inv.leveled, inv.done,
        inv.fresh⟩
  | log t level message now =>
      cases pc : (s.callers t).pc with
      | idle =>
          simp only [System.step, System.callerStep, pc] at room ⊢
          split_ifs with below
          · rw [List.append_nil]
            exact inv
          · rw [List.append_nil]
            exact inv.setCaller_quiet t _ (by rw [pc]; rfl) rfl
      | admitted =>
          simp only [System.step, System.callerStep, pc] at room ⊢
          exact inv.take pc (by simpa using room)
      | ticketed =>
          have flight : (s.callers t).pc.inFlight := by rw [pc]; rfl
          simp only [System.step, System.callerStep, pc, inv.slot flight, List.append_nil]
          refine inv.writeOwn flight { s.callers t with pc := .stamped } rfl rfl
            { s.logger.buffer (s.callers t).ticket with timestamp := (s.callers t).now } (inv.sized _)
            (fun _ => rfl) ?_ ?_ <;> simp [LogPc.inFlight]
      | stamped =>
          have flight : (s.callers t).pc.inFlight := by rw [pc]; rfl
          simp only [System.step, System.callerStep, pc, inv.slot flight, List.append_nil]
          refine inv.writeOwn flight { s.callers t with pc := .leveled } rfl rfl
            { s.logger.buffer (s.callers t).ticket with level := (s.callers t).level } (inv.sized _)
            (fun _ => inv.stamped t (.inl pc)) (fun _ => rfl) ?_
          simp [LogPc.inFlight]
      | leveled =>
          have flight : (s.callers t).pc.inFlight := by rw [pc]; rfl
          simp only [System.step, System.callerStep, pc, inv.slot flight, List.append_nil]
          refine inv.writeOwn flight { s.callers t with pc := .idle } rfl rfl
            { s.logger.buffer (s.callers t).ticket with
              message := (strncpy (s.logger.buffer (s.callers t).ticket).message (s.callers t).message 255).set 255 0 }
            (length_logged_message _ _ (inv.sized _)) ?_ ?_ fun _ => ?_
          · simp
          · simp
          · simp only [LogEntry.line, Caller.line, cStr_logged_message _ _ (inv.sized _),
              inv.stamped t (.inr pc), inv.leveled t pc]

theorem runFrom_log (s : System) (log : List LogLine) (turns : List Turn) :
    ∃ more, (s.runFrom log turns).2 = log ++ more := by
  induction turns generalizing s log with
  | nil => exact ⟨[], by simp [System.runFrom]⟩
  | cons turn rest ih =>
      obtain ⟨more, eq⟩ := ih (s.step turn).1 (log ++ (s.step turn).2)
      exact ⟨(s.step turn).2 ++ more, by simp [System.runFrom, eq]⟩

theorem raceInv_runFrom (turns : List Turn) :
    ∀ (s : System) (log : List LogLine), RaceInv s log → (s.runFrom log turns).2.length ≤ bufferSize →
      RaceInv (s.runFrom log turns).1 (s.runFrom log turns).2 := by
  induction turns with
  | nil => intro s log inv _; exact inv
  | cons turn rest ih =>
      intro s log inv within
      refine ih _ _ (raceInv_step inv turn ?_) within
      obtain ⟨more, eq⟩ := runFrom_log (s.step turn).1 (log ++ (s.step turn).2) rest
      rw [System.runFrom, eq, List.length_append, List.length_append] at within
      omega

/-- Under every interleaving of `log` and `set_level` calls from any number of
threads that hands out at most `BUFFER_SIZE` tickets, once every call that took
a ticket has returned, `flush()` prints the line of every call that passed
the level check, in the order the calls took their tickets, with its own
reading, level and first 255 message bytes (those with reading 0 skipped):
no call's entry is lost, overwritten or mixed with another's. -/
theorem race_flush (turns : List Turn)
    (returned : ∀ t, ((System.init.runFrom [] turns).1.callers t).pc.inFlight = false)
    (within : (System.init.runFrom [] turns).2.length ≤ bufferSize) :
    (System.init.runFrom [] turns).1.logger.flush =
      (System.init.runFrom [] turns).2.filter fun l => 0 < l.timestamp := by
  have inv := raceInv_runFrom turns _ [] raceInv_init within
  generalize System.init.runFrom [] turns = r at inv returned ⊢
  obtain ⟨s, issued⟩ := r
  dsimp only at inv returned ⊢
  have slots : List.range bufferSize =
      List.range issued.length ++ (List.range (bufferSize - issued.length)).map (issued.length + ·) := by
    rw [← List.range_add, Nat.add_sub_cancel' inv.within]
  -- every slot below the count holds the line of its ticket
  have lines : (List.range issued.length).map (fun i => (s.logger.buffer i).line) = issued := by
    refine List.ext_getElem (by simp) fun k lhs rhs => ?_
    rw [List.getElem_map, List.getElem_range,
      inv.done k rhs fun t flight => absurd ((returned t).symm.trans flight) Bool.false_ne_true,
      List.getElem?_eq_getElem rhs]
    rfl
  -- and every slot above it has timestamp 0
  have unused : (((List.range (bufferSize - issued.length)).map (issued.length + ·)).map
      fun i => (s.logger.buffer i).line).filter (fun l => 0 < l.timestamp) = [] := by
    refine List.filter_eq_nil_iff.2 fun l member => ?_
    obtain ⟨i, inside, rfl⟩ := List.mem_map.1 member
    obtain ⟨j, below, rfl⟩ := List.mem_map.1 inside
    have := inv.fresh (issued.length + j) (Nat.le_add_right _ _) (by simp at below; omega)
    simp [LogEntry.line, this]
  simp only [Logger.flush]
  rw [slots, List.map_append, List.filter_append, lines, unused, List.append_nil]

def overlappingCalls : List Turn :=
  [.log 0 .info [104] 5, .log 1 .error [119] 7, .log 0 .info [104] 5, .log 1 .error [119] 7] ++
    List.replicate 3 (.log 1 .error [119] 7) ++ List.replicate 3 (.log 0 .info [104] 5)

theorem race_flush_overlapping :
    (∀ t, ((System.init.runFrom [] overlappingCalls).1.callers t).pc.inFlight = false) ∧
      (System.init.runFrom [] overlappingCalls).2.length ≤ bufferSize ∧
      (System.init.runFrom [] overlappingCalls).1.logger.flush =
        (System.init.runFrom [] overlappingCalls).2.filter fun l => 0 < l.timestamp := by
  have returned : ∀ t, ((System.init.runFrom [] overlappingCalls).1.callers t).pc.inFlight = false := by
    intro t
    by_cases named : t = 0 ∨ t = 1
    · rcases named with rfl | rfl <;> decide
    · rw [runFrom_callers_other t overlappingCalls (by simp [overlappingCalls, Turn.moves]; omega)]
      rfl
  exact ⟨returned, by decide, race_flush overlappingCalls returned (by decide)⟩

end Hft.LogRace
