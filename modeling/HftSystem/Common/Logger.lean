import HftSystem.Common.Bytes
import Mathlib.Data.List.Rotate

/-!
# The ring-buffer logger

`Logger` of `logger.h` and `logger.cpp` on one thread.  `log(level, message)`
drops a call below `min_level_`.  Otherwise it takes the ticket `write_index_`
and writes the slot `ticket % BUFFER_SIZE`: the wall-clock reading, the level,
and the first 255 bytes of the message.  Nothing else is ever written, so the
ring keeps the last `BUFFER_SIZE` accepted calls.  `flush()` prints the slots
in index order and skips those whose timestamp is 0.

After any run of `log` and `set_level` calls from the singleton's first use,
`flush` prints the last `BUFFER_SIZE` accepted calls (`flush_run`).  Once more
than `BUFFER_SIZE` calls have been accepted, the order is the ring's, not the
calls': the newest `n % BUFFER_SIZE` come first.
-/

set_option autoImplicit false

namespace Hft.Log

open Hft.Bytes

/-- `Logger::Level`. -/
inductive Level where
  | debug
  | info
  | warning
  | error
  | critical
  deriving DecidableEq

/-- The `uint8_t` value of a level. -/
def Level.toNat : Level → Nat
  | .debug => 0
  | .info => 1
  | .warning => 2
  | .error => 3
  | .critical => 4

/-- `Logger::LogEntry`: the timestamp, the level and the `char[256]` message. -/
structure LogEntry where
  timestamp : UInt64
  level : Level
  message : List UInt8

/-- `BUFFER_SIZE`. -/
def bufferSize : Nat := 1024 * 16

/-- The logger's members: `buffer_`, `write_index_` and `min_level_`. -/
structure Logger where
  buffer : Nat → LogEntry
  writeIndex : Nat
  minLevel : Level

/-- The singleton at its first use: the static `buffer_` zero-initialised,
`write_index_` 0 and `min_level_` `INFO`. -/
def Logger.init : Logger :=
  ⟨fun _ => ⟨0, .debug, List.replicate 256 0⟩, 0, .info⟩

/-- `log(level, message)`, with `now` the reading of `wall_clock_ns()`:
`strncpy(entry.message, message, 255)` and then `entry.message[255] = '\0'`. -/
def Logger.log (lg : Logger) (level : Level) (message : List UInt8) (now : UInt64) : Logger :=
  if level.toNat < lg.minLevel.toNat then lg
  else
    let index := lg.writeIndex % bufferSize
    let entry := lg.buffer index
    { lg with
      buffer := fun i =>
        if i = index then ⟨now, level, (strncpy entry.message message 255).set 255 0⟩ else lg.buffer i
      writeIndex := (lg.writeIndex + 1) % 2 ^ 64 }

/-- `set_level(level)`. -/
def Logger.setLevel (lg : Logger) (level : Level) : Logger :=
  { lg with minLevel := level }

structure LogLine where
  timestamp : UInt64
  level : Nat
  text : List UInt8
  deriving DecidableEq

def LogEntry.line (e : LogEntry) : LogLine :=
  ⟨e.timestamp, e.level.toNat, cStr e.message⟩

/-- `flush()`: the line of every slot, in index order, whose timestamp is not 0. -/
def Logger.flush (lg : Logger) : List LogLine :=
  ((List.range bufferSize).map fun i => (lg.buffer i).line).filter fun l => 0 < l.timestamp

inductive Call where
  | log (level : Level) (message : List UInt8) (now : UInt64)
  | setLevel (level : Level)

def Logger.call (lg : Logger) : Call → Logger
  | .log level message now => lg.log level message now
  | .setLevel level => lg.setLevel level

def Logger.run (lg : Logger) (calls : List Call) : Logger :=
  calls.foldl Logger.call lg

/-! ## What a run should leave -/

/-- The lines of the calls a run accepts, in call order, from minimum level
`min`: each keeps its reading, its level and the first 255 bytes of its
message. -/
def accepted : Level → List Call → List LogLine
  | _, [] => []
  | _, .setLevel level :: rest => accepted level rest
  | min, .log level message now :: rest =>
      if level.toNat < min.toNat then accepted min rest
      else ⟨now, level.toNat, (cStr message).take 255⟩ :: accepted min rest

def blank : LogLine := ⟨0, 0, []⟩

def lastTicket (n i : Nat) : Nat :=
  n - 1 - (n - 1 - i) % bufferSize

/-- The lines the ring holds after the accepted calls `acc`, in slot order:
the last `BUFFER_SIZE` of them, the newest `n % BUFFER_SIZE` first once the
ring has wrapped. -/
def ringOrder (acc : List LogLine) : List LogLine :=
  (acc.drop (acc.length - bufferSize)).rotate (min acc.length bufferSize - acc.length % bufferSize)

def slotLine (acc : List LogLine) (i : Nat) : LogLine :=
  if i < acc.length then acc[lastTicket acc.length i]?.getD blank else blank

/-! ## One call -/

theorem logged_message (dst message : List UInt8) (sized : dst.length = 256) :
    (strncpy dst message 255).set 255 0 =
      (cStr message).take 255 ++ List.replicate (256 - ((cStr message).take 255).length) 0 := by
  have short : ((cStr message).take 255).length ≤ 255 := by simp
  obtain ⟨last, tail⟩ : ∃ last, dst.drop 255 = [last] := List.length_eq_one.1 (by simp [sized])
  rw [strncpy, tail, List.set_append_right _ _ (by simp)]
  simp only [List.length_append, List.length_replicate, List.set_cons_zero, List.append_assoc]
  rw [show 256 - ((cStr message).take 255).length = 255 - ((cStr message).take 255).length + 1 by omega,
    List.replicate_succ']
  simp

theorem cStr_logged_message (dst message : List UInt8) (sized : dst.length = 256) :
    cStr ((strncpy dst message 255).set 255 0) = (cStr message).take 255 := by
  have room : 0 < 256 - ((cStr message).take 255).length := by simp
  rw [logged_message dst message sized, ← Nat.succ_pred_eq_of_pos room, List.replicate_succ]
  exact cStr_append_nul _ _ fun nul => zero_not_mem_cStr message (List.mem_of_mem_take nul)

theorem length_logged_message (dst message : List UInt8) (sized : dst.length = 256) :
    ((strncpy dst message 255).set 255 0).length = 256 := by
  rw [logged_message dst message sized, List.length_append, List.length_replicate]
  have : ((cStr message).take 255).length ≤ 255 := by simp
  omega

theorem lastTicket_self (n : Nat) : lastTicket (n + 1) (n % bufferSize) = n := by
  unfold lastTicket bufferSize
  omega

theorem lastTicket_succ {n i : Nat} (lt : i < n) (other : i ≠ n % bufferSize) (inside : i < bufferSize) :
    lastTicket (n + 1) i = lastTicket n i := by
  unfold lastTicket bufferSize at *
  omega

theorem lastTicket_lt {n i : Nat} (lt : i < n) : lastTicket n i < n := by
  unfold lastTicket
  omega

theorem lastTicket_of_le {n i : Nat} (lt : i < n) (short : n ≤ bufferSize) : lastTicket n i = i := by
  unfold lastTicket bufferSize at *
  omega

/-- The logger after the accepted calls `acc`: `write_index_` counts them, every
message buffer has 256 bytes, and every slot holds the line of its last
writer. -/
structure Holds (lg : Logger) (acc : List LogLine) : Prop where
  index : lg.writeIndex = acc.length % 2 ^ 64
  sized : ∀ i, (lg.buffer i).message.length = 256
  slots : ∀ i < bufferSize, (lg.buffer i).line = slotLine acc i

theorem holds_init : Holds Logger.init [] where
  index := rfl
  sized _ := List.length_replicate 256 0
  slots _ _ := by
    rw [slotLine, List.length_nil, if_neg (Nat.not_lt_zero _), LogEntry.line, Logger.init, List.replicate_succ]
    rfl

theorem holds_log {lg : Logger} {acc : List LogLine} (inv : Holds lg acc) (level : Level)
    (message : List UInt8) (now : UInt64) (passes : ¬level.toNat < lg.minLevel.toNat) :
    Holds (lg.log level message now) (acc ++ [⟨now, level.toNat, (cStr message).take 255⟩]) := by
  have slot : lg.writeIndex % bufferSize = acc.length % bufferSize := by
    rw [inv.index, bufferSize, Nat.mod_mod_of_dvd acc.length (show 1024 * 16 ∣ 2 ^ 64 by decide)]
  simp only [Logger.log, if_neg passes, slot]
  refine ⟨by simp [inv.index], fun i => ?_, fun i inside => ?_⟩ <;> dsimp only
  · split_ifs
    · exact length_logged_message _ _ (inv.sized _)
    · exact inv.sized i
  · by_cases mine : i = acc.length % bufferSize
    · subst mine
      rw [if_pos rfl, slotLine, List.length_append, List.length_singleton,
        if_pos (Nat.lt_succ_of_le (Nat.mod_le _ _)),
        lastTicket_self, List.getElem?_append_right le_rfl, Nat.sub_self]
      simp [LogEntry.line, cStr_logged_message _ _ (inv.sized _)]
    · rw [if_neg mine, inv.slots i inside, slotLine, slotLine, List.length_append, List.length_singleton]
      by_cases old : i < acc.length
      · rw [if_pos old, if_pos (by omega), lastTicket_succ old mine inside,
          List.getElem?_append_left (lastTicket_lt old)]
      · have fresh : i ≠ acc.length := fun same => mine (by
          rw [same, Nat.mod_eq_of_lt (same ▸ inside)])
        rw [if_neg old, if_neg (by omega)]

@[simp] theorem Logger.minLevel_log (lg : Logger) (level : Level) (message : List UInt8) (now : UInt64) :
    (lg.log level message now).minLevel = lg.minLevel := by
  unfold Logger.log
  split_ifs <;> rfl

theorem holds_run (calls : List Call) :
    ∀ (lg : Logger) (acc : List LogLine), Holds lg acc →
      Holds (lg.run calls) (acc ++ accepted lg.minLevel calls) := by
  induction calls with
  | nil => intro lg acc inv; simpa [accepted] using inv
  | cons c rest ih =>
      intro lg acc inv
      cases c with
      | setLevel level => exact ih (lg.setLevel level) acc ⟨inv.index, inv.sized, inv.slots⟩
      | log level message now =>
          show Holds ((lg.log level message now).run rest) _
          by_cases below : level.toNat < lg.minLevel.toNat
          · rw [accepted, if_pos below, show lg.log level message now = lg from if_pos below]
            exact ih lg acc inv
          · have := ih _ _ (holds_log inv level message now below)
            rw [Logger.minLevel_log] at this
            rw [accepted, if_neg below]
            simpa using this

/-! ## What `flush` prints -/

theorem slots_ringOrder (acc : List LogLine) :
    (List.range bufferSize).map (slotLine acc) = ringOrder acc ++ List.replicate (bufferSize - acc.length) blank := by
  by_cases short : acc.length < bufferSize
  · -- the calls in order, then blanks
    have whole : ringOrder acc = acc := by
      rw [ringOrder, Nat.sub_eq_zero_of_le short.le, min_eq_left short.le, Nat.mod_eq_of_lt short,
        Nat.sub_self, List.rotate_zero, List.drop_zero]
    rw [whole]
    refine List.ext_getElem (by simp; omega) fun k lhs rhs => ?_
    simp only [List.getElem_map, List.getElem_range, slotLine]
    by_cases lt : k < acc.length
    · rw [if_pos lt, List.getElem_append_left lt, lastTicket_of_le lt short.le, List.getElem?_eq_getElem lt]
      rfl
    · rw [if_neg lt, List.getElem_append_right (by omega)]
      simp
  · -- the last `BUFFER_SIZE` calls, rotated
    have full : bufferSize ≤ acc.length := Nat.le_of_not_lt short
    rw [Nat.sub_eq_zero_of_le full, List.replicate_zero, List.append_nil]
    refine List.ext_getElem (by simp [ringOrder]; omega) fun k lhs rhs => ?_
    have inside : k < bufferSize := by simpa using lhs
    simp only [ringOrder, List.getElem_map, List.getElem_range, slotLine, if_pos (show k < acc.length by omega),
      List.getElem_rotate, List.getElem_drop, List.length_drop, min_eq_right full]
    have same : lastTicket acc.length k =
        acc.length - bufferSize + (k + (bufferSize - acc.length % bufferSize)) % (acc.length - (acc.length - bufferSize)) := by
      unfold lastTicket bufferSize at *
      rw [show acc.length - (acc.length - 1024 * 16) = 1024 * 16 by omega]
      omega
    rw [same, List.getElem?_eq_getElem]
    rfl

/-- After any run of `log` and `set_level` calls from the singleton's first
use, `flush()` prints the lines of the last `BUFFER_SIZE` accepted calls whose
reading is not 0: all of them in call order while fewer than `BUFFER_SIZE`
have been accepted, and from then on in the ring's order, the newest
`n % BUFFER_SIZE` first.  Each line carries the call's reading, its level and
the first 255 bytes of its message. -/
theorem flush_run (calls : List Call) :
    (Logger.init.run calls).flush = (ringOrder (accepted .info calls)).filter fun l => 0 < l.timestamp := by
  have inv : Holds (Logger.init.run calls) (accepted .info calls) := by
    simpa using holds_run calls _ [] holds_init
  have lines : (List.range bufferSize).map (fun i => ((Logger.init.run calls).buffer i).line) =
      (List.range bufferSize).map (slotLine (accepted .info calls)) :=
    List.map_congr_left fun i member => inv.slots i (List.mem_range.1 member)
  rw [Logger.flush, lines, slots_ringOrder, List.filter_append, List.filter_replicate]
  simp [blank]

end Hft.Log
