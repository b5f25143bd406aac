import HftSystem.Common.StringMap

/-!
# The C-string symbol map under interleaving

`LockFreeHashMap<const char*, V, Capacity>` of `hashmap.h` with any number of
threads in `insert` and `find`, each call cut into its accesses to the table,
one step each:

* `insert(key, value)`: per probed slot, the compare-exchange of the tag from
  `EMPTY` to `h`; on success the `strncpy` of the key, then the write of the
  value and `true`; on failure a load of the tag and, when it is `h`, the
  `strcmp` of the slot's key, then the write of the value and `true` on a
  match;
* `find(key)`: per probed slot, a load of the tag (`EMPTY` ends the call with
  `nullptr`), and when it is `h` the `strcmp` of the slot's key, returning the
  slot on a match.

Hashing the argument and the loop counter touch no shared memory.  A schedule
says which thread takes the next step and, for a thread between calls, which
call it starts; accesses are sequentially consistent.  A `find` is logged with
the slot it returns and the value in that slot at that moment.

A call that runs alone is the call of the one-thread model (`solo_insert`,
`solo_find`), and it returns at one point only (`Alone.unique`), so calls that
do not overlap keep the table refining the association list of the one-thread
model (`serial_calls_keep_map`).  Interleaved, `insert` publishes its tag
before it writes the key and the value: a second `insert` of the same key
probes past the unwritten key and claims a second slot, and a `find` matches
the key before the value is written (`concurrent_inserts_break_map`).
-/

set_option autoImplicit false

namespace Hft.StringMapRace

open Hft.Bytes Hft.MapSpec Hft.StringMap

inductive MapCall (V : Type) where
  | insert (key : List UInt8) (value : V)
  | find (key : List UInt8)

def MapCall.key {V : Type} : MapCall V → List UInt8
  | .insert key _ => key
  | .find key => key

inductive MapPc where
  | idle
  | exchange
  | loadTag
  | compareKey
  | copyKey
  | writeValue
  | findTag
  | findKey
  deriving DecidableEq

structure Thread (V : Type) where
  pc : MapPc
  call : MapCall V
  idx : Nat
  i : Nat

structure System (V : Type) (size : Nat) where
  map : LockFreeHashMap V size
  threads : Nat → Thread V

inductive Event (V : Type) where
  | inserted (thread : Nat) (key : List UInt8) (ok : Bool)
  | found (thread : Nat) (key : List UInt8) (slot : Option (Nat × V))
  deriving DecidableEq

variable {V : Type} {size : Nat}

def System.init [Inhabited V] : System V size :=
  ⟨LockFreeHashMap.init, fun _ => ⟨.idle, .find [], 0, 0⟩⟩

def System.setThread (s : System V size) (t : Nat) (th : Thread V) : System V size :=
  { s with threads := fun u => if u = t then th else s.threads u }

/-- `idx = (idx + 1) & (SIZE - 1)` and the next round of the loop. -/
def System.advance (s : System V size) (t : Nat) (th : Thread V) (pc : MapPc) : System V size :=
  s.setThread t { th with pc := pc, idx := (th.idx + 1) &&& (size - 1), i := th.i + 1 }

/-- The next access of thread `t`; a thread between calls starts `call`. -/
def System.step (s : System V size) (t : Nat) (call : MapCall V) : System V size × List (Event V) :=
  let th := s.threads t
  let e := s.map.entries th.idx
  let h := keyTag th.call.key
  match th.pc with
  | .idle =>
      let pc := match call with
        | .insert _ _ => MapPc.exchange
        | .find _ => MapPc.findTag
      (s.setThread t ⟨pc, call, keyTag call.key &&& (size - 1), 0⟩, [])
  | .exchange =>
      if th.i < size then
        if e.hash = emptyTag then
          ({ s.setThread t { th with pc := .copyKey } with map := s.map.set th.idx { e with hash := h } }, [])
        else (s.setThread t { th with pc := .loadTag }, [])
      else (s.setThread t { th with pc := .idle }, [.inserted t th.call.key false])
  | .loadTag =>
      if e.hash = h then (s.setThread t { th with pc := .compareKey }, [])
      else (s.advance t th .exchange, [])
  | .compareKey =>
      if strEq e.key th.call.key then (s.setThread t { th with pc := .writeValue }, [])
      else (s.advance t th .exchange, [])
  | .copyKey =>
      ({ s.setThread t { th with pc := .writeValue } with
          map := s.map.set th.idx { e with key := strncpy e.key th.call.key (maxKeyLen - 1) } }, [])
  | .writeValue =>
      match th.call with
      | .insert key value =>
          ({ s.setThread t { th with pc := .idle } with map := s.map.set th.idx { e with value := value } },
            [.inserted t key true])
      | .find _ => (s, [])
  | .findTag =>
      if th.i < size then
        if e.hash = emptyTag then (s.setThread t { th with pc := .idle }, [.found t th.call.key none])
        else if e.hash = h then (s.setThread t { th with pc := .findKey }, [])
        else (s.advance t th .findTag, [])
      else (s.setThread t { th with pc := .idle }, [.found t th.call.key none])
  | .findKey =>
      if strEq e.key th.call.key then
        (s.setThread t { th with pc := .idle }, [.found t th.call.key (some (th.idx, e.value))])
      else (s.advance t th .findTag, [])

def System.runFrom (s : System V size) (log : List (Event V)) : List (Nat × MapCall V) → System V size × List (Event V)
  | [] => (s, log)
  | (t, call) :: rest => (s.step t call).1.runFrom (log ++ (s.step t call).2) rest

@[simp] theorem setThread_map (s : System V size) (t : Nat) (th : Thread V) : (s.setThread t th).map = s.map :=
  rfl

@[simp] theorem setThread_threads (s : System V size) (t u : Nat) (th : Thread V) :
    (s.setThread t th).threads u = if u = t then th else s.threads u :=
  rfl

theorem set_set (m : LockFreeHashMap V size) (idx : Nat) (e e' : Entry V) : (m.set idx e).set idx e' = m.set idx e' := by
  simp only [LockFreeHashMap.set, LockFreeHashMap.mk.injEq]
  funext i
  split_ifs <;> rfl

theorem runFrom_append (s : System V size) (log : List (Event V)) (xs ys : List (Nat × MapCall V)) :
    s.runFrom log (xs ++ ys) = (s.runFrom log xs).1.runFrom (s.runFrom log xs).2 ys := by
  induction xs generalizing s log with
  | nil => rfl
  | cons x xs ih => exact ih _ _

theorem step_threads (s : System V size) (t : Nat) (call : MapCall V) :
    ∃ th, (s.step t call).1.threads = (s.setThread t th).threads ∧ (th.pc = .idle ↔ (s.step t call).2 ≠ []) := by
  simp only [System.step]
  repeat' split
  all_goals first
    | exact ⟨_, rfl, by simp [*]⟩
    | exact ⟨s.threads t, funext fun u => by by_cases same : u = t <;> simp [same], by simp [*]⟩

theorem step_threads_other (s : System V size) {t u : Nat} (call : MapCall V) (other : u ≠ t) :
    (s.step t call).1.threads u = s.threads u := by
  obtain ⟨th, threads, -⟩ := step_threads s t call
  rw [threads, setThread_threads, if_neg other]

/-! ## A call that runs alone -/

/-- Thread `t`, running `call` with no other thread moving, takes `s` with the
log `log` to `s'` with the log `log'`. -/
def Alone (t : Nat) (call : MapCall V) (s : System V size) (log : List (Event V)) (s' : System V size)
    (log' : List (Event V)) : Prop :=
  ∃ n, s.runFrom log (List.replicate n (t, call)) = (s', log')

theorem Alone.trans {t : Nat} {call : MapCall V} {s s' s'' : System V size} {log log' log'' : List (Event V)}
    (first : Alone t call s log s' log') (second : Alone t call s' log' s'' log'') : Alone t call s log s'' log'' := by
  obtain ⟨n, first⟩ := first
  obtain ⟨k, second⟩ := second
  exact ⟨n + k, by rw [List.replicate_add, runFrom_append, first, second]⟩

theorem Alone.threads_other {t u : Nat} {call : MapCall V} {s s' : System V size} {log log' : List (Event V)}
    (alone : Alone t call s log s' log') (other : u ≠ t) : s'.threads u = s.threads u := by
  obtain ⟨n, run⟩ := alone
  induction n generalizing s log with
  | zero =>
      simp only [List.replicate, System.runFrom, Prod.mk.injEq] at run
      rw [← run.1]
  | succ n ih => rw [← step_threads_other s call other]; exact ih run

def Finishes (t : Nat) (call : MapCall V) (s : System V size) (log : List (Event V)) (m' : LockFreeHashMap V size)
    (ev : Event V) : Prop :=
  ∃ s', Alone t call s log s' (log ++ [ev]) ∧ s'.map = m' ∧ (s'.threads t).pc = .idle

def insertAt (m : LockFreeHashMap V size) (key : List UInt8) (value : V) : Option Nat → Bool × LockFreeHashMap V size
  | none => (false, m)
  | some idx =>
      if (m.entries idx).hash = emptyTag then
        (true, m.set idx ⟨keyTag key, strncpy (m.entries idx).key key (maxKeyLen - 1), value⟩)
      else (true, m.set idx { m.entries idx with value := value })

def findAt (m : LockFreeHashMap V size) : Option Nat → Option (Nat × V)
  | none => none
  | some idx => if (m.entries idx).hash = emptyTag then none else some (idx, (m.entries idx).value)

theorem insert_eq_insertAt (m : LockFreeHashMap V size) (key : List UInt8) (value : V) :
    m.insert key value = insertAt m key value (m.probe key) := by
  unfold LockFreeHashMap.insert
  cases m.probe key <;> rfl

theorem find_eq_findAt (m : LockFreeHashMap V size) (key : List UInt8) :
    m.find key = (findAt m (m.probe key)).map Prod.snd := by
  unfold LockFreeHashMap.find
  cases m.probe key with
  | none => rfl
  | some idx => by_cases empty : (m.entries idx).hash = emptyTag <;> simp [findAt, empty]

section Loops

variable (t : Nat) (key : List UInt8)

theorem insert_moves_on (value : V) (s : System V size) (log : List (Event V))
    (pc : (s.threads t).pc = .exchange) (call : (s.threads t).call = .insert key value)
    (lt : (s.threads t).i < size) (go : s.map.stopsAt key (keyTag key) (s.threads t).idx = false) :
    ∃ s', Alone t (.insert key value) s log s' log ∧ s'.map = s.map ∧ (s'.threads t).pc = .exchange ∧
      (s'.threads t).call = .insert key value ∧ (s'.threads t).idx = ((s.threads t).idx + 1) &&& (size - 1) ∧
      (s'.threads t).i = (s.threads t).i + 1 := by
  have filled : (s.map.entries (s.threads t).idx).hash ≠ emptyTag := by
    simp_all [LockFreeHashMap.stopsAt]
  by_cases tag : (s.map.entries (s.threads t).idx).hash = keyTag key
  · have differs : strEq (s.map.entries (s.threads t).idx).key key = false := by
      simp_all [LockFreeHashMap.stopsAt]
    refine ⟨_, ⟨3, Prod.ext rfl ?_⟩, ?_⟩ <;>
      simp [System.runFrom, System.step, System.advance, pc, call, lt, filled, tag, differs, MapCall.key,
        keyTag_ne_empty]
  · refine ⟨_, ⟨2, Prod.ext rfl ?_⟩, ?_⟩ <;>
      simp [System.runFrom, System.step, System.advance, pc, call, lt, filled, tag, MapCall.key]

theorem insert_loop (value : V) :
    ∀ fuel (s : System V size) (log : List (Event V)), (s.threads t).pc = .exchange →
      (s.threads t).call = .insert key value → (s.threads t).i + fuel = size →
      Finishes t (.insert key value) s log
        (insertAt s.map key value (s.map.probeFrom key (keyTag key) fuel (s.threads t).idx)).2
        (.inserted t key (insertAt s.map key value (s.map.probeFrom key (keyTag key) fuel (s.threads t).idx)).1) := by
  intro fuel
  induction fuel with
  | zero =>
      intro s log pc call count
      have over : ¬(s.threads t).i < size := by omega
      refine ⟨_, ⟨1, Prod.ext rfl ?_⟩, ?_, ?_⟩ <;>
        simp [System.runFrom, System.step, LockFreeHashMap.probeFrom, insertAt, pc, call, over, MapCall.key]
  | succ fuel ih =>
      intro s log pc call count
      have lt : (s.threads t).i < size := by omega
      cases stop : s.map.stopsAt key (keyTag key) (s.threads t).idx with
      | false =>
          obtain ⟨s', alone, map, pc', call', idx', i'⟩ := insert_moves_on t key value s log pc call lt stop
          have next : s.map.probeFrom key (keyTag key) (fuel + 1) (s.threads t).idx =
              s'.map.probeFrom key (keyTag key) fuel (s'.threads t).idx := by
            rw [LockFreeHashMap.probeFrom, stop, if_neg Bool.false_ne_true, map, idx']
          obtain ⟨s'', alone', map', idle⟩ := ih s' log pc' call' (by omega)
          rw [next, ← map]
          exact ⟨s'', alone.trans alone', map', idle⟩
      | true =>
          by_cases empty : (s.map.entries (s.threads t).idx).hash = emptyTag
          · -- the slot is empty: the exchange, the key copy, the value write
            refine ⟨_, ⟨3, Prod.ext rfl ?_⟩, ?_, ?_⟩ <;>
              simp [System.runFrom, System.step, LockFreeHashMap.probeFrom, insertAt, stop, pc, call, lt, empty,
                MapCall.key, set_set, set_entries_same]
          · -- the slot holds the key: the failed exchange, the tag load, the strcmp, the value write
            have held : (s.map.entries (s.threads t).idx).hash = keyTag key ∧
                strEq (s.map.entries (s.threads t).idx).key key = true := by
              simpa [LockFreeHashMap.stopsAt, empty] using stop
            refine ⟨_, ⟨4, Prod.ext rfl ?_⟩, ?_, ?_⟩ <;>
              simp [System.runFrom, System.step, LockFreeHashMap.probeFrom, insertAt, stop, pc, call, lt, empty,
                held, MapCall.key, set_entries_same, keyTag_ne_empty]

theorem solo_insert (s : System V size) (value : V) (idle : (s.threads t).pc = .idle) :
    Finishes t (.insert key value) s [] (s.map.insert key value).2 (.inserted t key (s.map.insert key value).1) := by
  have start : Alone t (.insert key value) s [] (s.step t (.insert key value)).1 [] :=
    ⟨1, Prod.ext rfl (by simp [System.runFrom, System.step, idle])⟩
  obtain ⟨s', alone, map, done⟩ := insert_loop t key value size (s.step t (.insert key value)).1 []
    (by simp [System.step, idle]) (by simp [System.step, idle]) (by simp [System.step, idle])
  have same : (s.step t (.insert key value)).1.map = s.map := by simp [System.step, idle]
  have home : ((s.step t (.insert key value)).1.threads t).idx = keyTag key &&& (size - 1) := by
    simp [System.step, idle, MapCall.key]
  rw [same, home] at alone map
  rw [insert_eq_insertAt]
  exact ⟨s', start.trans alone, map, done⟩

theorem find_moves_on (s : System V size) (log : List (Event V))
    (pc : (s.threads t).pc = .findTag) (call : (s.threads t).call = .find key)
    (lt : (s.threads t).i < size) (go : s.map.stopsAt key (keyTag key) (s.threads t).idx = false) :
    ∃ s', Alone t (.find key) s log s' log ∧ s'.map = s.map ∧ (s'.threads t).pc = .findTag ∧
      (s'.threads t).call = .find key ∧ (s'.threads t).idx = ((s.threads t).idx + 1) &&& (size - 1) ∧
      (s'.threads t).i = (s.threads t).i + 1 := by
  have filled : (s.map.entries (s.threads t).idx).hash ≠ emptyTag := by
    simp_all [LockFreeHashMap.stopsAt]
  by_cases tag : (s.map.entries (s.threads t).idx).hash = keyTag key
  · have differs : strEq (s.map.entries (s.threads t).idx).key key = false := by
      simp_all [LockFreeHashMap.stopsAt]
    refine ⟨_, ⟨2, Prod.ext rfl ?_⟩, ?_⟩ <;>
      simp [System.runFrom, System.step, System.advance, pc, call, lt, filled, tag, differs, MapCall.key,
        keyTag_ne_empty]
  · refine ⟨_, ⟨1, Prod.ext rfl ?_⟩, ?_⟩ <;>
      simp [System.runFrom, System.step, System.advance, pc, call, lt, filled, tag, MapCall.key]

theorem find_loop :
    ∀ fuel (s : System V size) (log : List (Event V)), (s.threads t).pc = .findTag →
      (s.threads t).call = .find key → (s.threads t).i + fuel = size →
      Finishes t (.find key) s log s.map
        (.found t key (findAt s.map (s.map.probeFrom key (keyTag key) fuel (s.threads t).idx))) := by
  intro fuel
  induction fuel with
  | zero =>
      intro s log pc call count
      have over : ¬(s.threads t).i < size := by omega
      refine ⟨_, ⟨1, Prod.ext rfl ?_⟩, ?_, ?_⟩ <;>
        simp [System.runFrom, System.step, LockFreeHashMap.probeFrom, findAt, pc, call, over, MapCall.key]
  | succ fuel ih =>
      intro s log pc call count
      have lt : (s.threads t).i < size := by omega
      cases stop : s.map.stopsAt key (keyTag key) (s.threads t).idx with
      | false =>
          obtain ⟨s', alone, map, pc', call', idx', i'⟩ := find_moves_on t key s log pc call lt stop
          have next : s.map.probeFrom key (keyTag key) (fuel + 1) (s.threads t).idx =
              s'.map.probeFrom key (keyTag key) fuel (s'.threads t).idx := by
            rw [LockFreeHashMap.probeFrom, stop, if_neg Bool.false_ne_true, map, idx']
          obtain ⟨s'', alone', map', idle⟩ := ih s' log pc' call' (by omega)
          rw [next, ← map]
          exact ⟨s'', alone.trans alone', map', idle⟩
      | true =>
          by_cases empty : (s.map.entries (s.threads t).idx).hash = emptyTag
          · refine ⟨_, ⟨1, Prod.ext rfl ?_⟩, ?_, ?_⟩ <;>
              simp [System.runFrom, System.step, LockFreeHashMap.probeFrom, findAt, stop, pc, call, lt, empty,
                MapCall.key]
          · have held : (s.map.entries (s.threads t).idx).hash = keyTag key ∧
                strEq (s.map.entries (s.threads t).idx).key key = true := by
              simpa [LockFreeHashMap.stopsAt, empty] using stop
            refine ⟨_, ⟨2, Prod.ext rfl ?_⟩, ?_, ?_⟩ <;>
              simp [System.runFrom, System.step, LockFreeHashMap.probeFrom, findAt, stop, pc, call, lt, empty,
                held, MapCall.key, keyTag_ne_empty]

theorem solo_find (s : System V size) (idle : (s.threads t).pc = .idle) :
    ∃ slot, Finishes t (.find key) s [] s.map (.found t key slot) ∧ slot.map Prod.snd = s.map.find key := by
  have start : Alone t (.find key) s [] (s.step t (.find key)).1 [] :=
    ⟨1, Prod.ext rfl (by simp [System.runFrom, System.step, idle])⟩
  obtain ⟨s', alone, map, done⟩ := find_loop t key size (s.step t (.find key)).1 []
    (by simp [System.step, idle]) (by simp [System.step, idle]) (by simp [System.step, idle])
  have same : (s.step t (.find key)).1.map = s.map := by simp [System.step, idle]
  have home : ((s.step t (.find key)).1.threads t).idx = keyTag key &&& (size - 1) := by
    simp [System.step, idle, MapCall.key]
  rw [same, home] at alone
  rw [same] at map
  exact ⟨_, ⟨s', start.trans alone, map, done⟩, (find_eq_findAt s.map key).symm⟩

end Loops

/-! ## Calls that do not overlap -/

theorem runFrom_log (s : System V size) (log : List (Event V)) (xs : List (Nat × MapCall V)) :
    ∃ extra, (s.runFrom log xs).2 = log ++ extra := by
  induction xs generalizing s log with
  | nil => exact ⟨[], (List.append_nil log).symm⟩
  | cons x xs ih =>
      obtain ⟨t, call⟩ := x
      obtain ⟨extra, grown⟩ := ih (s.step t call).1 (log ++ (s.step t call).2)
      exact ⟨(s.step t call).2 ++ extra, by rw [System.runFrom, grown, List.append_assoc]⟩

theorem step_starts (s : System V size) (t : Nat) (call : MapCall V) (idle : (s.threads t).pc = .idle) :
    ((s.step t call).1.threads t).pc ≠ .idle ∧ (s.step t call).2 = [] := by
  cases call <;> simp [System.step, idle]

theorem step_stays (s : System V size) (t : Nat) (call : MapCall V) (quiet : (s.step t call).2 = []) :
    ((s.step t call).1.threads t).pc ≠ .idle := by
  obtain ⟨th, threads, returns⟩ := step_threads s t call
  rw [threads, setThread_threads, if_pos rfl]
  exact fun idle => returns.1 idle quiet

theorem quiet_stays_busy (t : Nat) (call : MapCall V) :
    ∀ d (s : System V size) (log : List (Event V)), (s.threads t).pc ≠ .idle →
      (s.runFrom log (List.replicate d (t, call))).2 = log →
      ((s.runFrom log (List.replicate d (t, call))).1.threads t).pc ≠ .idle := by
  intro d
  induction d with
  | zero => intro s log busy _; exact busy
  | succ d ih =>
      intro s log busy quiet
      obtain ⟨extra, grown⟩ := runFrom_log (s.step t call).1 (log ++ (s.step t call).2) (List.replicate d (t, call))
      have none : (s.step t call).2 = [] := by
        have := congrArg List.length (grown.symm.trans quiet)
        simp only [List.length_append] at this
        exact List.eq_nil_of_length_eq_zero (by omega)
      rw [List.replicate_succ, System.runFrom, none, List.append_nil] at quiet ⊢
      exact ih _ _ (step_stays s t call none) quiet

theorem runs_agree {t : Nat} {call : MapCall V} {s s₁ s₂ : System V size} {log : List (Event V)}
    {e₁ e₂ : Event V} {n d : Nat} (run₁ : s.runFrom log (List.replicate n (t, call)) = (s₁, log ++ [e₁]))
    (idle₁ : (s₁.threads t).pc = .idle) (run₂ : s.runFrom log (List.replicate (n + d) (t, call)) = (s₂, log ++ [e₂]))
    (idle₂ : (s₂.threads t).pc = .idle) : s₁ = s₂ ∧ e₁ = e₂ := by
  rw [List.replicate_add, runFrom_append, run₁] at run₂
  dsimp only at run₂
  obtain ⟨extra, grown⟩ := runFrom_log s₁ (log ++ [e₁]) (List.replicate d (t, call))
  rw [run₂] at grown
  obtain ⟨rfl, rfl⟩ := List.cons_eq_cons.1 (show [e₂] = e₁ :: extra by simpa using grown)
  cases d with
  | zero => exact ⟨(Prod.mk.inj run₂).1, rfl⟩
  | succ d =>
      obtain ⟨busy, quiet⟩ := step_starts s₁ t call idle₁
      rw [List.replicate_succ, System.runFrom, quiet, List.append_nil] at run₂
      have busy' := quiet_stays_busy t call d _ (log ++ [e₂]) busy (congrArg Prod.snd run₂)
      rw [run₂] at busy'
      exact absurd idle₂ busy'

theorem Alone.unique {t : Nat} {call : MapCall V} {s s₁ s₂ : System V size} {log : List (Event V)}
    {e₁ e₂ : Event V} (first : Alone t call s log s₁ (log ++ [e₁])) (idle₁ : (s₁.threads t).pc = .idle)
    (second : Alone t call s log s₂ (log ++ [e₂])) (idle₂ : (s₂.threads t).pc = .idle) : s₁ = s₂ ∧ e₁ = e₂ := by
  obtain ⟨n₁, run₁⟩ := first
  obtain ⟨n₂, run₂⟩ := second
  rcases le_total n₁ n₂ with le | le
  · obtain ⟨d, rfl⟩ := Nat.exists_eq_add_of_le le
    exact runs_agree run₁ idle₁ run₂ idle₂
  · obtain ⟨d, rfl⟩ := Nat.exists_eq_add_of_le le
    obtain ⟨same, same'⟩ := runs_agree run₂ idle₂ run₁ idle₁
    exact ⟨same.symm, same'.symm⟩

/-- Calls that do not overlap: one thread runs a whole call alone, from its
first access to its return, each `insert` of a key of at most 15 bytes; the
list is what the one-thread model holds. -/
inductive Serial : System V size × List (List UInt8 × V) → System V size × List (List UInt8 × V) → Prop
  | insert (s s' : System V size) (kv : List (List UInt8 × V)) (t : Nat) (key : List UInt8) (value : V) (ok : Bool)
      (short : (cStr key).length ≤ maxKeyLen - 1)
      (alone : Alone t (.insert key value) s [] s' [.inserted t key ok]) (returned : (s'.threads t).pc = .idle) :
      Serial (s, kv) (s', (insertSpec size kv (cStr key) value).2)
  | find (s s' : System V size) (kv : List (List UInt8 × V)) (t : Nat) (key : List UInt8) (slot : Option (Nat × V))
      (alone : Alone t (.find key) s [] s' [.found t key slot]) (returned : (s'.threads t).pc = .idle) :
      Serial (s, kv) (s', kv)

theorem Alone.all_idle {t : Nat} {call : MapCall V} {s s' : System V size} {log log' : List (Event V)}
    (alone : Alone t call s log s' log') (returned : (s'.threads t).pc = .idle) (idle : ∀ u, (s.threads u).pc = .idle) :
    ∀ u, (s'.threads u).pc = .idle := by
  intro u
  by_cases same : u = t
  · exact same ▸ returned
  · rw [alone.threads_other same]
    exact idle u

section Serial

variable (pow : size.isPowerOfTwo)
include pow

theorem serial_step {a b : System V size × List (List UInt8 × V)} (step : Serial a b)
    (idle : ∀ u, (a.1.threads u).pc = .idle) (inv : MapInv a.1.map a.2) :
    (∀ u, (b.1.threads u).pc = .idle) ∧ MapInv b.1.map b.2 := by
  cases step with
  | insert s s' kv t key value ok short alone returned =>
      obtain ⟨s₀, alone₀, map₀, returned₀⟩ := solo_insert t key s value (idle t)
      obtain ⟨rfl, -⟩ := Alone.unique alone returned alone₀ returned₀
      exact ⟨alone.all_idle returned idle, map₀ ▸ (insert_refines pow inv key value short).2⟩
  | find s s' kv t key slot alone returned =>
      obtain ⟨slot₀, ⟨s₀, alone₀, map₀, returned₀⟩, -⟩ := solo_find t key s (idle t)
      obtain ⟨rfl, -⟩ := Alone.unique alone returned alone₀ returned₀
      exact ⟨alone.all_idle returned idle, map₀ ▸ inv⟩

/-- With calls that never overlap, each `insert` of a key of at most 15 bytes,
on a table of a power-of-two capacity: no key occupies two tagged slots, and a
`find` run alone returns a slot holding the value the one-thread model gives
its key, the value of the last accepted `insert` of it (`nullptr` when there
is none). -/
theorem serial_calls_keep_map [Inhabited V] {s : System V size} {kv : List (List UInt8 × V)}
    (run : Relation.ReflTransGen Serial (System.init, []) (s, kv)) :
    (∀ u, (s.threads u).pc = .idle) ∧
      (∀ i < size, ∀ j < size, (s.map.entries i).hash ≠ emptyTag → (s.map.entries j).hash ≠ emptyTag →
        cStr (s.map.entries i).key = cStr (s.map.entries j).key → i = j) ∧
      ∀ t key s' slot, Alone t (.find key) s [] s' [.found t key slot] → (s'.threads t).pc = .idle →
        slot.map Prod.snd = valueOf kv (cStr key) := by
  have reach : ∀ x : System V size × List (List UInt8 × V), Relation.ReflTransGen Serial (System.init, []) x →
      (∀ u, (x.1.threads u).pc = .idle) ∧ MapInv x.1.map x.2 := by
    intro x run
    induction run with
    | refl => exact ⟨fun _ => rfl, mapInv_init⟩
    | tail _ step ih => exact serial_step pow step ih.1 ih.2
  obtain ⟨idle, inv⟩ := reach _ run
  refine ⟨idle, inv.unique, fun t key s' slot alone returned => ?_⟩
  obtain ⟨slot₀, ⟨s₀, alone₀, -, returned₀⟩, found⟩ := solo_find t key s (idle t)
  obtain ⟨-, same⟩ := Alone.unique alone returned alone₀ returned₀
  cases same
  rw [found, find_eq_valueOf pow inv]

end Serial

/-- Thread 0 runs `insert("AAPL", 150)` alone on a map of four slots. -/
def aaplInserted : System Nat 4 :=
  (System.init.runFrom [] (List.replicate 4 (0, .insert [65, 65, 80, 76, 0] 150))).1

theorem serial_aapl_insert :
    Relation.ReflTransGen Serial (System.init, []) (aaplInserted, [([65, 65, 80, 76], 150)]) ∧
      (∀ u, (aaplInserted.threads u).pc = .idle) ∧
      (∀ i < 4, ∀ j < 4, (aaplInserted.map.entries i).hash ≠ emptyTag → (aaplInserted.map.entries j).hash ≠ emptyTag →
        cStr (aaplInserted.map.entries i).key = cStr (aaplInserted.map.entries j).key → i = j) ∧
      ∀ t key s' slot, Alone t (.find key) aaplInserted [] s' [.found t key slot] → (s'.threads t).pc = .idle →
        slot.map Prod.snd = valueOf [([65, 65, 80, 76], 150)] (cStr key) := by
  have reach : Relation.ReflTransGen Serial (System.init, []) (aaplInserted, [([65, 65, 80, 76], 150)]) :=
    .single (Serial.insert _ _ [] 0 [65, 65, 80, 76, 0] 150 true (by decide) ⟨4, Prod.ext rfl (by decide)⟩ (by decide))
  exact ⟨reach, serial_calls_keep_map ⟨2, rfl⟩ reach⟩

/-! ## Two threads on one key -/

/-- Thread 0 starts `insert("AAPL", 150)` and wins the tag of its home slot;
thread 1 runs `insert("AAPL", 300)`, finds the tag but not yet the key, and
claims the next slot; thread 0 then copies its key and writes its value. -/
def duplicateInserts : List (Nat × MapCall Nat) :=
  List.replicate 2 (0, .insert [65, 65, 80, 76, 0] 150) ++ List.replicate 7 (1, .insert [65, 65, 80, 76, 0] 300) ++
    List.replicate 2 (0, .insert [65, 65, 80, 76, 0] 150)

/-- Thread 0 starts `insert("AAPL", 150)` and gets as far as copying the key;
thread 1 runs `find("AAPL")`. -/
def tornFind : List (Nat × MapCall Nat) :=
  List.replicate 3 (0, .insert [65, 65, 80, 76, 0] 150) ++ List.replicate 3 (1, .find [65, 65, 80, 76, 0])

/-- On a map of four slots both inserts of `duplicateInserts` return `true`,
and "AAPL" is left in slots 3 and 0, both tagged with its hash; under
`tornFind`, `find` returns slot 3 while it holds the default value 0, which no
`insert` passed. -/
theorem concurrent_inserts_break_map :
    ((System.init : System Nat 4).runFrom [] duplicateInserts).2 =
        [.inserted 1 [65, 65, 80, 76, 0] true, .inserted 0 [65, 65, 80, 76, 0] true] ∧
      (((System.init : System Nat 4).runFrom [] duplicateInserts).1.map.entries 3).hash = keyTag [65, 65, 80, 76] ∧
      (((System.init : System Nat 4).runFrom [] duplicateInserts).1.map.entries 0).hash = keyTag [65, 65, 80, 76] ∧
      cStr (((System.init : System Nat 4).runFrom [] duplicateInserts).1.map.entries 3).key = [65, 65, 80, 76] ∧
      cStr (((System.init : System Nat 4).runFrom [] duplicateInserts).1.map.entries 0).key = [65, 65, 80, 76] ∧
      ((System.init : System Nat 4).runFrom [] tornFind).2 = [.found 1 [65, 65, 80, 76, 0] (some (3, 0))] := by
  decide

end Hft.StringMapRace
