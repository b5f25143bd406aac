import Mathlib.Data.List.Dedup
import Mathlib.Data.List.Perm.Basic

/-!
# What a map of fixed capacity is for

The abstract side of the two `LockFreeHashMap` models: an association list
with distinct keys, and `insertSpec`, an `insert` that overwrites the value of
a key it holds, adds a new key while fewer than `size` are held, and fails
otherwise.  `insertSpecRun` is a sequence of such calls from one thread.

A run is also read through its calls alone, with no map in between:
`lastAccepted k` is the value of the last call on `k` that returned `true`, and
`acceptedKeys` the distinct keys of the calls that returned `true`.  A run's
list answers `valueOf` with `lastAccepted` and holds exactly `acceptedKeys`, so
an `insert` fails exactly when its key is new and `size` keys are held.
-/

set_option autoImplicit false

namespace Hft.MapSpec

variable {K V : Type} [DecidableEq K]

/-- `insert(k, v)` on the association list: overwrite, add, or fail when full. -/
def insertSpec (size : Nat) (kv : List (K × V)) (k : K) (v : V) : Bool × List (K × V) :=
  if k ∈ kv.map Prod.fst then (true, kv.map fun p => if p.1 = k then (k, v) else p)
  else if kv.length < size then (true, kv ++ [(k, v)])
  else (false, kv)

def insertSpecRun (size : Nat) (kv : List (K × V)) : List (K × V) → List Bool × List (K × V)
  | [] => ([], kv)
  | (k, v) :: rest =>
      ((insertSpec size kv k v).1 :: (insertSpecRun size (insertSpec size kv k v).2 rest).1,
        (insertSpecRun size (insertSpec size kv k v).2 rest).2)

/-- The value the list holds for `k`: that of its first pair with key `k`. -/
def valueOf (kv : List (K × V)) (k : K) : Option V :=
  kv.lookup k

/-- The value of the last call on `k` that returned `true`, if any. -/
def lastAccepted (k : K) : List (K × V) → List Bool → Option V
  | (k', v) :: calls, ok :: results =>
      (lastAccepted k calls results).or (if k' = k ∧ ok = true then some v else none)
  | _, _ => none

/-- The distinct keys of the calls that returned `true`. -/
def acceptedKeys (calls : List (K × V)) (results : List Bool) : List K :=
  (((calls.zip results).filter (·.2)).map (·.1.1)).dedup

/-! ## Lookups in a list with distinct keys -/

theorem valueOf_of_mem {kv : List (K × V)} (nodup : (kv.map Prod.fst).Nodup) {k : K} {v : V}
    (mem : (k, v) ∈ kv) : valueOf kv k = some v := by
  unfold valueOf
  induction kv with
  | nil => cases mem
  | cons p rest ih =>
      obtain ⟨k', v'⟩ := p
      rw [List.map_cons, List.nodup_cons] at nodup
      rcases List.mem_cons.1 mem with same | later
      · obtain ⟨rfl, rfl⟩ := Prod.mk.inj same
        simp
      · have held : k ∈ rest.map Prod.fst := List.mem_map_of_mem Prod.fst later
        have other : k ≠ k' := fun e => nodup.1 (e ▸ held)
        simp [List.lookup_cons, beq_false_of_ne other, ih nodup.2 later]

theorem valueOf_of_not_mem {kv : List (K × V)} {k : K} (absent : k ∉ kv.map Prod.fst) : valueOf kv k = none :=
  List.lookup_eq_none_iff.2 fun p mem => bne_iff_ne.2 fun e => absent (List.mem_map.2 ⟨p, mem, e.symm⟩)

/-! ## One call -/

section Step

variable (size : Nat) (kv : List (K × V)) (k : K) (v : V)

theorem insertSpec_of_mem (present : k ∈ kv.map Prod.fst) :
    insertSpec size kv k v = (true, kv.map fun p => if p.1 = k then (k, v) else p) :=
  if_pos present

theorem insertSpec_of_room (absent : k ∉ kv.map Prod.fst) (room : kv.length < size) :
    insertSpec size kv k v = (true, kv ++ [(k, v)]) := by
  rw [insertSpec, if_neg absent, if_pos room]

theorem insertSpec_of_full (absent : k ∉ kv.map Prod.fst) (full : ¬kv.length < size) :
    insertSpec size kv k v = (false, kv) := by
  rw [insertSpec, if_neg absent, if_neg full]

theorem lookup_replace_ne {x : K} (other : x ≠ k) :
    (kv.map fun p => if p.1 = k then (k, v) else p).lookup x = kv.lookup x := by
  induction kv with
  | nil => rfl
  | cons p rest ih =>
      obtain ⟨k', v'⟩ := p
      by_cases here : k' = k
      · subst here
        simp [List.lookup_cons, beq_false_of_ne other, ih]
      · simp [List.lookup_cons, here, ih]

theorem lookup_replace_self (present : k ∈ kv.map Prod.fst) :
    (kv.map fun p => if p.1 = k then (k, v) else p).lookup k = some v := by
  induction kv with
  | nil => simp at present
  | cons p rest ih =>
      obtain ⟨k', v'⟩ := p
      by_cases here : k' = k
      · simp [List.lookup_cons, here]
      · have later : k ∈ rest.map Prod.fst := by simpa [Ne.symm here] using present
        simp [List.lookup_cons, here, beq_false_of_ne (Ne.symm here), ih later]

theorem valueOf_insertSpec (x : K) :
    valueOf (insertSpec size kv k v).2 x =
      if x = k ∧ (insertSpec size kv k v).1 = true then some v else valueOf kv x := by
  unfold valueOf
  by_cases present : k ∈ kv.map Prod.fst
  · simp only [insertSpec_of_mem size kv k v present, and_true]
    split_ifs with same
    · exact same ▸ lookup_replace_self kv k v present
    · exact lookup_replace_ne kv k v same
  by_cases room : kv.length < size
  · rw [insertSpec_of_room size kv k v present room, List.lookup_append]
    by_cases same : x = k
    · subst same
      have absent : kv.lookup x = none := valueOf_of_not_mem present
      rw [absent]
      simp
    · cases kv.lookup x <;> simp [same, beq_false_of_ne same]
  · simp [insertSpec_of_full size kv k v present room]

theorem keys_insertSpec (x : K) :
    x ∈ (insertSpec size kv k v).2.map Prod.fst ↔
      x ∈ kv.map Prod.fst ∨ (x = k ∧ (insertSpec size kv k v).1 = true) := by
  by_cases present : k ∈ kv.map Prod.fst
  · have replaced : (kv.map fun p => if p.1 = k then (k, v) else p).map Prod.fst = kv.map Prod.fst := by
      rw [List.map_map]
      exact List.map_congr_left fun p _ => by by_cases here : p.1 = k <;> simp [here]
    rw [insertSpec_of_mem size kv k v present, replaced]
    exact ⟨.inl, fun mem => mem.elim id fun added => added.1 ▸ present⟩
  by_cases room : kv.length < size
  · simp [insertSpec_of_room size kv k v present room]
  · simp [insertSpec_of_full size kv k v present room]

theorem nodup_insertSpec (nodup : (kv.map Prod.fst).Nodup) :
    ((insertSpec size kv k v).2.map Prod.fst).Nodup := by
  by_cases present : k ∈ kv.map Prod.fst
  · rw [insertSpec_of_mem size kv k v present, List.map_map]
    convert nodup using 1
    exact List.map_congr_left fun p _ => by by_cases here : p.1 = k <;> simp [here]
  by_cases room : kv.length < size
  · rw [insertSpec_of_room size kv k v present room, List.map_append, List.map_singleton]
    exact nodup.append (List.nodup_singleton k) (List.disjoint_singleton.2 present)
  · rw [insertSpec_of_full size kv k v present room]
    exact nodup

theorem length_insertSpec_le (within : kv.length ≤ size) : (insertSpec size kv k v).2.length ≤ size := by
  by_cases present : k ∈ kv.map Prod.fst
  · simpa [insertSpec_of_mem size kv k v present] using within
  by_cases room : kv.length < size
  · simpa [insertSpec_of_room size kv k v present room] using room
  · rw [insertSpec_of_full size kv k v present room]
    exact within

theorem insertSpec_false_iff (within : kv.length ≤ size) :
    (insertSpec size kv k v).1 = false ↔ k ∉ kv.map Prod.fst ∧ kv.length = size := by
  by_cases present : k ∈ kv.map Prod.fst
  · simp [insertSpec_of_mem size kv k v present, present]
  by_cases room : kv.length < size
  · simp only [insertSpec_of_room size kv k v present room, Bool.true_eq_false, false_iff, not_and]
    exact fun _ full => by omega
  · simp only [insertSpec_of_full size kv k v present room, true_iff]
    exact ⟨present, by omega⟩

end Step

/-! ## Runs -/

section Run

variable (size : Nat)

theorem valueOf_insertSpecRun (x : K) :
    ∀ (calls : List (K × V)) (kv : List (K × V)),
      valueOf (insertSpecRun size kv calls).2 x =
        (lastAccepted x calls (insertSpecRun size kv calls).1).or (valueOf kv x) := by
  intro calls
  induction calls with
  | nil => intro kv; rfl
  | cons c rest ih =>
      intro kv
      obtain ⟨k, v⟩ := c
      simp only [insertSpecRun, lastAccepted, ih, valueOf_insertSpec, Option.or_assoc]
      congr 1
      by_cases hit : k = x ∧ (insertSpec size kv k v).1 = true
      · obtain ⟨rfl, ok⟩ := hit
        simp [ok]
      · rw [if_neg hit, if_neg fun other => hit ⟨other.1.symm, other.2⟩]
        rfl

theorem keys_insertSpecRun (x : K) :
    ∀ (calls : List (K × V)) (kv : List (K × V)),
      x ∈ (insertSpecRun size kv calls).2.map Prod.fst ↔
        x ∈ kv.map Prod.fst ∨ x ∈ acceptedKeys calls (insertSpecRun size kv calls).1 := by
  intro calls
  induction calls with
  | nil => intro kv; simp [insertSpecRun, acceptedKeys]
  | cons c rest ih =>
      intro kv
      obtain ⟨k, v⟩ := c
      simp only [insertSpecRun, ih, keys_insertSpec, acceptedKeys, List.mem_dedup, List.zip_cons_cons]
      by_cases ok : (insertSpec size kv k v).1 = true
      · simp only [ok, and_true, List.filter_cons_of_pos, List.map_cons, List.mem_cons]
        tauto
      · simp [ok]

theorem nodup_insertSpecRun :
    ∀ (calls : List (K × V)) (kv : List (K × V)), (kv.map Prod.fst).Nodup →
      ((insertSpecRun size kv calls).2.map Prod.fst).Nodup := by
  intro calls
  induction calls with
  | nil => intro kv nodup; exact nodup
  | cons c rest ih => intro kv nodup; exact ih _ (nodup_insertSpec size kv c.1 c.2 nodup)

theorem length_insertSpecRun_le :
    ∀ (calls : List (K × V)) (kv : List (K × V)), kv.length ≤ size →
      (insertSpecRun size kv calls).2.length ≤ size := by
  intro calls
  induction calls with
  | nil => intro kv within; exact within
  | cons c rest ih => intro kv within; exact ih _ (length_insertSpec_le size kv c.1 c.2 within)

theorem insertSpecRun_spec (calls : List (K × V)) :
    (∀ x, valueOf (insertSpecRun size [] calls).2 x = lastAccepted x calls (insertSpecRun size [] calls).1) ∧
      (∀ x, x ∈ (insertSpecRun size [] calls).2.map Prod.fst ↔
        x ∈ acceptedKeys calls (insertSpecRun size [] calls).1) ∧
      ∀ k v, (insertSpec size (insertSpecRun size [] calls).2 k v).1 = false ↔
        k ∉ acceptedKeys calls (insertSpecRun size [] calls).1 ∧
          (acceptedKeys calls (insertSpecRun size [] calls).1).length = size := by
  have keys : ∀ x, x ∈ (insertSpecRun size [] calls).2.map Prod.fst ↔
      x ∈ acceptedKeys calls (insertSpecRun size [] calls).1 := fun x => by
    simpa using keys_insertSpecRun size x calls []
  have nodup := nodup_insertSpecRun size calls [] List.nodup_nil
  have count : (insertSpecRun size [] calls).2.length =
      (acceptedKeys calls (insertSpecRun size [] calls).1).length := by
    rw [← List.length_map _ Prod.fst]
    exact ((List.perm_ext_iff_of_nodup nodup (List.nodup_dedup _)).2 keys).length_eq
  refine ⟨fun x => by simpa [valueOf] using valueOf_insertSpecRun size x calls [], keys, fun k v => ?_⟩
  rw [insertSpec_false_iff size _ k v (length_insertSpecRun_le size calls [] (Nat.zero_le _)), keys, count]

end Run

end Hft.MapSpec
