import HftSystem.Common.Bytes
import HftSystem.Common.MapSpec
import Mathlib.Data.Finset.Card
import Mathlib.Data.Nat.Find

/-!
# The C-string symbol map

`LockFreeHashMap<const char*, V, Capacity>` of `hashmap.h` on one thread: an
open-addressed table of `Capacity` slots, each a tag (`EMPTY = 0`,
`TOMBSTONE = 1`, otherwise the key's FNV-1a hash), a 16-byte key array and a
value.  A key argument is the memory at the `const char*`: the C string up to
its NUL is what is hashed and compared.

`insert` and `find` walk one probe sequence and stop at the same slots: the
first that is `EMPTY` or holds the key under its tag.  `probeFrom` is that walk;
`insert` claims the slot it stops at when it is empty (copying the key with
`strncpy(..., MAX_KEY_LEN - 1)`) and overwrites the value otherwise, and `find`
returns the value it stops at unless the slot is empty.

For a power-of-two capacity the mask `& (SIZE - 1)` is `% SIZE`, and
`MapInv` relates the table to the association list of the C strings it holds:
every key sits on its own probe sequence after a run of tagged slots, and no
key is stored twice.  `find` then reads that list and `insert` of a new key of
at most 15 bytes extends it.
-/

set_option autoImplicit false

namespace Hft.StringMap

open Hft.Bytes Hft.MapSpec

/-- `MAX_KEY_LEN`. -/
def maxKeyLen : Nat := 16

/-- `Entry::EMPTY`; `Entry::TOMBSTONE` is `1`. -/
def emptyTag : Nat := 0

def fnvOffset : Nat := 14695981039346656037

def fnvPrime : Nat := 1099511628211

/-- `hash_string`: FNV-1a over the chars before the NUL, each sign-extended to
64 bits, with `uint64_t` wrap-around. -/
def hashString (str : List UInt8) : Nat :=
  (cStr str).foldl (fun hash c => (hash ^^^ charToU64 c) * fnvPrime % 2 ^ 64) fnvOffset

/-- The indices of `str` that `hash_string(str)` loads: each char of the loop,
then the NUL that ends it.  When `str` holds no NUL the loop goes on past its
end, so index `str.length` is loaded too. -/
def hashStringReads (str : List UInt8) : List Nat :=
  List.range ((cStr str).length + 1)

/-- The tag `insert` and `find` use: the hash, with `EMPTY` and `TOMBSTONE`
remapped to `2`. -/
def keyTag (key : List UInt8) : Nat :=
  let h := hashString key
  if h = emptyTag ∨ h = 1 then 2 else h

structure Entry (V : Type) where
  hash : Nat
  key : List UInt8
  value : V

/-- The table; slots at `Capacity` and beyond are never read. -/
structure LockFreeHashMap (V : Type) (size : Nat) where
  entries : Nat → Entry V

variable {V : Type} {size : Nat}

/-- The constructor: every tag `EMPTY`, every key array zero. -/
def LockFreeHashMap.init [Inhabited V] : LockFreeHashMap V size :=
  ⟨fun _ => ⟨emptyTag, List.replicate maxKeyLen 0, default⟩⟩

def LockFreeHashMap.set (m : LockFreeHashMap V size) (idx : Nat) (e : Entry V) :
    LockFreeHashMap V size :=
  ⟨fun i => if i = idx then e else m.entries i⟩

def LockFreeHashMap.stopsAt (m : LockFreeHashMap V size) (key : List UInt8) (h idx : Nat) : Bool :=
  (m.entries idx).hash == emptyTag || ((m.entries idx).hash == h && strEq (m.entries idx).key key)

/-- The shared probe loop: from slot `idx`, `fuel` slots at most, stepping by
`idx = (idx + 1) & (SIZE - 1)`. -/
def LockFreeHashMap.probeFrom (m : LockFreeHashMap V size) (key : List UInt8) (h : Nat) :
    Nat → Nat → Option Nat
  | 0, _ => none
  | fuel + 1, idx =>
      if m.stopsAt key h idx then some idx
      else m.probeFrom key h fuel ((idx + 1) &&& (size - 1))

def LockFreeHashMap.probe (m : LockFreeHashMap V size) (key : List UInt8) : Option Nat :=
  m.probeFrom key (keyTag key) size (keyTag key &&& (size - 1))

/-- `insert(key, value)`: claim the first empty slot of the probe, or update
the value of the slot holding `key`; `false` when the table is full. -/
def LockFreeHashMap.insert (m : LockFreeHashMap V size) (key : List UInt8) (value : V) :
    Bool × LockFreeHashMap V size :=
  match m.probe key with
  | none => (false, m)
  | some idx =>
      let e := m.entries idx
      if e.hash = emptyTag then (true, m.set idx ⟨keyTag key, strncpy e.key key (maxKeyLen - 1), value⟩)
      else (true, m.set idx { e with value := value })

/-- `find(key)`, the value behind the pointer it returns. -/
def LockFreeHashMap.find (m : LockFreeHashMap V size) (key : List UInt8) : Option V :=
  match m.probe key with
  | none => none
  | some idx => if (m.entries idx).hash = emptyTag then none else some (m.entries idx).value

/-! ## The probe sequence of a power-of-two table -/

theorem keyTag_cStr (key : List UInt8) : keyTag (cStr key) = keyTag key := by
  simp only [keyTag, hashString, cStr_cStr]

theorem keyTag_ne_empty (key : List UInt8) : keyTag key ≠ emptyTag := by
  simp only [keyTag]
  split <;> simp_all [emptyTag]

theorem strEq_iff (a b : List UInt8) : strEq a b = true ↔ cStr a = cStr b := by
  simp [strEq]

theorem stopsAt_iff (m : LockFreeHashMap V size) (key : List UInt8) (h idx : Nat) :
    m.stopsAt key h idx = true ↔
      (m.entries idx).hash = emptyTag ∨ ((m.entries idx).hash = h ∧ cStr (m.entries idx).key = cStr key) := by
  simp [LockFreeHashMap.stopsAt, strEq_iff]

section Probe

variable (pow : size.isPowerOfTwo) (m : LockFreeHashMap V size) (key : List UInt8) (h : Nat)
include pow

theorem probeFrom_step (fuel start : Nat) :
    m.probeFrom key h (fuel + 1) (start % size) =
      if m.stopsAt key h (start % size) then some (start % size)
      else m.probeFrom key h fuel ((start + 1) % size) := by
  rw [LockFreeHashMap.probeFrom, mask_eq_mod pow, Nat.mod_add_mod]

theorem probeFrom_first :
    ∀ (fuel start d : Nat), d < fuel → (∀ j < d, m.stopsAt key h ((start + j) % size) = false) →
      m.stopsAt key h ((start + d) % size) = true →
      m.probeFrom key h fuel (start % size) = some ((start + d) % size) := by
  intro fuel
  induction fuel with
  | zero => intro _ d below; omega
  | succ fuel ih =>
      intro start d below before here
      rw [probeFrom_step pow]
      cases d with
      | zero =>
          simp only [Nat.add_zero] at here ⊢
          rw [if_pos here]
      | succ d =>
          have skip := before 0 (by omega)
          simp only [Nat.add_zero] at skip
          rw [if_neg (by simp [skip]), ih (start + 1) d (by omega) (fun j lt => by
            simpa [Nat.add_right_comm, Nat.add_assoc] using before (j + 1) (by omega))]
          · rw [Nat.add_right_comm, Nat.add_assoc]
          · simpa [Nat.add_right_comm, Nat.add_assoc] using here

theorem probeFrom_none :
    ∀ (fuel start : Nat), (∀ j < fuel, m.stopsAt key h ((start + j) % size) = false) →
      m.probeFrom key h fuel (start % size) = none := by
  intro fuel
  induction fuel with
  | zero => intro _ _; rfl
  | succ fuel ih =>
      intro start never
      have skip := never 0 (by omega)
      simp only [Nat.add_zero] at skip
      rw [probeFrom_step pow, if_neg (by simp [skip]), ih (start + 1) (fun j lt => by
        simpa [Nat.add_right_comm, Nat.add_assoc] using never (j + 1) (by omega))]

end Probe

theorem stopsAt_of_probeFrom (m : LockFreeHashMap V size) (key : List UInt8) (h : Nat) :
    ∀ (fuel idx found : Nat), m.probeFrom key h fuel idx = some found → m.stopsAt key h found = true := by
  intro fuel
  induction fuel with
  | zero => intro _ _ none_eq; cases none_eq
  | succ fuel ih =>
      intro idx found probed
      rw [LockFreeHashMap.probeFrom] at probed
      split at probed
      · cases probed
        assumption
      · exact ih _ _ probed

theorem probeFrom_lt (m : LockFreeHashMap V size) (key : List UInt8) (h : Nat) (pos : 0 < size) :
    ∀ (fuel idx found : Nat), idx < size → m.probeFrom key h fuel idx = some found → found < size := by
  intro fuel
  induction fuel with
  | zero => intro _ _ _ none_eq; cases none_eq
  | succ fuel ih =>
      intro idx found inside probed
      rw [LockFreeHashMap.probeFrom] at probed
      split at probed
      · cases probed
        exact inside
      · exact ih _ _ (Nat.lt_of_le_of_lt Nat.and_le_right (by omega)) probed

def probeSlot (size : Nat) (key : List UInt8) (j : Nat) : Nat := (keyTag key + j) % size

theorem probeSlot_inj {key : List UInt8} {j d : Nat} (jd : j < d) (d_lt : d < size) :
    probeSlot size key j ≠ probeSlot size key d :=
  add_mod_ne jd d_lt

theorem probe_eq (pow : size.isPowerOfTwo) (m : LockFreeHashMap V size) (key : List UInt8) :
    m.probe key = m.probeFrom key (keyTag key) size (keyTag key % size) := by
  rw [LockFreeHashMap.probe, mask_eq_mod pow]

theorem probe_lt (pow : size.isPowerOfTwo) (m : LockFreeHashMap V size) (key : List UInt8) (idx : Nat)
    (probed : m.probe key = some idx) : idx < size := by
  have pos : 0 < size := by obtain ⟨k, rfl⟩ := pow; exact Nat.two_pow_pos k
  rw [probe_eq pow] at probed
  exact probeFrom_lt m key _ pos _ _ _ (Nat.mod_lt _ pos) probed

theorem find_cStr (m : LockFreeHashMap V size) (key : List UInt8) : m.find (cStr key) = m.find key := by
  have stops : ∀ h idx, m.stopsAt (cStr key) h idx = m.stopsAt key h idx := by
    simp [LockFreeHashMap.stopsAt, strEq, cStr_cStr]
  have probed : ∀ h fuel idx, m.probeFrom (cStr key) h fuel idx = m.probeFrom key h fuel idx := by
    intro h fuel
    induction fuel with
    | zero => intro _; rfl
    | succ fuel ih => intro idx; simp only [LockFreeHashMap.probeFrom, stops, ih]
  simp only [LockFreeHashMap.find, LockFreeHashMap.probe, keyTag_cStr, probed]

theorem find_eq_some (pow : size.isPowerOfTwo) (m : LockFreeHashMap V size) (key : List UInt8) {v : V}
    (found : m.find key = some v) :
    ∃ idx < size, (m.entries idx).hash = keyTag key ∧ cStr (m.entries idx).key = cStr key ∧
      (m.entries idx).value = v := by
  unfold LockFreeHashMap.find at found
  split at found
  · cases found
  · rename_i idx probed
    split_ifs at found with empty
    cases found
    have stops := (stopsAt_iff ..).1 (stopsAt_of_probeFrom m key _ _ _ _ probed)
    exact ⟨idx, probe_lt pow m key idx probed, (stops.resolve_left empty).1, (stops.resolve_left empty).2, rfl⟩

theorem insert_of_find_none (m : LockFreeHashMap V size) (key : List UInt8) (value : V)
    (missing : m.find key = none) :
    m.insert key value = (false, m) ∨ ∃ idx, m.probe key = some idx ∧ (m.entries idx).hash = emptyTag ∧
      m.insert key value = (true, m.set idx ⟨keyTag key, strncpy (m.entries idx).key key (maxKeyLen - 1), value⟩) := by
  unfold LockFreeHashMap.find at missing
  unfold LockFreeHashMap.insert
  split
  · exact Or.inl rfl
  · rename_i idx probed
    simp only [probed] at missing
    by_cases empty : (m.entries idx).hash = emptyTag
    · exact Or.inr ⟨idx, probed, empty, by simp only [if_pos empty]⟩
    · simp [empty] at missing

/-! ## Every key array keeps its terminating NUL -/

/-- Slot keys are 16-byte arrays whose last byte is NUL: `strncpy` writes 15. -/
def KeysTerminated (m : LockFreeHashMap V size) : Prop :=
  ∀ i, (m.entries i).key.drop (maxKeyLen - 1) = [0]

theorem keysTerminated_init [Inhabited V] : KeysTerminated (LockFreeHashMap.init : LockFreeHashMap V size) := by
  intro i
  rfl

theorem strncpy_drop (dst src : List UInt8) (n : Nat) : (strncpy dst src n).drop n = dst.drop n := by
  have copied : ((cStr src).take n ++ List.replicate (n - ((cStr src).take n).length) 0).length = n := by
    simp only [List.length_append, List.length_replicate, List.length_take]
    omega
  rw [strncpy, List.drop_left' copied]

theorem keysTerminated_insert {m : LockFreeHashMap V size} (terminated : KeysTerminated m)
    (key : List UInt8) (value : V) : KeysTerminated (m.insert key value).2 := by
  intro i
  unfold LockFreeHashMap.insert
  split
  · exact terminated i
  · dsimp only
    split <;> simp only [LockFreeHashMap.set] <;> split
    · rw [strncpy_drop]
      exact terminated _
    · exact terminated i
    · exact terminated _
    · exact terminated i

theorem length_cStr_le (p rest : List UInt8) : (cStr (p ++ 0 :: rest)).length ≤ p.length := by
  induction p with
  | nil => simp [cStr]
  | cons c more ih =>
      by_cases hc : c = 0
      · simp [cStr, hc]
      · simpa [cStr, hc] using ih

theorem length_cStr_key_le {m : LockFreeHashMap V size} (terminated : KeysTerminated m) (i : Nat) :
    (cStr (m.entries i).key).length ≤ maxKeyLen - 1 := by
  have split := (List.take_append_drop (maxKeyLen - 1) (m.entries i).key).symm
  rw [terminated i] at split
  rw [split]
  exact (length_cStr_le _ []).trans (List.length_take_le _ _)

theorem find_long_key {m : LockFreeHashMap V size} (terminated : KeysTerminated m)
    (key : List UInt8) (long : maxKeyLen - 1 < (cStr key).length) : m.find key = none := by
  unfold LockFreeHashMap.find
  split
  · rfl
  · rename_i idx probed
    have stops := stopsAt_of_probeFrom m key _ _ _ _ probed
    simp only [LockFreeHashMap.stopsAt, Bool.or_eq_true, beq_iff_eq, Bool.and_eq_true,
      strEq_iff] at stops
    rcases stops with empty | ⟨-, same⟩
    · simp [empty]
    · have := length_cStr_key_le terminated idx
      rw [same] at this
      omega

/-! ## The table refines an association list -/

def Holds (m : LockFreeHashMap V size) (i : Nat) (k : List UInt8) (v : V) : Prop :=
  (m.entries i).hash = keyTag k ∧ cStr (m.entries i).key = k ∧ (m.entries i).value = v

def LockFreeHashMap.tagged (m : LockFreeHashMap V size) : Finset Nat :=
  (Finset.range size).filter fun i => (m.entries i).hash ≠ emptyTag

/-- The table holds exactly the pairs of `kv`, a list of C strings with their
values: each on its own probe sequence behind tagged slots, none twice. -/
structure MapInv (m : LockFreeHashMap V size) (kv : List (List UInt8 × V)) : Prop where
  nodup : (kv.map Prod.fst).Nodup
  placed : ∀ k v, (k, v) ∈ kv → ∃ d < size, Holds m (probeSlot size k d) k v ∧
    ∀ j < d, (m.entries (probeSlot size k j)).hash ≠ emptyTag
  stored : ∀ i < size, (m.entries i).hash ≠ emptyTag → cStr (m.entries i).key ∈ kv.map Prod.fst
  unique : ∀ i < size, ∀ i' < size, (m.entries i).hash ≠ emptyTag → (m.entries i').hash ≠ emptyTag →
    cStr (m.entries i).key = cStr (m.entries i').key → i = i'
  blank : ∀ i, (m.entries i).hash = emptyTag → (m.entries i).key = List.replicate maxKeyLen 0
  count : m.tagged.card = kv.length

theorem mapInv_init [Inhabited V] : MapInv (LockFreeHashMap.init : LockFreeHashMap V size) [] where
  nodup := List.nodup_nil
  placed := by simp
  stored := by simp [LockFreeHashMap.init, emptyTag]
  unique := by simp [LockFreeHashMap.init, emptyTag]
  blank := fun _ _ => rfl
  count := by simp [LockFreeHashMap.tagged, LockFreeHashMap.init, emptyTag]

/-! ### Claiming an empty slot -/

section Claim

variable {m : LockFreeHashMap V size} {kv : List (List UInt8 × V)}

theorem set_entries_other (m : LockFreeHashMap V size) {p i : Nat} (e : Entry V) (other : i ≠ p) :
    (m.set p e).entries i = m.entries i :=
  if_neg other

theorem set_entries_same (m : LockFreeHashMap V size) (p : Nat) (e : Entry V) :
    (m.set p e).entries p = e :=
  if_pos rfl

theorem exists_empty (inv : MapInv m kv) (room : kv.length < size) :
    ∃ i < size, (m.entries i).hash = emptyTag := by
  by_contra full
  push_neg at full
  have all : m.tagged = Finset.range size :=
    Finset.filter_true_of_mem fun i mem => full i (Finset.mem_range.1 mem)
  have := inv.count
  rw [all, Finset.card_range] at this
  omega

theorem probeSlot_reaches (k : List UInt8) {i : Nat} (inside : i < size) :
    probeSlot size k ((i + size - keyTag k % size) % size) = i := by
  have lt : keyTag k % size < size := Nat.mod_lt _ (by omega)
  unfold probeSlot
  rw [Nat.add_mod, Nat.mod_mod, Nat.add_mod_mod,
    show keyTag k % size + (i + size - keyTag k % size) = i + size by omega, Nat.add_mod_right,
    Nat.mod_eq_of_lt inside]

theorem first_empty (inv : MapInv m kv) (room : kv.length < size) (k : List UInt8) :
    ∃ d < size, (m.entries (probeSlot size k d)).hash = emptyTag ∧
      ∀ j < d, (m.entries (probeSlot size k j)).hash ≠ emptyTag := by
  obtain ⟨i, inside, empty⟩ := exists_empty inv room
  have reach : ∃ d, d < size ∧ (m.entries (probeSlot size k d)).hash = emptyTag :=
    ⟨_, Nat.mod_lt _ (by omega), by rw [probeSlot_reaches k inside]; exact empty⟩
  exact ⟨Nat.find reach, (Nat.find_spec reach).1, (Nat.find_spec reach).2,
    fun j lt e => Nat.find_min reach lt ⟨by have := (Nat.find_spec reach).1; omega, e⟩⟩

theorem mapInv_set_empty (inv : MapInv m kv) {k : List UInt8} {v : V} (absent : k ∉ kv.map Prod.fst)
    {d : Nat} (d_lt : d < size) (empty : (m.entries (probeSlot size k d)).hash = emptyTag)
    (before : ∀ j < d, (m.entries (probeSlot size k j)).hash ≠ emptyTag)
    (e : Entry V) (holds : e.hash = keyTag k ∧ cStr e.key = k ∧ e.value = v) :
    MapInv (m.set (probeSlot size k d) e) (kv ++ [(k, v)]) := by
  set p := probeSlot size k d
  have inside : p < size := Nat.mod_lt _ (by omega)
  have tagged_e : e.hash ≠ emptyTag := holds.1 ▸ keyTag_ne_empty k
  -- every slot tagged before the write keeps its entry
  have keep : ∀ i, (m.entries i).hash ≠ emptyTag → (m.set p e).entries i = m.entries i :=
    fun i busy => set_entries_other m e fun same => busy (same ▸ empty)
  have entry : ∀ i, (m.set p e).entries i = if i = p then e else m.entries i := fun _ => rfl
  constructor
  · rw [List.map_append, List.map_singleton]
    exact inv.nodup.append (List.nodup_singleton k) (List.disjoint_singleton.2 absent)
  · intro k' v' mem
    rcases List.mem_append.1 mem with old | new
    · obtain ⟨d', d'_lt, ⟨tag, same, value⟩, run⟩ := inv.placed k' v' old
      have busy : (m.entries (probeSlot size k' d')).hash ≠ emptyTag := tag ▸ keyTag_ne_empty k'
      refine ⟨d', d'_lt, ?_, fun j lt => ?_⟩
      · rw [Holds, keep _ busy]
        exact ⟨tag, same, value⟩
      · rw [keep _ (run j lt)]
        exact run j lt
    · obtain ⟨rfl, rfl⟩ : k' = k ∧ v' = v := by simpa using new
      refine ⟨d, d_lt, by rw [Holds, set_entries_same]; exact holds, fun j lt => ?_⟩
      rw [keep _ (before j lt)]
      exact before j lt
  · intro i lt busy
    rw [entry] at busy ⊢
    rw [List.map_append]
    split_ifs at busy ⊢
    · rw [holds.2.1]
      exact List.mem_append_right _ (List.mem_singleton_self k)
    · exact List.mem_append_left _ (inv.stored i lt busy)
  · intro i lt i' lt' busy busy' same
    rw [entry] at busy same
    rw [entry] at busy' same
    have fresh : ∀ j < size, (m.entries j).hash ≠ emptyTag → cStr (m.entries j).key ≠ k :=
      fun j lt_j busy_j eq => absent (eq ▸ inv.stored j lt_j busy_j)
    split_ifs at busy busy' same with hi hi'
    · rw [hi, hi']
    · exact absurd (holds.2.1 ▸ same.symm) (fresh i' lt' busy')
    · exact absurd (holds.2.1 ▸ same) (fresh i lt busy)
    · exact inv.unique i lt i' lt' busy busy' same
  · intro i blank_i
    rw [entry] at blank_i ⊢
    split_ifs at blank_i ⊢
    · exact absurd blank_i tagged_e
    · exact inv.blank i blank_i
  · have grown : (m.set p e).tagged = insert p m.tagged := by
      ext i
      simp only [LockFreeHashMap.tagged, Finset.mem_filter, Finset.mem_range, Finset.mem_insert, entry]
      by_cases hi : i = p
      · simp [hi, inside, tagged_e]
      · simp [hi]
    have fresh : p ∉ m.tagged := by simp [LockFreeHashMap.tagged, empty]
    rw [grown, Finset.card_insert_of_not_mem fresh, inv.count, List.length_append, List.length_singleton]

end Claim

section Refinement

variable (pow : size.isPowerOfTwo) {m : LockFreeHashMap V size} {kv : List (List UInt8 × V)}
include pow

theorem probe_of_mem (inv : MapInv m kv) (key : List UInt8) (v : V) (mem : (cStr key, v) ∈ kv) :
    ∃ d < size, m.probe key = some (probeSlot size (cStr key) d) ∧ Holds m (probeSlot size (cStr key) d) (cStr key) v ∧
      ∀ j < d, (m.entries (probeSlot size (cStr key) j)).hash ≠ emptyTag := by
  obtain ⟨d, d_lt, ⟨tag, same, value⟩, before⟩ := inv.placed _ _ mem
  have tagged : (m.entries (probeSlot size (cStr key) d)).hash ≠ emptyTag := tag ▸ keyTag_ne_empty _
  refine ⟨d, d_lt, ?_, ⟨tag, same, value⟩, before⟩
  rw [probe_eq pow, ← keyTag_cStr key]
  refine probeFrom_first pow m key _ size _ d d_lt (fun j lt => ?_) ((stopsAt_iff ..).2 (Or.inr ⟨tag, same⟩))
  rw [Bool.eq_false_iff, ne_eq, stopsAt_iff]
  rintro (empty | ⟨-, found⟩)
  · exact before j lt empty
  · exact probeSlot_inj lt d_lt (inv.unique _ (Nat.mod_lt _ (by omega)) _ (Nat.mod_lt _ (by omega))
      (before j lt) tagged (found.trans same.symm))

theorem find_of_mem (inv : MapInv m kv) (key : List UInt8) (v : V) (mem : (cStr key, v) ∈ kv) :
    m.find key = some v := by
  obtain ⟨_, _, probed, ⟨tag, -, value⟩, -⟩ := probe_of_mem pow inv key v mem
  simp only [LockFreeHashMap.find, probed, if_neg (tag ▸ keyTag_ne_empty _ : _ ≠ emptyTag), value]

theorem find_of_not_mem (inv : MapInv m kv) (key : List UInt8) (absent : cStr key ∉ kv.map Prod.fst) :
    m.find key = none := by
  unfold LockFreeHashMap.find
  split
  · rfl
  · rename_i idx probed
    have stops := stopsAt_of_probeFrom m key _ _ _ _ probed
    simp only [LockFreeHashMap.stopsAt, Bool.or_eq_true, beq_iff_eq, Bool.and_eq_true, strEq_iff] at stops
    by_cases empty : (m.entries idx).hash = emptyTag
    · simp [empty]
    · have same := (stops.resolve_left empty).2
      exact absurd (same ▸ inv.stored idx (probe_lt pow m key idx probed) empty) absent

theorem mapInv_insert (inv : MapInv m kv) (key : List UInt8) (value : V)
    (absent : cStr key ∉ kv.map Prod.fst) (short : (cStr key).length ≤ maxKeyLen - 1)
    (room : kv.length < size) :
    (m.insert key value).1 = true ∧ MapInv (m.insert key value).2 (kv ++ [(cStr key, value)]) := by
  obtain ⟨d, d_lt, empty, before⟩ := first_empty inv room (cStr key)
  have probed : m.probe key = some (probeSlot size (cStr key) d) := by
    rw [probe_eq pow, ← keyTag_cStr key]
    refine probeFrom_first pow m key _ size _ d d_lt (fun j lt => ?_) ((stopsAt_iff ..).2 (Or.inl empty))
    rw [Bool.eq_false_iff, ne_eq, stopsAt_iff]
    rintro (blank | ⟨-, found⟩)
    · exact before j lt blank
    · exact absent (found ▸ inv.stored _ (Nat.mod_lt _ (by omega)) (before j lt))
  have stored : cStr (strncpy (m.entries (probeSlot size (cStr key) d)).key key (maxKeyLen - 1)) = cStr key := by
    rw [inv.blank _ empty]
    exact cStr_strncpy_short _ _ _ short rfl
  have inserted : m.insert key value = (true, m.set (probeSlot size (cStr key) d)
      ⟨keyTag key, strncpy (m.entries (probeSlot size (cStr key) d)).key key (maxKeyLen - 1), value⟩) := by
    simp only [LockFreeHashMap.insert, probed, if_pos empty]
  rw [inserted]
  exact ⟨rfl, mapInv_set_empty inv absent d_lt empty before _ ⟨(keyTag_cStr key).symm, stored, rfl⟩⟩

end Refinement

/-! ## Runs of inserts -/

def LockFreeHashMap.insertAll (m : LockFreeHashMap V size) : List (List UInt8 × V) → List Bool × LockFreeHashMap V size
  | [] => ([], m)
  | (key, value) :: rest =>
      ((m.insert key value).1 :: ((m.insert key value).2.insertAll rest).1,
        ((m.insert key value).2.insertAll rest).2)

theorem MapInv.length_le {m : LockFreeHashMap V size} {kv : List (List UInt8 × V)} (inv : MapInv m kv) :
    kv.length ≤ size := by
  rw [← inv.count]
  exact (Finset.card_filter_le _ _).trans (Finset.card_range size).le

theorem MapInv.tagged_of_full {m : LockFreeHashMap V size} {kv : List (List UInt8 × V)} (inv : MapInv m kv)
    (full : kv.length = size) {i : Nat} (lt : i < size) : (m.entries i).hash ≠ emptyTag := by
  have all : m.tagged = Finset.range size :=
    Finset.eq_of_subset_of_card_le (Finset.filter_subset _ _) (by rw [Finset.card_range, inv.count, full])
  have mem : i ∈ m.tagged := all ▸ Finset.mem_range.2 lt
  exact (Finset.mem_filter.1 mem).2

section Runs

variable (pow : size.isPowerOfTwo) {m : LockFreeHashMap V size} {kv : List (List UInt8 × V)}
include pow

theorem insert_full (inv : MapInv m kv) (key : List UInt8) (value : V)
    (absent : cStr key ∉ kv.map Prod.fst) (full : kv.length = size) : m.insert key value = (false, m) := by
  have pos : 0 < size := by obtain ⟨k, rfl⟩ := pow; exact Nat.two_pow_pos k
  have missed : m.probe key = none := by
    rw [probe_eq pow]
    refine probeFrom_none pow m key (keyTag key) size (keyTag key) fun j _ => ?_
    have lt : (keyTag key + j) % size < size := Nat.mod_lt _ pos
    have busy := inv.tagged_of_full full lt
    rw [Bool.eq_false_iff, ne_eq, stopsAt_iff]
    rintro (empty | ⟨-, same⟩)
    · exact busy empty
    · exact absent (same ▸ inv.stored _ lt busy)
  simp only [LockFreeHashMap.insert, missed]

theorem mapInv_update (inv : MapInv m kv) (key : List UInt8) (value : V)
    (present : cStr key ∈ kv.map Prod.fst) :
    (m.insert key value).1 = true ∧ MapInv (m.insert key value).2 (insertSpec size kv (cStr key) value).2 := by
  obtain ⟨⟨k, v₀⟩, mem, named⟩ := List.mem_map.1 present
  obtain rfl : k = cStr key := named
  obtain ⟨d, d_lt, probed, ⟨tag, same, -⟩, before⟩ := probe_of_mem pow inv key v₀ mem
  set p := probeSlot size (cStr key) d
  have busy : (m.entries p).hash ≠ emptyTag := tag ▸ keyTag_ne_empty _
  have inserted : m.insert key value = (true, m.set p { m.entries p with value := value }) := by
    simp only [LockFreeHashMap.insert, probed, if_neg busy]
  rw [inserted]
  -- only the value of slot `p` changes
  have hash_eq : ∀ i, ((m.set p { m.entries p with value := value }).entries i).hash = (m.entries i).hash :=
    fun i => by by_cases hi : i = p <;> simp [LockFreeHashMap.set, hi]
  have key_eq : ∀ i, ((m.set p { m.entries p with value := value }).entries i).key = (m.entries i).key :=
    fun i => by by_cases hi : i = p <;> simp [LockFreeHashMap.set, hi]
  have keys : ∀ x, x ∈ (insertSpec size kv (cStr key) value).2.map Prod.fst ↔ x ∈ kv.map Prod.fst := fun x => by
    rw [keys_insertSpec]
    exact ⟨fun held => held.elim id fun added => added.1 ▸ present, .inl⟩
  refine ⟨rfl, nodup_insertSpec size kv _ value inv.nodup, fun k' v' mem' => ?_, fun i lt busy' => ?_,
    fun i lt i' lt' busy' busy'' named' => ?_, fun i blank => ?_, ?_⟩
  · rw [insertSpec_of_mem size kv _ value present] at mem'
    obtain ⟨⟨k'', v''⟩, old, replaced⟩ := List.mem_map.1 mem'
    by_cases hk : k'' = cStr key
    · rw [if_pos hk] at replaced
      obtain ⟨rfl, rfl⟩ := Prod.mk.inj replaced
      refine ⟨d, d_lt, ⟨by rw [hash_eq]; exact tag, by rw [key_eq]; exact same, by simp [LockFreeHashMap.set]⟩,
        fun j lt => by rw [hash_eq]; exact before j lt⟩
    · rw [if_neg hk] at replaced
      obtain ⟨rfl, rfl⟩ := Prod.mk.inj replaced
      obtain ⟨d', d'_lt, ⟨tag', same', value'⟩, before'⟩ := inv.placed _ _ old
      have apart : probeSlot size k'' d' ≠ p := fun at_p => hk (same'.symm.trans (at_p ▸ same))
      exact ⟨d', d'_lt, by rw [Holds, set_entries_other m _ apart]; exact ⟨tag', same', value'⟩,
        fun j lt => by rw [hash_eq]; exact before' j lt⟩
  · rw [hash_eq] at busy'
    rw [key_eq, keys]
    exact inv.stored i lt busy'
  · rw [hash_eq] at busy' busy''
    rw [key_eq, key_eq] at named'
    exact inv.unique i lt i' lt' busy' busy'' named'
  · rw [hash_eq] at blank
    rw [key_eq]
    exact inv.blank i blank
  · have same_tags : (m.set p { m.entries p with value := value }).tagged = m.tagged :=
      Finset.filter_congr fun i _ => by rw [hash_eq]
    rw [same_tags, inv.count, insertSpec_of_mem size kv _ value present, List.length_map]

theorem insert_refines (inv : MapInv m kv) (key : List UInt8) (value : V)
    (short : (cStr key).length ≤ maxKeyLen - 1) :
    (m.insert key value).1 = (insertSpec size kv (cStr key) value).1 ∧
      MapInv (m.insert key value).2 (insertSpec size kv (cStr key) value).2 := by
  by_cases present : cStr key ∈ kv.map Prod.fst
  · obtain ⟨ok, updated⟩ := mapInv_update pow inv key value present
    exact ⟨by rw [ok, insertSpec_of_mem size kv _ value present], updated⟩
  by_cases room : kv.length < size
  · rw [insertSpec_of_room size kv _ value present room]
    exact mapInv_insert pow inv key value present short room
  · rw [insert_full pow inv key value present (by have := inv.length_le; omega),
      insertSpec_of_full size kv _ value present room]
    exact ⟨rfl, inv⟩

theorem find_eq_valueOf (inv : MapInv m kv) (key : List UInt8) : m.find key = valueOf kv (cStr key) := by
  by_cases present : cStr key ∈ kv.map Prod.fst
  · obtain ⟨⟨k, v⟩, mem, named⟩ := List.mem_map.1 present
    obtain rfl : k = cStr key := named
    rw [find_of_mem pow inv key v mem, valueOf_of_mem inv.nodup mem]
  · rw [find_of_not_mem pow inv key present, valueOf_of_not_mem present]

omit pow in
theorem insertAll_cons (m : LockFreeHashMap V size) (key : List UInt8) (value : V) (rest : List (List UInt8 × V)) :
    m.insertAll ((key, value) :: rest) =
      ((m.insert key value).1 :: ((m.insert key value).2.insertAll rest).1, ((m.insert key value).2.insertAll rest).2) :=
  rfl

theorem insertAll_refines :
    ∀ (calls : List (List UInt8 × V)) (m : LockFreeHashMap V size) (kv : List (List UInt8 × V)), MapInv m kv →
      (∀ c ∈ calls, (cStr c.1).length ≤ maxKeyLen - 1) →
      (m.insertAll calls).1 = (insertSpecRun size kv (calls.map fun c => (cStr c.1, c.2))).1 ∧
        MapInv (m.insertAll calls).2 (insertSpecRun size kv (calls.map fun c => (cStr c.1, c.2))).2 := by
  intro calls
  induction calls with
  | nil => intro m kv inv _; exact ⟨rfl, inv⟩
  | cons c rest ih =>
      intro m kv inv short
      obtain ⟨key, value⟩ := c
      obtain ⟨ok, inv'⟩ := insert_refines pow inv key value (short _ (List.mem_cons_self _ _))
      obtain ⟨oks, inv''⟩ := ih _ _ inv' fun c mem => short c (List.mem_cons_of_mem _ mem)
      rw [insertAll_cons, List.map_cons]
      exact ⟨by rw [insertSpecRun, ← ok, ← oks], inv''⟩

end Runs

/-- For a power-of-two capacity and every sequence of `insert` calls from one
thread with keys whose C strings have at most 15 bytes: `find(key)` returns the
value of the last `insert` of that C string that returned `true` (null if none
did), and an `insert` of such a key returns `false` exactly when its C string
is not stored and `Capacity` distinct C strings are. -/
theorem string_map_inserts [Inhabited V] (pow : size.isPowerOfTwo) (calls : List (List UInt8 × V))
    (short : ∀ c ∈ calls, (cStr c.1).length ≤ maxKeyLen - 1) :
    (∀ key, ((LockFreeHashMap.init : LockFreeHashMap V size).insertAll calls).2.find key =
        lastAccepted (cStr key) (calls.map fun c => (cStr c.1, c.2))
          ((LockFreeHashMap.init : LockFreeHashMap V size).insertAll calls).1) ∧
      ∀ key value, (cStr key).length ≤ maxKeyLen - 1 →
        ((((LockFreeHashMap.init : LockFreeHashMap V size).insertAll calls).2.insert key value).1 = false ↔
          cStr key ∉ acceptedKeys (calls.map fun c => (cStr c.1, c.2))
              ((LockFreeHashMap.init : LockFreeHashMap V size).insertAll calls).1 ∧
            (acceptedKeys (calls.map fun c => (cStr c.1, c.2))
              ((LockFreeHashMap.init : LockFreeHashMap V size).insertAll calls).1).length = size) := by
  obtain ⟨oks, inv⟩ := insertAll_refines pow calls _ [] mapInv_init short
  obtain ⟨lookups, -, refuses⟩ := insertSpecRun_spec size (calls.map fun c => (cStr c.1, c.2))
  refine ⟨fun key => by rw [find_eq_valueOf pow inv, lookups, oks], fun key value short_key => ?_⟩
  rw [(insert_refines pow inv key value short_key).1, refuses, oks]

/-- The inserts of `test_hashmap_strings`: `AAPL`, `MSFT` and `GOOGL`, each
with its NUL. -/
def testSymbolInserts : List (List UInt8 × Nat) :=
  [([65, 65, 80, 76, 0], 150), ([77, 83, 70, 84, 0], 300), ([71, 79, 79, 71, 76, 0], 2800)]

theorem test_symbols_found :
    (256 : Nat).isPowerOfTwo ∧ (∀ c ∈ testSymbolInserts, (cStr c.1).length ≤ maxKeyLen - 1) ∧
      ∀ key, ((LockFreeHashMap.init : LockFreeHashMap Nat 256).insertAll testSymbolInserts).2.find key =
        lastAccepted (cStr key) (testSymbolInserts.map fun c => (cStr c.1, c.2))
          ((LockFreeHashMap.init : LockFreeHashMap Nat 256).insertAll testSymbolInserts).1 :=
  ⟨⟨8, rfl⟩, by decide, (string_map_inserts ⟨8, rfl⟩ testSymbolInserts (by decide)).1⟩

/-- `ABCDEFGHIJKLMNOP` with its NUL: sixteen chars, one more than a key holds. -/
def sixteenCharKey : List UInt8 := [65, 66, 67, 68, 69, 70, 71, 72, 73, 74, 75, 76, 77, 78, 79, 80, 0]

/-- Outside that domain the laws fail.  In a three-slot table `A` and `B` both
start at slot 0, and `(0 + 1) & 2` is 0 again, so `insert("B")` fails with one
key stored; and a sixteen-char key, stored truncated, is inserted twice into a
four-slot table and then not found. -/
theorem string_map_off_domain :
    ((LockFreeHashMap.init : LockFreeHashMap Nat 3).insertAll [([65, 0], 1), ([66, 0], 2)]).1 = [true, false] ∧
      (acceptedKeys ([([65, 0], 1), ([66, 0], 2)].map fun c => (cStr c.1, c.2)) [true, false]).length = 1 ∧
      ((LockFreeHashMap.init : LockFreeHashMap Nat 4).insertAll [(sixteenCharKey, 1), (sixteenCharKey, 2)]).1 =
        [true, true] ∧
      ((LockFreeHashMap.init : LockFreeHashMap Nat 4).insertAll
        [(sixteenCharKey, 1), (sixteenCharKey, 2)]).2.find sixteenCharKey = none ∧
      lastAccepted (cStr sixteenCharKey) ([(sixteenCharKey, 1), (sixteenCharKey, 2)].map fun c => (cStr c.1, c.2))
        [true, true] = some 2 := by
  refine ⟨by decide, by decide, by decide, by decide, by decide⟩

end Hft.StringMap
