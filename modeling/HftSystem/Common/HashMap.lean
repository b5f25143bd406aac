import HftSystem.Common.StringMap

/-!
# The map with fixed-size keys

The primary template `LockFreeHashMap<K, V, Capacity>` of `hashmap.h` on one
thread.  A key is its object representation, the `sizeof(K)` bytes that
`hash` reads through a `const char*` and `keys_equal` compares with `memcmp`:
two keys are the same key exactly when their bytes are equal.  Unlike the
C-string specialization, the whole key is hashed (zero bytes included) and a
claimed slot receives a copy of the whole key.

The probe is the same loop: `insert` and `find` stop at the first slot of the
sequence that is `EMPTY` or holds the key under its tag.  For a power-of-two
capacity `MapInv` relates the table to an association list, and every
`insert` does to the table what `insertSpec` does to that list, so a run of
inserts answers `find` with the last accepted value, fails exactly when the key
is new and the table full, and never stores a key twice.
-/

set_option autoImplicit false

namespace Hft.HashMap

open Hft.Bytes Hft.MapSpec
open Hft.StringMap (emptyTag fnvOffset fnvPrime)

/-- `hash(key)`: FNV-1a over every byte of the key, each `char` sign-extended
to 64 bits, with `uint64_t` wrap-around. -/
def hash (key : List UInt8) : Nat :=
  key.foldl (fun hash c => (hash ^^^ charToU64 c) * fnvPrime % 2 ^ 64) fnvOffset

/-- The tag `insert` and `find` use: the hash, with `EMPTY` and `TOMBSTONE`
remapped to `2`. -/
def keyTag (key : List UInt8) : Nat :=
  let h := hash key
  if h = emptyTag ∨ h = 1 then 2 else h

structure Entry (V : Type) where
  hash : Nat
  key : List UInt8
  value : V

/-- The table; slots at `Capacity` and beyond are never read. -/
structure LockFreeHashMap (V : Type) (size : Nat) where
  entries : Nat → Entry V

variable {V : Type} {size : Nat}

/-- The constructor: every tag `EMPTY`.  The key of an untagged slot is never
compared (the probe stops at the tag), so its bytes are left empty here. -/
def LockFreeHashMap.init [Inhabited V] : LockFreeHashMap V size :=
  ⟨fun _ => ⟨emptyTag, [], default⟩⟩

def LockFreeHashMap.set (m : LockFreeHashMap V size) (idx : Nat) (e : Entry V) : LockFreeHashMap V size :=
  ⟨fun i => if i = idx then e else m.entries i⟩

def LockFreeHashMap.stopsAt (m : LockFreeHashMap V size) (key : List UInt8) (h idx : Nat) : Bool :=
  (m.entries idx).hash == emptyTag || ((m.entries idx).hash == h && (m.entries idx).key == key)

/-- The shared probe loop: from slot `idx`, `fuel` slots at most, stepping by
`idx = (idx + 1) & (SIZE - 1)`. -/
def LockFreeHashMap.probeFrom (m : LockFreeHashMap V size) (key : List UInt8) (h : Nat) :
    Nat → Nat → Option Nat
  | 0, _ => none
  | fuel + 1, idx =>
      if m.stopsAt key h idx then some idx
      else m.probeFrom key h fuel ((idx + 1) &&& (size - 1))

def LockFreeHashMap.probe (m : LockFreeHashMap V size) (key : List UInt8) : Option Nat :=
  m.probeFrom key (keyTag key) size (keyTag key &&& (size - 1))

/-- `insert(key, value)`: claim the first empty slot of the probe with a copy
of the key, or update the value of the slot holding it; `false` when the
probe runs out. -/
def LockFreeHashMap.insert (m : LockFreeHashMap V size) (key : List UInt8) (value : V) :
    Bool × LockFreeHashMap V size :=
  match m.probe key with
  | none => (false, m)
  | some idx =>
      let e := m.entries idx
      if e.hash = emptyTag then (true, m.set idx ⟨keyTag key, key, value⟩)
      else (true, m.set idx { e with value := value })

/-- `find(key)`, the value behind the pointer it returns. -/
def LockFreeHashMap.find (m : LockFreeHashMap V size) (key : List UInt8) : Option V :=
  match m.probe key with
  | none => none
  | some idx => if (m.entries idx).hash = emptyTag then none else some (m.entries idx).value

def LockFreeHashMap.insertAll (m : LockFreeHashMap V size) : List (List UInt8 × V) → List Bool × LockFreeHashMap V size
  | [] => ([], m)
  | (key, value) :: rest =>
      ((m.insert key value).1 :: ((m.insert key value).2.insertAll rest).1,
        ((m.insert key value).2.insertAll rest).2)

def probeSlot (size : Nat) (key : List UInt8) (j : Nat) : Nat := (keyTag key + j) % size

def Holds (m : LockFreeHashMap V size) (i : Nat) (k : List UInt8) (v : V) : Prop :=
  (m.entries i).hash = keyTag k ∧ (m.entries i).key = k ∧ (m.entries i).value = v

def LockFreeHashMap.tagged (m : LockFreeHashMap V size) : Finset Nat :=
  (Finset.range size).filter fun i => (m.entries i).hash ≠ emptyTag

/-- The table holds exactly the pairs of `kv`: each key on its own probe
sequence behind tagged slots, none twice. -/
structure MapInv (m : LockFreeHashMap V size) (kv : List (List UInt8 × V)) : Prop where
  nodup : (kv.map Prod.fst).Nodup
  placed : ∀ k v, (k, v) ∈ kv → ∃ d < size, Holds m (probeSlot size k d) k v ∧
    ∀ j < d, (m.entries (probeSlot size k j)).hash ≠ emptyTag
  stored : ∀ i < size, (m.entries i).hash ≠ emptyTag → (m.entries i).key ∈ kv.map Prod.fst
  unique : ∀ i < size, ∀ i' < size, (m.entries i).hash ≠ emptyTag → (m.entries i').hash ≠ emptyTag →
    (m.entries i).key = (m.entries i').key → i = i'
  count : m.tagged.card = kv.length

/-! ## The probe sequence -/

theorem keyTag_ne_empty (key : List UInt8) : keyTag key ≠ emptyTag := by
  simp only [keyTag]
  split <;> simp_all [emptyTag]

theorem stopsAt_iff (m : LockFreeHashMap V size) (key : List UInt8) (h idx : Nat) :
    m.stopsAt key h idx = true ↔
      (m.entries idx).hash = emptyTag ∨ ((m.entries idx).hash = h ∧ (m.entries idx).key = key) := by
  simp [LockFreeHashMap.stopsAt]

theorem set_entries_other (m : LockFreeHashMap V size) {p i : Nat} (e : Entry V) (other : i ≠ p) :
    (m.set p e).entries i = m.entries i :=
  if_neg other

theorem set_entries_same (m : LockFreeHashMap V size) (p : Nat) (e : Entry V) : (m.set p e).entries p = e :=
  if_pos rfl

section Probe

variable (pow : size.isPowerOfTwo) (m : LockFreeHashMap V size) (key : List UInt8) (h : Nat)
include pow

theorem probeFrom_step (fuel start : Nat) :
    m.probeFrom key h (fuel + 1) (start % size) =
      if m.stopsAt key h (start % size) then some (start % size)
      else m.probeFrom key h fuel ((start + 1) % size) := by
  rw [LockFreeHashMap.probeFrom, mask_eq_mod pow, Nat.mod_add_mod]

theorem probeFrom_first :
    ∀ (fuel start d : Nat), d < fuel → (∀ j < d, m.stopsAt key h ((start + j) % size) = false) →
      m.stopsAt key h ((start + d) % size) = true →
      m.probeFrom key h fuel (start % size) = some ((start + d) % size) := by
  intro fuel
  induction fuel with
  | zero => intro _ d below; omega
  | succ fuel ih =>
      intro start d below before here
      rw [probeFrom_step pow]
      cases d with
      | zero =>
          simp only [Nat.add_zero] at here ⊢
          rw [if_pos here]
      | succ d =>
          have skip := before 0 (by omega)
          simp only [Nat.add_zero] at skip
          rw [if_neg (by simp [skip]), ih (start + 1) d (by omega) (fun j lt => by
            simpa [Nat.add_right_comm, Nat.add_assoc] using before (j + 1) (by omega))]
          · rw [Nat.add_right_comm, Nat.add_assoc]
          · simpa [Nat.add_right_comm, Nat.add_assoc] using here

theorem probeFrom_none :
    ∀ (fuel start : Nat), (∀ j < fuel, m.stopsAt key h ((start + j) % size) = false) →
      m.probeFrom key h fuel (start % size) = none := by
  intro fuel
  induction fuel with
  | zero => intro _ _; rfl
  | succ fuel ih =>
      intro start never
      have skip := never 0 (by omega)
      simp only [Nat.add_zero] at skip
      rw [probeFrom_step pow, if_neg (by simp [skip]), ih (start + 1) (fun j lt => by
        simpa [Nat.add_right_comm, Nat.add_assoc] using never (j + 1) (by omega))]

theorem probe_eq : m.probe key = m.probeFrom key (keyTag key) size (keyTag key % size) := by
  rw [LockFreeHashMap.probe, mask_eq_mod pow]

end Probe

theorem stopsAt_of_probeFrom (m : LockFreeHashMap V size) (key : List UInt8) (h : Nat) :
    ∀ (fuel idx found : Nat), m.probeFrom key h fuel idx = some found → m.stopsAt key h found = true := by
  intro fuel
  induction fuel with
  | zero => intro _ _ none_eq; cases none_eq
  | succ fuel ih =>
      intro idx found probed
      rw [LockFreeHashMap.probeFrom] at probed
      split at probed
      · cases probed
        assumption
      · exact ih _ _ probed

theorem probeFrom_lt (m : LockFreeHashMap V size) (key : List UInt8) (h : Nat) (pos : 0 < size) :
    ∀ (fuel idx found : Nat), idx < size → m.probeFrom key h fuel idx = some found → found < size := by
  intro fuel
  induction fuel with
  | zero => intro _ _ _ none_eq; cases none_eq
  | succ fuel ih =>
      intro idx found inside probed
      rw [LockFreeHashMap.probeFrom] at probed
      split at probed
      · cases probed
        exact inside
      · exact ih _ _ (Nat.lt_of_le_of_lt Nat.and_le_right (by omega)) probed

theorem probe_lt (pow : size.isPowerOfTwo) (m : LockFreeHashMap V size) (key : List UInt8) (idx : Nat)
    (probed : m.probe key = some idx) : idx < size := by
  have pos : 0 < size := by obtain ⟨k, rfl⟩ := pow; exact Nat.two_pow_pos k
  rw [probe_eq pow] at probed
  exact probeFrom_lt m key _ pos _ _ _ (Nat.mod_lt _ pos) probed

theorem probeSlot_reaches (k : List UInt8) {i : Nat} (inside : i < size) :
    probeSlot size k ((i + size - keyTag k % size) % size) = i := by
  have lt : keyTag k % size < size := Nat.mod_lt _ (by omega)
  unfold probeSlot
  rw [Nat.add_mod, Nat.mod_mod, Nat.add_mod_mod,
    show keyTag k % size + (i + size - keyTag k % size) = i + size by omega, Nat.add_mod_right,
    Nat.mod_eq_of_lt inside]

/-! ## The table refines an association list -/

theorem mapInv_init [Inhabited V] : MapInv (LockFreeHashMap.init : LockFreeHashMap V size) [] where
  nodup := List.nodup_nil
  placed := by simp
  stored := by simp [LockFreeHashMap.init, emptyTag]
  unique := by simp [LockFreeHashMap.init, emptyTag]
  count := by simp [LockFreeHashMap.tagged, LockFreeHashMap.init, emptyTag]

section Claim

variable {m : LockFreeHashMap V size} {kv : List (List UInt8 × V)}

theorem MapInv.length_le (inv : MapInv m kv) : kv.length ≤ size := by
  rw [← inv.count]
  exact (Finset.card_filter_le _ _).trans (Finset.card_range size).le

theorem MapInv.tagged_iff_full (inv : MapInv m kv) :
    (∀ i < size, (m.entries i).hash ≠ emptyTag) ↔ kv.length = size := by
  constructor
  · intro busy
    have all : m.tagged = Finset.range size :=
      Finset.filter_true_of_mem fun i mem => busy i (Finset.mem_range.1 mem)
    rw [← inv.count, all, Finset.card_range]
  · intro full i lt
    have all : m.tagged = Finset.range size :=
      Finset.eq_of_subset_of_card_le (Finset.filter_subset _ _) (by rw [Finset.card_range, inv.count, full])
    exact (Finset.mem_filter.1 (all ▸ Finset.mem_range.2 lt : i ∈ m.tagged)).2

theorem first_empty (inv : MapInv m kv) (room : kv.length < size) (k : List UInt8) :
    ∃ d < size, (m.entries (probeSlot size k d)).hash = emptyTag ∧
      ∀ j < d, (m.entries (probeSlot size k j)).hash ≠ emptyTag := by
  obtain ⟨i, inside, empty⟩ : ∃ i < size, (m.entries i).hash = emptyTag := by
    by_contra full
    push_neg at full
    exact absurd (inv.tagged_iff_full.1 full) (by omega)
  have reach : ∃ d, d < size ∧ (m.entries (probeSlot size k d)).hash = emptyTag :=
    ⟨_, Nat.mod_lt _ (by omega), by rw [probeSlot_reaches k inside]; exact empty⟩
  exact ⟨Nat.find reach, (Nat.find_spec reach).1, (Nat.find_spec reach).2,
    fun j lt e => Nat.find_min reach lt ⟨by have := (Nat.find_spec reach).1; omega, e⟩⟩

theorem mapInv_set_empty (inv : MapInv m kv) {k : List UInt8} {v : V} (absent : k ∉ kv.map Prod.fst)
    {d : Nat} (d_lt : d < size) (empty : (m.entries (probeSlot size k d)).hash = emptyTag)
    (before : ∀ j < d, (m.entries (probeSlot size k j)).hash ≠ emptyTag) :
    MapInv (m.set (probeSlot size k d) ⟨keyTag k, k, v⟩) (kv ++ [(k, v)]) := by
  set p := probeSlot size k d
  have inside : p < size := Nat.mod_lt _ (by omega)
  have keep : ∀ i, (m.entries i).hash ≠ emptyTag → (m.set p ⟨keyTag k, k, v⟩).entries i = m.entries i :=
    fun i busy => set_entries_other m _ fun same => busy (same ▸ empty)
  have entry : ∀ i, (m.set p ⟨keyTag k, k, v⟩).entries i = if i = p then ⟨keyTag k, k, v⟩ else m.entries i :=
    fun _ => rfl
  have fresh : ∀ j < size, (m.entries j).hash ≠ emptyTag → (m.entries j).key ≠ k :=
    fun j lt_j busy_j eq => absent (eq ▸ inv.stored j lt_j busy_j)
  constructor
  · rw [List.map_append, List.map_singleton]
    exact inv.nodup.append (List.nodup_singleton k) (List.disjoint_singleton.2 absent)
  · intro k' v' mem
    rcases List.mem_append.1 mem with old | new
    · obtain ⟨d', d'_lt, ⟨tag, same, value⟩, run⟩ := inv.placed k' v' old
      have busy : (m.entries (probeSlot size k' d')).hash ≠ emptyTag := tag ▸ keyTag_ne_empty k'
      refine ⟨d', d'_lt, ?_, fun j lt => ?_⟩
      · rw [Holds, keep _ busy]
        exact ⟨tag, same, value⟩
      · rw [keep _ (run j lt)]
        exact run j lt
    · obtain ⟨rfl, rfl⟩ : k' = k ∧ v' = v := by simpa using new
      refine ⟨d, d_lt, by rw [Holds, set_entries_same]; exact ⟨rfl, rfl, rfl⟩, fun j lt => ?_⟩
      rw [keep _ (before j lt)]
      exact before j lt
  · intro i lt busy
    rw [entry] at busy ⊢
    rw [List.map_append]
    split_ifs at busy ⊢
    · exact List.mem_append_right _ (List.mem_singleton_self k)
    · exact List.mem_append_left _ (inv.stored i lt busy)
  · intro i lt i' lt' busy busy' same
    rw [entry] at busy same
    rw [entry] at busy' same
    split_ifs at busy busy' same with hi hi'
    · rw [hi, hi']
    · exact absurd same.symm (fresh i' lt' busy')
    · exact absurd same (fresh i lt busy)
    · exact inv.unique i lt i' lt' busy busy' same
  · have grown : (m.set p ⟨keyTag k, k, v⟩).tagged = insert p m.tagged := by
      ext i
      simp only [LockFreeHashMap.tagged, Finset.mem_filter, Finset.mem_range, Finset.mem_insert, entry]
      by_cases hi : i = p
      · simp [hi, inside, keyTag_ne_empty]
      · simp [hi]
    have fresh_p : p ∉ m.tagged := by simp [LockFreeHashMap.tagged, empty]
    rw [grown, Finset.card_insert_of_not_mem fresh_p, inv.count, List.length_append, List.length_singleton]

end Claim

section Refinement

variable (pow : size.isPowerOfTwo) {m : LockFreeHashMap V size} {kv : List (List UInt8 × V)}
include pow

theorem probe_of_mem (inv : MapInv m kv) (key : List UInt8) (v : V) (mem : (key, v) ∈ kv) :
    ∃ d < size, m.probe key = some (probeSlot size key d) ∧ Holds m (probeSlot size key d) key v ∧
      ∀ j < d, (m.entries (probeSlot size key j)).hash ≠ emptyTag := by
  obtain ⟨d, d_lt, ⟨tag, same, value⟩, before⟩ := inv.placed _ _ mem
  have tagged : (m.entries (probeSlot size key d)).hash ≠ emptyTag := tag ▸ keyTag_ne_empty _
  refine ⟨d, d_lt, ?_, ⟨tag, same, value⟩, before⟩
  rw [probe_eq pow]
  refine probeFrom_first pow m key _ size _ d d_lt (fun j lt => ?_) ((stopsAt_iff ..).2 (Or.inr ⟨tag, same⟩))
  rw [Bool.eq_false_iff, ne_eq, stopsAt_iff]
  rintro (empty | ⟨-, found⟩)
  · exact before j lt empty
  · exact add_mod_ne lt d_lt (inv.unique _ (Nat.mod_lt _ (by omega)) _ (Nat.mod_lt _ (by omega))
      (before j lt) tagged (found.trans same.symm))

theorem find_eq_valueOf (inv : MapInv m kv) (key : List UInt8) : m.find key = valueOf kv key := by
  by_cases present : key ∈ kv.map Prod.fst
  · obtain ⟨⟨k, v⟩, mem, named⟩ := List.mem_map.1 present
    obtain rfl : k = key := named
    obtain ⟨_, _, probed, ⟨tag, -, value⟩, -⟩ := probe_of_mem pow inv k v mem
    rw [valueOf_of_mem inv.nodup mem]
    simp only [LockFreeHashMap.find, probed, if_neg (tag ▸ keyTag_ne_empty _ : _ ≠ emptyTag), value]
  · rw [valueOf_of_not_mem present]
    unfold LockFreeHashMap.find
    split
    · rfl
    · rename_i idx probed
      have stops := (stopsAt_iff ..).1 (stopsAt_of_probeFrom m key _ _ _ _ probed)
      by_cases empty : (m.entries idx).hash = emptyTag
      · simp [empty]
      · exact absurd ((stops.resolve_left empty).2 ▸ inv.stored idx (probe_lt pow m key idx probed) empty) present

theorem mapInv_insert (inv : MapInv m kv) (key : List UInt8) (value : V) (absent : key ∉ kv.map Prod.fst)
    (room : kv.length < size) :
    (m.insert key value).1 = true ∧ MapInv (m.insert key value).2 (kv ++ [(key, value)]) := by
  obtain ⟨d, d_lt, empty, before⟩ := first_empty inv room key
  have probed : m.probe key = some (probeSlot size key d) := by
    rw [probe_eq pow]
    refine probeFrom_first pow m key _ size _ d d_lt (fun j lt => ?_) ((stopsAt_iff ..).2 (Or.inl empty))
    rw [Bool.eq_false_iff, ne_eq, stopsAt_iff]
    rintro (blank | ⟨-, found⟩)
    · exact before j lt blank
    · exact absent (found ▸ inv.stored _ (Nat.mod_lt _ (by omega)) (before j lt))
  have inserted : m.insert key value = (true, m.set (probeSlot size key d) ⟨keyTag key, key, value⟩) := by
    simp only [LockFreeHashMap.insert, probed, if_pos empty]
  rw [inserted]
  exact ⟨rfl, mapInv_set_empty inv absent d_lt empty before⟩

theorem insert_full (inv : MapInv m kv) (key : List UInt8) (value : V)
    (absent : key ∉ kv.map Prod.fst) (full : kv.length = size) : m.insert key value = (false, m) := by
  have pos : 0 < size := by obtain ⟨k, rfl⟩ := pow; exact Nat.two_pow_pos k
  have missed : m.probe key = none := by
    rw [probe_eq pow]
    refine probeFrom_none pow m key (keyTag key) size (keyTag key) fun j _ => ?_
    have lt : (keyTag key + j) % size < size := Nat.mod_lt _ pos
    have busy := inv.tagged_iff_full.2 full _ lt
    rw [Bool.eq_false_iff, ne_eq, stopsAt_iff]
    rintro (empty | ⟨-, same⟩)
    · exact busy empty
    · exact absent (same ▸ inv.stored _ lt busy)
  simp only [LockFreeHashMap.insert, missed]

theorem mapInv_update (inv : MapInv m kv) (key : List UInt8) (value : V) (present : key ∈ kv.map Prod.fst) :
    (m.insert key value).1 = true ∧ MapInv (m.insert key value).2 (insertSpec size kv key value).2 := by
  obtain ⟨⟨k, v₀⟩, mem, named⟩ := List.mem_map.1 present
  obtain rfl : k = key := named
  obtain ⟨d, d_lt, probed, ⟨tag, same, -⟩, before⟩ := probe_of_mem pow inv k v₀ mem
  set p := probeSlot size k d
  have busy : (m.entries p).hash ≠ emptyTag := tag ▸ keyTag_ne_empty _
  have inserted : m.insert k value = (true, m.set p { m.entries p with value := value }) := by
    simp only [LockFreeHashMap.insert, probed, if_neg busy]
  rw [inserted]
  -- only the value of slot `p` changes
  have hash_eq : ∀ i, ((m.set p { m.entries p with value := value }).entries i).hash = (m.entries i).hash :=
    fun i => by by_cases hi : i = p <;> simp [LockFreeHashMap.set, hi]
  have key_eq : ∀ i, ((m.set p { m.entries p with value := value }).entries i).key = (m.entries i).key :=
    fun i => by by_cases hi : i = p <;> simp [LockFreeHashMap.set, hi]
  have keys : ∀ x, x ∈ (insertSpec size kv k value).2.map Prod.fst ↔ x ∈ kv.map Prod.fst := fun x => by
    rw [keys_insertSpec]
    exact ⟨fun held => held.elim id fun added => added.1 ▸ present, .inl⟩
  refine ⟨rfl, nodup_insertSpec size kv _ value inv.nodup, fun k' v' mem' => ?_, fun i lt busy' => ?_,
    fun i lt i' lt' busy' busy'' named' => ?_, ?_⟩
  · rw [insertSpec_of_mem size kv _ value present] at mem'
    obtain ⟨⟨k'', v''⟩, old, replaced⟩ := List.mem_map.1 mem'
    by_cases hk : k'' = k
    · rw [if_pos hk] at replaced
      obtain ⟨rfl, rfl⟩ := Prod.mk.inj replaced
      refine ⟨d, d_lt, ⟨by rw [hash_eq]; exact tag, by rw [key_eq]; exact same, by simp [LockFreeHashMap.set]⟩,
        fun j lt => by rw [hash_eq]; exact before j lt⟩
    · rw [if_neg hk] at replaced
      obtain ⟨rfl, rfl⟩ := Prod.mk.inj replaced
      obtain ⟨d', d'_lt, ⟨tag', same', value'⟩, before'⟩ := inv.placed _ _ old
      have apart : probeSlot size k'' d' ≠ p := fun at_p => hk (same'.symm.trans (at_p ▸ same))
      exact ⟨d', d'_lt, by rw [Holds, set_entries_other m _ apart]; exact ⟨tag', same', value'⟩,
        fun j lt => by rw [hash_eq]; exact before' j lt⟩
  · rw [hash_eq] at busy'
    rw [key_eq, keys]
    exact inv.stored i lt busy'
  · rw [hash_eq] at busy' busy''
    rw [key_eq, key_eq] at named'
    exact inv.unique i lt i' lt' busy' busy'' named'
  · have same_tags : (m.set p { m.entries p with value := value }).tagged = m.tagged :=
      Finset.filter_congr fun i _ => by rw [hash_eq]
    rw [same_tags, inv.count, insertSpec_of_mem size kv _ value present, List.length_map]

theorem insert_refines (inv : MapInv m kv) (key : List UInt8) (value : V) :
    (m.insert key value).1 = (insertSpec size kv key value).1 ∧
      MapInv (m.insert key value).2 (insertSpec size kv key value).2 := by
  by_cases present : key ∈ kv.map Prod.fst
  · obtain ⟨ok, updated⟩ := mapInv_update pow inv key value present
    exact ⟨by rw [ok, insertSpec_of_mem size kv _ value present], updated⟩
  by_cases room : kv.length < size
  · rw [insertSpec_of_room size kv _ value present room]
    exact mapInv_insert pow inv key value present room
  · rw [insert_full pow inv key value present (by have := inv.length_le; omega),
      insertSpec_of_full size kv _ value present room]
    exact ⟨rfl, inv⟩

theorem insertAll_refines :
    ∀ (calls : List (List UInt8 × V)) (m : LockFreeHashMap V size) (kv : List (List UInt8 × V)), MapInv m kv →
      (m.insertAll calls).1 = (insertSpecRun size kv calls).1 ∧ MapInv (m.insertAll calls).2 (insertSpecRun size kv calls).2 := by
  intro calls
  induction calls with
  | nil => intro m kv inv; exact ⟨rfl, inv⟩
  | cons c rest ih =>
      intro m kv inv
      obtain ⟨key, value⟩ := c
      obtain ⟨ok, inv'⟩ := insert_refines pow inv key value
      obtain ⟨oks, inv''⟩ := ih _ _ inv'
      exact ⟨by rw [LockFreeHashMap.insertAll, insertSpecRun, ← ok, ← oks], inv''⟩

end Refinement

/-- For every power-of-two capacity and every sequence of `insert` calls from
one thread, keys being compared and hashed byte-wise: `find(k)` returns the
value of the last `insert(k, .)` that returned `true`, or null if none did;
`insert(k, v)` returns `false` exactly when `k` is not stored and `Capacity`
distinct keys are; and no key occupies two tagged slots. -/
theorem generic_map_inserts [Inhabited V] (pow : size.isPowerOfTwo) (calls : List (List UInt8 × V)) :
    (∀ k, ((LockFreeHashMap.init : LockFreeHashMap V size).insertAll calls).2.find k =
        lastAccepted k calls ((LockFreeHashMap.init : LockFreeHashMap V size).insertAll calls).1) ∧
      (∀ k v, (((LockFreeHashMap.init : LockFreeHashMap V size).insertAll calls).2.insert k v).1 = false ↔
        k ∉ acceptedKeys calls ((LockFreeHashMap.init : LockFreeHashMap V size).insertAll calls).1 ∧
          (acceptedKeys calls ((LockFreeHashMap.init : LockFreeHashMap V size).insertAll calls).1).length = size) ∧
      ∀ i < size, ∀ j < size,
        (((LockFreeHashMap.init : LockFreeHashMap V size).insertAll calls).2.entries i).hash ≠ emptyTag →
        (((LockFreeHashMap.init : LockFreeHashMap V size).insertAll calls).2.entries j).hash ≠ emptyTag →
        (((LockFreeHashMap.init : LockFreeHashMap V size).insertAll calls).2.entries i).key =
          (((LockFreeHashMap.init : LockFreeHashMap V size).insertAll calls).2.entries j).key → i = j := by
  obtain ⟨oks, inv⟩ := insertAll_refines pow calls _ [] mapInv_init
  obtain ⟨lookups, -, refuses⟩ := insertSpecRun_spec size calls
  refine ⟨fun k => by rw [find_eq_valueOf pow inv, lookups, oks], fun k v => ?_, inv.unique⟩
  rw [(insert_refines pow inv k v).1, refuses, oks]

def intKeyInserts : List (List UInt8 × Nat) := [([1, 0, 0, 0], 10), ([2, 0, 0, 0], 20), ([1, 0, 0, 0], 11)]

theorem int_keys_last_value :
    (4 : Nat).isPowerOfTwo ∧
      ∀ k, ((LockFreeHashMap.init : LockFreeHashMap Nat 4).insertAll intKeyInserts).2.find k =
        lastAccepted k intKeyInserts ((LockFreeHashMap.init : LockFreeHashMap Nat 4).insertAll intKeyInserts).1 :=
  ⟨⟨2, rfl⟩, (generic_map_inserts ⟨2, rfl⟩ intKeyInserts).1⟩

end Hft.HashMap
