import HftSystem.MarketData.OrderBook
import Mathlib.Data.List.FinRange

/-!
# Snapshots racing the writer

`update_level` and `get_snapshot` interleaved one shared-memory access at a
time: the writer's price write, quantity write, depth publication and
sequence increment, against the reader's two sequence loads, two depth loads
and the field-by-field copy of every level.  The writer's depth load and store
are one step, since no other thread writes the depth.

`get_snapshot` reads the sequences first and never again, so a snapshot that
reports version `c` of a side can hold fields of later versions.  What holds is
that no copied field is older than version `c`.
-/

set_option autoImplicit false

namespace Hft.SnapshotRace

open Hft.MarketData

inductive BookField where
  | sequence
  | depth
  | price (i : Fin maxDepth)
  | quantity (i : Fin maxDepth)
  | orderCount (i : Fin maxDepth)
  deriving DecidableEq

def BookField.agree : BookField → Book → Book → Prop
  | .sequence, a, b => a.sequence = b.sequence
  | .depth, a, b => a.depth = b.depth
  | .price i, a, b => (a.levels i).price = (b.levels i).price
  | .quantity i, a, b => (a.levels i).quantity = (b.levels i).quantity
  | .orderCount i, a, b => (a.levels i).orderCount = (b.levels i).orderCount

def BookField.copy : BookField → Book → Book → Book
  | .sequence, src, dst => { dst with sequence := src.sequence }
  | .depth, src, dst => { dst with depth := src.depth }
  | .price i, src, dst => dst.setLevel i { dst.levels i with price := (src.levels i).price }
  | .quantity i, src, dst => dst.setLevel i { dst.levels i with quantity := (src.levels i).quantity }
  | .orderCount i, src, dst =>
      dst.setLevel i { dst.levels i with orderCount := (src.levels i).orderCount }

theorem BookField.agree_refl (f : BookField) (a : Book) : f.agree a a := by
  cases f <;> rfl

theorem BookField.agree_copy_self (f : BookField) (src dst : Book) :
    f.agree (f.copy src dst) src := by
  cases f <;> simp [BookField.agree, BookField.copy, Book.setLevel]

theorem BookField.agree_copy_other {f g : BookField} (src dst other : Book) (distinct : g ≠ f) :
    g.agree (f.copy src dst) other ↔ g.agree dst other := by
  cases f <;> cases g <;>
    simp only [BookField.agree, BookField.copy, Book.setLevel, Function.update_apply] <;>
    (try split_ifs) <;> simp_all

/-! ## The writer -/

/-- One shared-memory step of `update_level`. -/
inductive WriterStep where
  | writePrice (σ : Side) (i : Fin maxDepth) (price : ℚ)
  | writeQuantity (σ : Side) (i : Fin maxDepth) (quantity : ℚ)
  | publishDepth (σ : Side) (i : Fin maxDepth)
  | bumpSequence (σ : Side)

def WriterStep.side : WriterStep → Side
  | .writePrice σ _ _ => σ
  | .writeQuantity σ _ _ => σ
  | .publishDepth σ _ => σ
  | .bumpSequence σ => σ

def WriterStep.run (b : OrderBook) : WriterStep → OrderBook
  | .writePrice σ i price =>
      b.setBook σ ((b.book σ).setLevel i { (b.book σ).levels i with price := price })
  | .writeQuantity σ i quantity =>
      b.setBook σ ((b.book σ).setLevel i { (b.book σ).levels i with quantity := quantity })
  | .publishDepth σ i =>
      b.setBook σ { b.book σ with
        depth := if (b.book σ).depth ≤ i.val then (i.val + 1) % 2 ^ 32 else (b.book σ).depth }
  | .bumpSequence σ =>
      b.setBook σ { b.book σ with sequence := ((b.book σ).sequence + 1) % 2 ^ 64 }

/-- The shared-memory steps of one `update_bid` / `update_ask` call; a call at
or past `MAX_DEPTH` returns before touching the book. -/
def updateSteps (u : LevelUpdate) : List WriterStep :=
  if h : maxDepth ≤ u.level then []
  else
    let i : Fin maxDepth := ⟨u.level, Nat.not_le.mp h⟩
    [.writePrice u.side i u.price, .writeQuantity u.side i u.quantity,
      .publishDepth u.side i, .bumpSequence u.side]

@[simp] theorem OrderBook.setBook_setBook (b : OrderBook) (σ : Side) (x y : Book) :
    (b.setBook σ x).setBook σ y = b.setBook σ y := by
  cases σ <;> rfl

theorem updateSteps_run (b : OrderBook) (u : LevelUpdate) :
    (updateSteps u).foldl WriterStep.run b = b.apply u := by
  rw [OrderBook.apply_eq_update]
  by_cases outside : maxDepth ≤ u.level
  · simp [updateSteps, outside, update_of_maxDepth_le]
  · simp [updateSteps, outside, OrderBook.update, WriterStep.run, Book.updateLevel,
      Book.setLevel]

theorem sequence_mid_update (b : OrderBook) (u : LevelUpdate) (τ : Side) {j : Nat}
    (pending : j < (updateSteps u).length ∨ j = 0) :
    ((((updateSteps u).take j).foldl WriterStep.run b).book τ).sequence = (b.book τ).sequence := by
  by_cases outside : maxDepth ≤ u.level
  · simp [updateSteps, outside]
  · simp only [updateSteps, outside, dite_false, List.length_cons, List.length_nil] at pending ⊢
    obtain rfl | rfl | rfl | rfl : j = 0 ∨ j = 1 ∨ j = 2 ∨ j = 3 := by omega
    all_goals
      by_cases side : u.side = τ
      · subst side
        simp [WriterStep.run, Book.setLevel]
      · simp [WriterStep.run, OrderBook.book_setBook_other _ _ side]

theorem BookField.agree_copy_either (f g : BookField) {old new x : Book}
    (either : f.agree x old ∨ f.agree x new) : f.agree (g.copy new x) old ∨ f.agree (g.copy new x) new := by
  by_cases same : f = g
  · subst same
    exact .inr (f.agree_copy_self new x)
  · rwa [BookField.agree_copy_other new x old same, BookField.agree_copy_other new x new same]

theorem updateSteps_copies (b : OrderBook) (u : LevelUpdate) (inside : u.level < maxDepth) :
    let i : Fin maxDepth := ⟨u.level, inside⟩
    let new := (b.book u.side).updateLevel i u.price u.quantity
    (((updateSteps u).take 1).foldl WriterStep.run b).book u.side = (BookField.price i).copy new (b.book u.side) ∧
      (((updateSteps u).take 2).foldl WriterStep.run b).book u.side =
        (BookField.quantity i).copy new ((BookField.price i).copy new (b.book u.side)) ∧
      (((updateSteps u).take 3).foldl WriterStep.run b).book u.side =
        BookField.depth.copy new ((BookField.quantity i).copy new ((BookField.price i).copy new (b.book u.side))) := by
  simp [updateSteps, Nat.not_le.mpr inside, WriterStep.run, BookField.copy, Book.updateLevel, Book.setLevel]

theorem field_mid_update (b : OrderBook) (u : LevelUpdate) (τ : Side) (f : BookField) {j : Nat}
    (pending : j < (updateSteps u).length ∨ j = 0) :
    f.agree ((((updateSteps u).take j).foldl WriterStep.run b).book τ) (b.book τ) ∨
      f.agree ((((updateSteps u).take j).foldl WriterStep.run b).book τ) ((b.apply u).book τ) := by
  by_cases outside : maxDepth ≤ u.level
  · left
    simp only [updateSteps, outside, dite_true, List.take_nil, List.foldl_nil]
    exact f.agree_refl _
  by_cases side : u.side = τ
  · subst side
    have inside := Nat.not_le.mp outside
    have four : (updateSteps u).length = 4 := by simp [updateSteps, outside]
    obtain ⟨one, two, three⟩ := updateSteps_copies b u inside
    rw [OrderBook.apply_eq_update, book_update_same _ _ _ _ inside]
    have start : f.agree (b.book u.side) (b.book u.side) ∨
        f.agree (b.book u.side) ((b.book u.side).updateLevel ⟨u.level, inside⟩ u.price u.quantity) :=
      .inl (f.agree_refl _)
    rw [four] at pending
    obtain rfl | rfl | rfl | rfl : j = 0 ∨ j = 1 ∨ j = 2 ∨ j = 3 := by omega
    · exact start
    · rw [one]
      exact f.agree_copy_either _ start
    · rw [two]
      exact f.agree_copy_either _ (f.agree_copy_either _ start)
    · rw [three]
      exact f.agree_copy_either _ (f.agree_copy_either _ (f.agree_copy_either _ start))
  · left
    have untouched : ∀ n, ((((updateSteps u).take n).foldl WriterStep.run b).book τ) = b.book τ := by
      intro n
      simp only [updateSteps, outside, dite_false]
      rcases n with _ | _ | _ | _ | n <;>
        simp [WriterStep.run, OrderBook.book_setBook_other _ _ side]
    rw [untouched]
    exact f.agree_refl _

/-! ## The reader and the interleaving -/

/-- The loads of one `get_snapshot`, in program order: both sequences, both
depths, then for each level the bid fields and the ask fields. -/
def snapshotReads : List (Side × BookField) :=
  [(.bid, .sequence), (.ask, .sequence), (.bid, .depth), (.ask, .depth)] ++
    (List.finRange maxDepth).flatMap fun i =>
      [(.bid, .price i), (.bid, .quantity i), (.bid, .orderCount i),
        (.ask, .price i), (.ask, .quantity i), (.ask, .orderCount i)]

structure RaceState where
  book : OrderBook
  call : Nat
  step : Nat
  read : Nat
  snap : Snapshot
  taken : List Snapshot

inductive Turn where
  | writer
  | reader (now : Nat)

def writerTurn (ws : List LevelUpdate) (s : RaceState) : RaceState :=
  match ws[s.call]? with
  | none => s
  | some u =>
      match (updateSteps u)[s.step]? with
      | none => { s with call := s.call + 1, step := 0 }
      | some w =>
          if s.step + 1 < (updateSteps u).length then
            { s with book := w.run s.book, step := s.step + 1 }
          else { s with book := w.run s.book, call := s.call + 1, step := 0 }

/-- The reader's next load, or the return of the finished snapshot; the next
`get_snapshot` starts at once. -/
def readerTurn (now : Nat) (s : RaceState) : RaceState :=
  match snapshotReads[s.read]? with
  | some (σ, f) =>
      { s with snap := s.snap.setBook σ (f.copy (s.book.book σ) (s.snap.book σ)), read := s.read + 1 }
  | none => { s with taken := s.taken ++ [{ s.snap with timestamp := now }], read := 0 }

def RaceState.turn (ws : List LevelUpdate) (s : RaceState) : Turn → RaceState
  | .writer => writerTurn ws s
  | .reader now => readerTurn now s

def race (ws : List LevelUpdate) (turns : List Turn) (s : RaceState) : RaceState :=
  turns.foldl (RaceState.turn ws) s

def RaceState.init (symbol : List UInt8) (snap : Snapshot) : RaceState :=
  ⟨OrderBook.init symbol, 0, 0, 0, snap, []⟩

/-! ## Versions of a ladder -/

def landing (σ : Side) (ws : List LevelUpdate) : List LevelUpdate :=
  ws.filter (LevelUpdate.lands σ)

/-- Side `σ`'s ladder after the first `n` of its updates. -/
def ladderAfter (σ : Side) (ws : List LevelUpdate) (n : Nat) : Book :=
  expectedBook σ ((landing σ ws).take n)

def completed (σ : Side) (ws : List LevelUpdate) (k : Nat) : Nat :=
  (ws.take k).countP (LevelUpdate.lands σ)

def bookAt (symbol : List UInt8) (ws : List LevelUpdate) (k j : Nat) : OrderBook :=
  match ws[k]? with
  | some u => ((updateSteps u).take j).foldl WriterStep.run ((OrderBook.init symbol).applyAll (ws.take k))
  | none => (OrderBook.init symbol).applyAll (ws.take k)

theorem filter_take_countP {α : Type} (p : α → Bool) (xs : List α) (k : Nat) :
    (xs.take k).filter p = (xs.filter p).take ((xs.take k).countP p) := by
  induction xs generalizing k with
  | nil => simp
  | cons x rest ih =>
      cases k with
      | zero => simp
      | succ k =>
          by_cases hx : p x
          · simp [List.filter_cons, hx, ih, List.countP_cons]
          · simp [List.filter_cons, hx, ih, List.countP_cons]

theorem expectedBook_filter_lands (σ : Side) (us : List LevelUpdate) :
    expectedBook σ (us.filter (LevelUpdate.lands σ)) = expectedBook σ us := by
  have writes_lands : ∀ i, (us.filter (LevelUpdate.lands σ)).filter (LevelUpdate.writes σ i) =
      us.filter (LevelUpdate.writes σ i) := by
    intro i
    rw [List.filter_filter]
    congr 1
    funext u
    simp only [LevelUpdate.lands, LevelUpdate.writes, Bool.and_eq_true, beq_iff_eq,
      decide_eq_true_eq]
    cases (u.side == σ) <;> simp
    intro e
    rw [e]
    exact i.isLt
  simp only [expectedBook, writes_lands, List.filter_filter, Bool.and_self,
    List.countP_eq_length_filter]

theorem completed_le (σ : Side) (ws : List LevelUpdate) (k : Nat) :
    completed σ ws k ≤ (landing σ ws).length := by
  rw [completed, landing, ← List.countP_eq_length_filter]
  exact List.Sublist.countP_le _ (List.take_sublist k ws)

theorem completed_mono (σ : Side) (ws : List LevelUpdate) {k k' : Nat} (le : k ≤ k') :
    completed σ ws k ≤ completed σ ws k' := by
  rw [completed, completed]
  exact List.Sublist.countP_le _ (List.take_sublist_take_left ws le)

theorem applied_book (symbol : List UInt8) (σ : Side) (ws : List LevelUpdate) (k : Nat) :
    ((OrderBook.init symbol).applyAll (ws.take k)).book σ = ladderAfter σ ws (completed σ ws k) := by
  rw [book_applyAll_expected, ladderAfter, landing, completed, ← filter_take_countP,
    expectedBook_filter_lands]

theorem applied_succ (symbol : List UInt8) (ws : List LevelUpdate) {k : Nat} {u : LevelUpdate}
    (current : ws[k]? = some u) :
    (OrderBook.init symbol).applyAll (ws.take (k + 1)) =
      ((OrderBook.init symbol).applyAll (ws.take k)).apply u := by
  rw [List.take_succ, current, OrderBook.applyAll, List.foldl_append]
  rfl

theorem bookAt_of_current (symbol : List UInt8) (ws : List LevelUpdate) {k : Nat}
    {u : LevelUpdate} (current : ws[k]? = some u) (j : Nat) :
    bookAt symbol ws k j =
      ((updateSteps u).take j).foldl WriterStep.run ((OrderBook.init symbol).applyAll (ws.take k)) := by
  simp only [bookAt, current]

theorem bookAt_zero (symbol : List UInt8) (ws : List LevelUpdate) (k : Nat) :
    bookAt symbol ws k 0 = (OrderBook.init symbol).applyAll (ws.take k) := by
  unfold bookAt
  split <;> rfl

def WriterPos (ws : List LevelUpdate) (k j : Nat) : Prop :=
  j = 0 ∨ ∃ u, ws[k]? = some u ∧ j < (updateSteps u).length

theorem bookAt_sequence (symbol : List UInt8) (ws : List LevelUpdate) {k j : Nat}
    (pos : WriterPos ws k j) (σ : Side) :
    ((bookAt symbol ws k j).book σ).sequence = completed σ ws k % 2 ^ 64 := by
  have start : (((OrderBook.init symbol).applyAll (ws.take k)).book σ).sequence =
      completed σ ws k % 2 ^ 64 := by
    rw [book_applyAll_expected]
    rfl
  rcases pos with rfl | ⟨u, current, inside⟩
  · rw [bookAt_zero, start]
  · rw [bookAt_of_current symbol ws current, sequence_mid_update _ _ _ (.inl inside), start]

theorem bookAt_field (symbol : List UInt8) (ws : List LevelUpdate) {k j : Nat}
    (pos : WriterPos ws k j) (σ : Side) (f : BookField) :
    ∃ n, completed σ ws k ≤ n ∧ n ≤ (landing σ ws).length ∧
      f.agree ((bookAt symbol ws k j).book σ) (ladderAfter σ ws n) := by
  have started : ∃ n, completed σ ws k ≤ n ∧ n ≤ (landing σ ws).length ∧
      f.agree (((OrderBook.init symbol).applyAll (ws.take k)).book σ) (ladderAfter σ ws n) :=
    ⟨_, le_rfl, completed_le σ ws k, by rw [applied_book]; exact f.agree_refl _⟩
  unfold bookAt
  split
  · rename_i u current
    have pending : j < (updateSteps u).length ∨ j = 0 := by
      rcases pos with rfl | ⟨v, again, inside⟩
      · exact .inr rfl
      · rw [current, Option.some.injEq] at again
        exact .inl (again ▸ inside)
    rcases field_mid_update ((OrderBook.init symbol).applyAll (ws.take k)) u σ f pending
      with before | after
    · rw [applied_book] at before
      exact ⟨_, le_rfl, completed_le σ ws k, before⟩
    · rw [← applied_succ symbol ws current, applied_book] at after
      exact ⟨_, completed_mono σ ws (Nat.le_succ k), completed_le σ ws (k + 1), after⟩
  · exact started

theorem BookField.agree_trans (f : BookField) {a b c : Book} (first : f.agree a b)
    (second : f.agree b c) : f.agree a c := by
  cases f <;> exact Eq.trans first second

theorem writerTurn_book (symbol : List UInt8) (ws : List LevelUpdate) (s : RaceState)
    (book_eq : s.book = bookAt symbol ws s.call s.step) (pos : WriterPos ws s.call s.step) :
    (writerTurn ws s).book = bookAt symbol ws (writerTurn ws s).call (writerTurn ws s).step ∧
      WriterPos ws (writerTurn ws s).call (writerTurn ws s).step ∧
      s.call ≤ (writerTurn ws s).call ∧ (writerTurn ws s).read = s.read ∧
      (writerTurn ws s).snap = s.snap ∧ (writerTurn ws s).taken = s.taken := by
  unfold writerTurn
  split
  · exact ⟨book_eq, pos, le_rfl, rfl, rfl, rfl⟩
  · rename_i u current
    have applied := applied_succ symbol ws current
    split
    · rename_i beyond
      have empty : updateSteps u = [] := by
        rcases pos with zero | ⟨v, again, inside⟩
        · rw [zero] at beyond
          exact List.eq_nil_of_length_eq_zero (by simpa using beyond)
        · rw [current, Option.some.injEq] at again
          subst again
          simp [List.getElem?_eq_none_iff.mpr] at beyond
          omega
      refine ⟨?_, .inl rfl, Nat.le_succ _, rfl, rfl, rfl⟩
      rw [bookAt_zero, applied, ← updateSteps_run, book_eq, bookAt_of_current symbol ws current,
        empty, List.take_nil]
    · rename_i w next
      have extend : (updateSteps u).take (s.step + 1) = (updateSteps u).take s.step ++ [w] :=
        by rw [List.take_succ, next]; rfl
      have moved : w.run s.book = bookAt symbol ws s.call (s.step + 1) := by
        rw [book_eq, bookAt_of_current symbol ws current, bookAt_of_current symbol ws current,
          extend, List.foldl_append]
        rfl
      split
      · exact ⟨moved, .inr ⟨u, current, by assumption⟩, le_rfl, rfl, rfl, rfl⟩
      · rename_i last
        have whole : (updateSteps u).take (s.step + 1) = updateSteps u :=
          List.take_of_length_le (by
            have := (List.getElem?_eq_some_iff.mp next).1
            omega)
        refine ⟨?_, .inl rfl, Nat.le_succ _, rfl, rfl, rfl⟩
        rw [moved, bookAt_zero, applied, bookAt_of_current symbol ws current, whole,
          updateSteps_run]

/-! ## What a snapshot can hold -/

theorem mem_snapshotReads (σ : Side) (f : BookField) : (σ, f) ∈ snapshotReads := by
  cases σ <;> cases f <;> simp [snapshotReads, List.mem_flatMap, List.mem_finRange]

theorem sequence_read_first {r : Nat} {σ : Side}
    (load : snapshotReads[r]? = some (σ, .sequence)) : r < 2 := by
  have rest : ∀ p ∈ snapshotReads.drop 2, p.2 ≠ .sequence := by decide
  by_contra early
  refine rest _ (List.getElem?_mem (show (snapshotReads.drop 2)[r - 2]? = some (σ, .sequence) from ?_)) rfl
  rw [List.getElem?_drop, Nat.add_sub_cancel' (by omega)]
  exact load

theorem sequence_read_before {r : Nat} {σ : Side} {f : BookField} (other : f ≠ .sequence)
    (load : snapshotReads[r]? = some (σ, f)) : (σ, .sequence) ∈ snapshotReads.take r := by
  have late : 2 ≤ r := by
    by_contra early
    obtain rfl | rfl : r = 0 ∨ r = 1 := by omega
    all_goals exact other (congrArg Prod.snd (Option.some.inj load)).symm
  have prefix2 : snapshotReads.take 2 = [(.bid, .sequence), (.ask, .sequence)] := rfl
  have : (σ, BookField.sequence) ∈ snapshotReads.take 2 := by
    cases σ <;> simp [prefix2]
  exact List.take_subset_take_left _ late this

/-- A side of a snapshot at version `c`: its sequence is `c` and every other
field holds its value after some `n ≥ c` of the side's updates. -/
def AtLeastVersion (ws : List LevelUpdate) (σ : Side) (c : Nat) (b : Book)
    (loaded : BookField → Prop) : Prop :=
  b.sequence = c % 2 ^ 64 ∧ ∀ f, f ≠ .sequence → loaded f →
    ∃ n, c ≤ n ∧ n ≤ (landing σ ws).length ∧ f.agree b (ladderAfter σ ws n)

def ReadSoFar (ws : List LevelUpdate) (k : Nat) (snap : Snapshot)
    (read : List (Side × BookField)) : Prop :=
  ∀ σ, (σ, .sequence) ∈ read → ∃ c, c ≤ completed σ ws k ∧
    AtLeastVersion ws σ c (snap.book σ) fun f => (σ, f) ∈ read

/-- A returned snapshot: every side at some version `c`, no field older. -/
def VersionedSnapshot (ws : List LevelUpdate) (t : Snapshot) : Prop :=
  ∀ σ, ∃ c, c ≤ (landing σ ws).length ∧ AtLeastVersion ws σ c (t.book σ) fun _ => True

theorem readSoFar_mono (ws : List LevelUpdate) {k k' : Nat} (snap : Snapshot)
    (read : List (Side × BookField)) (le : k ≤ k') (loaded : ReadSoFar ws k snap read) :
    ReadSoFar ws k' snap read := by
  intro σ member
  obtain ⟨c, bound, version⟩ := loaded σ member
  exact ⟨c, bound.trans (completed_mono σ ws le), version⟩

theorem readSoFar_load (symbol : List UInt8) (ws : List LevelUpdate) {k j r : Nat}
    (pos : WriterPos ws k j) (snap : Snapshot) {σ : Side} {f : BookField}
    (load : snapshotReads[r]? = some (σ, f))
    (loaded : ReadSoFar ws k snap (snapshotReads.take r)) :
    ReadSoFar ws k (snap.setBook σ (f.copy ((bookAt symbol ws k j).book σ) (snap.book σ)))
      (snapshotReads.take (r + 1)) := by
  rw [List.take_succ, load]
  intro τ member
  by_cases same : σ = τ
  · subst same
    rw [Snapshot.book_setBook_same]
    by_cases seq : f = .sequence
    · subst seq
      refine ⟨completed σ ws k, le_rfl, ?_, ?_⟩
      · simp only [BookField.copy]
        exact bookAt_sequence symbol ws pos σ
      · intro g other member'
        have early := sequence_read_first load
        have none_before : (σ, g) ∉ snapshotReads.take r := by
          have prefix2 : snapshotReads.take 2 = [(.bid, .sequence), (.ask, .sequence)] := rfl
          intro mg
          have := List.take_subset_take_left snapshotReads (show r ≤ 2 by omega) mg
          rw [prefix2] at this
          simp at this
          exact other (this.elim And.right And.right)
        simp only [Option.toList, List.mem_append, List.mem_singleton, Prod.mk.injEq] at member'
        rcases member' with before | ⟨-, rfl⟩
        · exact absurd before none_before
        · exact absurd rfl other
    · obtain ⟨c, bound, sequence, fields⟩ :=
        loaded σ (sequence_read_before seq load)
      refine ⟨c, bound, ?_, ?_⟩
      · have kept := (BookField.agree_copy_other ((bookAt symbol ws k j).book σ) (snap.book σ)
          (snap.book σ) (Ne.symm seq)).mpr (BookField.agree_refl _ _)
        exact kept.trans sequence
      · intro g other member'
        simp only [Option.toList, List.mem_append, List.mem_singleton, Prod.mk.injEq] at member'
        by_cases fresh : g = f
        · subst fresh
          obtain ⟨n, newer, bounded, agrees⟩ := bookAt_field symbol ws pos σ g
          exact ⟨n, bound.trans newer, bounded,
            BookField.agree_trans g (g.agree_copy_self _ _) agrees⟩
        · rcases member' with before | ⟨-, rfl⟩
          · obtain ⟨n, newer, bounded, agrees⟩ := fields g other before
            exact ⟨n, newer, bounded,
              (BookField.agree_copy_other _ _ _ fresh).mpr agrees⟩
          · exact absurd rfl fresh
  · rw [Snapshot.book_setBook_other _ _ same]
    have member_old : (τ, BookField.sequence) ∈ snapshotReads.take r := by
      simp only [Option.toList, List.mem_append, List.mem_singleton, Prod.mk.injEq] at member
      exact member.resolve_right fun e => same e.1.symm
    obtain ⟨c, bound, sequence, fields⟩ := loaded τ member_old
    refine ⟨c, bound, sequence, fun g other member' => fields g other ?_⟩
    simp only [Option.toList, List.mem_append, List.mem_singleton, Prod.mk.injEq] at member'
    exact member'.resolve_right fun e => same e.1.symm

/-- The invariant of every run: the shared book is the writer's position's
book, and every loaded or returned snapshot field is versioned. -/
structure RaceInv (symbol : List UInt8) (ws : List LevelUpdate) (s : RaceState) : Prop where
  book_eq : s.book = bookAt symbol ws s.call s.step
  pos : WriterPos ws s.call s.step
  reads : ReadSoFar ws s.call s.snap (snapshotReads.take s.read)
  taken : ∀ t ∈ s.taken, VersionedSnapshot ws t

theorem raceInv_init (symbol : List UInt8) (ws : List LevelUpdate) (snap : Snapshot) :
    RaceInv symbol ws (RaceState.init symbol snap) where
  book_eq := by rw [RaceState.init, bookAt_zero]; rfl
  pos := .inl rfl
  reads := fun _ member => by simp [RaceState.init] at member
  taken := fun _ member => by simp [RaceState.init] at member

theorem versioned_of_readSoFar (ws : List LevelUpdate) {k : Nat} (snap : Snapshot) (now : Nat)
    (all : ReadSoFar ws k snap snapshotReads) :
    VersionedSnapshot ws { snap with timestamp := now } := by
  intro σ
  obtain ⟨c, bound, sequence, fields⟩ := all σ (mem_snapshotReads σ _)
  have same : ({ snap with timestamp := now } : Snapshot).book σ = snap.book σ := by
    cases σ <;> rfl
  rw [same]
  exact ⟨c, bound.trans (completed_le σ ws k), sequence,
    fun f other _ => fields f other (mem_snapshotReads σ f)⟩

theorem raceInv_turn (symbol : List UInt8) (ws : List LevelUpdate) (s : RaceState)
    (inv : RaceInv symbol ws s) (turn : Turn) : RaceInv symbol ws (s.turn ws turn) := by
  cases turn with
  | writer =>
      obtain ⟨book_eq, pos, later, read_eq, snap_eq, taken_eq⟩ :=
        writerTurn_book symbol ws s inv.book_eq inv.pos
      refine ⟨book_eq, pos, ?_, ?_⟩
      · rw [RaceState.turn, read_eq, snap_eq]
        exact readSoFar_mono ws _ _ later inv.reads
      · rw [RaceState.turn, taken_eq]
        exact inv.taken
  | reader now =>
      simp only [RaceState.turn, readerTurn]
      split
      · rename_i σ f load
        exact ⟨inv.book_eq, inv.pos, by
          rw [inv.book_eq]
          exact readSoFar_load symbol ws inv.pos s.snap load inv.reads, inv.taken⟩
      · rename_i finished
        have all : snapshotReads.take s.read = snapshotReads :=
          List.take_of_length_le (List.getElem?_eq_none_iff.mp finished)
        refine ⟨inv.book_eq, inv.pos, fun _ member => by simp at member, ?_⟩
        intro t member
        rcases List.mem_append.mp member with old | fresh
        · exact inv.taken t old
        · rw [List.mem_singleton.mp fresh]
          exact versioned_of_readSoFar ws s.snap now (all ▸ inv.reads)

/-- Under every interleaving of the writer's update steps with the reader's
loads, every snapshot the reader returns is versioned per side: it reports the
number `c` of that side's updates complete when its sequence was loaded
(modulo `2 ^ 64`), and each other field of the side holds its value after some
`n ≥ c` of the side's updates. -/
theorem race_snapshots_versioned (symbol : List UInt8) (ws : List LevelUpdate)
    (turns : List Turn) (snap : Snapshot) :
    ∀ t ∈ (race ws turns (RaceState.init symbol snap)).taken, VersionedSnapshot ws t := by
  have run : ∀ (turns : List Turn) (s : RaceState), RaceInv symbol ws s →
      RaceInv symbol ws (race ws turns s) := by
    intro turns
    induction turns with
    | nil => intro s inv; exact inv
    | cons turn rest ih => intro s inv; exact ih _ (raceInv_turn symbol ws s inv turn)
  exact (run turns _ (raceInv_init symbol ws snap)).taken

/-- One `update_bid(0, 1, 1)`. -/
def raceUpdates : List LevelUpdate := [⟨.bid, 0, 1, 1⟩]

def raceTurns : List Turn :=
  List.replicate 4 (.reader 0) ++ List.replicate 4 .writer ++ List.replicate 61 (.reader 0)

set_option maxRecDepth 20000 in
theorem race_reader_versioned :
    ∃ t ∈ (race raceUpdates raceTurns (RaceState.init [] ((OrderBook.init []).getSnapshot 0))).taken,
      VersionedSnapshot raceUpdates t := by
  obtain ⟨t, mem⟩ := List.exists_mem_of_ne_nil _
    (by decide : (race raceUpdates raceTurns (RaceState.init [] ((OrderBook.init []).getSnapshot 0))).taken ≠ [])
  exact ⟨t, mem, race_snapshots_versioned [] raceUpdates raceTurns _ t mem⟩

set_option maxRecDepth 20000 in
/-- A snapshot reporting bid version 0 whose bid ladder is not the ladder of
version 0: the level written by update 1 was copied after the sequence load. -/
theorem snapshot_sequence_not_exact :
    ∃ t ∈ (race raceUpdates raceTurns
        (RaceState.init [] ((OrderBook.init []).getSnapshot 0))).taken,
      t.bidSequence = 0 ∧ t.book .bid ≠ ladderAfter .bid raceUpdates 0 := by
  decide

end Hft.SnapshotRace
