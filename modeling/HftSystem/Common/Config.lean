import HftSystem.Common.Binary64
import Mathlib.Data.List.Basic
import Mathlib.Logic.Function.Basic
import Mathlib.Data.Rat.Defs
import Mathlib.Data.Nat.Digits

/-!
# The configuration file

`Config::load(filename)` of `config.cpp` splits the file's text with
`std::getline`.  It skips lines that are empty or start with `#`, and stores
every other line that has an `=` as `params_[key] = value`.  `key` is the
text before the first `=` and `value` the rest of the line.
`Config::get<std::string>(key)` returns the stored value, or `""`, and
`get<int>` converts it with `std::stoi`.  A `std::string` is the list of its
characters.

Three results:

* `load_render`: a file written as `key=value` lines reads back as exactly
  those assignments, in order.  Keys must have no `=`, no newline and no
  leading `#`; values must have no newline.
* `load_stores_lines`: every value `load` stores comes from a line
  `key=value` of the file with such a key and value.
* `get_int_decimal`: `get<int>` reads back the decimal text of every `int`,
  after leading white space and before any text that does not start with a
  digit (`stoi_decimal`).

Nothing is trimmed.  A space before the `=` stays in the key, and a `'\r'`
before the newline stays in the value, where `stoi` ignores it.  `load`
writes only `params_` (`load_settings`): the settings `main` reads keep their
defaults.
-/

set_option autoImplicit false

namespace Hft.ConfigFile

/-- `std::getline` from the characters of the current line read so far
(reversed) to the end of the text: `'\n'` ends a line and is dropped, and a
last line without `'\n'` counts unless it is empty. -/
def getlinesFrom : List Char → List Char → List (List Char)
  | [], [] => []
  | [], line => [line.reverse]
  | '\n' :: rest, line => line.reverse :: getlinesFrom rest []
  | c :: rest, line => getlinesFrom rest (c :: line)

/-- The lines `while (std::getline(file, line))` reads. -/
def getlines (text : List Char) : List (List Char) :=
  getlinesFrom text []

/-- `Config`: the trading settings `main` reads, with their defaults (the
double nearest `0.0001` for `spread_threshold`), and `params_`, the only member
`load` and `get` touch. -/
structure Config where
  maxPositionSize : ℚ := 1000
  maxOrderSize : ℚ := 100
  spreadThreshold : ℚ := Binary64.round (1 / 10000)
  params : List Char → Option (List Char) := fun _ => none

/-- `params_[key] = value`. -/
def Config.assign (c : Config) (key value : List Char) : Config :=
  { c with params := Function.update c.params key (some value) }

/-- The body of `load`'s loop for one line: `line.find('=')` splits it into
`line.substr(0, pos)` and `line.substr(pos + 1)`. -/
def Config.loadLine (c : Config) (line : List Char) : Config :=
  if line = [] ∨ line.head? = some '#' then c
  else
    match line.dropWhile (· != '=') with
    | [] => c
    | _ :: value => c.assign (line.takeWhile (· != '=')) value

/-- `load(filename)`, with the file's text, or `none` when it does not open. -/
def Config.load (c : Config) (file : Option (List Char)) : Bool × Config :=
  match file with
  | none => (false, c)
  | some text => (true, (getlines text).foldl Config.loadLine c)

/-- `get<std::string>(key)`. -/
def Config.get (c : Config) (key : List Char) : List Char :=
  (c.params key).getD []

/-! ## Lines -/

theorem getlinesFrom_line (rest : List Char) :
    ∀ (line acc : List Char), '\n' ∉ line →
      getlinesFrom (line ++ '\n' :: rest) acc = (acc.reverse ++ line) :: getlinesFrom rest [] := by
  intro line
  induction line with
  | nil => intro acc _; simp [getlinesFrom]
  | cons c more ih =>
      intro acc clean
      have other : c ≠ '\n' := fun same => clean (same ▸ List.mem_cons_self c more)
      rw [List.cons_append, getlinesFrom.eq_4 _ _ _ other, ih _ fun member => clean (List.mem_cons_of_mem c member)]
      simp

theorem newline_not_mem_getlinesFrom :
    ∀ (text acc : List Char), '\n' ∉ acc → ∀ line ∈ getlinesFrom text acc, '\n' ∉ line := by
  intro text
  induction text with
  | nil =>
      intro acc clean line member
      cases acc with
      | nil => simp [getlinesFrom] at member
      | cons c more =>
          rw [getlinesFrom.eq_2 _ (List.cons_ne_nil c more), List.mem_singleton] at member
          rw [member, List.mem_reverse]
          exact clean
  | cons c rest ih =>
      intro acc clean line member
      by_cases newline : c = '\n'
      · subst newline
        rcases List.mem_cons.1 (by simpa [getlinesFrom] using member) with first | later
        · simpa [first] using clean
        · exact ih [] (List.not_mem_nil _) line later
      · rw [getlinesFrom.eq_4 _ _ _ newline] at member
        exact ih (c :: acc) (by rw [List.mem_cons, not_or]; exact ⟨Ne.symm newline, clean⟩) line member

/-! ## Writing a file and reading it back -/

def render (entries : List (List Char × List Char)) : List Char :=
  entries.flatMap fun e => e.1 ++ '=' :: e.2 ++ ['\n']

def EntryOk (e : List Char × List Char) : Prop :=
  '=' ∉ e.1 ∧ '\n' ∉ e.1 ∧ e.1.head? ≠ some '#' ∧ '\n' ∉ e.2

instance : DecidablePred EntryOk := fun e =>
  inferInstanceAs (Decidable ('=' ∉ e.1 ∧ '\n' ∉ e.1 ∧ e.1.head? ≠ some '#' ∧ '\n' ∉ e.2))

theorem getlines_render (entries : List (List Char × List Char)) (ok : ∀ e ∈ entries, EntryOk e) :
    getlines (render entries) = entries.map fun e => e.1 ++ '=' :: e.2 := by
  induction entries with
  | nil => rfl
  | cons e rest ih =>
      obtain ⟨-, keyLine, -, valueLine⟩ := ok e (List.mem_cons_self e rest)
      have clean : '\n' ∉ e.1 ++ '=' :: e.2 := by simp [keyLine, valueLine]
      have first : render (e :: rest) = (e.1 ++ '=' :: e.2) ++ '\n' :: render rest := by simp [render]
      rw [getlines, first, getlinesFrom_line _ _ _ clean, List.reverse_nil, List.nil_append, List.map_cons]
      exact congrArg _ (ih fun e member => ok e (List.mem_cons_of_mem _ member))

theorem loadLine_entry (c : Config) {e : List Char × List Char} (ok : EntryOk e) :
    c.loadLine (e.1 ++ '=' :: e.2) = c.assign e.1 e.2 := by
  obtain ⟨noEq, -, noHash, -⟩ := ok
  have keep : ∀ a ∈ e.1, (a != '=') = true := fun a member => by
    have other : a ≠ '=' := fun same => noEq (same ▸ member)
    simpa using other
  have text : e.1 ++ '=' :: e.2 ≠ [] ∧ (e.1 ++ '=' :: e.2).head? ≠ some '#' := by
    cases key : e.1 with
    | nil => simp
    | cons a more => simpa [key] using noHash
  rw [Config.loadLine, if_neg (not_or.2 text), List.dropWhile_append_of_pos keep,
    List.dropWhile_cons_of_neg (by simp)]
  dsimp only
  rw [List.takeWhile_append_of_pos keep, List.takeWhile_cons_of_neg (by simp), List.append_nil]

/-- Loading a file of `key=value` lines performs exactly their assignments,
in file order, so a later line for a key wins. -/
theorem load_render (c : Config) (entries : List (List Char × List Char)) (ok : ∀ e ∈ entries, EntryOk e) :
    c.load (some (render entries)) = (true, entries.foldl (fun c e => c.assign e.1 e.2) c) := by
  rw [Config.load, getlines_render entries ok]
  congr 1
  induction entries generalizing c with
  | nil => rfl
  | cons e rest ih =>
      rw [List.map_cons, List.foldl_cons, List.foldl_cons, loadLine_entry c (ok e (List.mem_cons_self e rest))]
      exact ih _ fun e member => ok e (List.mem_cons_of_mem _ member)

theorem load_settings (c : Config) (file : Option (List Char)) :
    (c.load file).2.maxPositionSize = c.maxPositionSize ∧ (c.load file).2.maxOrderSize = c.maxOrderSize ∧
      (c.load file).2.spreadThreshold = c.spreadThreshold := by
  cases file with
  | none => exact ⟨rfl, rfl, rfl⟩
  | some text =>
      simp only [Config.load]
      generalize getlines text = lines
      induction lines generalizing c with
      | nil => exact ⟨rfl, rfl, rfl⟩
      | cons line rest ih =>
          obtain ⟨position, size, spread⟩ := ih (c.loadLine line)
          have kept : (c.loadLine line).maxPositionSize = c.maxPositionSize ∧
              (c.loadLine line).maxOrderSize = c.maxOrderSize ∧ (c.loadLine line).spreadThreshold = c.spreadThreshold := by
            unfold Config.loadLine
            split_ifs
            · exact ⟨rfl, rfl, rfl⟩
            · split <;> exact ⟨rfl, rfl, rfl⟩
          exact ⟨position.trans kept.1, size.trans kept.2.1, spread.trans kept.2.2⟩

def sampleEntries : List (List Char × List Char) :=
  [("max_order_size".toList, "50".toList), ("order_gateway_ip".toList, "10.0.0.1=primary".toList)]

theorem load_render_sample :
    (∀ e ∈ sampleEntries, EntryOk e) ∧
      ({} : Config).load (some (render sampleEntries)) =
        (true, sampleEntries.foldl (fun c e => c.assign e.1 e.2) {}) :=
  ⟨by decide, load_render _ sampleEntries (by decide)⟩

/-! ## What `load` can store -/

theorem loadLine_stored (c : Config) (line : List Char) (key value : List Char)
    (stored : (c.loadLine line).params key = some value) :
    c.params key = some value ∨ (line = key ++ '=' :: value ∧ '=' ∉ key ∧ key.head? ≠ some '#') := by
  unfold Config.loadLine at stored
  split_ifs at stored with skipped
  · exact .inl stored
  split at stored
  · exact .inl stored
  next x value' rest =>
    simp only [Config.assign, Function.update_apply] at stored
    split_ifs at stored with same
    · -- the line's own key: the `=` found, and the value after it
      obtain rfl := Option.some.inj stored
      have eq : x = '=' := by
        have := List.head_dropWhile_not (· != '=') line (by simp [rest])
        simpa [rest] using this
      have whole := List.takeWhile_append_dropWhile (· != '=') line
      rw [rest, eq, ← same] at whole
      refine .inr ⟨whole.symm, fun member => absurd (List.mem_takeWhile_imp (same ▸ member)) (by decide), ?_⟩
      intro hash
      apply skipped
      refine .inr ?_
      rw [← whole]
      cases key with
      | nil => simp at hash
      | cons a more => simpa using hash
    · exact .inl stored

/-- For every file, every value `load` stores under a key it did not hold
before comes from a line of the file that reads `key=value`, with a key
with no `=`, no newline and no leading `#`, and a value with no newline. -/
theorem load_stores_lines (c : Config) (text key value : List Char)
    (stored : (c.load (some text)).2.params key = some value) :
    c.params key = some value ∨ (key ++ '=' :: value ∈ getlines text ∧ EntryOk (key, value)) := by
  have clean := newline_not_mem_getlinesFrom text [] (List.not_mem_nil _)
  simp only [Config.load] at stored
  -- the last line that wrote the key, if any, read back from the fold
  have fold : ∀ (lines : List (List Char)) (c : Config), (lines.foldl Config.loadLine c).params key = some value →
      c.params key = some value ∨
        (key ++ '=' :: value ∈ lines ∧ '=' ∉ key ∧ key.head? ≠ some '#') := by
    intro lines
    induction lines with
    | nil => intro c stored; exact .inl stored
    | cons line rest ih =>
        intro c stored
        rcases ih _ stored with before | ⟨member, rest_ok⟩
        · rcases loadLine_stored c line key value before with old | ⟨rfl, noEq, noHash⟩
          · exact .inl old
          · exact .inr ⟨List.mem_cons_self _ _, noEq, noHash⟩
        · exact .inr ⟨List.mem_cons_of_mem _ member, rest_ok⟩
  rcases fold (getlines text) c stored with old | ⟨member, noEq, noHash⟩
  · exact .inl old
  · have noLine := clean _ member
    exact .inr ⟨member, noEq, fun m => noLine (List.mem_append_left _ m), noHash,
      fun m => noLine (List.mem_append_right _ (List.mem_cons_of_mem _ m))⟩

def sampleFile : List Char :=
  "# risk\nmax_order_size\nmax_position_size =500\n".toList

theorem load_stores_sample_line :
    (({} : Config).load (some sampleFile)).2.params "max_position_size ".toList = some "500".toList ∧
      (({} : Config).params "max_position_size ".toList = some "500".toList ∨
        ("max_position_size ".toList ++ '=' :: "500".toList ∈ getlines sampleFile ∧
          EntryOk ("max_position_size ".toList, "500".toList))) :=
  ⟨by decide, load_stores_lines _ sampleFile _ _ (by decide)⟩

/-! ## Integer settings -/

/-- The exceptions `std::stoi` throws. -/
inductive StoiError where
  | invalidArgument
  | outOfRange
  deriving DecidableEq

/-- `isspace` in the C locale. -/
def isSpace (c : Char) : Bool :=
  c == ' ' || c == '\t' || c == '\n' || c == '\x0b' || c == '\x0c' || c == '\r'

def digitStep (acc : Nat) (c : Char) : Nat := 10 * acc + (c.toNat - '0'.toNat)

def readSign : List Char → Bool × List Char
  | '-' :: rest => (true, rest)
  | '+' :: rest => (false, rest)
  | text => (false, text)

/-- `std::stoi(value)`: `strtol` in base 10 skips leading white space, reads an
optional sign and the longest run of digits after it, and ignores what
follows; without digits it throws `std::invalid_argument`, and with a value
outside `int` (32 bits) `std::out_of_range`. -/
def stoi (value : List Char) : Except StoiError Int :=
  let signed := readSign (value.dropWhile isSpace)
  let digits := signed.2.takeWhile Char.isDigit
  if digits = [] then .error .invalidArgument
  else
    let magnitude : Int := ↑(digits.foldl digitStep 0)
    let parsed := if signed.1 then -magnitude else magnitude
    if parsed < -2 ^ 31 ∨ 2 ^ 31 ≤ parsed then .error .outOfRange else .ok parsed

/-- `get<int>(key)`: `0` for a key `load` did not store. -/
def Config.getInt (c : Config) (key : List Char) : Except StoiError Int :=
  match c.params key with
  | none => .ok 0
  | some value => stoi value

/-- The text `std::to_string` writes for an `int`: `-` before a negative
value, then the decimal digits of its magnitude. -/
def decimal (n : Int) : List Char :=
  (if n < 0 then ['-'] else []) ++ Nat.toDigits 10 n.natAbs

theorem digitChar_digit : ∀ d < 10, (Nat.digitChar d).isDigit = true ∧ (Nat.digitChar d).toNat - '0'.toNat = d := by
  decide

theorem toDigitsCore_digits : ∀ (fuel n : Nat) (rest : List Char), n < fuel →
    ∃ digits : List Char, Nat.toDigitsCore 10 fuel n rest = digits ++ rest ∧ digits ≠ [] ∧
      (∀ c ∈ digits, c.isDigit = true) ∧ ∀ acc, digits.foldl digitStep acc = acc * 10 ^ digits.length + n := by
  intro fuel
  induction fuel with
  | zero => intro n rest lt; omega
  | succ fuel ih =>
      intro n rest lt
      obtain ⟨isDigit, value⟩ := digitChar_digit (n % 10) (Nat.mod_lt _ (by decide))
      simp only [Nat.toDigitsCore]
      split_ifs with last
      · refine ⟨[Nat.digitChar (n % 10)], rfl, List.cons_ne_nil _ _, by simpa using isDigit, fun acc => ?_⟩
        simp only [List.foldl_cons, List.foldl_nil, digitStep, value, List.length_singleton, Nat.pow_one]
        omega
      · obtain ⟨digits, built, nonempty, allDigits, read⟩ :=
          ih (n / 10) (Nat.digitChar (n % 10) :: rest) (by omega)
        refine ⟨digits ++ [Nat.digitChar (n % 10)], by rw [built, List.append_assoc, List.singleton_append],
          by simp, ?_, fun acc => ?_⟩
        · intro c member
          rcases List.mem_append.1 member with front | last
          · exact allDigits c front
          · rw [List.mem_singleton.1 last]
            exact isDigit
        · rw [List.foldl_append, read, List.foldl_cons, List.foldl_nil, digitStep, value, List.length_append,
            List.length_singleton, Nat.pow_succ, ← Nat.mul_assoc]
          generalize acc * 10 ^ digits.length = shifted
          omega

theorem isSpace_of_isDigit {c : Char} (digit : c.isDigit = true) : isSpace c = false := by
  cases space : isSpace c
  · rfl
  · unfold isSpace at space
    simp only [Bool.or_eq_true, beq_iff_eq] at space
    rcases space with ((((rfl | rfl) | rfl) | rfl) | rfl) | rfl <;> revert digit <;> decide

theorem readSign_of_isDigit {c : Char} (digit : c.isDigit = true) (rest : List Char) :
    readSign (c :: rest) = (false, c :: rest) := by
  unfold readSign
  split <;> first | rfl | (rename_i same; cases (List.cons.inj same).1; simp at digit)

theorem stoi_decimal (n : Int) (inRange : -2 ^ 31 ≤ n ∧ n < 2 ^ 31) (spaces rest : List Char)
    (blank : ∀ c ∈ spaces, isSpace c = true) (stop : ∀ c ∈ rest.head?, c.isDigit = false) :
    stoi (spaces ++ decimal n ++ rest) = .ok n := by
  obtain ⟨digits, built, nonempty, allDigits, read⟩ :=
    toDigitsCore_digits (n.natAbs + 1) n.natAbs [] (Nat.lt_succ_self _)
  rw [List.append_nil] at built
  obtain ⟨first, more, rfl⟩ := List.exists_cons_of_ne_nil nonempty
  have firstDigit := allDigits first (List.mem_cons_self _ _)
  -- the digits stop where `rest` begins
  have taken : (first :: (more ++ rest)).takeWhile Char.isDigit = first :: more := by
    rw [← List.cons_append, List.takeWhile_append_of_pos allDigits]
    cases rest with
    | nil => rw [List.takeWhile_nil, List.append_nil]
    | cons c tail => rw [List.takeWhile_cons_of_neg (by simpa using stop c rfl), List.append_nil]
  have magnitude : (((first :: more).foldl digitStep 0 : Nat) : Int) = n.natAbs := by
    rw [read 0, Nat.zero_mul, Nat.zero_add]
  -- past the white space, the sign is read and the digits follow
  have body : readSign ((spaces ++ decimal n ++ rest).dropWhile isSpace) = (decide (n < 0), first :: (more ++ rest)) := by
    unfold decimal
    rw [Nat.toDigits, built, List.append_assoc, List.append_assoc, List.dropWhile_append_of_pos blank]
    by_cases negative : n < 0
    · rw [if_pos negative, List.singleton_append, List.dropWhile_cons_of_neg (by decide), decide_eq_true negative]
      rfl
    · rw [if_neg negative, List.nil_append, List.cons_append,
        List.dropWhile_cons_of_neg (by simp [isSpace_of_isDigit firstDigit]), decide_eq_false negative]
      exact readSign_of_isDigit firstDigit _
  have signed : (if decide (n < 0) then -(n.natAbs : Int) else n.natAbs) = n := by
    by_cases negative : n < 0
    · rw [decide_eq_true negative, if_pos rfl]
      omega
    · rw [decide_eq_false negative, if_neg Bool.false_ne_true]
      omega
  unfold stoi
  simp only [body, taken, reduceCtorEq, if_false, magnitude, signed]
  simp only [show ¬(n < -2 ^ 31 ∨ 2 ^ 31 ≤ n) by omega, if_false]

/-- `get<int>` returns every `int` stored as its decimal text, with any white
space before it and any text after it that does not start with a digit. -/
theorem get_int_decimal (c : Config) (key : List Char) (n : Int) (inRange : -2 ^ 31 ≤ n ∧ n < 2 ^ 31)
    (spaces rest : List Char) (blank : ∀ c ∈ spaces, isSpace c = true) (stop : ∀ c ∈ rest.head?, c.isDigit = false)
    (stored : c.params key = some (spaces ++ decimal n ++ rest)) :
    c.getInt key = .ok n := by
  rw [Config.getInt, stored]
  exact stoi_decimal n inRange spaces rest blank stop

theorem get_int_decimal_crlf :
    (-2 ^ 31 ≤ (-42 : Int) ∧ (-42 : Int) < 2 ^ 31) ∧ (∀ c ∈ [' '], isSpace c = true) ∧
      (∀ c ∈ ['\r'].head?, c.isDigit = false) ∧
      (({} : Config).assign "max_position".toList ([' '] ++ decimal (-42) ++ ['\r'])).params "max_position".toList =
        some ([' '] ++ decimal (-42) ++ ['\r']) ∧
      (({} : Config).assign "max_position".toList ([' '] ++ decimal (-42) ++ ['\r'])).getInt "max_position".toList =
        .ok (-42) :=
  ⟨by decide, by decide, by decide, by simp [Config.assign],
    get_int_decimal _ _ (-42) (by decide) [' '] ['\r'] (by decide) (by decide) (by simp [Config.assign])⟩

end Hft.ConfigFile
