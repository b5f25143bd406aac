import HftSystem.MarketData.OrderBook
import HftSystem.Common.StringMap
import HftSystem.Common.MemoryPool
import Mathlib.Data.List.GetD

/-!
# The market-data handler

`MarketDataHandler` of `market_data_handler.cpp`: a `LockFreeHashMap<const
char*, OrderBook*, 256>` from symbols to books, the `MemoryPool<OrderBook, 256>`
the books live in, and the subscriber callback.  A book pointer is its pool
slot.  `add_symbol` takes a `std::string`, whose `c_str()` is its bytes followed
by a NUL; `process_message` reads the packed record in place, the symbol field
as the C string at the start of the buffer.

`Registered` is the registry the handler keeps for symbols that fit the key
array (no NUL, at most 15 bytes): an association list from symbols to pool slots
that the map refines and whose books carry their symbol.  A symbol outside that
domain is stored truncated by `strncpy` and never found again.
-/

set_option autoImplicit false

namespace Hft.MarketData

open Hft.Bytes Hft.StringMap Hft.Pool

/-- The capacity of `order_book_map_` and of `order_book_pool_`. -/
def registrySize : Nat := 256

theorem registrySize_pow : registrySize.isPowerOfTwo := ⟨8, rfl⟩

/-- The members of `MarketDataHandler` that its methods read; `callback` says
whether `callback_` holds a function. -/
structure MarketDataHandler where
  orderBookMap : LockFreeHashMap Nat registrySize
  orderBookPool : MemoryPool OrderBook registrySize
  callback : Bool

/-- The default constructor. -/
def MarketDataHandler.init : MarketDataHandler := ⟨.init, .init, false⟩

/-- `register_callback`: the function itself is the caller's; see the pipeline. -/
def MarketDataHandler.registerCallback (h : MarketDataHandler) : MarketDataHandler :=
  { h with callback := true }

/-- `get_order_book(const char*)`. -/
def MarketDataHandler.getOrderBook (h : MarketDataHandler) (symbol : List UInt8) : Option Nat :=
  h.orderBookMap.find symbol

/-- `add_symbol(symbol)`: when the symbol is not found, allocate a book for it
and, if the pool had one, insert it. -/
def MarketDataHandler.addSymbol (h : MarketDataHandler) (symbol : List UInt8) : MarketDataHandler :=
  match h.getOrderBook (symbol ++ [0]) with
  | some _ => h
  | none =>
      match h.orderBookPool.allocate (OrderBook.init symbol) with
      | (none, pool) => { h with orderBookPool := pool }
      | (some book, pool) =>
          { h with orderBookPool := pool, orderBookMap := (h.orderBookMap.insert (symbol ++ [0]) book).2 }

/-- A run of `add_symbol` calls. -/
def MarketDataHandler.addSymbols (h : MarketDataHandler) (symbols : List (List UInt8)) : MarketDataHandler :=
  symbols.foldl MarketDataHandler.addSymbol h

/-! ## The inbound record -/

/-- `sizeof(MarketDataMessage)`: `symbol[16]`, `side`, `level`, `price`,
`quantity`, `timestamp`, packed. -/
def messageSize : Nat := 16 + 1 + 1 + 8 + 8 + 8

/-- The fields of `MarketDataMessage` that `process_message` reads through the
cast pointer, at their packed offsets. -/
structure MarketDataMessage where
  side : UInt8
  level : UInt8
  price : ℚ
  quantity : ℚ

def MarketDataMessage.read (data : List UInt8) : MarketDataMessage :=
  ⟨data.getD 16 0, data.getD 17 0, f64Value (leWord data 18 8), f64Value (leWord data 26 8)⟩

/-- The book after `update_bid` (side byte `0`) or `update_ask` (any other). -/
def MarketDataMessage.applyTo (msg : MarketDataMessage) (b : OrderBook) : OrderBook :=
  if msg.side = 0 then b.updateBid msg.level.toNat msg.price msg.quantity
  else b.updateAsk msg.level.toNat msg.price msg.quantity

@[simp] theorem MarketDataMessage.symbol_applyTo (msg : MarketDataMessage) (b : OrderBook) :
    (msg.applyTo b).symbol = b.symbol := by
  unfold MarketDataMessage.applyTo OrderBook.updateBid OrderBook.updateAsk
  split <;> simp

/-- `process_message(data, len)`: the book handed to the callback, if one is
registered, and the new state.  A slot the pool never built a book in is not
reachable from the map (`Registered.books`). -/
def MarketDataHandler.processMessage (h : MarketDataHandler) (data : List UInt8) (len : Nat) :
    Option OrderBook × MarketDataHandler :=
  if len < messageSize then (none, h)
  else
    match h.getOrderBook data with
    | none => (none, h)
    | some book =>
        match h.orderBookPool.storage book with
        | none => (none, h)
        | some b =>
            let b := (MarketDataMessage.read data).applyTo b
            (if h.callback then some b else none, { h with orderBookPool := h.orderBookPool.write book b })

/-! ## Reading a record in place -/

theorem cStr_append_of_lt (r more : List UInt8) (short : (cStr r).length < r.length) :
    cStr (r ++ more) = cStr r := by
  induction r with
  | nil => simp [cStr] at short
  | cons c rest ih =>
      by_cases hc : c = 0
      · simp [cStr, hc]
      · have step : ∀ p : List UInt8, cStr (c :: p) = c :: cStr p := fun p => by simp [cStr, hc]
        rw [List.cons_append, step, step, ih (by rw [step] at short; simpa using short)]

theorem leWord_append (r more : List UInt8) {o width : Nat} (inside : o + width ≤ r.length) :
    leWord (r ++ more) o width = leWord r o width := by
  unfold leWord
  congr 1
  refine List.map_congr_left fun i mem => ?_
  rw [List.getD_append _ _ _ _ (by rw [List.mem_range] at mem; omega)]

theorem read_append (r more : List UInt8) (record : r.length = messageSize) :
    MarketDataMessage.read (r ++ more) = MarketDataMessage.read r := by
  have inside : ∀ i, i < messageSize → (r ++ more).getD i 0 = r.getD i 0 := fun i lt =>
    List.getD_append _ _ _ _ (by omega)
  simp only [MarketDataMessage.read, inside 16 (by decide), inside 17 (by decide),
    leWord_append r more (show 18 + 8 ≤ r.length by rw [record]; decide),
    leWord_append r more (show 26 + 8 ≤ r.length by rw [record]; decide)]

theorem processMessage_append (h : MarketDataHandler) (r more : List UInt8) (record : r.length = messageSize)
    (short : (cStr r).length < messageSize) {len : Nat} (long : messageSize ≤ len) :
    h.processMessage (r ++ more) len = h.processMessage r messageSize := by
  have same_key : h.getOrderBook (r ++ more) = h.getOrderBook r := by
    simp only [MarketDataHandler.getOrderBook]
    rw [← find_cStr, cStr_append_of_lt r more (by omega), find_cStr]
  simp only [MarketDataHandler.processMessage, same_key, read_append r more record,
    if_neg (Nat.not_lt.2 long), lt_irrefl, if_false]

/-! ## The registry -/

def SymbolOk (s : List UInt8) : Prop := 0 ∉ s ∧ s.length ≤ maxKeyLen - 1

instance : DecidablePred SymbolOk := fun s => inferInstanceAs (Decidable (0 ∉ s ∧ _))

/-- The handler holds the registry `reg`: the map refines it, each symbol's book
is built in its own slot above the free stack, and the stack below is untouched. -/
structure Registered (h : MarketDataHandler) (reg : List (List UInt8 × Nat)) : Prop where
  map : MapInv h.orderBookMap reg
  symbols : ∀ s b, (s, b) ∈ reg → SymbolOk s
  books : ∀ s b, (s, b) ∈ reg → h.orderBookPool.freeCount ≤ b ∧
    ∃ book, h.orderBookPool.storage b = some book ∧ book.symbol = s
  free : ∀ i < h.orderBookPool.freeCount, h.orderBookPool.freeList i = i
  count : h.orderBookPool.freeCount + reg.length = registrySize
  slots : (reg.map Prod.snd).Nodup

theorem processMessage_registered {h : MarketDataHandler} {reg : List (List UInt8 × Nat)}
    (inv : Registered h reg) (data : List UInt8) {b : Nat} (mem : (cStr data, b) ∈ reg) {len : Nat}
    (long : messageSize ≤ len) :
    ∃ book, h.orderBookPool.storage b = some book ∧ book.symbol = cStr data ∧
      h.processMessage data len =
        (if h.callback then some ((MarketDataMessage.read data).applyTo book) else none,
          { h with orderBookPool := h.orderBookPool.write b ((MarketDataMessage.read data).applyTo book) }) := by
  obtain ⟨-, book, stored, named⟩ := inv.books _ b mem
  have found : h.getOrderBook data = some b := by
    rw [MarketDataHandler.getOrderBook, ← find_cStr]
    exact find_of_mem registrySize_pow inv.map _ b (by rw [cStr_cStr]; exact mem)
  refine ⟨book, stored, named, ?_⟩
  simp only [MarketDataHandler.processMessage, if_neg (Nat.not_lt.2 long), found, stored]

theorem registered_write {h : MarketDataHandler} {reg : List (List UInt8 × Nat)} (inv : Registered h reg)
    {s : List UInt8} {b : Nat} (mem : (s, b) ∈ reg) {book : OrderBook} (named : book.symbol = s) :
    Registered { h with orderBookPool := h.orderBookPool.write b book } reg where
  map := inv.map
  symbols := inv.symbols
  books s' b' mem' := by
    obtain ⟨above, old, stored, named'⟩ := inv.books s' b' mem'
    refine ⟨above, ?_⟩
    by_cases same : b' = b
    · subst same
      obtain ⟨rfl, -⟩ := Prod.mk.inj (List.inj_on_of_nodup_map inv.slots mem mem' rfl)
      exact ⟨book, if_pos rfl, named⟩
    · exact ⟨old, by rw [MemoryPool.write_storage, if_neg same, stored], named'⟩
  free := inv.free
  count := inv.count
  slots := inv.slots

/-- What `add_symbol` does to the registry: a new symbol gets the slot on top
of the free stack. -/
def registerStep (reg : List (List UInt8 × Nat)) (s : List UInt8) : List (List UInt8 × Nat) :=
  if s ∈ reg.map Prod.fst then reg else reg ++ [(s, registrySize - 1 - reg.length)]

theorem registered_init : Registered MarketDataHandler.init [] where
  map := mapInv_init
  symbols := by simp
  books := by simp
  free := fun _ _ => rfl
  count := rfl
  slots := List.nodup_nil

theorem cStr_cString {s : List UInt8} (ok : SymbolOk s) : cStr (s ++ [0]) = s :=
  cStr_append_nul s [] ok.1

theorem getOrderBook_of_mem {h : MarketDataHandler} {reg : List (List UInt8 × Nat)}
    (inv : Registered h reg) {s : List UInt8} {b : Nat} (mem : (s, b) ∈ reg) :
    h.getOrderBook (s ++ [0]) = some b :=
  find_of_mem registrySize_pow inv.map _ b (by rw [cStr_cString (inv.symbols s b mem)]; exact mem)

theorem addSymbol_of_found {h : MarketDataHandler} {s : List UInt8} {b : Nat}
    (found : h.getOrderBook (s ++ [0]) = some b) : h.addSymbol s = h := by
  simp only [MarketDataHandler.addSymbol, found]

theorem addSymbol_of_full {h : MarketDataHandler} {s : List UInt8}
    (missing : h.getOrderBook (s ++ [0]) = none) (full : h.orderBookPool.freeCount = 0) : h.addSymbol s = h := by
  simp only [MarketDataHandler.addSymbol, missing, MemoryPool.allocate, if_pos full]

theorem addSymbol_of_room {h : MarketDataHandler} {s : List UInt8}
    (missing : h.getOrderBook (s ++ [0]) = none) (room : 0 < h.orderBookPool.freeCount) :
    h.addSymbol s = { h with
      orderBookPool := (h.orderBookPool.allocate (OrderBook.init s)).2
      orderBookMap := (h.orderBookMap.insert (s ++ [0])
        (h.orderBookPool.freeList (h.orderBookPool.freeCount - 1))).2 } := by
  simp only [MarketDataHandler.addSymbol, missing, MemoryPool.allocate, if_neg (Nat.pos_iff_ne_zero.1 room)]

theorem registered_addSymbol {h : MarketDataHandler} {reg : List (List UInt8 × Nat)}
    (inv : Registered h reg) {s : List UInt8} (ok : SymbolOk s)
    (room : s ∈ reg.map Prod.fst ∨ reg.length < registrySize) :
    Registered (h.addSymbol s) (registerStep reg s) := by
  by_cases known : s ∈ reg.map Prod.fst
  · obtain ⟨⟨s', b⟩, mem, rfl⟩ := List.mem_map.1 known
    rw [addSymbol_of_found (getOrderBook_of_mem inv mem), registerStep, if_pos known]
    exact inv
  have small := room.resolve_left known
  have absent : h.getOrderBook (s ++ [0]) = none :=
    find_of_not_mem registrySize_pow inv.map _ (by rw [cStr_cString ok]; exact known)
  have free_pos : 0 < h.orderBookPool.freeCount := by have := inv.count; omega
  have top : h.orderBookPool.freeList (h.orderBookPool.freeCount - 1) = registrySize - 1 - reg.length := by
    rw [inv.free _ (by omega)]; have := inv.count; omega
  obtain ⟨empty, -⟩ | ⟨-, -, count, list, storage⟩ := h.orderBookPool.allocate_cases (OrderBook.init s)
  · omega
  rw [top] at storage
  obtain ⟨-, map⟩ := mapInv_insert registrySize_pow inv.map (s ++ [0]) (registrySize - 1 - reg.length)
    (by rw [cStr_cString ok]; exact known) (by rw [cStr_cString ok]; exact ok.2) small
  rw [cStr_cString ok] at map
  rw [addSymbol_of_room absent free_pos, top, registerStep, if_neg known]
  refine ⟨map, fun s' b' mem => ?_, fun s' b' mem => ?_, fun i lt => ?_, ?_, ?_⟩
  · rcases List.mem_append.1 mem with old | new
    · exact inv.symbols s' b' old
    · obtain ⟨rfl, -⟩ := Prod.mk.inj (List.mem_singleton.1 new)
      exact ok
  · dsimp only
    rw [count, storage]
    rcases List.mem_append.1 mem with old | new
    · obtain ⟨above, book, stored, named⟩ := inv.books s' b' old
      refine ⟨by omega, book, ?_, named⟩
      dsimp only
      rw [if_neg (by have := inv.count; omega)]
      exact stored
    · obtain ⟨rfl, rfl⟩ := Prod.mk.inj (List.mem_singleton.1 new)
      exact ⟨by have := inv.count; omega, _, if_pos rfl, rfl⟩
  · dsimp only at lt ⊢
    rw [count] at lt
    rw [list]
    exact inv.free i (by omega)
  · dsimp only
    rw [count, List.length_append, List.length_singleton]
    have := inv.count
    omega
  · rw [List.map_append, List.map_singleton]
    refine inv.slots.append (List.nodup_singleton _) (List.disjoint_singleton.2 fun taken => ?_)
    obtain ⟨⟨s', b'⟩, old, rfl⟩ := List.mem_map.1 taken
    have := (inv.books s' _ old).1
    have := inv.count
    omega

theorem mem_keys_foldl_registerStep (s : List UInt8) :
    ∀ (symbols : List (List UInt8)) (reg : List (List UInt8 × Nat)),
      s ∈ (symbols.foldl registerStep reg).map Prod.fst ↔ s ∈ reg.map Prod.fst ∨ s ∈ symbols := by
  intro symbols
  induction symbols with
  | nil => simp
  | cons t rest ih =>
      intro reg
      rw [List.foldl_cons, ih, registerStep]
      split_ifs with known
      · by_cases same : s = t
        · subst same; simp [known]
        · simp [same]
      · by_cases same : s = t <;> simp [same]

theorem registered_addSymbols :
    ∀ (symbols : List (List UInt8)) (h : MarketDataHandler) (reg : List (List UInt8 × Nat)),
      Registered h reg → (∀ s ∈ symbols, SymbolOk s) →
      (reg.map Prod.fst ++ symbols).toFinset.card ≤ registrySize →
      Registered (h.addSymbols symbols) (symbols.foldl registerStep reg) := by
  intro symbols
  induction symbols with
  | nil => intro h reg inv _ _; exact inv
  | cons s rest ih =>
      intro h reg inv ok room
      have nodup := inv.map.nodup
      have fits : s ∈ reg.map Prod.fst ∨ reg.length < registrySize := by
        by_cases known : s ∈ reg.map Prod.fst
        · exact Or.inl known
        · right
          have grow : (reg.map Prod.fst ++ [s]).toFinset.card ≤ (reg.map Prod.fst ++ s :: rest).toFinset.card :=
            Finset.card_le_card (by
              intro x
              simp only [List.mem_toFinset, List.mem_append, List.mem_cons, List.not_mem_nil, or_false]
              rintro (known | rfl)
              exacts [Or.inl known, Or.inr (Or.inl rfl)])
          rw [List.toFinset_card_of_nodup (nodup.append (by simp) (List.disjoint_singleton.2 known)),
            List.length_append, List.length_map, List.length_singleton] at grow
          omega
      refine ih _ _ (registered_addSymbol inv (ok s (List.mem_cons_self s rest)) fits)
        (fun t mem => ok t (List.mem_cons_of_mem s mem)) (le_trans (Finset.card_le_card ?_) room)
      intro x
      have step := mem_keys_foldl_registerStep x [s] reg
      simp only [List.foldl_cons, List.foldl_nil, List.mem_singleton] at step
      simp only [List.mem_toFinset, List.mem_append, List.mem_cons, step]
      rintro ((known | rfl) | later)
      exacts [Or.inl known, Or.inr (Or.inl rfl), Or.inr (Or.inr later)]

/-- From a fresh handler, any run of `add_symbol` calls with symbols of the
domain, naming at most as many symbols as the pool holds: every symbol is found
with a book built for it, calling `add_symbol` again for any of them changes
nothing, and the pool has given out one book per distinct symbol. -/
theorem addSymbols_registers (symbols : List (List UInt8)) (domain : ∀ s ∈ symbols, SymbolOk s)
    (room : symbols.toFinset.card ≤ registrySize) :
    (∀ s ∈ symbols, ∃ b book, (MarketDataHandler.init.addSymbols symbols).getOrderBook (s ++ [0]) = some b ∧
        (MarketDataHandler.init.addSymbols symbols).orderBookPool.storage b = some book ∧ book.symbol = s) ∧
      (∀ s ∈ symbols, (MarketDataHandler.init.addSymbols symbols).addSymbol s =
        MarketDataHandler.init.addSymbols symbols) ∧
      (MarketDataHandler.init.addSymbols symbols).orderBookPool.available =
        registrySize - symbols.toFinset.card := by
  have inv := registered_addSymbols symbols _ [] registered_init domain (by simpa using room)
  have keys : ∀ s, s ∈ (symbols.foldl registerStep []).map Prod.fst ↔ s ∈ symbols := fun s => by
    simpa using mem_keys_foldl_registerStep s symbols []
  have found : ∀ s ∈ symbols, ∃ b, (s, b) ∈ symbols.foldl registerStep [] := fun s mem => by
    obtain ⟨⟨s', b⟩, registered, rfl⟩ := List.mem_map.1 ((keys s).2 mem)
    exact ⟨b, registered⟩
  have size : (symbols.foldl registerStep []).length = symbols.toFinset.card := by
    rw [← List.length_map _ Prod.fst, ← List.toFinset_card_of_nodup inv.map.nodup]
    congr 1
    ext s
    simp [keys]
  refine ⟨fun s mem => ?_, fun s mem => ?_, ?_⟩
  · obtain ⟨b, registered⟩ := found s mem
    obtain ⟨-, book, stored, named⟩ := inv.books s b registered
    exact ⟨b, book, getOrderBook_of_mem inv registered, stored, named⟩
  · obtain ⟨b, registered⟩ := found s mem
    exact addSymbol_of_found (getOrderBook_of_mem inv registered)
  · have := inv.count
    rw [MemoryPool.available]
    omega

def mainSymbols : List (List UInt8) := [[65, 65, 80, 76], [77, 83, 70, 84], [71, 79, 79, 71, 76]]

theorem main_symbols_registered :
    (∀ s ∈ mainSymbols, SymbolOk s) ∧ mainSymbols.toFinset.card ≤ registrySize ∧
      ((∀ s ∈ mainSymbols, ∃ b book, (MarketDataHandler.init.addSymbols mainSymbols).getOrderBook (s ++ [0]) = some b ∧
          (MarketDataHandler.init.addSymbols mainSymbols).orderBookPool.storage b = some book ∧ book.symbol = s) ∧
        (∀ s ∈ mainSymbols, (MarketDataHandler.init.addSymbols mainSymbols).addSymbol s =
          MarketDataHandler.init.addSymbols mainSymbols) ∧
        (MarketDataHandler.init.addSymbols mainSymbols).orderBookPool.available =
          registrySize - mainSymbols.toFinset.card) :=
  ⟨by decide, by decide, addSymbols_registers mainSymbols (by decide) (by decide)⟩

/-- The handler as `main` leaves it: the three symbols registered and the
strategy's callback installed. -/
def mainHandler : MarketDataHandler := (MarketDataHandler.init.addSymbols mainSymbols).registerCallback

def mainRegistry : List (List UInt8 × Nat) := mainSymbols.foldl registerStep []

theorem registered_registerCallback {h : MarketDataHandler} {reg : List (List UInt8 × Nat)}
    (inv : Registered h reg) : Registered h.registerCallback reg :=
  ⟨inv.map, inv.symbols, inv.books, inv.free, inv.count, inv.slots⟩

theorem registered_main : Registered mainHandler mainRegistry :=
  registered_registerCallback (registered_addSymbols mainSymbols _ [] registered_init (by decide) (by decide))

/-! ## What one record can change -/

/-- The handler states the threads can reach: `add_symbol` calls on a fresh
handler, the callback installed, records processed, in any order. -/
inductive Reachable : MarketDataHandler → Prop
  | init : Reachable MarketDataHandler.init
  | addSymbol {h : MarketDataHandler} (s : List UInt8) : Reachable h → Reachable (h.addSymbol s)
  | registerCallback {h : MarketDataHandler} : Reachable h → Reachable h.registerCallback
  | processMessage {h : MarketDataHandler} (data : List UInt8) (len : Nat) :
      Reachable h → Reachable (h.processMessage data len).2

/-- What every reachable handler keeps, whatever symbols were added (long ones
included): each tagged slot of the map names a pool slot with a book in it, no
two tagged slots the same pool slot, all of them at or above the free stack,
whose cells below the count are untouched. -/
structure Wired (h : MarketDataHandler) : Prop where
  books : ∀ i < registrySize, (h.orderBookMap.entries i).hash ≠ emptyTag →
    ∃ book, h.orderBookPool.storage (h.orderBookMap.entries i).value = some book
  slots : ∀ i < registrySize, ∀ j < registrySize, (h.orderBookMap.entries i).hash ≠ emptyTag →
    (h.orderBookMap.entries j).hash ≠ emptyTag →
    (h.orderBookMap.entries i).value = (h.orderBookMap.entries j).value → i = j
  above : ∀ i < registrySize, (h.orderBookMap.entries i).hash ≠ emptyTag →
    h.orderBookPool.freeCount ≤ (h.orderBookMap.entries i).value
  free : ∀ i < h.orderBookPool.freeCount, h.orderBookPool.freeList i = i

theorem wired_init : Wired MarketDataHandler.init where
  books := fun _ _ empty => absurd rfl empty
  slots := fun _ _ _ _ empty => absurd rfl empty
  above := fun _ _ empty => absurd rfl empty
  free := fun _ _ => rfl

theorem wired_addSymbol {h : MarketDataHandler} (inv : Wired h) (s : List UInt8) : Wired (h.addSymbol s) := by
  cases missing : h.getOrderBook (s ++ [0]) with
  | some b => rwa [addSymbol_of_found missing]
  | none =>
  rcases h.orderBookPool.allocate_cases (OrderBook.init s) with ⟨full, -⟩ | ⟨pos, -, count, list, storage⟩
  · rwa [addSymbol_of_full missing full]
  have top : h.orderBookPool.freeList (h.orderBookPool.freeCount - 1) = h.orderBookPool.freeCount - 1 :=
    inv.free _ (by omega)
  rw [top] at storage
  rw [addSymbol_of_room missing pos, top]
  -- the books of the tagged slots sit above the slot just taken
  have keep : ∀ i < registrySize, (h.orderBookMap.entries i).hash ≠ emptyTag →
      (h.orderBookPool.allocate (OrderBook.init s)).2.storage (h.orderBookMap.entries i).value =
        h.orderBookPool.storage (h.orderBookMap.entries i).value := fun i lt busy => by
    rw [storage]
    exact if_neg (by have := inv.above i lt busy; omega)
  have fresh : (h.orderBookPool.allocate (OrderBook.init s)).2.storage (h.orderBookPool.freeCount - 1) =
      some (OrderBook.init s) := by
    rw [storage]
    exact if_pos rfl
  rcases insert_of_find_none h.orderBookMap (s ++ [0]) (h.orderBookPool.freeCount - 1) missing with
    unchanged | ⟨q, probed, empty, claimed⟩
  · rw [unchanged]
    dsimp only
    refine ⟨fun i lt busy => ?_, inv.slots, fun i lt busy => ?_, fun i lt => ?_⟩
    · rw [keep i lt busy]
      exact inv.books i lt busy
    · dsimp only at busy ⊢
      rw [count]
      have := inv.above i lt busy
      omega
    · rw [list]
      exact inv.free i (by rw [count] at lt; omega)
  rw [claimed]
  have entry : ∀ i, (h.orderBookMap.set q ⟨keyTag (s ++ [0]), strncpy (h.orderBookMap.entries q).key (s ++ [0])
      (maxKeyLen - 1), h.orderBookPool.freeCount - 1⟩).entries i =
      if i = q then ⟨keyTag (s ++ [0]), strncpy (h.orderBookMap.entries q).key (s ++ [0]) (maxKeyLen - 1),
        h.orderBookPool.freeCount - 1⟩ else h.orderBookMap.entries i := fun _ => rfl
  refine ⟨fun i lt busy => ?_, fun i lt j lt' busy busy' same => ?_, fun i lt busy => ?_, fun i lt => ?_⟩
  · rw [entry] at busy ⊢
    split_ifs at busy ⊢
    · exact ⟨_, fresh⟩
    · rw [keep i lt busy]
      exact inv.books i lt busy
  · rw [entry, entry] at same
    rw [entry] at busy
    rw [entry] at busy'
    split_ifs at busy busy' same with hi hj hj
    · rw [hi, hj]
    · have := inv.above j lt' busy'
      dsimp only at same
      omega
    · have := inv.above i lt busy
      dsimp only at same
      omega
    · exact inv.slots i lt j lt' busy busy' same
  · rw [count, entry]
    rw [entry] at busy
    split_ifs at busy ⊢
    · exact le_rfl
    · have := inv.above i lt busy
      omega
  · rw [list]
    exact inv.free i (by rw [count] at lt; omega)

theorem processMessage_state (h : MarketDataHandler) (data : List UInt8) (len : Nat) :
    (h.processMessage data len).2 = { h with orderBookPool := (h.processMessage data len).2.orderBookPool } := by
  unfold MarketDataHandler.processMessage
  split
  · rfl
  · split
    · rfl
    · split <;> rfl

theorem processMessage_pool (h : MarketDataHandler) (data : List UInt8) (len : Nat) :
    (h.processMessage data len).2.orderBookPool = h.orderBookPool ∨
      ∃ b book, messageSize ≤ len ∧ h.getOrderBook data = some b ∧ h.orderBookPool.storage b = some book ∧
        (h.processMessage data len).2.orderBookPool =
          h.orderBookPool.write b ((MarketDataMessage.read data).applyTo book) := by
  unfold MarketDataHandler.processMessage
  split
  · exact Or.inl rfl
  · rename_i long
    split
    · exact Or.inl rfl
    · rename_i b found
      split
      · exact Or.inl rfl
      · rename_i book stored
        exact Or.inr ⟨b, book, Nat.not_lt.1 long, found, stored, rfl⟩

theorem wired_processMessage {h : MarketDataHandler} (inv : Wired h) (data : List UInt8) (len : Nat) :
    Wired (h.processMessage data len).2 := by
  rw [processMessage_state]
  rcases processMessage_pool h data len with unchanged | ⟨b, book, -, -, -, written⟩
  · rw [unchanged]
    exact inv
  · rw [written]
    refine ⟨fun i lt busy => ?_, inv.slots, inv.above, inv.free⟩
    rw [MemoryPool.write_storage]
    split_ifs
    · exact ⟨_, rfl⟩
    · exact inv.books i lt busy

theorem Reachable.wired {h : MarketDataHandler} (reach : Reachable h) : Wired h := by
  induction reach with
  | init => exact wired_init
  | addSymbol s _ ih => exact wired_addSymbol ih s
  | registerCallback _ ih => exact ⟨ih.books, ih.slots, ih.above, ih.free⟩
  | processMessage data len _ ih => exact wired_processMessage ih data len

theorem Wired.symbol_of_slot {h : MarketDataHandler} (inv : Wired h) {key key' : List UInt8} {b : Nat}
    (found : h.getOrderBook key = some b) (found' : h.getOrderBook key' = some b) : cStr key = cStr key' := by
  obtain ⟨i, lt, tag, name, value⟩ := find_eq_some registrySize_pow _ key found
  obtain ⟨j, lt', tag', name', value'⟩ := find_eq_some registrySize_pow _ key' found'
  have busy : (h.orderBookMap.entries i).hash ≠ emptyTag := tag ▸ keyTag_ne_empty key
  have busy' : (h.orderBookMap.entries j).hash ≠ emptyTag := tag' ▸ keyTag_ne_empty key'
  have same := inv.slots i lt j lt' busy busy' (value.trans value'.symm)
  subst same
  exact name.symm.trans name'

theorem applyTo_read (data : List UInt8) (b : OrderBook) :
    (MarketDataMessage.read data).applyTo b =
      OrderBook.update (if data.getD 16 0 = 0 then .bid else .ask) b (data.getD 17 0).toNat
        (f64Value (leWord data 18 8)) (f64Value (leWord data 26 8)) := by
  simp only [MarketDataMessage.applyTo, MarketDataMessage.read, OrderBook.updateBid, OrderBook.updateAsk]
  split_ifs <;> rfl

/-- For every handler reached by `add_symbol` calls (with any symbols), records
and the callback's installation, and every input: `process_message` leaves the
map alone; it changes no book for a short input, an unknown symbol or a level
at or past `MAX_DEPTH`; and for a whole record of a registered symbol it writes
that symbol's book, updated as `update_bid` or `update_ask` would from the
record's fields, into the book's own slot, leaving the other side of that book,
every other slot, and so every other symbol's book, as they were. -/
theorem processMessage_frame {h : MarketDataHandler} (reach : Reachable h) (data : List UInt8) (len : Nat) :
    (h.processMessage data len).2.orderBookMap = h.orderBookMap ∧
      (len < messageSize ∨ h.getOrderBook data = none ∨ maxDepth ≤ (data.getD 17 0).toNat →
        (h.processMessage data len).2.orderBookPool.storage = h.orderBookPool.storage) ∧
      (messageSize ≤ len → ∀ b, h.getOrderBook data = some b →
        ∃ book, h.orderBookPool.storage b = some book ∧
          (h.processMessage data len).2.orderBookPool.storage b =
            some (OrderBook.update (if data.getD 16 0 = 0 then .bid else .ask) book (data.getD 17 0).toNat
              (f64Value (leWord data 18 8)) (f64Value (leWord data 26 8))) ∧
          (∀ σ, σ ≠ (if data.getD 16 0 = 0 then .bid else .ask) →
            (OrderBook.update (if data.getD 16 0 = 0 then .bid else .ask) book (data.getD 17 0).toNat
              (f64Value (leWord data 18 8)) (f64Value (leWord data 26 8))).book σ = book.book σ) ∧
          (∀ i ≠ b, (h.processMessage data len).2.orderBookPool.storage i = h.orderBookPool.storage i) ∧
          ∀ other b', h.getOrderBook other = some b' → cStr other ≠ cStr data → b' ≠ b) := by
  have inv := reach.wired
  refine ⟨by rw [processMessage_state], fun quiet => ?_, fun long b found => ?_⟩
  · rcases processMessage_pool h data len with unchanged | ⟨b, book, long, found, stored, written⟩
    · rw [unchanged]
    rw [written]
    rcases quiet with short | missing | deep
    · omega
    · rw [found] at missing
      cases missing
    · funext i
      rw [MemoryPool.write_storage, applyTo_read, update_of_maxDepth_le _ _ _ _ deep]
      split_ifs with at_b
      · rw [at_b, stored]
      · rfl
  · obtain ⟨i, lt, tag, -, value⟩ := find_eq_some registrySize_pow _ data found
    obtain ⟨book, stored⟩ := inv.books i lt (tag ▸ keyTag_ne_empty data)
    rw [value] at stored
    have written : (h.processMessage data len).2.orderBookPool =
        h.orderBookPool.write b ((MarketDataMessage.read data).applyTo book) := by
      simp only [MarketDataHandler.processMessage, if_neg (Nat.not_lt.2 long), found, stored]
    refine ⟨book, stored, ?_, fun σ other => book_update_other _ _ _ _ other.symm, fun i other => ?_,
      fun other b' found' renamed same => renamed (inv.symbol_of_slot found' (same ▸ found))⟩
    · rw [written, MemoryPool.write_storage, if_pos rfl, applyTo_read]
    · rw [written, MemoryPool.write_storage, if_neg other]

theorem reachable_addSymbols (symbols : List (List UInt8)) :
    ∀ {h : MarketDataHandler}, Reachable h → Reachable (h.addSymbols symbols) := by
  induction symbols with
  | nil => exact id
  | cons s rest ih => exact fun reach => ih (reach.addSymbol s)

/-- A 42-byte bid for `AAPL` at level 0: the symbol, side `0`, level `0`, and
zero price, quantity and timestamp. -/
def aaplBid : List UInt8 := [65, 65, 80, 76] ++ List.replicate 38 0

/-- In the handler `main` builds: a record too short to hold a whole message
changes no book, and a whole `AAPL` bid writes `AAPL`'s book alone, in its
slot 255, updated on its bid side. -/
theorem main_handler_record_frame :
    Reachable mainHandler ∧
      (mainHandler.processMessage (List.replicate 41 0) 41).2.orderBookPool.storage =
        mainHandler.orderBookPool.storage ∧
      messageSize ≤ aaplBid.length ∧ mainHandler.getOrderBook aaplBid = some 255 ∧
      ∃ book, mainHandler.orderBookPool.storage 255 = some book ∧
        (mainHandler.processMessage aaplBid aaplBid.length).2.orderBookPool.storage 255 =
          some (OrderBook.update (if aaplBid.getD 16 0 = 0 then .bid else .ask) book (aaplBid.getD 17 0).toNat
            (f64Value (leWord aaplBid 18 8)) (f64Value (leWord aaplBid 26 8))) ∧
        (∀ σ, σ ≠ (if aaplBid.getD 16 0 = 0 then .bid else .ask) →
          (OrderBook.update (if aaplBid.getD 16 0 = 0 then .bid else .ask) book (aaplBid.getD 17 0).toNat
            (f64Value (leWord aaplBid 18 8)) (f64Value (leWord aaplBid 26 8))).book σ = book.book σ) ∧
        (∀ i ≠ 255, (mainHandler.processMessage aaplBid aaplBid.length).2.orderBookPool.storage i =
          mainHandler.orderBookPool.storage i) ∧
        ∀ other b', mainHandler.getOrderBook other = some b' → cStr other ≠ cStr aaplBid → b' ≠ 255 := by
  have reach : Reachable mainHandler := ((reachable_addSymbols mainSymbols) Reachable.init).registerCallback
  have found : mainHandler.getOrderBook aaplBid = some 255 := by
    rw [MarketDataHandler.getOrderBook, ← find_cStr]
    exact find_of_mem registrySize_pow registered_main.map _ 255 (by rw [cStr_cStr]; decide)
  exact ⟨reach, (processMessage_frame reach _ 41).2.1 (Or.inl (by decide)), le_refl _, found,
    (processMessage_frame reach aaplBid aaplBid.length).2.2 (le_refl _) 255 found⟩

/-! ## What one record reads -/

/-- The indices of `data` that `process_message(data, len)` loads: nothing for
a short input; otherwise the symbol, which `hash_string` scans up to and
including its NUL (each `strcmp` of the probe stops at a NUL of `data` or
before, so it loads no further), and, for a registered symbol, the side, level,
price and quantity fields at offsets 16 to 33. -/
def MarketDataHandler.processMessageReads (h : MarketDataHandler) (data : List UInt8) (len : Nat) :
    List Nat :=
  if len < messageSize then []
  else hashStringReads data ++ if (h.getOrderBook data).isSome then List.range' 16 18 else []

/-- For a whole record, `process_message` loads a byte at or past `len`
exactly when the record's first `len` bytes hold no NUL: `hash_string` then
runs off the end of the record. -/
theorem processMessage_reads_past_record (h : MarketDataHandler) (data : List UInt8) {len : Nat}
    (long : messageSize ≤ len) (inside : len ≤ data.length) :
    (∃ r ∈ h.processMessageReads data len, len ≤ r) ↔ 0 ∉ data.take len := by
  have fields : ∀ r ∈ (if (h.getOrderBook data).isSome then List.range' 16 18 else []), r < len := by
    intro r mem
    split at mem
    · have := (List.mem_range'_1.1 mem).2
      simp only [messageSize] at long
      omega
    · cases mem
  rw [← le_length_cStr_iff data len inside]
  simp only [MarketDataHandler.processMessageReads, if_neg (Nat.not_lt.2 long), List.mem_append,
    hashStringReads, List.mem_range]
  constructor
  · rintro ⟨r, (scanned | field), past⟩
    · omega
    · exact absurd past (Nat.not_le.2 (fields r field))
  · intro reaches
    exact ⟨len, .inl (by omega), le_rfl⟩

/-- A record of 42 `A`s: no NUL anywhere in it. -/
theorem nul_free_record_read_past_end :
    messageSize ≤ 42 ∧ 42 ≤ (List.replicate 42 (65 : UInt8)).length ∧
      ∃ r ∈ mainHandler.processMessageReads (List.replicate 42 65) 42, 42 ≤ r :=
  ⟨by decide, by decide, (processMessage_reads_past_record mainHandler _ (by decide) (by decide)).2 (by decide)⟩

/-! ## Symbols longer than a key -/

theorem keysTerminated_addSymbol {h : MarketDataHandler} (terminated : KeysTerminated h.orderBookMap)
    (s : List UInt8) : KeysTerminated (h.addSymbol s).orderBookMap := by
  unfold MarketDataHandler.addSymbol
  split
  · exact terminated
  · split
    · exact terminated
    · exact keysTerminated_insert terminated _ _

theorem addSymbol_long {h : MarketDataHandler} (terminated : KeysTerminated h.orderBookMap)
    {s : List UInt8} (nul : 0 ∉ s) (long : maxKeyLen - 1 < s.length) :
    h.getOrderBook (s ++ [0]) = none ∧
      (h.addSymbol s).orderBookPool.available = h.orderBookPool.available - 1 := by
  have lost : h.getOrderBook (s ++ [0]) = none :=
    find_long_key terminated _ (by rw [cStr_append_nul s [] nul]; exact long)
  refine ⟨lost, ?_⟩
  obtain ⟨empty, refused⟩ | ⟨-, slot, count, -, -⟩ := h.orderBookPool.allocate_cases (OrderBook.init s)
  · simp only [MarketDataHandler.addSymbol, lost, refused, MemoryPool.available, empty]
  · have pair : h.orderBookPool.allocate (OrderBook.init s) =
        (some (h.orderBookPool.freeList (h.orderBookPool.freeCount - 1)),
          (h.orderBookPool.allocate (OrderBook.init s)).2) := Prod.ext slot rfl
    simp only [MarketDataHandler.addSymbol, lost]
    rw [pair]
    exact count

/-- `ABCDEFGHIJKLMNOP`: sixteen bytes, one more than a key holds. -/
def longSymbol : List UInt8 := [65, 66, 67, 68, 69, 70, 71, 72, 73, 74, 75, 76, 77, 78, 79, 80]

/-- Two `add_symbol` calls with one sixteen-byte symbol: it is not found, and
two books are gone for one distinct symbol. -/
theorem long_symbol_not_registered :
    (MarketDataHandler.init.addSymbols [longSymbol, longSymbol]).getOrderBook (longSymbol ++ [0]) = none ∧
      (MarketDataHandler.init.addSymbols [longSymbol, longSymbol]).orderBookPool.available =
        registrySize - 2 := by
  have nul : 0 ∉ longSymbol := by decide
  have long : maxKeyLen - 1 < longSymbol.length := by decide
  have fresh : KeysTerminated MarketDataHandler.init.orderBookMap := keysTerminated_init
  have once := keysTerminated_addSymbol fresh longSymbol
  have twice := keysTerminated_addSymbol once longSymbol
  refine ⟨(addSymbol_long twice nul long).1, ?_⟩
  show ((MarketDataHandler.init.addSymbol longSymbol).addSymbol longSymbol).orderBookPool.available = _
  rw [(addSymbol_long once nul long).2, (addSymbol_long fresh nul long).2]
  rfl

end Hft.MarketData
