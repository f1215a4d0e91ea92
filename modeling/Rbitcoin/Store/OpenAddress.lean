import Rbitcoin.Lib.Probe
import Rbitcoin.Store.Words

/-! The head that takes new keys: an open-addressed table of slots of a key and a word, with a count
of the slots in use. A key that is cleared keeps its slot, so that the searches that pass it still
do. -/

namespace Rbitcoin.Store

open Bytes Outcome Words List

def maxLoadNum : Nat := 7
def maxLoadDen : Nat := 8

def fnvOffset : UInt64 := 0xcbf29ce484222325
def fnvPrime : UInt64 := 0x100000001b3

def fnv1a64 (bytes : Bytes) : UInt64 :=
  bytes.foldl (fun h b => (h ^^^ b.toUInt64) * fnvPrime) fnvOffset

/-- The slot that a search starts at; the number of slots is a power of two. -/
def primarySlot (slots : Nat) (key : ShHeadKey) : Nat := (fnv1a64 key.bytes).toNat &&& (slots - 1)

abbrev Slot := ShHeadKey × UInt64

def zeroKey : ShHeadKey := ⟨List.replicate 16 0, rfl⟩

def isEmptySlot (s : Slot) : Bool := s.1 = zeroKey ∧ s.2 = 0

def Slot.view (s : Slot) : Option (ShHeadKey × UInt64) := if isEmptySlot s then none else some s

variable (table : List Slot)

/-- The search that all operations make. -/
def findSlot (key : ShHeadKey) : Probe.Spot :=
  Probe.probe Slot.view table key table.length (primarySlot table.length key)

/-- The table with the word of the key, and whether the key took an empty slot; none if there is no
slot for it. -/
def tryInsert (key : ShHeadKey) (word : UInt64) : Option (List Slot × Bool) :=
  match findSlot table key with
  | .free i => some (table.set i (key, word), true)
  | .hit i => some (table.set i (key, word), false)
  | .full => none

/-- An open-addressing table of keys and words. -/
structure ScriptHashHead where
  table : List Slot
  occupied : Nat
  /-- The count is known. -/
  occKnown : Bool
  /-- The count in the file beside the table. -/
  occFile : Option Nat
  deriving DecidableEq, Repr

def shHeadFull : String := "invariant: scripthash head full"

namespace ScriptHashHead

variable (head : ScriptHashHead)

def slots : Nat := head.table.length

def nextPowerOfTwo (n : Nat) : Nat := (((List.range 64).map (2 ^ ·)).find? (n ≤ ·)).getD 0

def createWithSlots (n : Nat) : ScriptHashHead where
  table := List.replicate (nextPowerOfTwo (max n 2)) (zeroKey, 0)
  occupied := 0
  occKnown := true
  occFile := some 0

def get (key : ShHeadKey) : Result (Option ShHeadValue) :=
  match findSlot head.table key with
  | .hit i => do
    let val ← unpack8Bytes (head.table.getD i (key, 0)).2
    return if val.isEmpty then none else some val
  | .free _ => .ok none
  | .full => .ok none

def clearKey (key : ShHeadKey) : ScriptHashHead :=
  match findSlot head.table key with
  | .hit i => { head with table := head.table.set i (key, 0) }
  | .free _ => head
  | .full => head

/-- The loop of `insert_many`. The pages it changes are written when it is done or finds no slot;
when a value has no word they are lost, and `file` is what is left. -/
def insertLoop (file : List Slot) (cap : Nat) :
    List (ShHeadKey × ShHeadValue) → ScriptHashHead → ScriptHashHead × Result Unit
  | [], head => (head, .ok ())
  | (key, val) :: work, head =>
    let refused : Result Bool :=
      if head.occKnown ∧ cap ≤ head.occupied then do
        return (← { head with table := file }.get key).isNone
      else .ok false
    match refused with
    | .error e => ({ head with table := file }, .error e)
    | .ok true => (head, corrupt shHeadFull)
    | .ok false =>
      match pack8Bytes val with
      | .error e => ({ head with table := file }, .error e)
      | .ok enc =>
        match tryInsert head.table key enc with
        | none => (head, corrupt shHeadFull)
        | some (table, wasEmpty) =>
          if wasEmpty ∧ head.occKnown ∧ cap ≤ head.occupied then
            ({ head with table }, corrupt shHeadFull)
          else
            insertLoop file cap work { head with
              table
              occupied := if wasEmpty ∧ head.occKnown then head.occupied + 1 else head.occupied }

def persistOcc : ScriptHashHead :=
  { head with occFile := some head.occupied }

/-- Fill a table of empty slots, and count the slots taken. -/
def fillLoop : List (ShHeadKey × ShHeadValue) → List Slot × Nat → Result (List Slot × Nat)
  | [], filled => .ok filled
  | (key, val) :: entries, (table, occupied) => do
    let enc ← pack8Bytes val
    match tryInsert table key enc with
    | none => corrupt "scripthash head bulk_fill full"
    | some (table, wasEmpty) =>
      fillLoop entries (table, if wasEmpty then occupied + 1 else occupied)

def bulkFillEmpty (entries : List (ShHeadKey × ShHeadValue)) : ScriptHashHead × Result Unit :=
  match fillLoop entries (List.replicate head.slots (zeroKey, 0), 0) with
  | .error e => (head, .error e)
  | .ok (table, occupied) =>
    (persistOcc { head with table, occupied, occKnown := true }, .ok ())

/-- The second half of `insert_many`: set the values that are not empty, in the order of their
slots, or all at once into a table that is known to be empty. -/
def insertUpserts (upserts : List (ShHeadKey × ShHeadValue)) : ScriptHashHead × Result Unit :=
  if upserts.isEmpty then (head, .ok ())
  else if head.occKnown ∧ head.occupied = 0 then head.bulkFillEmpty upserts
  else
    let work := upserts.mergeSort fun x y =>
      primarySlot head.slots x.1 ≤ primarySlot head.slots y.1
    let cap := head.slots * maxLoadNum / maxLoadDen
    match insertLoop head.table cap work head with
    | (head, .error e) => (head, .error e)
    | (head, .ok ()) => (if head.occKnown then head.persistOcc else head, .ok ())

/-- Set or clear the entries, those that are cleared first. -/
def insertMany (entries : List (ShHeadKey × ShHeadValue)) : ScriptHashHead × Result Unit :=
  insertUpserts
    ((entries.filter fun x => x.2.isEmpty).foldl (fun head x => head.clearKey x.1) head)
    (entries.filter fun x => !x.2.isEmpty)

/-- The slots in use at which a head is sealed: four fifths. -/
def sealCap (slots : Nat) : Nat := (4 * slots + 4) / 5

def roomBeforeSeal : Nat :=
  if head.occKnown = false ∨ head.slots = 0 then 0 else sealCap head.slots - head.occupied

/-- The load has reached four fifths, as far as it is known. -/
def atSealLoad : Bool :=
  head.occKnown ∧ head.slots ≠ 0 ∧ 4 * head.slots ≤ 5 * head.occupied

def forEachOccupied : Result (List (ShHeadKey × ShHeadValue)) := do
  let vals ← (head.table.filter fun s => !isEmptySlot s).mapM fun s => do
    return (s.1, ← unpack8Bytes s.2)
  return vals.filter fun x => !x.2.isEmpty

end ScriptHashHead

/-! ### A table is a partial map -/

theorem primarySlot_lt {slots bits : Nat} (h : slots = 2 ^ bits) (key : ShHeadKey) :
    primarySlot slots key < slots := by
  rw [primarySlot, h, Nat.and_two_pow_sub_one_eq_mod]
  exact Nat.mod_lt _ (Nat.two_pow_pos bits)

theorem Slot.view_eq_some {s : Slot} {x : ShHeadKey × UInt64} (h : s.view = some x) : x = s := by
  unfold Slot.view at h
  split_ifs at h
  cases h
  rfl

theorem Slot.view_of_key_ne {key : ShHeadKey} (h : key ≠ zeroKey) (w : UInt64) :
    Slot.view (key, w) = some (key, w) := by
  apply if_neg
  simp [isEmptySlot, h]

/-- The slots of `table` hold the words of `f`, each where a search for its key leads. -/
def TableHolds (f : Words ShHeadKey) : Prop :=
  Probe.Holds Slot.view (primarySlot table.length) table f

namespace TableHolds

variable {table : List Slot} {f : Words ShHeadKey} (holds : TableHolds table f)
include holds

variable {key : ShHeadKey}

theorem findSlot_some {w : UInt64} (member : f key = some w) :
    ∃ i, findSlot table key = .hit i ∧ table[i]? = some (key, w) := by
  obtain ⟨i, hit, shown⟩ := holds.probe_some member
  refine ⟨i, hit, ?_⟩
  rw [Probe.cell, Option.bind_eq_some_iff] at shown
  obtain ⟨s, at_i, view⟩ := shown
  rw [at_i, Slot.view_eq_some view]

theorem findSlot_none (missing : f key = none) (i : Nat) : findSlot table key ≠ .hit i := by
  intro hit
  rcases Probe.probe_cases Slot.view table key table.length (holds.hash_lt key) with
    ⟨d, -, -, ⟨-, ended⟩ | ⟨⟨w, shown⟩, -⟩⟩ | ⟨-, ended⟩
  · rw [findSlot, ended] at hit
    cases hit
  · rw [holds.entry.mpr ⟨_, shown⟩] at missing
    cases missing
  · rw [findSlot, ended] at hit
    cases hit

theorem set_member (nonzero : key ≠ zeroKey) {old : UInt64}
    (member : f key = some old) (w : UInt64) :
    ∃ i, findSlot table key = .hit i ∧ TableHolds (table.set i (key, w)) (f.set key w) ∧
      Probe.occupied Slot.view (table.set i (key, w)) = Probe.occupied Slot.view table := by
  have new := Slot.view_of_key_ne nonzero w
  obtain ⟨i, hit, shown⟩ := holds.probe_some member
  obtain ⟨d, hd, at_i, passed⟩ := holds.reached shown
  refine ⟨i, hit, ?_, Probe.occupied_set_hit shown new⟩
  subst at_i
  unfold TableHolds
  rw [length_set]
  apply Probe.Holds.set holds new hd passed
  intro x hx
  rw [shown, Option.some.injEq] at hx
  rw [← hx]

theorem tryInsert (nonzero : key ≠ zeroKey) (w : UInt64)
    (room : Probe.occupied Slot.view table < table.length) :
    ∃ table', Store.tryInsert table key w = some (table', (f key).isNone) ∧
      TableHolds table' (f.set key w) ∧ table'.length = table.length ∧
      Probe.occupied Slot.view table' =
        Probe.occupied Slot.view table + if (f key).isNone then 1 else 0 := by
  cases member : f key with
  | none =>
    have new := Slot.view_of_key_ne nonzero w
    obtain ⟨d, hd, passed, free, ended⟩ := holds.probe_none member room
    have inside : (primarySlot table.length key + d) % table.length < table.length :=
      Nat.mod_lt _ (by omega)
    refine ⟨table.set ((primarySlot table.length key + d) % table.length) (key, w), ?_, ?_,
      length_set, ?_⟩
    · rw [Store.tryInsert, findSlot, ended]
      rfl
    · unfold TableHolds
      rw [length_set]
      apply Probe.Holds.set holds new hd passed
      intro x hx
      rw [free] at hx
      cases hx
    · exact Probe.occupied_set_free inside free new
  | some old =>
    obtain ⟨i, hit, set, count⟩ := holds.set_member nonzero member w
    refine ⟨table.set i (key, w), ?_, set, length_set, count⟩
    rw [Store.tryInsert, hit]
    rfl

end TableHolds

theorem tableHolds_empty {slots bits : Nat} (h : slots = 2 ^ bits) :
    TableHolds (replicate slots (zeroKey, 0)) (fun _ => none) ∧
      Probe.occupied Slot.view (replicate slots (zeroKey, 0)) = 0 := by
  have no_cell (i : Nat) : Probe.cell Slot.view (replicate slots (zeroKey, 0)) i = none := by
    rw [Probe.cell, getElem?_replicate]
    split_ifs <;> rfl
  constructor
  · refine ⟨fun k => ?_, fun shown => ?_, fun {k w} => ?_⟩
    · rw [length_replicate]
      exact primarySlot_lt h k
    · rw [no_cell] at shown
      cases shown
    · simp [no_cell]
  · rw [Probe.occupied, countP_replicate]
    rfl

namespace ScriptHashHead

/-- The head holds the words of `f`; a key that was cleared has the word of the empty value. -/
structure Holds (head : ScriptHashHead) (f : Words ShHeadKey) : Prop where
  size : ∃ bits, 3 ≤ bits ∧ head.slots = 2 ^ bits
  table : TableHolds head.table f
  known : head.occKnown = true
  count : head.occupied = Probe.occupied Slot.view head.table

variable {bits : Nat}

theorem nextPowerOfTwo_two_pow (small : bits < 64) : nextPowerOfTwo (2 ^ bits) = 2 ^ bits := by
  have first : ((range 64).map (2 ^ ·)).find? (2 ^ bits ≤ ·) = some (2 ^ bits) := by
    rw [find?_map, find?_range_eq_some.mpr]
    · rfl
    · refine ⟨by simp, mem_range.mpr small, fun j hj => ?_⟩
      simpa using Nat.pow_lt_pow_right (by decide) hj
  rw [nextPowerOfTwo, first]
  rfl

theorem createWithSlots_holds (three : 3 ≤ bits) (small : bits < 64) :
    (createWithSlots (2 ^ bits)).Holds (fun _ => none) ∧
      (createWithSlots (2 ^ bits)).slots = 2 ^ bits ∧
        (createWithSlots (2 ^ bits)).occupied = 0 := by
  have two : max (2 ^ bits) 2 = 2 ^ bits := by
    have : 2 ^ 1 ≤ 2 ^ bits := Nat.pow_le_pow_right (by decide) (by omega)
    omega
  have slots : (createWithSlots (2 ^ bits)).slots = 2 ^ bits := by
    rw [createWithSlots, ScriptHashHead.slots, length_replicate, two, nextPowerOfTwo_two_pow small]
  have bits_eq : 2 ^ bits = 2 ^ bits := rfl
  obtain ⟨table, count⟩ := tableHolds_empty bits_eq
  rw [createWithSlots, two, nextPowerOfTwo_two_pow small] at *
  exact ⟨⟨⟨bits, three, slots⟩, table, rfl, count.symm⟩, slots, rfl⟩

namespace Holds

variable {head : ScriptHashHead} {f : Words ShHeadKey} (holds : head.Holds f)
include holds

theorem get_eq (decodes : f.Decodes) (key : ShHeadKey) :
    head.get key = .ok ((f.values key).filter fun v => !v.isEmpty) := by
  cases member : f key with
  | none =>
    have missing := holds.table.findSlot_none member
    rw [values_of_none member, get]
    split
    · next i hit => exact absurd hit (missing i)
    · rfl
    · rfl
  | some w =>
    obtain ⟨v, storable, rfl⟩ := decodes member
    obtain ⟨i, hit, slot⟩ := holds.table.findSlot_some member
    rw [values_of_word storable member, get, hit]
    simp only [getD_eq_getElem?_getD, slot, Option.getD_some, unpack8Bytes_word storable]
    cases empty : v.isEmpty <;> simp [Option.filter, empty]

variable {x : ShHeadKey × ShHeadValue} {entries : List (ShHeadKey × ShHeadValue)}

theorem clearKey (nonzero : x.1 ≠ zeroKey) (empty : x.2.isEmpty) :
    (head.clearKey x.1).Holds (f.enter x) ∧ (head.clearKey x.1).slots = head.slots ∧
      (head.clearKey x.1).occupied = head.occupied := by
  cases member : f x.1 with
  | none =>
    have missing := holds.table.findSlot_none member
    have same : head.clearKey x.1 = head := by
      unfold ScriptHashHead.clearKey
      split
      · next i hit => exact absurd hit (missing i)
      · rfl
      · rfl
    rw [same, enter, if_pos ⟨empty, member⟩]
    exact ⟨holds, rfl, rfl⟩
  | some old =>
    have zero : word x.2 = 0 := by
      rw [ShHeadValue.isEmpty_iff.mp empty]
      rfl
    obtain ⟨i, hit, set, count⟩ := holds.table.set_member nonzero member 0
    have cleared : head.clearKey x.1 = { head with table := head.table.set i (x.1, 0) } := by
      rw [ScriptHashHead.clearKey, hit]
    have slots : (head.clearKey x.1).slots = head.slots := by
      rw [cleared]
      exact length_set
    refine ⟨⟨slots ▸ holds.size, ?_, ?_, ?_⟩, slots, by rw [cleared]⟩
    · rw [enter, if_neg (by simp [member]), zero, cleared]
      exact set
    · rw [cleared]
      exact holds.known
    · rw [cleared]
      exact holds.count.trans count.symm

/-- Entries that an insertion takes: each has a key of its own, none of them zero, and a value that
is kept. -/
structure Entries (entries : List (ShHeadKey × ShHeadValue)) : Prop where
  nodup : (entries.map Prod.fst).Nodup
  nonzero : ∀ x ∈ entries, x.1 ≠ zeroKey
  storable : ∀ x ∈ entries, x.2.Storable

omit holds in
theorem Entries.perm {l l' : List (ShHeadKey × ShHeadValue)} (h : Entries l) (perm : l.Perm l') :
    Entries l' where
  nodup := (perm.map Prod.fst).nodup_iff.mp h.nodup
  nonzero x hx := h.nonzero x (perm.mem_iff.mpr hx)
  storable x hx := h.storable x (perm.mem_iff.mpr hx)

omit holds in
theorem Entries.sublist {l l' : List (ShHeadKey × ShHeadValue)} (h : Entries l)
    (sub : l'.Sublist l) : Entries l' where
  nodup := h.nodup.sublist (sub.map Prod.fst)
  nonzero x hx := h.nonzero x (sub.subset hx)
  storable x hx := h.storable x (sub.subset hx)

omit holds in
theorem Entries.tail (h : Entries (x :: entries)) : Entries entries where
  nodup := (nodup_cons.mp h.nodup).2
  nonzero y hy := h.nonzero y (mem_cons_of_mem _ hy)
  storable y hy := h.storable y (mem_cons_of_mem _ hy)

theorem clearAll (ok : Entries entries) (empty : ∀ x ∈ entries, x.2.isEmpty) :
    (entries.foldl (fun head x => head.clearKey x.1) head).Holds (f.enterAll entries) ∧
      (entries.foldl (fun head x => head.clearKey x.1) head).slots = head.slots ∧
      (entries.foldl (fun head x => head.clearKey x.1) head).occupied = head.occupied := by
  induction entries generalizing head f with
  | nil => exact ⟨holds, rfl, rfl⟩
  | cons x entries ih =>
    have first := mem_cons_self (a := x) (l := entries)
    obtain ⟨cleared, slots, occupied⟩ := holds.clearKey (ok.nonzero x first) (empty x first)
    obtain ⟨rest, slots', occupied'⟩ := ih cleared ok.tail fun y hy =>
      empty y (mem_cons_of_mem _ hy)
    exact ⟨rest, slots'.trans slots, occupied'.trans occupied⟩

/-- A table of the same size that holds `f'`, with at most `n` more slots in use. -/
structure Grown (head head' : ScriptHashHead) (f' : Words ShHeadKey) (n : Nat) : Prop where
  holds : head'.Holds f'
  slots : head'.slots = head.slots
  occupied : head'.occupied ≤ head.occupied + n

omit holds in
theorem Grown.cons {mid head' : ScriptHashHead} {f₁ f₂ : Words ShHeadKey} {n : Nat}
    (first : Grown head mid f₁ 1) (rest : Grown mid head' f₂ n) : Grown head head' f₂ (n + 1) where
  holds := rest.holds
  slots := rest.slots.trans first.slots
  occupied := by
    have := first.occupied
    have := rest.occupied
    omega

theorem insertOne (nonzero : x.1 ≠ zeroKey) (filled : ¬x.2.isEmpty)
    (room : head.occupied < head.slots) :
    ∃ table' fresh, tryInsert head.table x.1 (word x.2) = some (table', fresh) ∧
      Grown head { head with
        table := table'
        occupied := if fresh then head.occupied + 1 else head.occupied } (f.enter x) 1 := by
  obtain ⟨table', inserted, table, length, count⟩ := holds.table.tryInsert nonzero (word x.2)
    (by rw [← holds.count]; exact room)
  refine ⟨table', _, inserted, ⟨?_, ?_, holds.known, ?_⟩, length, ?_⟩
  · obtain ⟨bits, three, slots⟩ := holds.size
    exact ⟨bits, three, length.trans slots⟩
  · have entered : f.enter x = f.set x.1 (word x.2) := if_neg fun skipped => filled skipped.1
    rw [entered]
    exact table
  · simp only [count, holds.count]
    split_ifs <;> rfl
  · dsimp only
    split_ifs <;> omega

theorem insertLoop (file : List Slot) {cap : Nat} (small : cap < head.slots)
    {work : List (ShHeadKey × ShHeadValue)} (ok : Entries work) (filled : ∀ x ∈ work, ¬x.2.isEmpty)
    (room : head.occupied + work.length ≤ cap) :
    ∃ head', ScriptHashHead.insertLoop file cap work head = (head', .ok ()) ∧
      Grown head head' (f.enterAll work) work.length := by
  induction work generalizing head f with
  | nil => exact ⟨head, rfl, holds, rfl, le_rfl⟩
  | cons x work ih =>
    have first := mem_cons_self (a := x) (l := work)
    rw [length_cons] at room
    obtain ⟨table', fresh, inserted, entered⟩ := holds.insertOne (ok.nonzero x first)
      (filled x first) (by omega)
    have more := entered.occupied
    obtain ⟨head', done, rest⟩ := ih entered.holds (entered.slots ▸ small) ok.tail
      (forall_mem_cons.mp filled).2 (by omega)
    refine ⟨head', ?_, entered.cons rest⟩
    have below : ¬cap ≤ head.occupied := by omega
    simp only [holds.known] at done
    simp only [ScriptHashHead.insertLoop, below, and_false, inserted,
      pack8Bytes_eq (ok.storable _ first), holds.known, and_true]
    exact done

theorem fillLoop (ok : Entries entries) (filled : ∀ x ∈ entries, ¬x.2.isEmpty)
    (room : head.occupied + entries.length ≤ head.slots) :
    ∃ head' : ScriptHashHead, ScriptHashHead.fillLoop entries (head.table, head.occupied) =
        .ok (head'.table, head'.occupied) ∧
      Grown head head' (f.enterAll entries) entries.length := by
  induction entries generalizing head f with
  | nil => exact ⟨head, rfl, holds, rfl, le_rfl⟩
  | cons x entries ih =>
    have first := mem_cons_self (a := x) (l := entries)
    rw [length_cons] at room
    obtain ⟨table', fresh, inserted, entered⟩ := holds.insertOne (ok.nonzero x first)
      (filled x first) (by omega)
    have more := entered.occupied
    obtain ⟨head', done, rest⟩ := ih entered.holds ok.tail
      (forall_mem_cons.mp filled).2 (by rw [entered.slots]; omega)
    refine ⟨head', ?_, entered.cons rest⟩
    simp only [ScriptHashHead.fillLoop, inserted, pack8Bytes_eq (ok.storable _ first), ok_bind]
    exact done

theorem eq_none_of_occupied (zero : head.occupied = 0) : f = fun _ => none := by
  funext k
  cases member : f k with
  | none => rfl
  | some w =>
    obtain ⟨i, shown⟩ := holds.table.entry.mp member
    rw [Probe.cell, Option.bind_eq_some_iff] at shown
    obtain ⟨s, at_i, view⟩ := shown
    have count := holds.count.symm.trans zero
    rw [Probe.occupied, countP_eq_zero] at count
    have := count s (mem_of_getElem? at_i)
    rw [view] at this
    exact absurd rfl this

theorem bulkFillEmpty (ok : Entries entries) (filled : ∀ x ∈ entries, ¬x.2.isEmpty)
    (zero : head.occupied = 0) (room : entries.length ≤ head.slots) :
    ∃ head', head.bulkFillEmpty entries = (head', .ok ()) ∧
      Grown head head' (f.enterAll entries) entries.length := by
  obtain ⟨bits, three, slots⟩ := holds.size
  obtain ⟨table, count⟩ := tableHolds_empty slots
  have blank : ({ head with
      table := replicate head.slots (zeroKey, 0), occupied := 0 } : ScriptHashHead).Holds f := by
    rw [holds.eq_none_of_occupied zero]
    exact ⟨⟨bits, three, by rw [ScriptHashHead.slots, length_replicate, slots]⟩, table,
      holds.known, count.symm⟩
  have length : (replicate head.slots (zeroKey, (0 : UInt64))).length = head.slots :=
    length_replicate ..
  obtain ⟨head', done, rest, slots', occupied⟩ := blank.fillLoop ok filled
    (by rw [zero_add]; exact room.trans_eq length.symm)
  refine ⟨persistOcc { head with
    table := head'.table, occupied := head'.occupied, occKnown := true }, ?_, ?_,
    slots'.trans length, ?_⟩
  · rw [ScriptHashHead.bulkFillEmpty, done]
  · exact ⟨rest.size, rest.table, rfl, rest.count⟩
  · rw [zero]
    exact occupied

omit holds in
theorem sealCap_le (three : 3 ≤ bits) : sealCap (2 ^ bits) ≤ 2 ^ bits * maxLoadNum / maxLoadDen ∧
      2 ^ bits * maxLoadNum / maxLoadDen < 2 ^ bits := by
  have large : 2 ^ bits = 8 ∨ 16 ≤ 2 ^ bits := by
    rcases eq_or_lt_of_le three with rfl | four
    · exact .inl rfl
    · exact .inr (Nat.pow_le_pow_right (n := 2) (by decide) four)
  unfold sealCap maxLoadNum maxLoadDen
  omega

theorem insertUpserts {ups : List (ShHeadKey × ShHeadValue)} (ok : Entries ups)
    (filled : ∀ x ∈ ups, ¬x.2.isEmpty) (room : head.occupied + ups.length ≤ sealCap head.slots) :
    ∃ head', head.insertUpserts ups = (head', .ok ()) ∧
      Grown head head' (f.enterAll ups) ups.length := by
  obtain ⟨bits, three, pow⟩ := holds.size
  have caps := sealCap_le three
  rw [← pow] at caps
  unfold ScriptHashHead.insertUpserts
  by_cases done : ups = []
  · subst done
    exact ⟨head, rfl, holds, rfl, le_rfl⟩
  rw [if_neg (by simpa using done)]
  by_cases zero : head.occupied = 0
  · rw [if_pos ⟨holds.known, zero⟩]
    exact holds.bulkFillEmpty ok filled zero (by omega)
  · rw [if_neg fun h => zero h.2]
    have sorted := mergeSort_perm ups fun x y =>
      decide (primarySlot head.slots x.1 ≤ primarySlot head.slots y.1)
    obtain ⟨head', looped, rest, slots, occupied⟩ := holds.insertLoop head.table caps.2
      (ok.perm sorted.symm) (fun x hx => filled x (sorted.mem_iff.mp hx))
      (by rw [sorted.length_eq]; omega)
    simp only [looped, rest.known]
    rw [enterAll_perm sorted (ok.perm sorted.symm).nodup] at rest
    rw [sorted.length_eq] at occupied
    exact ⟨_, rfl, { rest with }, slots, occupied⟩

/-- A batch that fits is entered as a whole. -/
theorem insertMany (ok : Entries entries)
    (room : head.occupied + entries.length ≤ sealCap head.slots) :
    ∃ head', head.insertMany entries = (head', .ok ()) ∧
      Grown head head' (f.enterAll entries) (entries.filter fun x => !x.2.isEmpty).length := by
  have perm := filter_append_perm (fun x : ShHeadKey × ShHeadValue => x.2.isEmpty) entries
  have clears : Entries (entries.filter fun x => x.2.isEmpty) := ok.sublist filter_sublist
  have upserts : Entries (entries.filter fun x => !x.2.isEmpty) := ok.sublist filter_sublist
  have size := perm.length_eq
  rw [length_append] at size
  obtain ⟨cleared, slots, occupied⟩ := holds.clearAll clears (by simp)
  obtain ⟨head', inserted, rest, slots', occupied'⟩ := cleared.insertUpserts upserts (by simp)
    (by rw [slots, occupied]; omega)
  refine ⟨head', inserted, ?_, slots'.trans slots, occupied ▸ occupied'⟩
  rw [← enterAll_perm perm (ok.perm perm.symm).nodup, enterAll, foldl_append]
  exact rest

theorem mem_slots {k : ShHeadKey} {w : UInt64} :
    (k, w) ∈ (head.table.filter fun s => !isEmptySlot s) ↔ f k = some w := by
  rw [holds.table.entry, mem_filter]
  constructor
  · rintro ⟨member, used⟩
    obtain ⟨i, at_i⟩ := getElem?_of_mem member
    refine ⟨i, ?_⟩
    rw [Probe.cell, at_i]
    exact if_neg (by simpa using used)
  · rintro ⟨i, shown⟩
    rw [Probe.cell, Option.bind_eq_some_iff] at shown
    obtain ⟨s, at_i, view⟩ := shown
    obtain rfl := Slot.view_eq_some view
    refine ⟨mem_of_getElem? at_i, ?_⟩
    by_contra empty
    rw [Slot.view, if_pos (by simpa using empty)] at view
    cases view

theorem slots_nodup : ((head.table.filter fun s => !isEmptySlot s).map Prod.fst).Nodup := by
  rw [Nodup, pairwise_map, pairwise_filter, pairwise_iff_getElem]
  intro i j hi hj lt used_i used_j same
  have shown {i : Nat} (hi : i < head.table.length) (used : !isEmptySlot head.table[i]) :
      Probe.cell Slot.view head.table i = some (head.table[i].1, head.table[i].2) := by
    rw [Probe.cell, getElem?_eq_getElem hi]
    exact if_neg (by simpa using used)
  have at_i := holds.table.probe_member (shown hi used_i)
  have at_j := holds.table.probe_member (shown hj used_j)
  rw [same, at_j, Probe.Spot.hit.injEq] at at_i
  omega

end Holds

end ScriptHashHead

end Rbitcoin.Store
