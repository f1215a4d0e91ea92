import Rbitcoin.Mempool.Packed

/-! What the reader of packed live records allocates. The counts of inputs and outputs are checked,
and every part that is read pays for its own copy. The count of the items of a witness is used as a
capacity before anything is known of it. -/

namespace Rbitcoin.Mempool.Packed

open Bytes Reader Rbitcoin.Store List

/-- The number of witness items that the next input says it has. -/
def vinWitnessCount (s : Bytes) : Option Nat :=
  match (decodeVinHead s).result with
  | .error _ => none
  | .ok (head, rest) =>
    if head.flags &&& vinEmptyWitness ≠ 0 then none
    else
      match (readCompact rest).result with
      | .error _ => none
      | .ok (count, _) => some count

/-- The witness counts of the inputs, up to the first that cannot be read. -/
def witnessCountsFrom : Nat → Bytes → List Nat
  | 0, _ => []
  | n + 1, s =>
    (vinWitnessCount s).toList ++
      match (decodeVin s).result with
      | .error _ => []
      | .ok (_, rest) => witnessCountsFrom n rest

def witnessCounts (buf : Bytes) : List Nat :=
  match (decodeHeader true true buf).result with
  | .error _ => []
  | .ok (h, rest) => witnessCountsFrom h.nIn rest

variable {count credit e : Nat} {s buf : Bytes}

theorem needs_decodeVin (given : vinWitnessCount s = some count) :
    Needs decodeVin s (count * vecSize) := by
  unfold vinWitnessCount at given
  cases head : (decodeVinHead s).result with
  | error _ => simp [head] at given
  | ok read =>
    obtain ⟨h, rest⟩ := read
    simp only [head] at given
    by_cases set : h.flags &&& vinEmptyWitness ≠ 0
    · simp [set] at given
    · rw [if_neg set] at given
      cases sized : (readCompact rest).result with
      | error _ => simp [sized] at given
      | ok read =>
        simp only [sized, Option.some.injEq] at given
        subst given
        refine Needs.after head (Needs.bind ?_ _)
        rw [unlessFlag, if_neg set]
        exact Needs.after sized (Needs.bind (needs_reserve _ _ _) _)

theorem needs_decodeVins {n : Nat} (mem : count ∈ witnessCountsFrom n s) :
    Needs (times decodeVin n) s (count * vecSize) := by
  induction n generalizing s with
  | zero => exact absurd mem not_mem_nil
  | succ n ih =>
    rw [witnessCountsFrom, mem_append] at mem
    obtain first | later := mem
    · exact (needs_decodeVin (Option.mem_toList.mp first)).bind _
    · cases read : (decodeVin s).result with
      | error _ => simp [read] at later
      | ok value =>
        simp only [read] at later
        exact Needs.after read ((ih later).bind _)

theorem needs_decodePackedLive (mem : count ∈ witnessCounts buf) :
    Needs decodePackedLive buf (count * vecSize) := by
  unfold witnessCounts at mem
  cases header : (decodeHeader true true buf).result with
  | error _ => simp [header] at mem
  | ok read =>
    simp only [header] at mem
    exact Needs.after header
      (Needs.afterReserve (Needs.afterReserve ((needs_decodeVins mem).bind _)))

/-! ### What is reserved -/

def price : Nat := 40

/-- The room for inputs and outputs, whose counts are checked. -/
def countedRoom : Nat := maxElements * txInSize + maxElements * vinAuxSize + maxElements * txOutSize

theorem pays_readCompact {d : Nat → Nat} (enough : ∀ n, d n ≤ credit + price) :
    Pays price readCompact s credit d e := by
  refine pays_ofUsed fun v n read => ?_
  cases used : Tx.readCompactSize s with
  | error _ => simp [used] at read
  | ok value =>
    simp only [used, Except.ok.injEq] at read
    rw [read] at used
    obtain ⟨some_read, inside⟩ := Tx.readCompactSize_used used
    refine ⟨inside, le_trans (enough v) (Nat.add_le_add_left ?_ _)⟩
    exact Nat.le_mul_of_pos_right _ some_read

open Pays

theorem pays_readLe {width : Nat} {text : String} (credit : Nat) :
    Pays price (readLe width text) s credit (fun _ => credit) e :=
  keep (pays_takeArr fun _ _ => Nat.le_add_right _ _) fun _ _ => pays_pure le_rfl

theorem pays_unlessFlag {α : Type} {flags mask : UInt8} {value : α} {r : Reader Corrupt α}
    {d : α → Nat} (enough : d value ≤ credit)
    (read : flags &&& mask = 0 → Pays price r s credit d e) :
    Pays price (unlessFlag flags mask value r) s credit d e := by
  unfold unlessFlag
  by_cases clear : flags &&& mask = 0
  · rw [if_neg (not_not.mpr clear)]
    exact read clear
  · rw [if_pos clear]
    exact pays_pure enough

theorem pays_optional {α : Type} {present : Bool} {r : Reader Corrupt α}
    (read : Pays price r s credit (fun _ => credit) e) :
    Pays price (optional present r) s credit (fun _ => credit) e := by
  cases present with
  | false => exact pays_pure le_rfl
  | true => exact read.keep fun _ _ => pays_pure le_rfl

/-- A length and its bytes pay for a copy, a place in a list and a second copy. -/
def itemSurplus (item : Bytes) : Nat := vecSize + ((sized item).length + 4)

theorem itemSurplus_le (item : Bytes) : itemSurplus item ≤ 37 + item.length := by
  have := Tx.compactSize_length_le item.length
  rw [itemSurplus, vecSize, sized, length_append]
  omega

theorem pays_readSized {text : String} : Pays price (readSized text) s 0 itemSurplus e := by
  refine bind (d := fun _ => price) (pays_readCompact fun _ => by omega) fun n _ _ _ => ?_
  refine pays_take fun item length => ?_
  have := itemSurplus_le item
  have twice : 2 * n ≤ price * n := Nat.mul_le_mul_right n (by decide)
  have : price = 40 := rfl
  omega

theorem sum_itemSurplus (items : List Bytes) :
    (items.map itemSurplus).sum = items.length * vecSize + witnessSize items := by
  induction items with
  | nil => rfl
  | cons item items ih =>
    simp only [witnessSize, map_cons, sum_cons, length_cons, ih, itemSurplus, Nat.succ_mul]
    omega

theorem pays_decodeWitness (credit : Nat)
    (owes : ∀ count rest, (readCompact s).result = .ok (count, rest) → count * vecSize ≤ e) :
    Pays price decodeWitness s credit (fun _ => credit) e := by
  refine bind (d := fun _ => credit) (pays_readCompact fun _ => Nat.le_add_right _ _)
    fun count rest k read => ?_
  have owed : count * vecSize ≤ e := owes count rest (by rw [read])
  refine pays_reserve (g := fun items => items.length * vecSize + credit) ?_ ?_ owed
  · have item (s : Bytes) : Pays price (readSized "packed witness") s 0 itemSurplus 0 :=
      pays_readSized
    have items := pays_times item count rest credit
    refine items.bind fun items rest' k' _ => ?_
    refine bind (d := fun _ => items.length * vecSize + credit) (pays_copied ?_)
      fun _ _ _ _ => pays_pure le_rfl
    rw [sum_itemSurplus]
    omega
  · intro items rest' k' ok
    obtain ⟨items', mid, k₁, k₂, read, last, -⟩ := bind_eq_ok ok
    cases last
    rw [length_times read]

theorem pays_decodeVinHead (credit : Nat) :
    Pays price decodeVinHead s credit (fun _ => credit) e := by
  have kept {n : Nat} : credit ≤ credit + n := Nat.le_add_right _ _
  refine keep (pays_takeArr fun _ _ => kept) fun first _ => ?_
  refine keep (pays_rejectIf le_rfl) fun _ _ => ?_
  refine keep (pays_takeArr fun _ _ => kept) fun _ _ => ?_
  refine keep (pays_readCompact fun _ => kept) fun _ _ => ?_
  refine keep (pays_rejectIf le_rfl) fun _ _ => ?_
  refine keep (pays_unlessFlag le_rfl fun _ => pays_readLe credit) fun _ s => ?_
  refine keep (pays_unlessFlag le_rfl fun _ => ?_) fun _ _ => pays_pure le_rfl
  have copy : Pays price (readSized "packed script") s 0 itemSurplus e := pays_readSized
  have script := copy.mono (g := fun _ => 0) (fun _ => Nat.zero_le _) le_rfl credit
  simpa only [zero_add] using script

theorem pays_decodeVinTail {head : VinHead} {witness : List Bytes} (credit : Nat) :
    Pays price (decodeVinTail head witness) s credit (fun _ => credit) e := by
  refine keep (pays_optional (pays_readLe credit)) fun _ _ => ?_
  refine keep (pays_optional (pays_takeArr fun _ _ => Nat.le_add_right _ _))
    fun _ _ => pays_pure le_rfl

theorem pays_decodeVin (credit : Nat)
    (owes : ∀ count, vinWitnessCount s = some count → count * vecSize ≤ e) :
    Pays price decodeVin s credit (fun _ => credit) e := by
  refine (pays_decodeVinHead credit).bind fun head rest k read => ?_
  have read' : (decodeVinHead s).result = .ok (head, rest) := by rw [read]
  refine keep ?_ fun _ _ => pays_decodeVinTail credit
  refine pays_unlessFlag le_rfl fun clear => ?_
  refine pays_decodeWitness credit fun count rest' counted => owes count ?_
  simp [vinWitnessCount, read', clear, counted]

theorem pays_decodeVins {n : Nat} (credit : Nat)
    (owes : ∀ count ∈ witnessCountsFrom n s, count * vecSize ≤ e) :
    Pays price (times decodeVin n) s credit (fun _ => credit) e := by
  induction n generalizing s with
  | zero => exact pays_pure le_rfl
  | succ n ih =>
    simp only [witnessCountsFrom, mem_append] at owes
    have first : Pays price decodeVin s credit (fun _ => credit) e :=
      pays_decodeVin credit fun count given => owes count (.inl (Option.mem_toList.mpr given))
    refine first.bind fun vin rest k read => ?_
    have read' : (decodeVin s).result = .ok (vin, rest) := by rw [read]
    simp only [read'] at owes
    exact (ih fun count mem => owes count (.inr mem)).keep fun _ _ => pays_pure le_rfl

theorem pays_decodeVout : Pays price decodeVout s 0 (fun _ => 0) e := by
  refine bind (d := fun out => out.script.length) (pays_ofUsed fun out n read => ?_)
    fun out _ _ _ => ?_
  · cases used : OutputRecord.decodeAt s with
    | error _ => simp [used] at read
    | ok value =>
      simp only [used, Except.ok.injEq] at read
      rw [read] at used
      obtain ⟨two, inside, short⟩ := OutputRecord.decodeAt_used used
      have price_eq : price = 40 := rfl
      rw [price_eq]
      omega
  · exact bind (d := fun _ => 0) (pays_copied le_rfl) fun _ _ _ _ =>
      pays_pure le_rfl

theorem pays_decodeHeader (credit : Nat) :
    Pays price (decodeHeader true true) s credit (fun _ => credit) e := by
  have kept {n : Nat} : credit ≤ credit + n := Nat.le_add_right _ _
  have le8 {s : Bytes} : Pays price (readLe 8 "packed live short") s credit (fun _ => credit) e :=
    pays_readLe credit
  have le4 {s : Bytes} : Pays price (readLe 4 "packed short") s credit (fun _ => credit) e :=
    pays_readLe credit
  have hash {s : Bytes} : Pays price (takeArr 32 (⟨"packed live short"⟩ : Corrupt)) s credit
      (fun _ => credit) e := pays_takeArr fun _ _ => kept
  have compact {s : Bytes} : Pays price readCompact s credit (fun _ => credit) e :=
    pays_readCompact fun _ => kept
  refine keep (pays_atLeast le_rfl) fun _ _ => ?_
  refine le8.keep fun _ _ => le8.keep fun _ _ => ?_
  refine (pays_optional le8).keep fun _ _ => (pays_optional le8).keep fun _ _ => ?_
  refine hash.keep fun _ _ => hash.keep fun _ _ => ?_
  refine le4.keep fun _ _ => le4.keep fun _ _ => ?_
  refine compact.keep fun _ _ => compact.keep fun _ _ => ?_
  exact keep (pays_rejectIf le_rfl) fun _ _ => pays_pure le_rfl

theorem ensures_decodeHeader (hasSigops hasAccept : Bool) :
    Ensures (decodeHeader hasSigops hasAccept)
      fun h => h.nIn ≤ maxElements ∧ h.nOut ≤ maxElements := by
  refine ensures_bind fun _ => ensures_bind fun _ => ensures_bind fun _ => ensures_bind fun _ => ?_
  refine ensures_bind fun _ => ensures_bind fun _ => ensures_bind fun _ => ensures_bind fun _ => ?_
  refine ensures_bind fun _ => ensures_bind fun _ => ensures_bind fun _ => ?_
  refine ensures_rejectIf fun few => ensures_pure ?_
  exact ⟨not_lt.mp fun many => few (.inl many), not_lt.mp fun many => few (.inr many)⟩

theorem pays_decodePackedLive (owes : ∀ count ∈ witnessCounts buf, count * vecSize ≤ e) :
    Pays price decodePackedLive buf countedRoom (fun _ => 0) e := by
  refine (pays_decodeHeader countedRoom).bind fun h rest k read => ?_
  have read' : (decodeHeader true true buf).result = .ok (h, rest) := by rw [read]
  simp only [witnessCounts, read'] at owes
  obtain ⟨fewIn, fewOut⟩ := ensures_decodeHeader true true _ h rest k read
  have room {n : Nat} (few : n ≤ maxElements) (size : Nat) : n * size ≤ maxElements * size :=
    Nat.mul_le_mul_right size few
  have ins := room fewIn txInSize
  have auxs := room fewIn vinAuxSize
  have outs := room fewOut txOutSize
  refine pays_reserve_credit (maxElements * vinAuxSize + maxElements * txOutSize)
    (le_trans ins (by decide)) (by rw [countedRoom]; omega) ?_
  refine pays_reserve_credit (maxElements * txOutSize) (le_trans auxs (by decide)) (by omega) ?_
  refine (pays_decodeVins _ owes).bind fun _ s _ _ => ?_
  refine pays_reserve_credit 0 (le_trans outs (by decide)) (by omega) ?_
  have outputs : Pays price (times decodeVout h.nOut) s 0 (fun _ => 0) e :=
    (pays_times (fun _ => pays_decodeVout) h.nOut s 0).mono (fun _ => Nat.zero_le _)
      (Nat.zero_le _) 0
  exact outputs.keep fun _ _ => keep (pays_atEnd le_rfl) fun _ _ => pays_pure le_rfl

/-- The record is read back as it was written, with a sigop cost above the block limit unknown. -/
def ReadBack (tx : Tx.Transaction) (txid wtxid : Bytes) (feeSat weight : UInt64)
    (sigopCost : Option UInt64) (acceptSecs : UInt64) (vins : List VinAux) : Prop :=
  ∃ buf, encodePackedLive tx txid wtxid feeSat weight sigopCost acceptSecs vins = .ok buf ∧
    (decodePackedLive buf).result = .ok (⟨feeSat, weight,
      sigopCost.filter (· ≤ maxBlockSigopsCost), acceptSecs, txid, wtxid, tx, vins⟩, [])

/-- Reading does not panic and allocates at most a constant factor of the length. -/
def Frugal (factor : Nat) (buf : Bytes) : Prop :=
  (decodePackedLive buf).result ≠ .error .panic ∧
    (decodePackedLive buf).reserved ≤ factor * buf.length

/-- No witness count is larger than a constant factor of the length or than a list can be. -/
def CountsBounded (factor : Nat) (buf : Bytes) : Prop :=
  ∀ count ∈ witnessCounts buf, count ≤ factor * buf.length ∧ count * vecSize ≤ isizeMax

theorem Frugal.countsBounded {factor : Nat} (frugal : Frugal factor buf) :
    CountsBounded factor buf := by
  intro count mem
  obtain ⟨reserved, fits⟩ := needs_decodePackedLive mem frugal.1
  have more : count ≤ count * vecSize := Nat.le_mul_of_pos_right _ (by decide)
  exact ⟨le_trans more (le_trans reserved frugal.2), fits⟩

theorem CountsBounded.frugal {factor : Nat} (bounded : CountsBounded factor buf) :
    Frugal (price + countedRoom + factor * vecSize) buf := by
  cases buf with
  | nil => exact ⟨nofun, Nat.zero_le _⟩
  | cons b buf =>
    generalize whole : b :: buf = s at bounded ⊢
    have long : 1 ≤ s.length := by rw [← whole, length_cons]; omega
    have owes : ∀ count ∈ witnessCounts s,
        count * vecSize ≤ min (factor * s.length * vecSize) isizeMax := fun count mem =>
      Nat.le_min.mpr ⟨Nat.mul_le_mul_right _ (bounded count mem).1, (bounded count mem).2⟩
    have pays := pays_decodePackedLive owes
    unfold Pays at pays
    have room : countedRoom ≤ countedRoom * s.length := Nat.le_mul_of_pos_right _ long
    have spread : (price + countedRoom + factor * vecSize) * s.length =
        price * s.length + countedRoom * s.length + factor * s.length * vecSize := by ring
    unfold Frugal
    generalize decodePackedLive s = x at pays ⊢
    rcases x with ⟨⟨h⟩ | ⟨live, rest⟩, k⟩
    · refine ⟨fun panic => ?_, le_trans pays.1 (by omega)⟩
      cases panic
      exact absurd (pays.2 rfl) (not_lt.mpr (min_le_right _ _))
    · change k + 0 + price * rest.length ≤ price * s.length + countedRoom at pays
      exact ⟨nofun, by change k ≤ _; omega⟩

theorem readBack_iff {tx : Tx.Transaction} {txid wtxid : Bytes} {vins : List VinAux}
    (fits : Fits tx txid wtxid vins) (feeSat weight : UInt64) (sigopCost : Option UInt64)
    (acceptSecs : UInt64) :
    ReadBack tx txid wtxid feeSat weight sigopCost acceptSecs vins ↔
      vins.map VinAux.outpoint = tx.input.map (·.previousOutput) ∧
        ∀ o ∈ tx.output, o.value.toNat ≤ i64Max := by
  by_cases counted : vins.length ≠ tx.input.length ∧ vins ≠ []
  · constructor
    · rintro ⟨buf, written, -⟩
      rw [encodePackedLive, if_pos counted] at written
      cases written
    · rintro ⟨same, -⟩
      have lengths := congrArg length same
      rw [length_map, length_map] at lengths
      exact absurd lengths counted.1
  · obtain ⟨buf, written, read⟩ :=
      decodePackedLive_encodePackedLive fits feeSat weight sigopCost acceptSecs counted
    by_cases amounts : ∀ o ∈ tx.output, o.value.toNat ≤ i64Max
    · rw [if_pos amounts] at read
      rw [and_iff_left amounts, ← auxsOf_eq_iff]
      constructor
      · rintro ⟨buf', written', read'⟩
        rw [written] at written'
        cases written'
        rw [read] at read'
        simpa using read'
      · intro same
        rw [same] at read
        exact ⟨buf, written, read⟩
    · rw [if_neg amounts] at read
      refine iff_of_false ?_ fun ⟨_, all⟩ => amounts all
      rintro ⟨buf', written', read'⟩
      rw [written] at written'
      cases written'
      rw [read] at read'
      cases read'

/-- A record is read back exactly when its auxiliary data names the outpoints of the inputs and no
amount is above `i64::MAX`. Reading takes no more than a constant factor of the length, for any
family of byte strings, exactly when the witness counts in them take no more. -/
theorem packed_live_round_trip_and_cost (tx : Tx.Transaction) (txid wtxid : Bytes)
    (feeSat weight : UInt64) (sigopCost : Option UInt64) (acceptSecs : UInt64)
    (vins : List VinAux) (fits : Fits tx txid wtxid vins) (family : Set Bytes) :
    (ReadBack tx txid wtxid feeSat weight sigopCost acceptSecs vins ↔
        vins.map VinAux.outpoint = tx.input.map (·.previousOutput) ∧
          ∀ o ∈ tx.output, o.value.toNat ≤ i64Max) ∧
      ((∃ factor, ∀ buf ∈ family, Frugal factor buf) ↔
        ∃ factor, ∀ buf ∈ family, CountsBounded factor buf) := by
  refine ⟨readBack_iff fits feeSat weight sigopCost acceptSecs, ?_, ?_⟩
  · rintro ⟨factor, frugal⟩
    exact ⟨factor, fun buf mem => (frugal buf mem).countsBounded⟩
  · rintro ⟨factor, bounded⟩
    exact ⟨_, fun buf mem => (bounded buf mem).frugal⟩

/-- One input with a witness and one output. -/
def smallTx : Tx.Transaction :=
  ⟨2, 0, [⟨⟨replicate 32 7, 1⟩, [0x51], 5, [[1, 2], []]⟩], [⟨5000, [0x6a]⟩]⟩

def smallVins : List VinAux := [⟨replicate 32 7, 1, some (replicate 32 9), some 3⟩]

theorem smallTx_fits : Fits smallTx (replicate 32 1) (replicate 32 2) smallVins where
  inputs := by decide
  outputs := by decide
  vin := by
    intro inp mem
    cases mem_singleton.mp mem
    exact ⟨by decide, by decide, by decide, by decide⟩
  script := by decide
  txid := by decide
  wtxid := by decide
  hash := by
    intro aux mem h given
    cases mem_singleton.mp mem
    cases given
    decide

theorem smallTx_read_back :
    ReadBack smallTx (replicate 32 1) (replicate 32 2) 300 400 (some 80001) 1700000000
      smallVins :=
  (packed_live_round_trip_and_cost smallTx _ _ 300 400 (some 80001) 1700000000 smallVins
    smallTx_fits ∅).1.mpr (by decide)

/-- A record of one input whose witness says that it has `2 ^ 60` items. -/
def hugeWitness : Bytes :=
  replicate 104 0 ++ [1, 0] ++ [vinSeqFinal ||| vinEmptyScript] ++ replicate 32 0 ++
    [0] ++ [255] ++ toLe 8 (2 ^ 60)

theorem hugeWitness_panics :
    hugeWitness.length = 149 ∧ (decodePackedLive hugeWitness).result = .error .panic ∧
      ¬∃ factor, ∀ buf, Frugal factor buf := by
  have panics : (decodePackedLive hugeWitness).result = .error .panic := by decide +kernel
  exact ⟨by decide +kernel, panics, fun ⟨factor, frugal⟩ => (frugal hugeWitness).1 panics⟩

end Rbitcoin.Mempool.Packed
