import Rbitcoin.Store.OutputRecord

/-! Packed live records: one admitted transaction with its fee, weight, sigop cost, accept time and
what is known of its inputs. Counts are read from a file that may be torn. -/

namespace Rbitcoin.Mempool.Packed

open Bytes Reader Rbitcoin.Store List UInt64 Option OutputRecord

/-- `MempoolError::Corrupt`. -/
structure Corrupt where
  text : String
  deriving DecidableEq, Repr

def vinSeqFinal : UInt8 := 1
def vinEmptyScript : UInt8 := 2
def vinEmptyWitness : UInt8 := 4
def vinHasCreateFk : UInt8 := 8
def vinHasScriptHash : UInt8 := 16
def vinReserved : UInt8 := 0xe0

def sigopCostUnknown : UInt64 := 0xffffffffffffffff
def maxBlockSigopsCost : UInt64 := 80000
def sequenceMax : UInt32 := 0xffffffff
def maxElements : Nat := 100000

/-- What is known of an input beside the transaction. -/
structure VinAux where
  prevTxid : Bytes
  vout : UInt32
  scriptHash : Option Bytes
  createFk : Option UInt64
  deriving DecidableEq, Repr

/-- A live transaction as it is stored. -/
structure PackedLive where
  feeSat : UInt64
  weight : UInt64
  sigopCost : Option UInt64
  acceptSecs : UInt64
  txid : Bytes
  wtxid : Bytes
  tx : Tx.Transaction
  vins : List VinAux
  deriving DecidableEq, Repr

def flagIf (set : Bool) (mask : UInt8) : UInt8 := if set then mask else 0

variable (inp : Tx.TxIn) (aux : Option VinAux)

def vinFlags : UInt8 :=
  flagIf (inp.sequence = sequenceMax) vinSeqFinal |||
    flagIf inp.scriptSig.isEmpty vinEmptyScript |||
    flagIf inp.witness.isEmpty vinEmptyWitness |||
    flagIf (aux.any (·.createFk.isSome)) vinHasCreateFk |||
    flagIf (aux.any (·.scriptHash.isSome)) vinHasScriptHash

def sized (b : Bytes) : Bytes := Tx.compactSize b.length ++ b

def encodeVin : Bytes :=
  let flags := vinFlags inp aux
  [flags] ++ (inp.previousOutput.txid ++ (Tx.compactSize inp.previousOutput.vout.toNat ++
    ((if flags &&& vinSeqFinal = 0 then toLe 4 inp.sequence.toNat else []) ++
    ((if flags &&& vinEmptyScript = 0 then sized inp.scriptSig else []) ++
    ((if flags &&& vinEmptyWitness = 0 then
        Tx.compactSize inp.witness.length ++ inp.witness.flatMap sized else []) ++
    (((aux.bind (·.createFk)).elim [] fun fk => toLe 8 fk.toNat) ++
      (aux.bind (·.scriptHash)).elim [] id))))))

def encodeVins : List Tx.TxIn → List VinAux → Bytes
  | [], _ => []
  | inp :: inps, vins => encodeVin inp vins.head? ++ encodeVins inps vins.tail

def encodeVout (o : Tx.TxOut) : Bytes :=
  encodeUnspentInto o.value.toNat o.scriptPubkey

def encodePackedLive (tx : Tx.Transaction) (txid wtxid : Bytes) (feeSat weight : UInt64)
    (sigopCost : Option UInt64) (acceptSecs : UInt64) (vins : List VinAux) :
    Except Corrupt Bytes :=
  if vins.length ≠ tx.input.length ∧ vins ≠ [] then .error ⟨"vin aux count"⟩
  else
    .ok ((toLe 8 feeSat.toNat ++ (toLe 8 weight.toNat ++
      (toLe 8 (sigopCost.getD sigopCostUnknown).toNat ++ (toLe 8 acceptSecs.toNat ++
      (txid ++ (wtxid ++ (toLe 4 tx.version.toNat ++ (toLe 4 tx.lockTime.toNat ++
      (Tx.compactSize tx.input.length ++ Tx.compactSize tx.output.length))))))))) ++
      (encodeVins tx.input vins ++ tx.output.flatMap encodeVout))

def readCompact : Reader Corrupt Nat :=
  ofUsed fun s =>
    match Tx.readCompactSize s with
    | .ok read => .ok read
    | .error e => .error ⟨e.text⟩

def readSized (text : String) : Reader Corrupt Bytes := do
  let len ← readCompact
  take len ⟨text⟩

def readLe (width : Nat) (text : String) : Reader Corrupt Nat := do
  let bytes ← takeArr width ⟨text⟩
  pure (ofLe bytes)

def optional {α : Type} (present : Bool) (r : Reader Corrupt α) : Reader Corrupt (Option α) :=
  if present then some <$> r else pure none

/-- A part that is left out when its flag is set. -/
def unlessFlag {α : Type} (flags mask : UInt8) (value : α) (r : Reader Corrupt α) :
    Reader Corrupt α :=
  if flags &&& mask ≠ 0 then pure value else r

/-- What comes before the witness of an input. -/
structure VinHead where
  flags : UInt8
  prevTxid : Bytes
  vout : UInt32
  sequence : UInt32
  scriptSig : Bytes

def decodeVinHead : Reader Corrupt VinHead := do
  let first ← takeArr 1 ⟨"packed vin short"⟩
  let flags := first.headD 0
  rejectIf (flags &&& vinReserved ≠ 0) ⟨"packed vin flags"⟩
  let prevTxid ← takeArr 32 ⟨"packed short"⟩
  let vout ← readCompact
  rejectIf (2 ^ 32 ≤ vout) ⟨"packed vout"⟩
  let sequence ← unlessFlag flags vinSeqFinal sequenceMax.toNat (readLe 4 "packed short")
  let scriptSig ← unlessFlag flags vinEmptyScript [] (readSized "packed script")
  pure ⟨flags, prevTxid, UInt32.ofNat vout, UInt32.ofNat sequence, scriptSig⟩

/-- The size of a `Vec<u8>`: pointer, capacity and length. -/
def vecSize : Nat := 24
def txInSize : Nat := 104
def vinAuxSize : Nat := 88
def txOutSize : Nat := 32

/-- What `Witness::from_slice` takes: the items with their sizes, and an index of four bytes each.
-/
def witnessSize (items : List Bytes) : Nat := (items.map fun item => (sized item).length + 4).sum

def decodeWitness : Reader Corrupt (List Bytes) := do
  let count ← readCompact
  -- the count is used before anything is known of it
  reserve count vecSize
  let items ← times (readSized "packed witness") count
  copied (witnessSize items)
  pure items

def decodeVinTail (head : VinHead) (witness : List Bytes) : Reader Corrupt (Tx.TxIn × VinAux) := do
  let createFk ← optional (head.flags &&& vinHasCreateFk ≠ 0) (readLe 8 "packed short")
  let scriptHash ← optional (head.flags &&& vinHasScriptHash ≠ 0) (takeArr 32 ⟨"packed short"⟩)
  pure (⟨⟨head.prevTxid, head.vout⟩, head.scriptSig, head.sequence, witness⟩,
    ⟨head.prevTxid, head.vout, scriptHash, createFk.map ofNat⟩)

def decodeVin : Reader Corrupt (Tx.TxIn × VinAux) := do
  let head ← decodeVinHead
  let witness ← unlessFlag head.flags vinEmptyWitness [] decodeWitness
  decodeVinTail head witness

def decodeVout : Reader Corrupt Tx.TxOut := do
  let out ← ofUsed fun s =>
    match decodeAt s with
    | .ok read => .ok read
    | .error _ => .error ⟨"packed vout"⟩
  copied out.script.length
  pure ⟨ofNat out.value, out.script⟩

/-- A record up to its inputs. -/
structure Header where
  feeSat : Nat
  weight : Nat
  sigopCost : Option Nat
  acceptSecs : Nat
  txid : Bytes
  wtxid : Bytes
  version : Nat
  lockTime : Nat
  nIn : Nat
  nOut : Nat

def decodeHeader (hasSigops hasAccept : Bool) : Reader Corrupt Header := do
  let ids := 16 + (if hasSigops then 8 else 0) + (if hasAccept then 8 else 0)
  atLeast (ids + 32 + 32 + 8) ⟨"packed live short"⟩
  let feeSat ← readLe 8 "packed live short"
  let weight ← readLe 8 "packed live short"
  let sigopCost ← optional hasSigops (readLe 8 "packed live short")
  let acceptSecs ← optional hasAccept (readLe 8 "packed live short")
  let txid ← takeArr 32 ⟨"packed live short"⟩
  let wtxid ← takeArr 32 ⟨"packed live short"⟩
  let version ← readLe 4 "packed short"
  let lockTime ← readLe 4 "packed short"
  let nIn ← readCompact
  let nOut ← readCompact
  rejectIf (maxElements < nIn ∨ maxElements < nOut) ⟨"packed live counts"⟩
  -- a cost above the block limit is unknown
  pure ⟨feeSat, weight, sigopCost.filter (· ≤ maxBlockSigopsCost.toNat), acceptSecs.getD 0, txid,
    wtxid, version, lockTime, nIn, nOut⟩

def decodeBody (h : Header) : Reader Corrupt PackedLive := do
  reserve h.nIn txInSize
  reserve h.nIn vinAuxSize
  let vins ← times decodeVin h.nIn
  reserve h.nOut txOutSize
  let output ← times decodeVout h.nOut
  atEnd ⟨"packed live trailing"⟩
  pure ⟨ofNat h.feeSat, ofNat h.weight, h.sigopCost.map ofNat,
    ofNat h.acceptSecs, h.txid, h.wtxid,
    ⟨UInt32.ofNat h.version, UInt32.ofNat h.lockTime, vins.map (·.1), output⟩, vins.map (·.2)⟩

def decodePacked (hasSigops hasAccept : Bool) : Reader Corrupt PackedLive := do
  let h ← decodeHeader hasSigops hasAccept
  decodeBody h

def decodePackedLive : Reader Corrupt PackedLive := decodePacked true true

/-! ### Records are read back -/

theorem inverts_readCompact {n : Nat} (small : n < 2 ^ 64) :
    Inverts readCompact (Tx.compactSize n) n := by
  refine inverts_ofUsed fun rest => ?_
  rw [Tx.readCompactSize_compactSize small]

theorem inverts_readSized {b : Bytes} (text : String) (small : b.length < 2 ^ 64) :
    Inverts (readSized text) (sized b) b :=
  (inverts_readCompact small).bind (inverts_take rfl _)

theorem inverts_readLe {width n : Nat} (text : String) (small : n < 256 ^ width) :
    Inverts (readLe width text) (toLe width n) n := by
  refine (inverts_takeArr (toLe_length width n) _).last ?_
  rw [ofLe_toLe_of_lt small]
  exact inverts_pure n

theorem flags_read (a b c d e : Bool) :
    let flags := flagIf a vinSeqFinal ||| flagIf b vinEmptyScript ||| flagIf c vinEmptyWitness |||
      flagIf d vinHasCreateFk ||| flagIf e vinHasScriptHash
    flags &&& vinReserved = 0 ∧ (flags &&& vinSeqFinal = 0 ↔ a = false) ∧
      (flags &&& vinEmptyScript = 0 ↔ b = false) ∧ (flags &&& vinEmptyWitness = 0 ↔ c = false) ∧
      (flags &&& vinHasCreateFk = 0 ↔ d = false) ∧
        (flags &&& vinHasScriptHash = 0 ↔ e = false) := by
  revert a b c d e
  decide

theorem vinFlags_read : vinFlags inp aux &&& vinReserved = 0 ∧
      (vinFlags inp aux &&& vinSeqFinal = 0 ↔ inp.sequence ≠ sequenceMax) ∧
      (vinFlags inp aux &&& vinEmptyScript = 0 ↔ inp.scriptSig.isEmpty = false) ∧
      (vinFlags inp aux &&& vinEmptyWitness = 0 ↔ inp.witness.isEmpty = false) ∧
      (vinFlags inp aux &&& vinHasCreateFk = 0 ↔ aux.any (·.createFk.isSome) = false) ∧
      (vinFlags inp aux &&& vinHasScriptHash = 0 ↔ aux.any (·.scriptHash.isSome) = false) := by
  rw [Ne, ← decide_eq_false_iff_not]
  exact flags_read ..

/-- An input that fits in memory. -/
structure FitsVin (inp : Tx.TxIn) : Prop where
  txid : inp.previousOutput.txid.length = 32
  script : inp.scriptSig.length < 2 ^ 64
  items : ∀ item ∈ inp.witness, item.length < 2 ^ 64
  witness : inp.witness.length * vecSize ≤ isizeMax

/-- What is read back of an input: its own outpoint, and what was known of it. -/
def auxOf : VinAux :=
  ⟨inp.previousOutput.txid, inp.previousOutput.vout, aux.bind (·.scriptHash),
    aux.bind (·.createFk)⟩

theorem inverts_unlessFlag {α : Type} {flags mask : UInt8} {value a : α} {r : Reader Corrupt α}
    {enc : Bytes} (left : flags &&& mask ≠ 0 → a = value) (written : Inverts r enc a) :
    Inverts (unlessFlag flags mask value r) (if flags &&& mask = 0 then enc else []) a := by
  unfold unlessFlag
  by_cases clear : flags &&& mask = 0
  · rw [if_neg (not_not.mpr clear), if_pos clear]
    exact written
  · rw [if_pos clear, if_neg clear, left clear]
    exact inverts_pure value

theorem inverts_optional {α : Type} {present : Bool} {a : Option α} {r : Reader Corrupt α}
    {enc : α → Bytes} (given : present = a.isSome)
    (written : ∀ x, a = some x → Inverts r (enc x) x) :
    Inverts (optional present r) (a.elim [] enc) a := by
  subst given
  cases a with
  | none => exact inverts_pure none
  | some x => exact (written x rfl).map some

theorem flag_isSome {α : Type} {aux : Option VinAux} {f : VinAux → Option α} {x : UInt8}
    (read : x = 0 ↔ aux.any (fun a => (f a).isSome) = false) :
    decide (x ≠ 0) = (aux.bind f).isSome := by
  have same : aux.any (fun a => (f a).isSome) = (aux.bind f).isSome := by cases aux <;> rfl
  rw [same] at read
  cases given : (aux.bind f).isSome with
  | false => simp [read, given]
  | true => simp [read, given]

section Vin

variable {inp : Tx.TxIn} {aux : Option VinAux}

theorem inverts_decodeWitness (fits : FitsVin inp) :
    Inverts decodeWitness (Tx.compactSize inp.witness.length ++ inp.witness.flatMap sized)
      inp.witness := by
  have count : inp.witness.length < 2 ^ 64 := by
    have := fits.witness
    simp only [vecSize, isizeMax] at this
    omega
  have items : Inverts (times (readSized "packed witness") inp.witness.length)
      (inp.witness.flatMap sized) inp.witness :=
    inverts_times fun item mem => inverts_readSized _ (fits.items item mem)
  exact (inverts_readCompact count).bind ((inverts_reserve fits.witness).then
    (items.last ((inverts_copied _).then (inverts_pure _))))

def headOf (inp : Tx.TxIn) (aux : Option VinAux) : VinHead :=
  ⟨vinFlags inp aux, inp.previousOutput.txid, inp.previousOutput.vout, inp.sequence, inp.scriptSig⟩

def encodeVinHead (inp : Tx.TxIn) (aux : Option VinAux) : Bytes :=
  [vinFlags inp aux] ++ (inp.previousOutput.txid ++
    (Tx.compactSize inp.previousOutput.vout.toNat ++
    ((if vinFlags inp aux &&& vinSeqFinal = 0 then toLe 4 inp.sequence.toNat else []) ++
    (if vinFlags inp aux &&& vinEmptyScript = 0 then sized inp.scriptSig else []))))

theorem inverts_decodeVinHead (fits : FitsVin inp) :
    Inverts decodeVinHead (encodeVinHead inp aux) (headOf inp aux) := by
  obtain ⟨reserved, final, script, -⟩ := vinFlags_read inp aux
  have vout : inp.previousOutput.vout.toNat < 2 ^ 32 := UInt32.toNat_lt _
  have wide : inp.previousOutput.vout.toNat < 2 ^ 64 := by omega
  have sequence : Inverts
      (unlessFlag (vinFlags inp aux) vinSeqFinal sequenceMax.toNat (readLe 4 "packed short"))
      (if vinFlags inp aux &&& vinSeqFinal = 0 then toLe 4 inp.sequence.toNat else [])
      inp.sequence.toNat := by
    refine inverts_unlessFlag (fun set => ?_) (inverts_readLe _ (UInt32.toNat_lt _))
    have isFinal : inp.sequence = sequenceMax := by simpa [final] using set
    rw [isFinal]
  have scriptSig : Inverts
      (unlessFlag (vinFlags inp aux) vinEmptyScript [] (readSized "packed script"))
      (if vinFlags inp aux &&& vinEmptyScript = 0 then sized inp.scriptSig else [])
      inp.scriptSig := by
    refine inverts_unlessFlag (fun set => ?_) (inverts_readSized _ fits.script)
    simpa [script] using set
  have built : Inverts (pure ⟨vinFlags inp aux, inp.previousOutput.txid,
      UInt32.ofNat inp.previousOutput.vout.toNat, UInt32.ofNat inp.sequence.toNat,
      inp.scriptSig⟩ : Reader Corrupt VinHead) [] (headOf inp aux) := by
    rw [UInt32.ofNat_toNat, UInt32.ofNat_toNat]
    exact inverts_pure _
  have flags : Inverts (takeArr 1 (⟨"packed vin short"⟩ : Corrupt)) [vinFlags inp aux]
      [vinFlags inp aux] :=
    inverts_takeArr length_singleton _
  refine Inverts.bind flags ?_
  refine Inverts.then (inverts_rejectIf (not_not.mpr reserved) _) ?_
  refine Inverts.bind (inverts_takeArr fits.txid _) ?_
  refine Inverts.bind (inverts_readCompact wide) ?_
  refine Inverts.then (inverts_rejectIf (not_le.mpr vout) _) ?_
  exact Inverts.bind sequence (Inverts.last scriptSig built)

def encodeVinTail (aux : Option VinAux) : Bytes :=
  ((aux.bind (·.createFk)).elim [] fun fk => toLe 8 fk.toNat) ++
    (aux.bind (·.scriptHash)).elim [] id

theorem inverts_decodeVinTail (hashes : ∀ h, aux.bind (·.scriptHash) = some h → h.length = 32) :
    Inverts (decodeVinTail (headOf inp aux) inp.witness) (encodeVinTail aux)
      (inp, auxOf inp aux) := by
  obtain ⟨-, -, -, -, fk, hash⟩ := vinFlags_read inp aux
  have createFk : Inverts
      (optional (vinFlags inp aux &&& vinHasCreateFk ≠ 0) (readLe 8 "packed short"))
      ((aux.bind (·.createFk)).elim [] fun fk => toLe 8 fk.toNat)
      ((aux.bind (·.createFk)).map (·.toNat)) := by
    have written : ((aux.bind (·.createFk)).elim [] fun fk => toLe 8 fk.toNat) =
        ((aux.bind (·.createFk)).map (·.toNat)).elim [] (toLe 8) := by
      cases aux.bind (·.createFk) <;> rfl
    rw [written]
    refine inverts_optional ?_ fun n given => inverts_readLe _ ?_
    · rw [isSome_map]
      exact flag_isSome fk
    · obtain ⟨k, -, rfl⟩ := map_eq_some_iff.mp given
      exact toNat_lt k
  have scriptHash : Inverts
      (optional (vinFlags inp aux &&& vinHasScriptHash ≠ 0) (takeArr 32 ⟨"packed short"⟩))
      ((aux.bind (·.scriptHash)).elim [] id) (aux.bind (·.scriptHash)) := by
    exact inverts_optional (flag_isSome hash) fun h given => inverts_takeArr (hashes h given) _
  have built : Inverts (pure ((⟨⟨inp.previousOutput.txid, inp.previousOutput.vout⟩, inp.scriptSig,
        inp.sequence, inp.witness⟩ : Tx.TxIn),
      (⟨inp.previousOutput.txid, inp.previousOutput.vout, aux.bind (·.scriptHash),
        ((aux.bind (·.createFk)).map (·.toNat)).map ofNat⟩ : VinAux)) :
      Reader Corrupt (Tx.TxIn × VinAux)) [] (inp, auxOf inp aux) := by
    have same : ((aux.bind (·.createFk)).map (·.toNat)).map ofNat =
        aux.bind (·.createFk) := by
      cases aux.bind (·.createFk) <;> simp
    rw [same]
    exact inverts_pure _
  exact Inverts.bind createFk (Inverts.last scriptHash built)

theorem inverts_decodeVin (fits : FitsVin inp)
    (hashes : ∀ h, aux.bind (·.scriptHash) = some h → h.length = 32) :
    Inverts decodeVin (encodeVin inp aux) (inp, auxOf inp aux) := by
  obtain ⟨-, -, -, empty, -⟩ := vinFlags_read inp aux
  have witness : Inverts (unlessFlag (vinFlags inp aux) vinEmptyWitness [] decodeWitness)
      (if vinFlags inp aux &&& vinEmptyWitness = 0 then
        Tx.compactSize inp.witness.length ++ inp.witness.flatMap sized else []) inp.witness := by
    refine inverts_unlessFlag (fun set => ?_) (inverts_decodeWitness fits)
    simpa [empty] using set
  have parts : encodeVin inp aux = encodeVinHead inp aux ++
      ((if vinFlags inp aux &&& vinEmptyWitness = 0 then
        Tx.compactSize inp.witness.length ++ inp.witness.flatMap sized else []) ++
        encodeVinTail aux) := by
    simp only [encodeVin, encodeVinHead, encodeVinTail, append_assoc]
  rw [parts]
  exact Inverts.bind (inverts_decodeVinHead fits)
    (Inverts.bind witness (inverts_decodeVinTail hashes))

end Vin

/-- The values of the arguments are those that the types of the source have. -/
structure Fits (tx : Tx.Transaction) (txid wtxid : Bytes) (vins : List VinAux) : Prop where
  inputs : tx.input.length ≤ maxElements
  outputs : tx.output.length ≤ maxElements
  vin : ∀ inp ∈ tx.input, FitsVin inp
  script : ∀ o ∈ tx.output, o.scriptPubkey.length < 2 ^ 64
  txid : txid.length = 32
  wtxid : wtxid.length = 32
  hash : ∀ aux ∈ vins, ∀ h, aux.scriptHash = some h → h.length = 32

/-- The auxiliary data that is read back. -/
def auxsOf : List Tx.TxIn → List VinAux → List VinAux
  | [], _ => []
  | inp :: inps, vins => auxOf inp vins.head? :: auxsOf inps vins.tail

theorem inverts_decodeVins {inps : List Tx.TxIn} {vins : List VinAux}
    (fits : ∀ inp ∈ inps, FitsVin inp)
    (hash : ∀ aux ∈ vins, ∀ h, aux.scriptHash = some h → h.length = 32) :
    Inverts (times decodeVin inps.length) (encodeVins inps vins) (inps.zip (auxsOf inps vins)) := by
  induction inps generalizing vins with
  | nil => exact inverts_pure []
  | cons inp inps ih =>
    have hashes : ∀ h, vins.head?.bind (·.scriptHash) = some h → h.length = 32 := by
      intro h given
      obtain ⟨aux, first, given⟩ := bind_eq_some_iff.mp given
      exact hash aux (mem_of_mem_head? first) h given
    refine Inverts.bind (inverts_decodeVin (fits inp mem_cons_self) hashes) ?_
    refine Inverts.last (@ih vins.tail (forall_mem_cons.mp fits).2
      fun aux mem => hash aux (mem_of_mem_tail mem)) ?_
    exact inverts_pure _

theorem length_auxsOf (inps : List Tx.TxIn) (vins : List VinAux) :
    (auxsOf inps vins).length = inps.length := by
  induction inps generalizing vins with
  | nil => rfl
  | cons inp inps ih => rw [auxsOf, length_cons, length_cons, ih]

def VinAux.outpoint (aux : VinAux) : Tx.OutPoint := ⟨aux.prevTxid, aux.vout⟩

theorem auxsOf_eq_iff (inps : List Tx.TxIn) (vins : List VinAux) :
    auxsOf inps vins = vins ↔ vins.map VinAux.outpoint = inps.map (·.previousOutput) := by
  induction inps generalizing vins with
  | nil => simp [auxsOf]
  | cons inp inps ih =>
    cases vins with
    | nil => simp [auxsOf]
    | cons aux vins =>
      simp only [auxsOf, tail_cons, cons.injEq, ih]
      obtain ⟨prevTxid, vout, scriptHash, createFk⟩ := aux
      obtain ⟨⟨txid, n⟩, script, sequence, witness⟩ := inp
      simp [auxOf, VinAux.outpoint, eq_comm]

theorem decodeVout_encodeVout {o : Tx.TxOut} (small : o.scriptPubkey.length < 2 ^ 64) :
    if i64Max < o.value.toNat then Refuses decodeVout (encodeVout o) ⟨"packed vout"⟩
    else Inverts decodeVout (encodeVout o) o := by
  have back (rest : Bytes) := decodeAt_encodeUnspentInto (toNat_lt o.value)
    small rest
  split
  · next large =>
    intro rest
    refine bind_result_error ?_
    rw [ofUsed, encodeVout, back, if_pos large]
  · next fits =>
    have read : Inverts (ofUsed fun s =>
        match decodeAt s with
        | .ok read => .ok read
        | .error _ => .error (⟨"packed vout"⟩ : Corrupt)) (encodeVout o)
        ⟨o.value.toNat, o.scriptPubkey⟩ := by
      refine inverts_ofUsed fun rest => ?_
      rw [encodeVout, back, if_neg fits]
    refine Inverts.last read (Inverts.then (inverts_copied _) ?_)
    rw [UInt64.ofNat_toNat]
    exact inverts_pure o

theorem decodeVouts_encodeVouts {l : List Tx.TxOut}
    (small : ∀ o ∈ l, o.scriptPubkey.length < 2 ^ 64) :
    ((∀ o ∈ l, o.value.toNat ≤ i64Max) →
        Inverts (times decodeVout l.length) (l.flatMap encodeVout) l) ∧
      (¬(∀ o ∈ l, o.value.toNat ≤ i64Max) →
        Refuses (times decodeVout l.length) (l.flatMap encodeVout) ⟨"packed vout"⟩) := by
  constructor
  · intro amounts
    refine inverts_times fun o mem => ?_
    have vout := decodeVout_encodeVout (small o mem)
    rwa [if_neg (not_lt.mpr (amounts o mem))] at vout
  · intro some_large
    induction l with
    | nil => exact absurd (fun o mem => absurd mem not_mem_nil) some_large
    | cons o l ih =>
      have vout := decodeVout_encodeVout (small o mem_cons_self)
      by_cases large : i64Max < o.value.toNat
      · rw [if_pos large] at vout
        exact vout.bind _
      · rw [if_neg large] at vout
        refine Inverts.refuses vout ?_
        have later := ih (forall_mem_cons.mp small).2 fun amounts =>
          some_large (forall_mem_cons.mpr ⟨not_lt.mp large, amounts⟩)
        have rest := later.bind (f := fun rest => pure (o :: rest)) []
        rwa [append_nil] at rest

section Record

variable {tx : Tx.Transaction} {txid wtxid : Bytes} {feeSat weight acceptSecs : UInt64}
  {sigopCost : Option UInt64} {vins : List VinAux}

def encodeHeader (tx : Tx.Transaction) (txid wtxid : Bytes) (feeSat weight : UInt64)
    (sigopCost : Option UInt64) (acceptSecs : UInt64) : Bytes :=
  toLe 8 feeSat.toNat ++ (toLe 8 weight.toNat ++
    (toLe 8 (sigopCost.getD sigopCostUnknown).toNat ++ (toLe 8 acceptSecs.toNat ++
    (txid ++ (wtxid ++ (toLe 4 tx.version.toNat ++ (toLe 4 tx.lockTime.toNat ++
    (Tx.compactSize tx.input.length ++ Tx.compactSize tx.output.length))))))))

def headerOf (tx : Tx.Transaction) (txid wtxid : Bytes) (feeSat weight : UInt64)
    (sigopCost : Option UInt64) (acceptSecs : UInt64) : Header :=
  ⟨feeSat.toNat, weight.toNat, (sigopCost.filter (· ≤ maxBlockSigopsCost)).map (·.toNat),
    acceptSecs.toNat, txid, wtxid, tx.version.toNat, tx.lockTime.toNat, tx.input.length,
    tx.output.length⟩

theorem filter_sigopCost (sigopCost : Option UInt64) :
    (some (sigopCost.getD sigopCostUnknown).toNat).filter (· ≤ maxBlockSigopsCost.toNat) =
      (sigopCost.filter (· ≤ maxBlockSigopsCost)).map (·.toNat) := by
  cases sigopCost with
  | none => rfl
  | some cost =>
    by_cases small : cost ≤ maxBlockSigopsCost
    · have small' : cost.toNat ≤ maxBlockSigopsCost.toNat := small
      simp [filter_some, small, small']
    · have large : ¬cost.toNat ≤ maxBlockSigopsCost.toNat := small
      simp [filter_some, small, large]

theorem inverts_decodeHeader (fits : Fits tx txid wtxid vins) : Inverts (decodeHeader true true)
      (encodeHeader tx txid wtxid feeSat weight sigopCost acceptSecs)
      (headerOf tx txid wtxid feeSat weight sigopCost acceptSecs) := by
  have nIn : tx.input.length < 2 ^ 64 := by
    have := fits.inputs
    rw [maxElements] at this
    omega
  have nOut : tx.output.length < 2 ^ 64 := by
    have := fits.outputs
    rw [maxElements] at this
    omega
  have counts : ¬(maxElements < tx.input.length ∨ maxElements < tx.output.length) :=
    not_or.mpr ⟨not_lt.mpr fits.inputs, not_lt.mpr fits.outputs⟩
  have built : Inverts (pure ⟨feeSat.toNat, weight.toNat,
      (some (sigopCost.getD sigopCostUnknown).toNat).filter (· ≤ maxBlockSigopsCost.toNat),
      (some acceptSecs.toNat).getD 0, txid, wtxid, tx.version.toNat, tx.lockTime.toNat,
      tx.input.length, tx.output.length⟩ : Reader Corrupt Header) []
      (headerOf tx txid wtxid feeSat weight sigopCost acceptSecs) := by
    rw [filter_sigopCost]
    exact inverts_pure _
  have eight (n : UInt64) (text : String) : Inverts (readLe 8 text) (toLe 8 n.toNat) n.toNat :=
    inverts_readLe text (toNat_lt n)
  have four (n : UInt32) (text : String) : Inverts (readLe 4 text) (toLe 4 n.toNat) n.toNat :=
    inverts_readLe text (UInt32.toNat_lt n)
  refine Inverts.atLeast ?_ ?_
  · refine Inverts.bind (eight feeSat _) (Inverts.bind (eight weight _) ?_)
    refine Inverts.bind ((eight (sigopCost.getD sigopCostUnknown) _).map some) ?_
    refine Inverts.bind ((eight acceptSecs _).map some) ?_
    refine Inverts.bind (inverts_takeArr fits.txid _)
      (Inverts.bind (inverts_takeArr fits.wtxid _) ?_)
    refine Inverts.bind (four tx.version _) (Inverts.bind (four tx.lockTime _) ?_)
    refine Inverts.bind (inverts_readCompact nIn) (Inverts.last (inverts_readCompact nOut) ?_)
    exact Inverts.then (inverts_rejectIf counts _) built
  · simp only [encodeHeader, length_append, toLe_length, fits.txid, fits.wtxid, if_true]
    omega

/-- A record is read back, with the outpoints of the inputs in its auxiliary data, or refused for
an amount. -/
theorem decodePackedLive_encodePackedLive (fits : Fits tx txid wtxid vins) (feeSat weight : UInt64)
    (sigopCost : Option UInt64) (acceptSecs : UInt64)
    (counted : ¬(vins.length ≠ tx.input.length ∧ vins ≠ [])) :
    ∃ buf, encodePackedLive tx txid wtxid feeSat weight sigopCost acceptSecs vins = .ok buf ∧
      (decodePackedLive buf).result =
        if ∀ o ∈ tx.output, o.value.toNat ≤ i64Max then
          .ok (⟨feeSat, weight, sigopCost.filter (· ≤ maxBlockSigopsCost), acceptSecs, txid, wtxid,
            tx, auxsOf tx.input vins⟩, [])
        else .error (.error ⟨"packed vout"⟩) := by
  refine ⟨encodeHeader tx txid wtxid feeSat weight sigopCost acceptSecs ++
    (encodeVins tx.input vins ++ tx.output.flatMap encodeVout), if_neg counted, ?_⟩
  have room (n size : Nat) (few : n ≤ maxElements) (small : size ≤ txInSize) :
      n * size ≤ isizeMax :=
    Nat.le_trans (Nat.mul_le_mul few small) (by decide)
  have inputs := inverts_decodeVins fits.vin fits.hash (tx.output.flatMap encodeVout)
  obtain ⟨back, refused⟩ := decodeVouts_encodeVouts fits.script
  refine (bind_result_ok (inverts_decodeHeader fits _)).trans ?_
  refine (bind_result_ok (inverts_reserve (room _ _ fits.inputs (by decide)) _)).trans ?_
  refine (bind_result_ok (inverts_reserve (room _ _ fits.inputs (by decide)) _)).trans ?_
  refine (bind_result_ok inputs).trans ?_
  refine (bind_result_ok (inverts_reserve (room _ _ fits.outputs (by decide)) _)).trans ?_
  by_cases amounts : ∀ o ∈ tx.output, o.value.toNat ≤ i64Max
  · have outputs := back amounts []
    rw [append_nil] at outputs
    have atEnd : (atEnd (⟨"packed live trailing"⟩ : Corrupt) []).result = .ok ((), []) := rfl
    rw [if_pos amounts]
    refine (bind_result_ok outputs).trans ((bind_result_ok atEnd).trans (congrArg Except.ok ?_))
    have same : tx.input.length = (auxsOf tx.input vins).length := (length_auxsOf ..).symm
    have cost : ((sigopCost.filter (· ≤ maxBlockSigopsCost)).map (·.toNat)).map ofNat =
        sigopCost.filter (· ≤ maxBlockSigopsCost) := by
      cases sigopCost.filter (· ≤ maxBlockSigopsCost) <;> simp
    simp [headerOf, map_fst_zip same.le, map_snd_zip same.ge, cost]
  · have outputs := refused amounts []
    rw [append_nil] at outputs
    rw [if_neg amounts]
    exact bind_result_error outputs

end Record

end Rbitcoin.Mempool.Packed
