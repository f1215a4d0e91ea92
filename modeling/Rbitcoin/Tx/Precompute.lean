import Rbitcoin.Script.Walkers
import Rbitcoin.Tx.Transaction

/-! One-pass transaction precompute: ids, sizes, sigops, output sum and the BIP143/BIP341 common
hashes. `fromTxInner` walks the decoded transaction and feeds its encodings to hash engines.
`fromTxWire` slices the wire bytes instead. An engine is the list of bytes it has been given. -/

namespace Rbitcoin.Tx

open Bytes Encoding Script List

/-- Ids, sizes, sigops and output sum. -/
structure TxConnectPrecompute where
  txid : Bytes
  wtxid : Bytes
  baseSize : Nat
  totalSize : Nat
  sigops : Nat
  outSum : Nat
  hasWitness : Bool
  deriving DecidableEq, Repr

/-- Connect facts with the three common midstates. -/
structure TxScriptPrecompute where
  connect : TxConnectPrecompute
  shaPrevouts : Bytes
  shaSequences : Bytes
  shaOutputs : Bytes
  shaAmounts : Option Bytes
  shaScriptpubkeys : Option Bytes
  deriving DecidableEq, Repr

/-- The hashes that are kept of a transaction. -/
inductive TxPrecompute where
  | connect (c : TxConnectPrecompute)
  | script (s : TxScriptPrecompute)
  deriving DecidableEq, Repr

def packPrecompute (connect : TxConnectPrecompute)
    (shaPrevouts shaSequences shaOutputs : Option Bytes) : TxPrecompute :=
  match shaPrevouts, shaSequences, shaOutputs with
  | some prevouts, some sequences, some outputs =>
    .script ⟨connect, prevouts, sequences, outputs, none, none⟩
  | _, _, _ => .connect connect

variable (E : Encoding)

/-- A hash engine and the count of the bytes given to it. -/
structure Engine where
  bytes : Bytes
  size : Nat
  size_eq : size = bytes.length

def Engine.empty : Engine := ⟨[], 0, rfl⟩

/-- `enc`: hash the bytes and count them. -/
def Engine.enc (e : Engine) (b : Bytes) : Engine :=
  ⟨e.bytes ++ b, e.size + b.length, by simp [e.size_eq]⟩

@[simp] theorem Engine.enc_bytes (e : Engine) (b : Bytes) : (e.enc b).bytes = e.bytes ++ b := rfl

/-- Engines and counters of the pass that hashes the stripped encoding. The three midstate
engines exist when midstates are asked for. -/
structure EngineWalk where
  txid : Engine
  shaPrev : Option Bytes
  shaSeq : Option Bytes
  shaOut : Option Bytes
  sigops : Nat
  outSum : Nat

def EngineWalk.start (sighash : Bool) (eng : Engine) : EngineWalk :=
  let engine := if sighash then some [] else none
  ⟨eng, engine, engine, engine, 0, 0⟩

def EngineWalk.input (w : EngineWalk) (i : TxIn) : EngineWalk :=
  { w with
    txid := ((w.txid.enc (E.outPoint i.previousOutput)).enc (E.script i.scriptSig)).enc
      (E.sequence i.sequence)
    shaPrev := w.shaPrev.map (· ++ E.outPoint i.previousOutput)
    sigops := satAdd w.sigops (scriptSigopCount i.scriptSig false)
    shaSeq := w.shaSeq.map (· ++ E.sequence i.sequence) }

def EngineWalk.output (w : EngineWalk) (o : TxOut) : EngineWalk :=
  { w with
    txid := w.txid.enc (E.txOut o)
    shaOut := w.shaOut.map (· ++ E.txOut o)
    sigops := satAdd w.sigops (scriptSigopCount o.scriptPubkey false)
    outSum := satAdd w.outSum o.value.toNat }

/-- The whole pass over version, inputs, outputs and lock time. -/
def EngineWalk.walk (sighash : Bool) (tx : Transaction) : EngineWalk :=
  let w := EngineWalk.start sighash
    ((Engine.empty.enc (E.version tx.version)).enc (E.varInt tx.input.length))
  let w := tx.input.foldl (EngineWalk.input E) w
  let w := tx.output.foldl (EngineWalk.output E)
    { w with txid := w.txid.enc (E.varInt tx.output.length) }
  { w with txid := w.txid.enc (E.lockTime tx.lockTime) }

variable (tx : Transaction)

/-- The wtxid engine beside that pass: the same encodings, with marker and flag after the version
and the witnesses before the lock time. -/
def wtxidEngine : Engine :=
  let e := ((Engine.empty.enc (E.version tx.version)).enc [0]).enc [1]
  let e := tx.input.foldl (fun e i => ((e.enc (E.outPoint i.previousOutput)).enc
    (E.script i.scriptSig)).enc (E.sequence i.sequence)) (e.enc (E.varInt tx.input.length))
  let e := tx.output.foldl (fun e o => e.enc (E.txOut o)) (e.enc (E.varInt tx.output.length))
  let e := tx.input.foldl (fun e i => e.enc (E.witness i.witness)) e
  e.enc (E.lockTime tx.lockTime)

/-- Non-witness transaction: the stripped encoding is the wire, so one engine serves both ids. -/
def fromTxLegacyOneEngine (sighash : Bool) : TxPrecompute :=
  let w := EngineWalk.walk E sighash tx
  let txid := E.sha256d w.txid.bytes
  packPrecompute ⟨txid, txid, w.txid.size, w.txid.size, w.sigops, w.outSum, false⟩
    (w.shaPrev.map E.sha256) (w.shaSeq.map E.sha256) (w.shaOut.map E.sha256)

def fromTxInner (sighash : Bool) : TxPrecompute :=
  let hasWitness := usesSegwitSerialization tx
  let sighash := sighash && hasWitness && !E.isCoinbase tx
  if !hasWitness then fromTxLegacyOneEngine E tx sighash
  else
    let w := EngineWalk.walk E sighash tx
    let wtxid := wtxidEngine E tx
    packPrecompute ⟨E.sha256d w.txid.bytes, E.sha256d wtxid.bytes, w.txid.size, wtxid.size,
        w.sigops, w.outSum, hasWitness⟩
      (w.shaPrev.map E.sha256) (w.shaSeq.map E.sha256) (w.shaOut.map E.sha256)

/-- The non-witness slices of a wire transaction. -/
structure WitnessWire where
  version : Bytes
  vin : Bytes
  vout : Bytes
  locktime : Bytes

variable (s : WitnessWire)

def WitnessWire.baseLen : Nat :=
  s.version.length + s.vin.length + s.vout.length + s.locktime.length

def flagZeroTxLen : Nat := 10

variable (wire : Bytes)

def flagZeroWire : Bool :=
  wire.length == flagZeroTxLen && wire.slice? 4 6 == some [0, 0]

def flagZeroTx : Bool :=
  flagZeroWire wire && tx.input.isEmpty && tx.output.isEmpty

def vinLen : Nat :=
  E.varIntSize tx.input.length + (tx.input.map E.baseSize).sum

def voutLen : Nat :=
  E.varIntSize tx.output.length + (tx.output.map E.txOutSize).sum

/-- BIP144 non-witness slices. `none` unless `wire` has the layout
`version || 00 01 || vin || vout || witness || locktime`. -/
def witnessWire : Option WitnessWire := do
  if !usesSegwitSerialization tx || flagZeroWire wire then none
  if wire.slice? 4 6 != some [0, 1] then none
  let witLen := (tx.input.map fun i => E.witnessSize i.witness).sum
  let vinEnd := 6 + vinLen E tx
  let voutEnd := vinEnd + voutLen E tx
  let lockAt := voutEnd + witLen
  if lockAt + 4 != wire.length then none
  return ⟨← wire.slice? 0 4, ← wire.slice? 6 vinEnd, ← wire.slice? vinEnd voutEnd,
    ← wire.slice? lockAt wire.length⟩

/-- Legacy layout: `version || vin || vout || locktime` covering all of `wire`. -/
def legacySpans : Option WitnessWire := do
  if usesSegwitSerialization tx && !flagZeroTx tx wire then none
  let vinEnd := 4 + vinLen E tx
  let voutEnd := vinEnd + voutLen E tx
  if voutEnd + 4 != wire.length then none
  return ⟨← wire.slice? 0 4, ← wire.slice? 4 vinEnd, ← wire.slice? vinEnd voutEnd,
    ← wire.slice? voutEnd wire.length⟩

def hashWitnessTxid : Bytes :=
  E.sha256d (s.version ++ s.vin ++ s.vout ++ s.locktime)

def outpointLen : Nat := 36
def sequenceLen : Nat := 4

/-- The engines of `hash_wire_sighash` and its offset into the input slice. -/
structure WireEngines where
  txid : Bytes
  shaPrev : Bytes
  shaSeq : Bytes
  pos : Nat

/-- One input of the wire walk: the outpoint is the first 36 bytes of its body and the sequence
the last 4. -/
def WireEngines.input (vin : Bytes) (w : WireEngines) (i : TxIn) : Option WireEngines := do
  let n := E.baseSize i
  let body ← vin.slice? w.pos (w.pos + n)
  if body.length < outpointLen + sequenceLen then none
  return ⟨w.txid ++ body, w.shaPrev ++ body.take outpointLen,
    w.shaSeq ++ body.drop (body.length - sequenceLen), w.pos + n⟩

/-- The txid and the midstates, both from the non-witness slices. -/
def hashWireSighash : Option (Bytes × Bytes × Bytes × Bytes) :=
  do
  let nIn := E.varIntSize tx.input.length
  let head ← s.vin.slice? 0 nIn
  let w ← tx.input.foldlM (WireEngines.input E s.vin) ⟨s.version ++ head, [], [], nIn⟩
  if w.pos != s.vin.length then none
  let nOut := E.varIntSize tx.output.length
  let outHead ← s.vout.slice? 0 nOut
  let outs ← s.vout.slice? nOut s.vout.length
  return (E.sha256d (w.txid ++ outHead ++ outs ++ s.locktime), E.sha256 w.shaPrev,
    E.sha256 w.shaSeq, E.sha256 outs)

def legacySigopCount : Nat :=
  let n := tx.input.foldl (fun n i => satAdd n (scriptSigopCount i.scriptSig false)) 0
  tx.output.foldl (fun n o => satAdd n (scriptSigopCount o.scriptPubkey false)) n

def sigopsAndOutSum : Nat × Nat :=
  (legacySigopCount tx, tx.output.foldl (fun n o => satAdd n o.value.toNat) 0)

/-- Txid, stripped size and midstates of `from_tx_wire`. -/
def wireIds (hasWitness sighash : Bool) :
    Option (Bytes × Nat × Option Bytes × Option Bytes × Option Bytes) := do
  if hasWitness && !flagZeroTx tx wire then
    let spans ← witnessWire E tx wire
    if sighash then
      let (txid, prev, seq, out) ← hashWireSighash E tx spans
      return (txid, spans.baseLen, some prev, some seq, some out)
    else return (hashWitnessTxid E spans, spans.baseLen, none, none, none)
  else if sighash then
    let spans ← legacySpans E tx wire
    let (txid, prev, seq, out) ← hashWireSighash E tx spans
    if txid != E.sha256d wire then none
    return (txid, wire.length, some prev, some seq, some out)
  else return (E.sha256d wire, wire.length, none, none, none)

/-- Precompute from the wire slice. `none` when `wire` is not the encoding of `tx`. -/
def fromTxWire (sighash : Bool) : Option TxPrecompute := do
  let hasWitness := usesSegwitSerialization tx
  let sighash := sighash && hasWitness && !E.isCoinbase tx
  let (txid, baseSize, prev, seq, out) ← wireIds E tx wire hasWitness sighash
  let (sigops, outSum) := sigopsAndOutSum tx
  return packPrecompute ⟨txid, E.sha256d wire, baseSize, wire.length, sigops, outSum, hasWitness⟩
    prev seq out

def sighashMidstates : Bytes × Bytes × Bytes :=
  let prev := tx.input.foldl (fun e i => e ++ E.outPoint i.previousOutput) []
  let seq := tx.input.foldl (fun e i => e ++ E.sequence i.sequence) []
  let out := tx.output.foldl (fun e o => e ++ E.txOut o) []
  (E.sha256 prev, E.sha256 seq, E.sha256 out)

/-- Midstates on an already-walked connect row. -/
def fromConnect (connect : TxConnectPrecompute) (tx : Transaction) : TxScriptPrecompute :=
  let (prev, seq, out) := sighashMidstates E tx
  ⟨connect, prev, seq, out, none, none⟩

open EngineWalk

section Walks

variable {E}

theorem foldl_enc_bytes {α : Type} (f : α → Bytes) (l : List α) (e : Engine) :
    (l.foldl (fun e a => e.enc (f a)) e).bytes = e.bytes ++ l.flatMap f := by
  induction l generalizing e with
  | nil => simp
  | cons a l ih => simp [ih]

variable (tx : Transaction)

theorem wtxidEngine_bytes : (wtxidEngine E tx).bytes =
    E.version tx.version ++ [0, 1] ++ E.vin tx ++ E.vout tx ++
      tx.input.flatMap (fun i => E.witness i.witness) ++ E.lockTime tx.lockTime := by
  have inputs (l : List TxIn) (e : Engine) : (l.foldl (fun e i =>
      ((e.enc (E.outPoint i.previousOutput)).enc (E.script i.scriptSig)).enc
        (E.sequence i.sequence)) e).bytes = e.bytes ++ l.flatMap E.txInBase := by
    induction l generalizing e with
    | nil => simp
    | cons i l ih => simp [ih, txInBase]
  simp [wtxidEngine, foldl_enc_bytes, inputs, vin, vout, Engine.empty]

@[simp] theorem EngineWalk.input_txid (w : EngineWalk) (i : TxIn) :
    (input E w i).txid.bytes = w.txid.bytes ++ E.txInBase i := by
  simp [input, txInBase]

@[simp] theorem EngineWalk.output_txid (w : EngineWalk) (o : TxOut) :
    (output E w o).txid.bytes = w.txid.bytes ++ E.txOut o := rfl

/-- The walk over the inputs hashes them without their witnesses, their outpoints and their
sequences, and counts their sigops. -/
theorem EngineWalk.foldl_input (l : List TxIn) (w : EngineWalk) :
    (l.foldl (input E) w).txid.bytes = w.txid.bytes ++ l.flatMap E.txInBase ∧
    (l.foldl (input E) w).shaPrev =
      w.shaPrev.map (· ++ l.flatMap fun i => E.outPoint i.previousOutput) ∧
    (l.foldl (input E) w).shaSeq = w.shaSeq.map (· ++ l.flatMap fun i => E.sequence i.sequence) ∧
    (l.foldl (input E) w).shaOut = w.shaOut ∧
    (l.foldl (input E) w).sigops =
      l.foldl (fun n i => satAdd n (scriptSigopCount i.scriptSig false)) w.sigops ∧
    (l.foldl (input E) w).outSum = w.outSum := by
  induction l generalizing w with
  | nil => simp
  | cons i l ih =>
    obtain ⟨txid, prev, seq, out, sigops, sum⟩ := ih (input E w i)
    simp only [foldl_cons]
    refine ⟨by simp [txid], ?_, ?_, out, sigops, sum⟩
    · rw [prev]; simp [input, Function.comp_def]
    · rw [seq]; simp [input, Function.comp_def]

theorem EngineWalk.foldl_output (l : List TxOut) (w : EngineWalk) :
    (l.foldl (output E) w).txid.bytes = w.txid.bytes ++ l.flatMap E.txOut ∧
    (l.foldl (output E) w).shaPrev = w.shaPrev ∧
    (l.foldl (output E) w).shaSeq = w.shaSeq ∧
    (l.foldl (output E) w).shaOut = w.shaOut.map (· ++ l.flatMap E.txOut) ∧
    (l.foldl (output E) w).sigops =
      l.foldl (fun n o => satAdd n (scriptSigopCount o.scriptPubkey false)) w.sigops ∧
    (l.foldl (output E) w).outSum = l.foldl (fun n o => satAdd n o.value.toNat) w.outSum := by
  induction l generalizing w with
  | nil => simp
  | cons o l ih =>
    obtain ⟨txid, prev, seq, out, sigops, sum⟩ := ih (output E w o)
    simp only [foldl_cons]
    refine ⟨by simp [txid], prev, seq, ?_, sigops, sum⟩
    rw [out]; simp [output, Function.comp_def]

theorem sighashMidstates_eq : sighashMidstates E tx =
    (E.sha256 (tx.input.flatMap fun i => E.outPoint i.previousOutput),
      E.sha256 (tx.input.flatMap fun i => E.sequence i.sequence),
      E.sha256 (tx.output.flatMap E.txOut)) := by
  simp only [sighashMidstates, flatMap_eq_foldl]

theorem EngineWalk.walk_eq (sighash : Bool) (tx : Transaction) :
    (walk E sighash tx).txid.bytes = E.stripped tx ∧
    (walk E sighash tx).shaPrev.map E.sha256 =
      (if sighash then some (sighashMidstates E tx).1 else none) ∧
    (walk E sighash tx).shaSeq.map E.sha256 =
      (if sighash then some (sighashMidstates E tx).2.1 else none) ∧
    (walk E sighash tx).shaOut.map E.sha256 =
      (if sighash then some (sighashMidstates E tx).2.2 else none) ∧
    ((walk E sighash tx).sigops, (walk E sighash tx).outSum) =
      sigopsAndOutSum tx := by
  obtain ⟨txid, prev, seq, out, sigops, sum⟩ := foldl_input (E := E) tx.input
    (start sighash ((Engine.empty.enc (E.version tx.version)).enc (E.varInt tx.input.length)))
  generalize hw : tx.input.foldl (input E) _ = w at txid prev seq out sigops sum
  obtain ⟨txid', prev', seq', out', sigops', sum'⟩ := foldl_output (E := E) tx.output
    { w with txid := w.txid.enc (E.varInt tx.output.length) }
  simp only [walk, hw, sighashMidstates_eq]
  refine ⟨?_, ?_, ?_, ?_, ?_⟩
  · simp [txid', txid, start, stripped, vin, vout, Engine.empty]
  · rw [prev', prev]
    cases sighash <;> simp [start]
  · rw [seq', seq]
    cases sighash <;> simp [start]
  · rw [out', out]
    cases sighash <;> simp [start]
  · rw [sigops', sum', sigops, sum]
    rfl

/-- The row both walks are to produce for a transaction with the encoding `wire`. -/
def row (E : Encoding) (tx : Transaction) (wire : Bytes) (sighash : Bool) : TxPrecompute :=
  let mid := sighashMidstates E tx
  let (sigops, outSum) := sigopsAndOutSum tx
  packPrecompute ⟨E.sha256d (E.stripped tx), E.sha256d wire, (E.stripped tx).length, wire.length,
      sigops, outSum, usesSegwitSerialization tx⟩
    (if sighash then some mid.1 else none) (if sighash then some mid.2.1 else none)
    (if sighash then some mid.2.2 else none)

theorem usesSegwitSerialization_eq {tx : Transaction} (inputs : tx.input ≠ []) :
    usesSegwitSerialization tx = tx.input.any fun i => !i.witness.isEmpty := by
  cases h : tx.input.any fun i => !i.witness.isEmpty <;> simp [usesSegwitSerialization, h, inputs]

theorem fromTxInner_eq_row {tx : Transaction} (inputs : tx.input ≠ []) (sighash : Bool) :
    fromTxInner E tx sighash = row E tx (E.bip144 tx)
      (sighash && usesSegwitSerialization tx && !E.isCoinbase tx) := by
  generalize hs : (sighash && usesSegwitSerialization tx && !E.isCoinbase tx) = asked
  obtain ⟨txid, prev, seq, out, counts⟩ := walk_eq (E := E) asked tx
  have segwit := usesSegwitSerialization_eq inputs
  simp only [fromTxInner, hs, fromTxLegacyOneEngine, prev, seq, out, txid, Engine.size_eq,
    wtxidEngine_bytes, row, ← counts, bip144, ← segwit]
  cases usesSegwitSerialization tx <;> simp

end Walks

open WireEngines

section Slices

variable {E} (tx : Transaction)

theorem vinLen_eq : vinLen E tx = (E.vin tx).length := by
  have : E.baseSize = fun i => (E.txInBase i).length := funext E.baseSize_eq
  rw [vinLen, vin, length_append, length_flatMap, E.varIntSize_eq, this]

theorem voutLen_eq : voutLen E tx = (E.vout tx).length := by
  have : E.txOutSize = fun o => (E.txOut o).length := funext E.txOutSize_eq
  rw [voutLen, vout, length_append, length_flatMap, E.varIntSize_eq, this]

theorem witnessWire_eq {tx : Transaction} (segwit : usesSegwitSerialization tx = true) :
    witnessWire E tx (E.version tx.version ++ [0, 1] ++ E.vin tx ++ E.vout tx ++
      tx.input.flatMap (fun i => E.witness i.witness) ++ E.lockTime tx.lockTime) =
    some ⟨E.version tx.version, E.vin tx, E.vout tx, E.lockTime tx.lockTime⟩ := by
  generalize hwit : tx.input.flatMap (fun i => E.witness i.witness) = wit
  have witLen : (tx.input.map fun i => E.witnessSize i.witness).sum = wit.length := by
    simp [← hwit, E.witnessSize_eq]
  have hv := E.version_length tx.version
  have hl := E.lockTime_length tx.lockTime
  generalize hwire : E.version tx.version ++ [0, 1] ++ E.vin tx ++ E.vout tx ++ wit ++
    E.lockTime tx.lockTime = wire
  have len : wire.length = 4 + 2 + (E.vin tx).length + (E.vout tx).length + wit.length + 4 := by
    simp [← hwire]
    omega
  have marker : wire.slice? 4 6 = some [0, 1] :=
    slice?_append (p := E.version tx.version)
      (t := E.vin tx ++ E.vout tx ++ wit ++ E.lockTime tx.lockTime) (by simp [← hwire]) hv.symm rfl
  have version : wire.slice? 0 4 = some (E.version tx.version) :=
    slice?_append (p := [])
      (t := [0, 1] ++ E.vin tx ++ E.vout tx ++ wit ++ E.lockTime tx.lockTime) (by simp [← hwire])
      rfl (by simp [hv])
  have vin : wire.slice? 6 (6 + (E.vin tx).length) = some (E.vin tx) :=
    slice?_append (p := E.version tx.version ++ [0, 1])
      (t := E.vout tx ++ wit ++ E.lockTime tx.lockTime) (by simp [← hwire]) (by simp [hv]) rfl
  have vout : wire.slice? (6 + (E.vin tx).length) (6 + (E.vin tx).length + (E.vout tx).length) =
      some (E.vout tx) :=
    slice?_append (p := E.version tx.version ++ [0, 1] ++ E.vin tx)
      (t := wit ++ E.lockTime tx.lockTime) (by simp [← hwire]) (by simp [hv]; omega) rfl
  have locktime : wire.slice? (6 + (E.vin tx).length + (E.vout tx).length + wit.length)
      wire.length = some (E.lockTime tx.lockTime) :=
    slice?_append (p := E.version tx.version ++ [0, 1] ++ E.vin tx ++ E.vout tx ++ wit) (t := [])
      (by simp [← hwire]) (by simp [hv]; omega) (by omega)
  have noFlagZero : flagZeroWire wire = false := by simp [flagZeroWire, marker]
  simp [witnessWire, segwit, noFlagZero, marker, vinLen_eq, voutLen_eq, witLen, version, vin, vout,
    locktime]
  omega

theorem WireEngines.input_eq {vin pre post : Bytes} {i : TxIn} (w : WireEngines)
    (hvin : vin = pre ++ E.txInBase i ++ post) (hpos : w.pos = pre.length) :
    input E vin w i = some ⟨w.txid ++ E.txInBase i,
      w.shaPrev ++ E.outPoint i.previousOutput, w.shaSeq ++ E.sequence i.sequence,
      (pre ++ E.txInBase i).length⟩ := by
  have size : E.baseSize i = (E.txInBase i).length := E.baseSize_eq i
  have body : vin.slice? w.pos (w.pos + E.baseSize i) = some (E.txInBase i) :=
    slice?_append hvin hpos (by rw [size])
  have ho := E.outPoint_length i.previousOutput
  have hs := E.sequence_length i.sequence
  have long : ¬(E.txInBase i).length < outpointLen + sequenceLen := by
    simp [txInBase, outpointLen, sequenceLen]
    omega
  have front : (E.txInBase i).take outpointLen = E.outPoint i.previousOutput := by
    simp [txInBase, outpointLen, ← ho]
  have back : (E.txInBase i).drop ((E.txInBase i).length - sequenceLen) =
      E.sequence i.sequence := by
    have : (E.txInBase i).length - sequenceLen =
        (E.outPoint i.previousOutput ++ E.script i.scriptSig).length := by
      simp [txInBase, sequenceLen]
      omega
    rw [this, txInBase, drop_left]
  rw [hpos, size] at body
  simp [input, body, long, front, back, size, hpos]

theorem WireEngines.foldlM_input {vin pre : Bytes} (l : List TxIn) (w : WireEngines)
    (hvin : vin = pre ++ l.flatMap E.txInBase) (hpos : w.pos = pre.length) :
    l.foldlM (input E vin) w = some ⟨w.txid ++ l.flatMap E.txInBase,
      w.shaPrev ++ l.flatMap (fun i => E.outPoint i.previousOutput),
      w.shaSeq ++ l.flatMap (fun i => E.sequence i.sequence), vin.length⟩ := by
  induction l generalizing pre w with
  | nil => simp [hvin, ← hpos]
  | cons i l ih =>
    rw [foldlM_cons, input_eq w (by simpa using hvin) hpos]
    simp only [Option.bind_eq_bind, Option.bind_some]
    rw [ih _ (by simpa using hvin) rfl]
    simp

theorem hashWireSighash_eq :
    hashWireSighash E tx ⟨E.version tx.version, E.vin tx, E.vout tx, E.lockTime tx.lockTime⟩ =
      some (E.sha256d (E.stripped tx), sighashMidstates E tx) := by
  have head : (E.vin tx).slice? 0 (E.varIntSize tx.input.length) =
      some (E.varInt tx.input.length) :=
    slice?_append (p := []) rfl rfl (by simp [E.varIntSize_eq])
  have outHead : (E.vout tx).slice? 0 (E.varIntSize tx.output.length) =
      some (E.varInt tx.output.length) :=
    slice?_append (p := []) rfl rfl (by simp [E.varIntSize_eq])
  have outs : (E.vout tx).slice? (E.varIntSize tx.output.length) (E.vout tx).length =
      some (tx.output.flatMap E.txOut) :=
    slice?_append (p := E.varInt tx.output.length) (t := []) (by simp [vout])
      (E.varIntSize_eq _) (by simp [vout, E.varIntSize_eq])
  have inputs : tx.input.foldlM (input E (E.vin tx))
      ⟨E.version tx.version ++ E.varInt tx.input.length, [], [], E.varIntSize tx.input.length⟩ =
      some ⟨E.version tx.version ++ E.varInt tx.input.length ++ tx.input.flatMap E.txInBase,
        tx.input.flatMap (fun i => E.outPoint i.previousOutput),
        tx.input.flatMap (fun i => E.sequence i.sequence), (E.vin tx).length⟩ :=
    foldlM_input tx.input _ rfl (E.varIntSize_eq _)
  simp only [hashWireSighash, head, outHead, outs, sighashMidstates_eq, Option.bind_eq_bind,
    Option.bind_some, inputs]
  simp [stripped, vin, vout]

theorem stripped_length : (E.stripped tx).length =
    (⟨E.version tx.version, E.vin tx, E.vout tx, E.lockTime tx.lockTime⟩ :
      WitnessWire).baseLen := by
  simp [stripped, WitnessWire.baseLen]
  omega

theorem hashWitnessTxid_eq :
    hashWitnessTxid E ⟨E.version tx.version, E.vin tx, E.vout tx, E.lockTime tx.lockTime⟩ =
      E.sha256d (E.stripped tx) := rfl

theorem fromTxWire_eq_row {tx : Transaction} (inputs : tx.input ≠ []) (sighash : Bool) :
    fromTxWire E tx (E.bip144 tx) sighash = some (row E tx (E.bip144 tx)
      (sighash && usesSegwitSerialization tx && !E.isCoinbase tx)) := by
  have segwit := usesSegwitSerialization_eq inputs
  have noFlagZero : flagZeroTx tx (E.bip144 tx) = false := by simp [flagZeroTx, inputs]
  cases witness : tx.input.any fun i => !i.witness.isEmpty with
  | false =>
    -- the stripped encoding is the wire, and no midstates are asked for
    have wire : E.bip144 tx = E.stripped tx := by simp [bip144, witness]
    simp [fromTxWire, wireIds, row, segwit, witness, wire]
  | true =>
    have spans : witnessWire E tx (E.bip144 tx) =
        some ⟨E.version tx.version, E.vin tx, E.vout tx, E.lockTime tx.lockTime⟩ := by
      rw [bip144, witness]
      exact witnessWire_eq (segwit.trans witness)
    cases asked : sighash && !E.isCoinbase tx with
    | true =>
      simp [fromTxWire, wireIds, row, segwit, witness, asked, noFlagZero, spans,
        hashWireSighash_eq, stripped_length]
    | false =>
      simp [fromTxWire, wireIds, row, segwit, witness, asked, noFlagZero, spans,
        hashWitnessTxid_eq, stripped_length]

end Slices

/-- On the BIP144 encoding of a transaction with an input, the wire walk returns the row that the
walk of the decoded transaction computes, and `from_connect` gives that row its midstates. -/
theorem fromTxWire_bip144 (tx : Transaction) (sighash : Bool) (inputs : tx.input ≠ []) :
    fromTxWire E tx (E.bip144 tx) sighash = some (fromTxInner E tx sighash) ∧
    ∀ s, fromTxInner E tx sighash = .script s → fromConnect E s.connect tx = s := by
  rw [fromTxWire_eq_row inputs, fromTxInner_eq_row inputs]
  refine ⟨rfl, fun s h => ?_⟩
  cases asked : sighash && usesSegwitSerialization tx && !E.isCoinbase tx with
  | false => simp [row, asked, packPrecompute] at h
  | true =>
    simp only [row, asked, packPrecompute, if_true, TxPrecompute.script.injEq] at h
    simp [← h, fromConnect]

/-- One input with a one-item witness and one output, under the standard encoding. -/
theorem fromTxWire_bip144_segwit :
    let E := standard id id
    let tx : Transaction := ⟨2, 0, [⟨⟨replicate 32 7, 0⟩, [], 0, [[1]]⟩], [⟨5000, [0x51]⟩]⟩
    tx.input ≠ [] ∧ fromTxWire E tx (E.bip144 tx) true = some (fromTxInner E tx true) ∧
      ∀ s, fromTxInner E tx true = .script s → fromConnect E s.connect tx = s :=
  ⟨by decide, fromTxWire_bip144 _ _ true (by decide)⟩

end Rbitcoin.Tx
