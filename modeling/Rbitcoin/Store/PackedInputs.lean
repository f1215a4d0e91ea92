import Mathlib.Data.FinEnum
import Rbitcoin.Store.TxRecord

/-! Rows of `seqsigwit.body`: a run of inputs, each with its sequence number, its scriptSig and its
witness, the last two under the secret of the store. The parent of an input is on `input.body`.
A run is read back with the number of its inputs, and without it, whatever zeros follow. -/

namespace Rbitcoin.Store

open Bytes Tx List Outcome

namespace InputFlags

def seqFinal : UInt8 := 0x01
def emptyScript : UInt8 := 0x02
def emptyWitness : UInt8 := 0x04
/-- A coinbase of the old layout. -/
def nullPrev : UInt8 := 0x08
def prevOnInputs : UInt8 := 0x10
def reservedHigh : UInt8 := 0xE0

end InputFlags

/-- What an input spends. -/
inductive InputParent
  | unstamped
  | coinbase
  | unlinked (vout : UInt32)
  | prevout (createFk : UInt64) (vout : UInt32)
  deriving DecidableEq, Repr

structure InputRecord where
  prevTxid : Bytes
  parent : InputParent
  sequence : UInt32
  scriptSig : Bytes
  witness : List Bytes
  deriving DecidableEq, Repr

def sequenceFinal : UInt32 := 0xffffffff

def writeSized (b : Bytes) : Bytes := compactSize b.length ++ b

def readSized (text : String) (buf : Bytes) : Result (Bytes × Nat) := do
  let (len, n) ← liftPack (readCompactSize buf)
  if buf.length - n < len then corrupt text else return (buf.slice n (n + len), n + len)

variable (secret : StoreSecret)

/-- A byte string under the secret, and what is done with the rest. -/
def xorSized (off : UInt64) (next : Bytes → Bytes) (buf : Bytes) : Bytes :=
  match readCompactSize buf with
  | .error _ => buf
  | .ok (len, n) =>
    if buf.length - n < len then buf
    else buf.take n ++ (secret.xorBytes off (buf.slice n (n + len)) ++ next (buf.drop (n + len)))

theorem writeSized_parts (b rest : Bytes) :
    ¬(writeSized b ++ rest).length - (compactSize b.length).length < b.length ∧
      (writeSized b ++ rest).slice (compactSize b.length).length
        ((compactSize b.length).length + b.length) = b := by
  simp only [writeSized]
  constructor
  · simp only [length_append]
    omega
  · simp [slice]

section Sized

variable {b : Bytes} (small : b.length < 2 ^ 64) (rest : Bytes)
include small

theorem readSized_writeSized (text : String) :
    readSized text (writeSized b ++ rest) = .ok (b, (writeSized b).length) := by
  obtain ⟨inside, middle⟩ := writeSized_parts b rest
  have read := readCompactSize_compactSize small (b ++ rest)
  rw [← append_assoc] at read
  simp only [readSized, show readCompactSize (writeSized b ++ rest) = _ from read, liftPack,
    ok_bind, middle]
  simp [writeSized, pure, Except.pure]

theorem xorSized_writeSized (secret : StoreSecret) (off : UInt64) (next : Bytes → Bytes) :
    xorSized secret off next (writeSized b ++ rest) =
      writeSized (secret.xorBytes off b) ++ next rest := by
  obtain ⟨inside, middle⟩ := writeSized_parts b rest
  have read := readCompactSize_compactSize small (b ++ rest)
  rw [← append_assoc] at read
  simp only [xorSized, show readCompactSize (writeSized b ++ rest) = _ from read, middle]
  simp [writeSized]

end Sized

def flagWhen (set : Prop) [Decidable set] (mask : UInt8) : UInt8 := if set then mask else 0

def seqsigwitFlags (sequence : UInt32) (scriptSig : Bytes) (witness : List Bytes) : UInt8 :=
  InputFlags.prevOnInputs ||| flagWhen (sequence = sequenceFinal) InputFlags.seqFinal |||
    flagWhen (scriptSig = []) InputFlags.emptyScript |||
    flagWhen (witness.length = 0) InputFlags.emptyWitness

/-- A part that is left out when its flag is set. -/
def unlessSet (flags mask : UInt8) (part : Bytes) : Bytes := if flags &&& mask = 0 then part else []

def encodeSeqsigwitInput (sequence : UInt32) (scriptSig : Bytes) (witness : List Bytes) : Bytes :=
  let flags := seqsigwitFlags sequence scriptSig witness
  flags :: (unlessSet flags InputFlags.seqFinal (toLe 4 sequence.toNat) ++
    (unlessSet flags InputFlags.emptyScript (writeSized scriptSig) ++
      unlessSet flags InputFlags.emptyWitness
        (compactSize witness.length ++ witness.flatMap writeSized)))

def witnessOff (wi : Nat) : UInt64 := UInt64.ofNat ((wi % 2 ^ 32 + 1) * 2 ^ 16)

def xorItems (secret : StoreSecret) : Nat → Nat → Bytes → Bytes
  | 0, _, buf => buf
  | n + 1, wi, buf => xorSized secret (witnessOff wi) (xorItems secret n (wi + 1)) buf

variable (flags : UInt8) (buf : Bytes)

def xorWitness : Bytes :=
  if flags &&& InputFlags.emptyWitness ≠ 0 then buf
  else
    match readCompactSize buf with
    | .error _ => buf
    | .ok (nw, n) =>
      if buf.length - n < nw then buf else buf.take n ++ xorItems secret nw 0 (buf.drop n)

def xorScriptSig : Bytes :=
  if flags &&& InputFlags.emptyScript ≠ 0 then xorWitness secret flags buf
  else xorSized secret 0 (xorWitness secret flags) buf

/-- The bytes of a parent of the old layout, if they are there. -/
def skipInlinePrev : Option Nat :=
  if flags &&& (InputFlags.nullPrev ||| InputFlags.prevOnInputs) ≠ 0 then some 0
  else if buf.length < 8 then none
  else
    match readCompactSize (buf.drop 8) with
    | .error _ => none
    | .ok (_, n) => some (8 + n)

/-- An encoded record, with its scriptSig and its witness under the secret. -/
def xorScriptRegionsInInput : Bytes → Bytes
  | [] => []
  | flags :: buf =>
    match skipInlinePrev flags buf with
    | none => flags :: buf
    | some n =>
      let front := n + if flags &&& InputFlags.seqFinal = 0 then 4 else 0
      flags :: (buf.take front ++ xorScriptSig secret flags (buf.drop front))

def encodeInputSecret (r : InputRecord) (secret : Option StoreSecret) : Bytes :=
  match secret with
  | none => encodeSeqsigwitInput r.sequence r.scriptSig r.witness
  | some secret =>
    xorScriptRegionsInInput secret (encodeSeqsigwitInput r.sequence r.scriptSig r.witness)

def encodeInputRunSecret (recs : List InputRecord) (secret : Option StoreSecret) : Bytes :=
  recs.flatMap (encodeInputSecret · secret)

/-- The parent that is in a record, and the bytes that it takes. -/
def readInlinePrevout : Result (Option (Nat × Nat) × Nat) := do
  if flags &&& InputFlags.prevOnInputs ≠ 0 then return (none, 0)
  if flags &&& InputFlags.nullPrev ≠ 0 then return (some (0, 2 ^ 32 - 1), 0)
  if buf.length < 8 then corrupt "input create_fk truncated"
  else if ofLe (buf.take 8) = 0 then corrupt "non-coinbase create_fk is null"
  else
    let (vout, n) ← liftPack (readCompactSize (buf.drop 8))
    if 2 ^ 32 ≤ vout then corrupt "prev_index too large"
    else return (some (ofLe (buf.take 8), vout), 8 + n)

def parentOf : Option (Nat × Nat) → Result InputParent
  | none => .ok .unstamped
  | some (createFk, prevIndex) =>
    if createFk = 0 then
      if prevIndex ≠ 2 ^ 32 - 1 then corrupt "invariant: input parent sentinel" else .ok .coinbase
    else .ok (.prevout (UInt64.ofNat createFk) (UInt32.ofNat prevIndex))

def readSequence : Result (UInt32 × Nat) :=
  if flags &&& InputFlags.seqFinal ≠ 0 then .ok (sequenceFinal, 0)
  else if buf.length < 4 then corrupt "input sequence truncated"
  else .ok (UInt32.ofNat (ofLe (buf.take 4)), 4)

def readScriptSig : Result (Bytes × Nat) :=
  if flags &&& InputFlags.emptyScript ≠ 0 then .ok ([], 0)
  else readSized "input script truncated" buf

def readItems : Nat → Bytes → Result (List Bytes × Nat)
  | 0, _ => .ok ([], 0)
  | n + 1, buf => do
    let (item, used) ← readSized "witness item truncated" buf
    let (items, more) ← readItems n (buf.drop used)
    return (item :: items, used + more)

def readWitness : Result (List Bytes × Nat) :=
  if flags &&& InputFlags.emptyWitness ≠ 0 then .ok ([], 0)
  else do
    let (nw, n) ← liftPack (readCompactSize buf)
    if buf.length - n < nw then corrupt "witness item truncated"
    else
      let (items, used) ← readItems nw (buf.drop n)
      return (items, n + used)

def InputRecord.decodeAt : Bytes → Result (InputRecord × Nat)
  | [] => corrupt "short input record"
  | flags :: buf =>
    if flags &&& InputFlags.reservedHigh ≠ 0 then corrupt "seqsigwit reserved flags"
    else do
      let (inline, a) ← readInlinePrevout flags buf
      let parent ← parentOf inline
      let (sequence, b) ← readSequence flags (buf.drop a)
      let (scriptSig, c) ← readScriptSig flags (buf.drop (a + b))
      let (witness, d) ← readWitness flags (buf.drop (a + b + c))
      return (⟨TxRecord.zeroTxid, parent, sequence, scriptSig, witness⟩, 1 + a + b + c + d)

def decodeInputRunPrefix (buf : Bytes) : Nat → Nat → Result (List InputRecord × Nat)
  | 0, off => .ok ([], off)
  | n + 1, off => do
    let (rec, used) ← InputRecord.decodeAt (buf.drop off)
    let (recs, logicalEnd) ← decodeInputRunPrefix buf n (off + used)
    return (rec :: recs, logicalEnd)

/-- Inputs until only zeros are left. A record takes a byte at least, so as many turns as there are
bytes are enough. -/
def decodeInputRunToEnd (raw : Bytes) : Nat → Nat → Result (List InputRecord × Nat)
  | 0, off => .ok ([], off)
  | turns + 1, off =>
    if raw.length ≤ off ∨ ∀ b ∈ raw.drop off, b = 0 then .ok ([], off)
    else do
      let (rec, used) ← InputRecord.decodeAt (raw.drop off)
      let (recs, logicalEnd) ← decodeInputRunToEnd raw turns (off + used)
      return (rec :: recs, logicalEnd)

def InputRecord.shown (secret : Option StoreSecret) (r : InputRecord) : InputRecord :=
  { r with
    scriptSig := hide secret 0 r.scriptSig
    witness := r.witness.mapIdx fun wi item => hide secret (witnessOff wi) item }

def decodeSeqsigwitSecretToEnd (raw : Bytes) (secret : Option StoreSecret) :
    Result (List InputRecord) := do
  let (inputs, logicalEnd) ← decodeInputRunToEnd raw raw.length 0
  checkTrailingZeroPad raw logicalEnd
  return inputs.map (InputRecord.shown secret)

def decodeSeqsigwitSecret (raw : Bytes) (inCount : Nat) (secret : Option StoreSecret) :
    Result (List InputRecord) := do
  if inCount = 0 then decodeSeqsigwitSecretToEnd raw secret
  else
    let (inputs, used) ← decodeInputRunPrefix raw inCount 0
    checkTrailingZeroPad raw used
    return inputs.map (InputRecord.shown secret)

/-- More turns than bytes change nothing. -/
theorem decodeInputRunToEnd_succ (raw : Bytes) {turns off : Nat}
    (enough : raw.length - off ≤ turns) :
    decodeInputRunToEnd raw (turns + 1) off = decodeInputRunToEnd raw turns off := by
  induction turns generalizing off with
  | zero => exact if_pos (Or.inl (by omega))
  | succ turns ih =>
    rw [decodeInputRunToEnd, decodeInputRunToEnd]
    split
    · rfl
    · refine bind_congr_ok fun read decoded => ?_
      have width : 1 ≤ read.2 := by
        cases rest : raw.drop off with
        | nil =>
          rw [rest] at decoded
          cases decoded
        | cons flags buf =>
          rw [rest, InputRecord.decodeAt] at decoded
          split at decoded
          · cases decoded
          · simp only [bind_eq_ok] at decoded
            obtain ⟨_, -, _, -, _, -, _, -, _, -, same⟩ := decoded
            cases same
            omega
      simp only [ih (show raw.length - (off + read.2) ≤ turns by omega)]

/-- The lengths are those of vectors in memory. -/
structure InputRecord.Fits (r : InputRecord) : Prop where
  scriptSig : r.scriptSig.length < 2 ^ 64
  count : r.witness.length < 2 ^ 64
  items : ∀ item ∈ r.witness, item.length < 2 ^ 64

open InputFlags

theorem seqsigwitFlags_spec (sequence : UInt32) (scriptSig : Bytes) (witness : List Bytes) :
    seqsigwitFlags sequence scriptSig witness &&& reservedHigh = 0 ∧
      seqsigwitFlags sequence scriptSig witness &&& prevOnInputs ≠ 0 ∧
      seqsigwitFlags sequence scriptSig witness &&& (nullPrev ||| prevOnInputs) ≠ 0 ∧
      (seqsigwitFlags sequence scriptSig witness &&& seqFinal ≠ 0 ↔ sequence = sequenceFinal) ∧
      (seqsigwitFlags sequence scriptSig witness &&& emptyScript ≠ 0 ↔ scriptSig = []) ∧
      (seqsigwitFlags sequence scriptSig witness &&& emptyWitness ≠ 0 ↔ witness.length = 0) := by
  unfold seqsigwitFlags flagWhen
  by_cases final : sequence = sequenceFinal <;> by_cases script : scriptSig = [] <;>
    by_cases items : witness.length = 0 <;>
    simp only [final, script, items] <;> decide

theorem length_le_flatMap_writeSized (items : List Bytes) :
    items.length ≤ (items.flatMap writeSized).length := by
  induction items with
  | nil => exact le_refl 0
  | cons item items ih =>
    have head : 0 < (compactSize item.length).length := compactSize_length_pos item.length
    rw [flatMap_cons, length_append, length_cons, writeSized, length_append]
    omega

theorem readItems_written {items : List Bytes} (small : ∀ item ∈ items, item.length < 2 ^ 64)
    (rest : Bytes) :
    readItems items.length (items.flatMap writeSized ++ rest) =
      .ok (items, (items.flatMap writeSized).length) := by
  induction items with
  | nil => rfl
  | cons item items ih =>
    obtain ⟨small, smaller⟩ := forall_mem_cons.mp small
    simp only [flatMap_cons, append_assoc, length_cons, readItems,
      readSized_writeSized small, ok_bind, drop_left, ih smaller, length_append]
    rfl

variable {witness : List Bytes} {flags : UInt8}

theorem readWitness_written (flag : flags &&& emptyWitness ≠ 0 ↔ witness.length = 0)
    (count : witness.length < 2 ^ 64) (small : ∀ item ∈ witness, item.length < 2 ^ 64)
    (rest : Bytes) :
    readWitness flags (unlessSet flags emptyWitness
        (compactSize witness.length ++ witness.flatMap writeSized) ++ rest) =
      .ok (witness, (unlessSet flags emptyWitness
        (compactSize witness.length ++ witness.flatMap writeSized)).length) := by
  unfold readWitness unlessSet
  by_cases none : flags &&& emptyWitness = 0
  · have inside : ¬(compactSize witness.length ++ (witness.flatMap writeSized ++ rest)).length -
        (compactSize witness.length).length < witness.length := by
      have := length_le_flatMap_writeSized witness
      simp only [length_append]
      omega
    rw [if_neg (not_not.mpr none), if_pos none, append_assoc]
    simp only [readCompactSize_compactSize count, liftPack, ok_bind, if_neg inside,
      drop_left, readItems_written small]
    rw [length_append]
    rfl
  · have empty := eq_nil_of_length_eq_zero (flag.mp none)
    rw [if_pos none, if_neg none, empty]
    rfl

variable {scriptSig : Bytes}

theorem readScriptSig_written (flag : flags &&& emptyScript ≠ 0 ↔ scriptSig = [])
    (small : scriptSig.length < 2 ^ 64) (rest : Bytes) :
    readScriptSig flags (unlessSet flags emptyScript (writeSized scriptSig) ++ rest) =
      .ok (scriptSig, (unlessSet flags emptyScript (writeSized scriptSig)).length) := by
  unfold readScriptSig unlessSet
  by_cases none : flags &&& emptyScript = 0
  · rw [if_neg (not_not.mpr none), if_pos none, readSized_writeSized small]
  · rw [if_pos none, if_neg none, flag.mp none]
    rfl

variable {sequence : UInt32}

theorem readSequence_written (flag : flags &&& seqFinal ≠ 0 ↔ sequence = sequenceFinal)
    (rest : Bytes) :
    readSequence flags (unlessSet flags seqFinal (toLe 4 sequence.toNat) ++ rest) =
      .ok (sequence, (unlessSet flags seqFinal (toLe 4 sequence.toNat)).length) := by
  unfold readSequence unlessSet
  by_cases none : flags &&& seqFinal = 0
  · have fits : sequence.toNat < 256 ^ 4 := sequence.toNat_lt
    rw [if_neg (not_not.mpr none), if_pos none, ofLe_take fits]
    simp
  · rw [if_pos none, if_neg none, flag.mp none]
    rfl

open InputRecord

theorem decodeAt_encodeSeqsigwitInput (script : scriptSig.length < 2 ^ 64)
    (count : witness.length < 2 ^ 64) (items : ∀ item ∈ witness, item.length < 2 ^ 64)
    (rest : Bytes) :
    decodeAt (encodeSeqsigwitInput sequence scriptSig witness ++ rest) =
      .ok (⟨TxRecord.zeroTxid, .unstamped, sequence, scriptSig, witness⟩,
        (encodeSeqsigwitInput sequence scriptSig witness).length) := by
  obtain ⟨free, elsewhere, -, final, noScript, noItems⟩ :=
    seqsigwitFlags_spec sequence scriptSig witness
  unfold encodeSeqsigwitInput
  have second (a b c : Bytes) : (a ++ (b ++ c)).drop (a.length + b.length) = c := by
    rw [← append_assoc, drop_left' (length_append)]
  simp only [cons_append, append_assoc, decodeAt, if_neg (not_not.mpr free),
    readInlinePrevout, if_pos elsewhere, ok_bind, pure_bind, drop_zero,
    zero_add, readSequence_written final, drop_left, readScriptSig_written noScript script,
    second, readWitness_written noItems count items]
  simp only [length_cons, length_append]
  refine congrArg Except.ok (congrArg (Prod.mk _) ?_)
  omega

section Hiding

variable (secret : StoreSecret)

theorem xorItems_written {items : List Bytes} (small : ∀ item ∈ items, item.length < 2 ^ 64)
    (wi : Nat) :
    xorItems secret items.length wi (items.flatMap writeSized) =
      (items.mapIdx fun i item => secret.xorBytes (witnessOff (wi + i)) item).flatMap
        writeSized := by
  induction items generalizing wi with
  | nil => rfl
  | cons item items ih =>
    obtain ⟨small, smaller⟩ := forall_mem_cons.mp small
    have later (i : Nat) : wi + 1 + i = wi + (i + 1) := by omega
    simp [xorItems, xorSized_writeSized small, ih smaller, later]

theorem xorWitness_written (count : witness.length < 2 ^ 64)
    (small : ∀ item ∈ witness, item.length < 2 ^ 64) :
    xorWitness secret flags (unlessSet flags emptyWitness
        (compactSize witness.length ++ witness.flatMap writeSized)) =
      unlessSet flags emptyWitness (compactSize witness.length ++
        (witness.mapIdx fun wi item => secret.xorBytes (witnessOff wi) item).flatMap
          writeSized) := by
  unfold xorWitness unlessSet
  by_cases none : flags &&& emptyWitness = 0
  · have inside : ¬(compactSize witness.length ++ witness.flatMap writeSized).length -
        (compactSize witness.length).length < witness.length := by
      have := length_le_flatMap_writeSized witness
      simp only [length_append]
      omega
    have hidden := xorItems_written secret small 0
    simp only [zero_add] at hidden
    simp only [none, ne_eq, not_true_eq_false, if_false, if_true,
      readCompactSize_compactSize count, if_neg inside, take_left, drop_left, hidden]
  · rw [if_pos none, if_neg none, if_neg none]

theorem xorScriptSig_written (small : scriptSig.length < 2 ^ 64) (rest : Bytes) :
    xorScriptSig secret flags (unlessSet flags emptyScript (writeSized scriptSig) ++ rest) =
      unlessSet flags emptyScript (writeSized (secret.xorBytes 0 scriptSig)) ++
        xorWitness secret flags rest := by
  unfold xorScriptSig unlessSet
  by_cases none : flags &&& emptyScript = 0
  · rw [if_neg (not_not.mpr none), if_pos none, if_pos none, xorSized_writeSized small]
  · rw [if_pos none, if_neg none, if_neg none]
    rfl

theorem xorScriptRegionsInInput_encode (script : scriptSig.length < 2 ^ 64)
    (count : witness.length < 2 ^ 64)
    (items : ∀ item ∈ witness, item.length < 2 ^ 64) :
    xorScriptRegionsInInput secret (encodeSeqsigwitInput sequence scriptSig witness) =
      encodeSeqsigwitInput sequence (secret.xorBytes 0 scriptSig)
        (witness.mapIdx fun wi item => secret.xorBytes (witnessOff wi) item) := by
  have same : seqsigwitFlags sequence (secret.xorBytes 0 scriptSig)
      (witness.mapIdx fun wi item => secret.xorBytes (witnessOff wi) item) =
        seqsigwitFlags sequence scriptSig witness := by
    simp [seqsigwitFlags, ← length_eq_zero_iff]
  obtain ⟨-, -, elsewhere, -, -, -⟩ := seqsigwitFlags_spec sequence scriptSig witness
  unfold encodeSeqsigwitInput
  rw [same]
  generalize seqsigwitFlags sequence scriptSig witness = flags at *
  have front : 0 + (if flags &&& seqFinal = 0 then 4 else 0) =
      (unlessSet flags seqFinal (toLe 4 sequence.toNat)).length := by
    unfold unlessSet
    split <;> simp
  simp [xorScriptRegionsInInput, skipInlinePrev, if_pos elsewhere, front,
    xorScriptSig_written secret script, xorWitness_written secret count items]

end Hiding

/-! ### A run is read back -/

def InputRecord.stored (r : InputRecord) : InputRecord :=
  ⟨TxRecord.zeroTxid, .unstamped, r.sequence, r.scriptSig, r.witness⟩

theorem InputRecord.shown_shown (secret : Option StoreSecret) (r : InputRecord) :
    (r.shown secret).shown secret = r := by
  have items : (r.witness.mapIdx fun wi item => hide secret (witnessOff wi) item).mapIdx
      (fun wi item => hide secret (witnessOff wi) item) = r.witness := by
    refine ext_getElem (by simp) fun i _ _ => ?_
    simp
  simp only [shown, hide_hide, items]

variable {r : InputRecord}

theorem encodeInputSecret_eq (fits : r.Fits) (secret : Option StoreSecret) :
    encodeInputSecret r secret = encodeSeqsigwitInput r.sequence (hide secret 0 r.scriptSig)
      (r.witness.mapIdx fun wi item => hide secret (witnessOff wi) item) := by
  cases secret with
  | none =>
    have same : (r.witness.mapIdx fun _ item => item) = r.witness :=
      ext_getElem (by simp) fun i _ _ => by simp
    simp only [encodeInputSecret, hide, same]
  | some secret => exact xorScriptRegionsInInput_encode secret fits.scriptSig fits.count fits.items

theorem decodeAt_encodeInputSecret (fits : r.Fits) (secret : Option StoreSecret) (rest : Bytes) :
    decodeAt (encodeInputSecret r secret ++ rest) =
      .ok (r.stored.shown secret, (encodeInputSecret r secret).length) := by
  rw [encodeInputSecret_eq fits]
  refine decodeAt_encodeSeqsigwitInput ?_ ?_ ?_ rest
  · rw [length_hide]
    exact fits.scriptSig
  · rw [length_mapIdx]
    exact fits.count
  · intro item mem
    obtain ⟨i, lt, rfl⟩ := mem_mapIdx.mp mem
    rw [length_hide]
    exact fits.items _ (getElem_mem lt)

theorem seqsigwitFlags_ne_zero (sequence : UInt32) (scriptSig : Bytes) (witness : List Bytes) :
    seqsigwitFlags sequence scriptSig witness ≠ 0 := by
  intro zero
  have elsewhere := (seqsigwitFlags_spec sequence scriptSig witness).2.1
  rw [zero] at elsewhere
  exact elsewhere rfl

theorem encodeInputSecret_head (fits : r.Fits) (secret : Option StoreSecret) :
    ∃ flags rest, encodeInputSecret r secret = flags :: rest ∧ flags ≠ 0 := by
  rw [encodeInputSecret_eq fits]
  exact ⟨_, _, rfl, seqsigwitFlags_ne_zero _ _ _⟩

section Runs

variable {ins : List InputRecord} (fits : ∀ r ∈ ins, r.Fits) (secret : Option StoreSecret)
include fits

theorem decodeInputRunPrefix_encode (front rest : Bytes) :
    decodeInputRunPrefix (front ++ (encodeInputRunSecret ins secret ++ rest)) ins.length
        front.length =
      .ok (ins.map fun r => r.stored.shown secret,
        front.length + (encodeInputRunSecret ins secret).length) := by
  induction ins generalizing front with
  | nil => rfl
  | cons r ins ih =>
    obtain ⟨fit, fits⟩ := forall_mem_cons.mp fits
    have later := ih fits (front ++ encodeInputSecret r secret)
    rw [append_assoc, length_append] at later
    simp only [encodeInputRunSecret, flatMap_cons, append_assoc, length_cons,
      decodeInputRunPrefix, drop_left, decodeAt_encodeInputSecret fit]
    simp only [encodeInputRunSecret] at later
    simp only [later, ok_bind, length_append, add_assoc]
    rfl

theorem decodeInputRunToEnd_encode (front : Bytes) (pad turns : Nat)
    (enough : (encodeInputRunSecret ins secret).length + pad ≤ turns) :
    decodeInputRunToEnd (front ++ (encodeInputRunSecret ins secret ++ replicate pad 0)) turns
        front.length =
      .ok (ins.map fun r => r.stored.shown secret,
        front.length + (encodeInputRunSecret ins secret).length) := by
  induction ins generalizing front turns with
  | nil =>
    cases turns with
    | zero => rfl
    | succ turns =>
      refine if_pos (.inr fun b mem => ?_)
      rw [drop_left] at mem
      exact eq_of_mem_replicate mem
  | cons r ins ih =>
    obtain ⟨fit, fits⟩ := forall_mem_cons.mp fits
    obtain ⟨flags, tail, starts, nonzero⟩ := encodeInputSecret_head fit secret
    have joined : encodeInputRunSecret (r :: ins) secret =
        encodeInputSecret r secret ++ encodeInputRunSecret ins secret := flatMap_cons
    have width : 1 ≤ (encodeInputSecret r secret).length := by
      rw [starts, length_cons]
      omega
    rw [joined, length_append] at enough
    obtain ⟨turns, rfl⟩ : ∃ turns', turns = turns' + 1 := ⟨turns - 1, by omega⟩
    have later := ih fits (front ++ encodeInputSecret r secret) turns (by omega)
    rw [append_assoc, length_append] at later
    have goes : ¬((front ++ (encodeInputSecret r secret ++ (encodeInputRunSecret ins secret ++
        replicate pad 0))).length ≤ front.length ∨
          ∀ b ∈ (front ++ (encodeInputSecret r secret ++ (encodeInputRunSecret ins secret ++
            replicate pad 0))).drop front.length, b = 0) := by
      rintro (short | zeros)
      · rw [length_append, length_append] at short
        omega
      · rw [drop_left, starts] at zeros
        exact nonzero (zeros flags mem_cons_self)
    rw [joined, append_assoc, decodeInputRunToEnd, if_neg goes, drop_left,
      decodeAt_encodeInputSecret fit]
    simp only [ok_bind, later, length_append, add_assoc]
    rfl

end Runs

/-- **Round trip.** A run of inputs is read back in order, whatever zeros follow it, with the number
of its inputs and without it: their sequence numbers, scriptSigs and witnesses, which are what a
record stores. -/
theorem decodeSeqsigwit_encode (ins : List InputRecord) (secret : Option StoreSecret) (pad : Nat)
    (fits : ∀ r ∈ ins, r.Fits) :
    decodeSeqsigwitSecret (encodeInputRunSecret ins secret ++ replicate pad 0) ins.length
        secret = .ok (ins.map InputRecord.stored) ∧
      decodeSeqsigwitSecretToEnd (encodeInputRunSecret ins secret ++ replicate pad 0) secret =
        .ok (ins.map InputRecord.stored) := by
  have padding := checkTrailingZeroPad_replicate (encodeInputRunSecret ins secret) pad
  have shown : (ins.map fun r => r.stored.shown secret).map (shown secret) = ins.map stored := by
    rw [map_map]
    exact map_congr_left fun r _ => r.stored.shown_shown secret
  have toEnd : decodeSeqsigwitSecretToEnd
      (encodeInputRunSecret ins secret ++ replicate pad 0) secret = .ok (ins.map stored) := by
    have run := decodeInputRunToEnd_encode fits secret [] pad
      (encodeInputRunSecret ins secret ++ replicate pad 0).length (by simp)
    simp only [nil_append, length_nil, zero_add] at run
    simp only [decodeSeqsigwitSecretToEnd, run, ok_bind, padding, shown]
    rfl
  refine ⟨?_, toEnd⟩
  by_cases none : ins.length = 0
  · rw [decodeSeqsigwitSecret, if_pos none]
    exact toEnd
  · have run := decodeInputRunPrefix_encode fits secret [] (replicate pad 0)
    simp only [nil_append, length_nil, zero_add] at run
    simp only [decodeSeqsigwitSecret, if_neg none, run, ok_bind, padding, shown]
    rfl

/-- A coinbase and an input with an empty scriptSig and two witness items. -/
theorem decodeSeqsigwit_encode_two : decodeSeqsigwitSecret
        (encodeInputRunSecret
          [⟨TxRecord.zeroTxid, .coinbase, sequenceFinal, [3, 1, 2, 3], []⟩,
            ⟨TxRecord.zeroTxid, .unstamped, 0, [], [[7, 8], []]⟩]
          (some ⟨replicate 32 5, rfl⟩) ++ replicate 3 0) 2
        (some ⟨replicate 32 5, rfl⟩) =
      .ok [⟨TxRecord.zeroTxid, .unstamped, sequenceFinal, [3, 1, 2, 3], []⟩,
        ⟨TxRecord.zeroTxid, .unstamped, 0, [], [[7, 8], []]⟩] := by
  refine (decodeSeqsigwit_encode _ _ 3 fun r mem => ?_).1
  simp only [mem_cons, not_mem_nil, or_false] at mem
  obtain rfl | rfl := mem
  · exact ⟨by decide, by decide, by decide⟩
  · exact ⟨by decide, by decide, by decide⟩

end Rbitcoin.Store
