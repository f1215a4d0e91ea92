import Rbitcoin.Store.TxRecord

/-! Rows of `txout.body`: the head of a transaction and a run of its outputs, each with its script
under the secret of the store. The decoder of a whole row reads back what was encoded, whatever
zeros follow it. -/

namespace Rbitcoin.Store

open Bytes Outcome Tx List

variable (secret : StoreSecret)

def StoreSecret.xorSpan (buf : Bytes) (a b : Nat) : Bytes :=
  buf.take a ++ secret.xorBytes 0 (buf.slice a b) ++ buf.drop b

/-- The hash or the data only: a length stays as it is. -/
def xorScriptKindV17Payload (kind : ScriptKind) (disk : Bytes) : Bytes :=
  match kind with
  | .empty | .opTrue | .p2a => disk
  | .p2pkh | .p2sh | .p2wpkh => if 20 ≤ disk.length then secret.xorSpan disk 0 20 else disk
  | .p2wsh | .p2tr => if 32 ≤ disk.length then secret.xorSpan disk 0 32 else disk
  | .raw | .opReturnPush =>
    match readCompactSize disk with
    | .error _ => disk
    | .ok (slen, n) => if slen ≤ disk.length - n then secret.xorSpan disk n (n + slen) else disk

/-- The bytes up to the first one that ends a LEB128 number. -/
def ulebLen : Bytes → Option Nat
  | [] => none
  | b :: buf => if b &&& 0x80 = 0 then some 1 else (ulebLen buf).map (· + 1)

def xorScriptRegionInOutput : Bytes → Bytes
  | [] => []
  | flags :: buf =>
    match ulebLen buf, ScriptKind.ofNibble (flags.toNat % 16) with
    | some n, some kind => flags :: (buf.take n ++ xorScriptKindV17Payload secret kind (buf.drop n))
    | _, _ => flags :: buf

namespace ScriptKind.OnDisk

variable {kind : ScriptKind} {head payload : Bytes}

theorem of_length (disk : kind.OnDisk head payload) {other : Bytes}
    (same : other.length = payload.length) : kind.OnDisk head other := by
  refine ⟨?_, fun counted rest => same ▸ disk.counted counted rest, disk.plain⟩
  have takes := disk.takes
  cases kind with
  | raw => trivial
  | empty | opTrue | p2a =>
    rw [show payload = [] from takes] at same
    exact eq_nil_of_length_eq_zero same
  | p2pkh | p2sh | p2wpkh | p2wsh | p2tr => exact same.trans takes
  | opReturnPush => exact ⟨same ▸ takes.1, same ▸ takes.2⟩

theorem xorPayload (disk : kind.OnDisk head payload) (secret : StoreSecret) :
    xorScriptKindV17Payload secret kind (head ++ payload) = head ++ secret.xorBytes 0 payload := by
  have takes := disk.takes
  have span : secret.xorSpan (head ++ payload) head.length (head ++ payload).length =
      head ++ secret.xorBytes 0 payload := by
    simp [StoreSecret.xorSpan, slice]
  cases kind with
  | empty | opTrue | p2a =>
    rw [show payload = [] from takes]
    rfl
  | p2pkh | p2sh | p2wpkh | p2wsh | p2tr =>
    have plain := disk.plain (by simp [Counted])
    subst plain
    simp only [nil_append, show payload.length = _ from takes] at span ⊢
    rw [xorScriptKindV17Payload, if_pos (show payload.length = _ from takes).ge]
    exact span
  | raw | opReturnPush =>
    have read := disk.counted (by simp [Counted]) payload
    rw [length_append] at span
    simp only [xorScriptKindV17Payload, read]
    rw [if_pos (by simp), span]

end ScriptKind.OnDisk

theorem ulebLen_writeUleb128Into {room n : Nat} {enc : Bytes}
    (written : writeUleb128Into room n = .ok enc) (rest : Bytes) :
    ulebLen (enc ++ rest) = some enc.length := by
  induction room generalizing n enc with
  | zero => cases written
  | succ room ih =>
    unfold writeUleb128Into at written
    split at written
    · cases written
      have last : UInt8.ofNat (n % 128) &&& 0x80 = 0 := by
        have low : ∀ k < 128, UInt8.ofNat k &&& 0x80 = 0 := by decide
        exact low _ (Nat.mod_lt _ (by decide))
      simp only [cons_append, ulebLen, if_pos last]
      rfl
    · obtain ⟨tail, more, same⟩ := bind_eq_ok.mp written
      cases same
      have later : UInt8.ofNat (n % 128 + 128) &&& 0x80 ≠ 0 := by
        have high : ∀ k < 128, UInt8.ofNat (k + 128) &&& 0x80 ≠ 0 := by decide
        exact high _ (Nat.mod_lt _ (by decide))
      simp only [cons_append, ulebLen, if_neg later, ih more]
      rfl

theorem ulebLen_writeUleb128 {n : Nat} (small : n < 2 ^ 64) (rest : Bytes) :
    ulebLen (writeUleb128 n ++ rest) = some (writeUleb128 n).length := by
  obtain ⟨enc, written, -⟩ :=
    writeUleb128Into_ok (show 0 < 10 by decide) (show n < 128 ^ 10 by omega)
  have same : writeUleb128 n = enc := by
    rw [writeUleb128, written]
    rfl
  rw [same]
  exact ulebLen_writeUleb128Into written rest

def encodeUnspentOutputIntoSecret (value : Nat) (script : Bytes) (secret : Option StoreSecret) :
    Bytes :=
  match secret with
  | none => OutputRecord.encodeUnspentInto value script
  | some secret => xorScriptRegionInOutput secret (OutputRecord.encodeUnspentInto value script)

/-- What is read of a record before its script: the kind, the amount, where the payload starts and
the bytes that it takes. -/
structure OutputHead where
  kind : ScriptKind
  value : Nat
  start : Nat
  used : Nat
  deriving DecidableEq, Repr

namespace OutputHead

def next (h : OutputHead) : Nat := h.start + h.used

def read : Bytes → Result OutputHead
  | [] => corrupt "short output record"
  | flags :: buf => do
    let (nibble, exp) ← splitOutputFlags flags
    let (value, n) ← decodeOutputAmount exp buf
    match ScriptKind.ofNibble nibble with
    | none => corrupt "v17 reserved script kind"
    | some kind => do
      let used ← scriptKindV17DiskUsed kind (buf.drop n)
      return ⟨kind, value, 1 + n, used⟩

theorem read_spec {buf : Bytes} {h : OutputHead} (ok : read buf = .ok h) :
    ∃ flags, buf.head? = some flags ∧ ScriptKind.ofNibble (flags.toNat % 16) = some h.kind ∧
      2 ≤ h.start ∧ h.next ≤ buf.length ∧
      scriptKindV17DiskUsed h.kind (buf.drop h.start) = .ok h.used := by
  cases buf with
  | nil => cases ok
  | cons flags buf =>
    obtain ⟨⟨nibble, exp⟩, split_, ok⟩ := bind_eq_ok.mp ok
    obtain ⟨⟨value, n⟩, amount, ok⟩ := bind_eq_ok.mp ok
    have low : nibble = flags.toNat % 16 := by
      unfold splitOutputFlags at split_
      split at split_
      · cases split_
      · cases split_
        rfl
    have width := decodeOutputAmount_used amount
    dsimp only at ok
    split at ok
    · cases ok
    · next kind some_kind =>
      obtain ⟨used, disk, ok⟩ := bind_eq_ok.mp ok
      cases ok
      have inside := scriptKindV17DiskUsed_le disk
      rw [length_drop] at inside
      refine ⟨flags, rfl, low ▸ some_kind, by simp only; omega, ?_, ?_⟩
      · simp only [next, length_cons]
        omega
      · rw [show 1 + n = n + 1 by omega]
        exact disk

end OutputHead

namespace OutputRecord

def decodeAtSecret (buf : Bytes) (secret : Option StoreSecret) : Result (OutputRecord × Nat) := do
  let h ← OutputHead.read buf
  let disk :=
    match secret with
    | none => buf.drop h.start
    | some secret => xorScriptKindV17Payload secret h.kind (buf.slice h.start h.next)
  let (script, _) ← decodeScriptKindV17 h.kind disk
  return (⟨h.value, script⟩, h.next)

section Payload

variable {buf head payload rest : Bytes} {h : OutputHead} {secret : Option StoreSecret}

theorem slice_payload (whole : buf.drop h.start = head ++ (payload ++ rest))
    (used : h.used = (head ++ payload).length) :
    buf.slice h.start h.next = head ++ payload := by
  rw [slice, whole, OutputHead.next, Nat.add_sub_cancel_left, used, ← append_assoc, take_left]

theorem decodeAtSecret_eq {script : Bytes} (read : OutputHead.read buf = .ok h)
    (disk : h.kind.OnDisk head payload) (whole : buf.drop h.start = head ++ (payload ++ rest))
    (used : h.used = (head ++ payload).length)
    (expands : expandScriptKind h.kind (hide secret 0 payload) = .ok script) :
    decodeAtSecret buf secret = .ok (⟨h.value, script⟩, h.next) := by
  unfold decodeAtSecret
  rw [read]
  cases secret with
  | none =>
    simp only [ok_bind, whole, disk.decode rest expands]
    rfl
  | some secret =>
    have shown := (disk.of_length (secret.length_xorBytes 0 payload)).decode [] expands
    rw [append_nil] at shown
    simp only [ok_bind, slice_payload whole used, disk.xorPayload secret, shown]
    rfl

theorem head_of_decodeAtSecret {rec : OutputRecord} {n : Nat}
    (ok : decodeAtSecret buf secret = .ok (rec, n)) :
    ∃ h, OutputHead.read buf = .ok h ∧ n = h.next := by
  obtain ⟨h, read, ok⟩ := bind_eq_ok.mp ok
  obtain ⟨⟨script, _⟩, -, ok⟩ := bind_eq_ok.mp ok
  cases ok
  exact ⟨h, read, rfl⟩

theorem decodeAtSecret_used {rec : OutputRecord} {n : Nat}
    (ok : decodeAtSecret buf secret = .ok (rec, n)) : 2 ≤ n ∧ n ≤ buf.length := by
  obtain ⟨h, read, rfl⟩ := head_of_decodeAtSecret ok
  obtain ⟨-, -, -, start, inside, -⟩ := OutputHead.read_spec read
  exact ⟨start.trans (Nat.le_add_right _ _), inside⟩

theorem decodeAtSecret_of_head (read : OutputHead.read buf = .ok h) (secret : Option StoreSecret) :
    ∃ head payload script, h.kind.OnDisk head payload ∧
      buf.drop h.start = head ++ (payload ++ buf.drop h.next) ∧
      buf.slice h.start h.next = head ++ payload ∧
      expandScriptKind h.kind (hide secret 0 payload) = .ok script ∧
      decodeAtSecret buf secret = .ok (⟨h.value, script⟩, h.next) := by
  obtain ⟨-, -, -, -, -, counted⟩ := OutputHead.read_spec read
  obtain ⟨head, payload, disk, whole, used⟩ := onDisk_of_diskUsed counted
  obtain ⟨script, expands⟩ := (disk.of_length (length_hide secret 0 payload)).takes.expands
  rw [drop_drop] at whole
  exact ⟨head, payload, script, disk, whole, slice_payload whole used, expands,
    decodeAtSecret_eq read disk whole used expands⟩

end Payload

theorem encodeUnspentOutputIntoSecret_eq {value : Nat} {script : Bytes} (amount : value < 2 ^ 64)
    (small : script.length < 2 ^ 64) (secret : Option StoreSecret) :
    ∃ kind exp mantissa head payload, amountExpMantissa value = (exp, mantissa) ∧
      exp ≤ amountExpMax ∧ kind.OnDisk head (hide secret 0 payload) ∧
      expandScriptKind kind payload = .ok script ∧
      encodeUnspentOutputIntoSecret value script secret = UInt8.ofNat (kind.nibble + exp * 16) ::
          (writeUleb128 mantissa ++ (head ++ hide secret 0 payload)) := by
  obtain ⟨exp, mantissa, split, le, short, -⟩ := scaleAmountExp_amountExpMantissa amount
  obtain ⟨kind, payload, same, takes, expands, shorter⟩ := classifyScript_spec script
  obtain ⟨head, joined, disk⟩ := ScriptKind.onDisk_write takes (by omega)
  refine ⟨kind, exp, mantissa, head, payload, split, le,
    disk.of_length (length_hide secret 0 payload), expands, ?_⟩
  have plain : encodeUnspentInto value script = UInt8.ofNat (kind.nibble + exp * 16) ::
      (writeUleb128 mantissa ++ (head ++ payload)) := by
    simp only [encodeUnspentInto, split, encodeScriptKindV17_eq same, joined]
  cases secret with
  | none => exact plain
  | some secret =>
    have low : (UInt8.ofNat (kind.nibble + exp * 16)).toNat % 16 = kind.nibble := by
      rw [toNat_flags kind le, Nat.add_mul_mod_self_right, Nat.mod_eq_of_lt (nibble_lt kind)]
    simp only [encodeUnspentOutputIntoSecret, plain, xorScriptRegionInOutput,
      ulebLen_writeUleb128 short, low, ofNibble_nibble, take_left, drop_left,
      disk.xorPayload secret]
    rfl

theorem decodeAtSecret_encode {value : Nat} {script : Bytes} (amount : value ≤ i64Max)
    (small : script.length < 2 ^ 64) (secret : Option StoreSecret) (rest : Bytes) :
    decodeAtSecret (encodeUnspentOutputIntoSecret value script secret ++ rest) secret =
      .ok (⟨value, script⟩, (encodeUnspentOutputIntoSecret value script secret).length) := by
  have amount' : value < 2 ^ 64 := lt_of_le_of_lt amount (by decide)
  obtain ⟨kind, exp, mantissa, head, payload, split, le, disk, expands, same⟩ :=
    encodeUnspentOutputIntoSecret_eq amount' small secret
  have written :=
    decodeOutputAmount_written amount' split (head ++ (hide secret 0 payload ++ rest))
  rw [if_neg (not_lt.mpr amount)] at written
  have read : OutputHead.read (encodeUnspentOutputIntoSecret value script secret ++ rest) =
      .ok ⟨kind, value, 1 + (writeUleb128 mantissa).length,
        (head ++ hide secret 0 payload).length⟩ := by
    simp only [same, cons_append, append_assoc, OutputHead.read, splitOutputFlags_ofNat kind le,
      ok_bind, written, ofNibble_nibble, drop_left, disk.diskUsed rest]
    rfl
  have whole : (encodeUnspentOutputIntoSecret value script secret ++ rest).drop
      (1 + (writeUleb128 mantissa).length) = head ++ (hide secret 0 payload ++ rest) := by
    rw [same, add_comm]
    simp
  rw [decodeAtSecret_eq read disk whole rfl (by rw [hide_hide]; exact expands), same]
  simp [OutputHead.next]
  omega

end OutputRecord

def encodeOutputRunSecret (recs : List OutputRecord) (secret : Option StoreSecret) : Bytes :=
  recs.flatMap fun r => encodeUnspentOutputIntoSecret r.value r.script secret

def encodeTxoutMetaAndOuts (tx : TxRecord) (outputs : List OutputRecord)
    (secret : Option StoreSecret) : Bytes :=
  tx.encodeBodyMetaV17 ++ encodeOutputRunSecret outputs secret

/-- So many outputs from an offset on, each with the offset where it starts, and where they end. -/
def decodeOutputs (raw : Bytes) (secret : Option StoreSecret) :
    Nat → Nat → Result (List (Nat × OutputRecord) × Nat)
  | 0, off => .ok ([], off)
  | n + 1, off =>
    if raw.length ≤ off then corrupt "packed outputs short"
    else do
      let (rec, used) ← OutputRecord.decodeAtSecret (raw.drop off) secret
      let (recs, logicalEnd) ← decodeOutputs raw secret n (off + used)
      return ((off, rec) :: recs, logicalEnd)

def decodePackedRow (raw : Bytes) (nOut : Nat) (secret : Option StoreSecret) :
    Result (TxRecord × List (Nat × OutputRecord)) := do
  let (rec, off) ← TxRecord.decodeBodyMetaV17 raw
  if nOut = 0 then corrupt "invariant: create n_out"
  else
    let (outs, logicalEnd) ← decodeOutputs raw secret nOut off
    checkTrailingZeroPad raw logicalEnd
    return ({ rec with outputCount := nOut }, outs)

/-- The head, the outputs and the `u32` offsets of the outputs in the row. -/
def decodePackedTxOutsWithSpenderRelsSecret (raw : Bytes) (nOut : Nat)
    (secret : Option StoreSecret) : Result (TxRecord × List OutputRecord × List Nat) := do
  let (rec, outs) ← decodePackedRow raw nOut secret
  return (rec, outs.map (·.2), outs.map (·.1 % 2 ^ 32))

theorem decodeOutputs_encode (outputs : List OutputRecord) (secret : Option StoreSecret)
    (front rest : Bytes) (values : ∀ o ∈ outputs, o.value ≤ i64Max)
    (scripts : ∀ o ∈ outputs, o.script.length < 2 ^ 64) :
    ∃ outs, decodeOutputs (front ++ (encodeOutputRunSecret outputs secret ++ rest)) secret
        outputs.length front.length =
        .ok (outs, front.length + (encodeOutputRunSecret outputs secret).length) ∧
      outs.map (·.2) = outputs := by
  induction outputs generalizing front with
  | nil => exact ⟨[], rfl, rfl⟩
  | cons o outputs ih =>
    obtain ⟨value, values⟩ := forall_mem_cons.mp values
    obtain ⟨script, scripts⟩ := forall_mem_cons.mp scripts
    have read := OutputRecord.decodeAtSecret_encode value script secret
      (encodeOutputRunSecret outputs secret ++ rest)
    obtain ⟨outs, run, same⟩ :=
      ih (front ++ encodeUnspentOutputIntoSecret o.value o.script secret) values scripts
    have joined : encodeOutputRunSecret (o :: outputs) secret =
        encodeUnspentOutputIntoSecret o.value o.script secret ++
          encodeOutputRunSecret outputs secret := flatMap_cons
    have width := (OutputRecord.decodeAtSecret_used read).1
    rw [joined]
    rw [append_assoc, length_append] at run
    refine ⟨(front.length, o) :: outs, ?_, by rw [map_cons, same]⟩
    rw [length_cons, decodeOutputs, if_neg, drop_left, append_assoc, read]
    · simp only [ok_bind, run, length_append, add_assoc]
      rfl
    · simp only [length_append]
      omega

/-- **Round trip.** An encoded row is decoded, whatever zeros follow it: the head without the txid
and the number of inputs, which are stored elsewhere, and the outputs in order. A script is its
kind and its payload, a template is recognised, and an amount has exactly one code. -/
theorem decodePackedTxOuts_encode (tx : TxRecord) (outputs : List OutputRecord)
    (secret : Option StoreSecret) (pad : Nat) (nonempty : outputs ≠ [])
    (values : ∀ o ∈ outputs, o.value ≤ i64Max)
    (scripts : ∀ o ∈ outputs, o.script.length < 2 ^ 64) :
    (∃ rels, decodePackedTxOutsWithSpenderRelsSecret
        (encodeTxoutMetaAndOuts tx outputs secret ++ replicate pad 0) outputs.length secret =
      .ok ({ tx with txid := TxRecord.zeroTxid, inputCount := 0, outputCount := outputs.length },
        outputs, rels)) ∧
      (∀ script, expandScriptKind (classifyScript script).1 (classifyScript script).2 =
        .ok script) ∧
      (∀ kind payload script, kind ≠ .raw → expandScriptKind kind payload = .ok script →
        classifyScript script = (kind, payload)) ∧
      (∀ value < 2 ^ 64,
        scaleAmountExp (amountExpMantissa value).1 (amountExpMantissa value).2 = .ok value) ∧
      ∀ exp mantissa value, scaleAmountExp exp mantissa = .ok value →
        amountExpMantissa value = (exp, mantissa) := by
  refine ⟨?_, fun script => ?_, fun _ _ _ => classifyScript_of_expand, fun value small => ?_,
    fun _ _ _ => amountExpMantissa_of_scale⟩
  · have head := tx.decodeBodyMetaV17_encode
      (encodeOutputRunSecret outputs secret ++ replicate pad 0)
    obtain ⟨outs, run, same⟩ := decodeOutputs_encode outputs secret tx.encodeBodyMetaV17
      (replicate pad 0) values scripts
    have padding :=
      checkTrailingZeroPad_replicate (encodeTxoutMetaAndOuts tx outputs secret) pad
    rw [encodeTxoutMetaAndOuts, length_append, append_assoc] at padding
    have some_out : outputs.length ≠ 0 := mt eq_nil_of_length_eq_zero nonempty
    refine ⟨outs.map (·.1 % 2 ^ 32), ?_⟩
    simp only [decodePackedTxOutsWithSpenderRelsSecret, decodePackedRow, encodeTxoutMetaAndOuts,
      append_assoc, head, ok_bind, if_neg some_out, run, padding]
    simp only [pure_bind, same]
    rfl
  · obtain ⟨kind, payload, same, -, expands, -⟩ := classifyScript_spec script
    rw [same]
    exact expands
  · obtain ⟨exp, mantissa, same, -, -, scaled⟩ := scaleAmountExp_amountExpMantissa small
    rw [same]
    exact scaled

/-- A row of two outputs, a taproot key and a script that is no template. -/
def sampleOutputs : List OutputRecord :=
  [⟨150000, p2trPrefix ++ replicate 32 9⟩, ⟨0, [opReturn, opReturn]⟩]

theorem decodePackedTxOuts_encode_sample : ∃ rels, decodePackedTxOutsWithSpenderRelsSecret
        (encodeTxoutMetaAndOuts ⟨replicate 32 1, 2, 7, 3, 2⟩ sampleOutputs
          (some ⟨replicate 32 5, rfl⟩) ++ replicate 4 0) 2
        (some ⟨replicate 32 5, rfl⟩) =
      .ok (⟨TxRecord.zeroTxid, 2, 7, 0, 2⟩, sampleOutputs, rels) :=
  (decodePackedTxOuts_encode ⟨replicate 32 1, 2, 7, 3, 2⟩ sampleOutputs
    (some ⟨replicate 32 5, rfl⟩) 4 (by decide) (by decide) (by decide)).1

/-- A record with inputs, or with a txid, does not come back: neither is in the row. And a raw
payload that is a template script comes back under the kind of the template. -/
theorem decodePackedTxOuts_drops :
    (decodePackedTxOutsWithSpenderRelsSecret
        (encodeTxoutMetaAndOuts ⟨TxRecord.zeroTxid, 2, 7, 1, 1⟩ [⟨5, []⟩] none) 1
        none).toOption.map (·.1) ≠ some ⟨TxRecord.zeroTxid, 2, 7, 1, 1⟩ ∧
      (decodePackedTxOutsWithSpenderRelsSecret
        (encodeTxoutMetaAndOuts ⟨replicate 32 1, 2, 7, 0, 1⟩ [⟨5, []⟩] none) 1
        none).toOption.map (·.1) ≠ some ⟨replicate 32 1, 2, 7, 0, 1⟩ ∧
      (expandScriptKind .raw (0 :: 20 :: replicate 20 3)).toOption.map classifyScript =
        some (.p2wpkh, replicate 20 3) := by
  decide +kernel

end Rbitcoin.Store
