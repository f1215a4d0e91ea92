import Rbitcoin.Script.Interpreter

/-! Verification of one input: the typed paths for the standard templates and the routing between
them. Every script run is `evalScriptWith`; the source is the instance with the limit tested on
push. -/

namespace Rbitcoin.Script

open Bytes Tx Outcome EvalContext

/-- How a spent output is verified. -/
inductive ScriptKind
  | p2wpkh | p2wsh | p2tr | p2pkh | p2sh | bare
  deriving DecidableEq, Repr

def witnessProgram (B : Bitcoin) (script : Bytes) : Option (Nat × Bytes) :=
  (B.witnessVersion script).map fun version => (version, script.drop 2)

def classify (B : Bitcoin) (script : Bytes) : ScriptKind :=
  if B.isP2wpkh script then .p2wpkh
  else if B.isP2wsh script then .p2wsh
  else if B.isP2tr script then .p2tr
  else if B.isP2pkh script then .p2pkh
  else if B.isP2sh script then .p2sh
  else .bare

def needsInterpretedEcdsa (job : ScriptCheckJob) : Bool :=
  job.flags.lowS || job.flags.strictenc || job.flags.nullfail

variable (B : Bitcoin) (lim : StackLimit) (job : ScriptCheckJob) (i : job.InputIndex)

namespace P2pkh

def parseTwoPushesFrom : List (Option (Nat × Instruction)) → (sig pubkey : Option Bytes) →
    Result (Bytes × Bytes)
  | [], some sig, some pubkey => .ok (sig, pubkey)
  | [], _, _ => fail "p2pkh scriptSig len"
  | none :: _, _, _ => fail "p2pkh scriptSig"
  | some (_, .op _) :: _, _, _ => fail "p2pkh scriptSig unexpected op"
  | some (_, .pushBytes b) :: items, sig, pubkey =>
    if maxScriptElementSize < b.length then fail "p2pkh scriptSig"
    else
      match sig, pubkey with
      | none, pubkey => parseTwoPushesFrom items (some b) pubkey
      | sig, none => parseTwoPushesFrom items sig (some b)
      | _, _ => fail "p2pkh scriptSig len"

/-- The signature and key of a scriptSig that is exactly two pushes. -/
def parseTwoPushes (scriptSig : Bytes) : Result (Bytes × Bytes) :=
  parseTwoPushesFrom (B.instructionIndices scriptSig) none none

/-- What `FindAndDelete` leaves of the template: a signature equal to the key hash deletes it. -/
def sighashScriptCode (spk sig : Bytes) : Bytes :=
  if spk.length = 25 ∧ sig.length = 20 ∧ sig = spk.slice 3 23 then
    [opDup, opHash160, opEqualverify, opChecksig]
  else spk

def verify (spk : Bytes) : Result Unit := do
  let keyhash := spk.slice 3 23
  let (sigRaw, pubkeyRaw) ← parseTwoPushes B (job.txIn i).scriptSig
  rejectIf (B.hash160 pubkeyRaw ≠ keyhash) (.script "p2pkh pubkey hash")
  let (sig, sighashTy) ← parseDerSig B sigRaw job.flags.bip66Active
  let pubkey ← parsePubkey B pubkeyRaw
  match B.legacySignatureHash job.tx i (sighashScriptCode spk sigRaw) sighashTy with
  | none => fail "p2pkh sighash"
  | some sighash => rejectIf (verifyEcdsa B sighash sig pubkey = false) (.script "p2pkh ecdsa")

/-- The scriptSig is not two pushes, which the interpreter may still accept. -/
def scriptsigShapeError : ConsensusError → Bool
  | .script msg => msg == "p2pkh scriptSig len" || msg == "p2pkh scriptSig" ||
      msg == "p2pkh scriptSig op" || msg == "p2pkh scriptSig unexpected op"
  | .internal _ => false

end P2pkh

namespace P2wsh

/-- Run a witness script on its items, which must leave exactly one true element. -/
def executeWitnessV0 (script : Bytes) (items : List Bytes) (amount : UInt64) : Result Unit := do
  rejectIf (items.any fun item => maxScriptElementSize < item.length) (.script "PUSH_SIZE")
  let ctx ← fromJob job i amount script .witnessV0
  let (_, stack) ← evalScriptWith B lim script items.reverse ctx
  requireCleanTrue B stack

def verifyWithScripthash (scripthash : Bytes) (amount : UInt64) : Result Unit :=
  let witness := (job.txIn i).witness
  match witness.getLast? with
  | none => fail "p2wsh empty witness"
  | some script => do
    rejectIf (B.sha256 script ≠ scripthash) (.script "p2wsh script hash")
    executeWitnessV0 B lim job i script witness.dropLast amount

def verify (spk : Bytes) (amount : UInt64) : Result Unit :=
  verifyWithScripthash B lim job i (spk.slice 2 34) amount

end P2wsh

namespace P2wpkh

def witnessPair (input : TxIn) : Result (Bytes × Bytes) :=
  match input.witness with
  | [sigRaw, pubkeyRaw] => .ok (sigRaw, pubkeyRaw)
  | _ => fail "p2wpkh witness len"

def checkElementSizes (sigRaw pubkeyRaw : Bytes) : Result Unit :=
  rejectIf (maxScriptElementSize < sigRaw.length ∨ maxScriptElementSize < pubkeyRaw.length)
    (.script "PUSH_SIZE")

def bip143SignatureHash (scriptPubkey : Bytes) (amount : UInt64) (rawTy : UInt32)
    (pre : TxScriptPrecompute) : Result Bytes :=
  match B.p2wpkhScriptCode scriptPubkey with
  | none => fail "bip143 not p2wpkh"
  | some scriptCode => B.bip143SignatureHash job.tx i scriptCode amount rawTy pre

def verifyLoaded (keyhash program : Bytes) (pre : TxScriptPrecompute) (amount : UInt64)
    (sigRaw pubkeyRaw : Bytes) : Result Unit := do
  checkElementSizes sigRaw pubkeyRaw
  rejectIf (B.hash160 pubkeyRaw ≠ keyhash) (.script "p2wpkh pubkey hash")
  rejectIf (job.flags.witnessPubkeytype ∧ isCompressedPubkey pubkeyRaw = false)
    (.script "WITNESS_PUBKEYTYPE")
  let (sig, sighashTy) ← parseDerSig B sigRaw job.flags.bip66Active
  let pubkey ← parsePubkey B pubkeyRaw
  let sighash ← bip143SignatureHash B job i program amount sighashTy pre
  rejectIf (verifyEcdsa B sighash sig pubkey = false) (.script "p2wpkh ecdsa")

def verify (pre : TxScriptPrecompute) (spk : Bytes) (amount : UInt64) : Result Unit :=
  match spk.slice? 2 22 with
  | none => fail "p2wpkh program"
  | some keyhash => do
    let (sigRaw, pubkeyRaw) ← witnessPair (job.txIn i)
    rejectIf (sigRaw = [] ∨ pubkeyRaw = []) (.script "p2wpkh empty witness item")
    verifyLoaded B job i keyhash spk pre amount sigRaw pubkeyRaw

/-- P2WPKH nested in P2SH: `program` is the redeem script. -/
def verifyWithKeyhash (keyhash program : Bytes) (pre : TxScriptPrecompute) (amount : UInt64) :
    Result Unit := do
  let (sigRaw, pubkeyRaw) ← witnessPair (job.txIn i)
  verifyLoaded B job i keyhash program pre amount sigRaw pubkeyRaw

def verifyInterpreted (keyhash : Bytes) (amount : UInt64) : Result Unit := do
  let witness := (job.txIn i).witness
  rejectIf (witness.length ≠ 2) (.script "p2wpkh witness len")
  P2wsh.executeWitnessV0 B lim job i (p2pkhPrefix ++ keyhash ++ p2pkhSuffix) witness amount

end P2wpkh

namespace P2tr

/-- BIP341 annex: the last of at least two witness items, when it starts with `0x50`. -/
def bip341Annex (witness : List Bytes) : Option Bytes :=
  if witness.length < 2 then none
  else witness.getLast?.filter fun last => last.head? == some opReserved

def annexHash (annex : Bytes) : Bytes :=
  B.sha256 (B.enc.varInt annex.length ++ annex)

def verifyKeyPath (outputKey : Bytes) (amount : UInt64) (spentScript : Bytes) : Result Unit :=
  let witness := (job.txIn i).witness
  let check (sigBytes : Bytes) (sighashTy : UInt8) : Result Unit :=
    match B.xOnlyFromSlice outputKey with
    | none => fail "p2tr xonly"
    | some xonly => do
      let sighash ← B.tapSignatureHash job i sighashTy ((bip341Annex witness).map (annexHash B))
        none amount spentScript
      rejectIf (B.secpVerifySchnorr sigBytes sighash xonly = false) (.script "p2tr schnorr")
  match witness.head? with
  | none => fail "p2tr sig"
  | some sigRaw =>
    if sigRaw.length = 64 then check sigRaw 0
    else if sigRaw.length = 65 then
      if sigRaw.byteAt 64 = 0x00 then fail "p2tr sighash type"
      else
        match B.tapSighashType (sigRaw.byteAt 64) with
        | none => fail "p2tr sighash type"
        | some ty => check (sigRaw.take 64) ty
    else fail "p2tr sig len"

def outputKeyMatchesTweak (internal outputKey : B.XOnlyPublicKey) (odd : Bool) (tweak : Bytes) :
    Bool :=
  match B.scalarFromBeBytes tweak with
  | none => false
  | some scalar => B.tweakAddCheck internal outputKey odd scalar

/-- The root above a leaf along `nodes` 32-byte steps of a control block. -/
def merkleRoot (control : Bytes) (leaf : Bytes) : Nat → Bytes
  | 0 => leaf
  | nodes + 1 =>
    B.tapNodeHash (merkleRoot control leaf nodes)
      (control.slice (33 + nodes * 32) (33 + nodes * 32 + 32))

/-- BIP341 commitment: the leaf version and the leaf hash. -/
def verifyControlCommitment (control outputKeyBytes script : Bytes) : Result (UInt8 × Bytes) := do
  let extra := control.length - 33
  rejectIf (control.length < 33) (.script "TAPROOT_WRONG_CONTROL_SIZE")
  rejectIf (extra % 32 ≠ 0 ∨ 128 < extra / 32) (.script "TAPROOT_WRONG_CONTROL_SIZE")
  let leaf := control.byteAt 0 &&& 0xfe
  match B.xOnlyFromSlice (control.slice 1 33), B.xOnlyFromSlice outputKeyBytes with
  | some internal, some outputKey =>
    let tapleafHash := B.tapLeafHash leaf script
    let tweak := B.tapTweakHash internal (merkleRoot B control tapleafHash (extra / 32))
    rejectIf
      (outputKeyMatchesTweak B internal outputKey (control.byteAt 0 &&& 1 != 0) tweak = false)
      (.script "WITNESS_PROGRAM_MISMATCH")
    return (leaf, tapleafHash)
  | _, _ => fail "WITNESS_PROGRAM_MISMATCH"

def verifyScriptPath (outputKey : Bytes) (amount : UInt64) (spentScript : Bytes) :
    Result Unit := do
  let witness := (job.txIn i).witness
  let annex := bip341Annex witness
  let items := if annex.isSome then witness.dropLast else witness
  match items.reverse with
  | control :: script :: stack =>
    let (leaf, tapleafHash) ← verifyControlCommitment B control outputKey script
    -- an unknown leaf version is valid without running the script
    if leaf ≠ 0xc0 then .ok ()
    else
      let exec := { job, inputIndex := i, tapleafHash, spentValue := amount, spentScript,
                    annexHash := annex.map (annexHash B) }
      let ctx ← fromJob job i amount script .tapScript
      let (check, stack) ← evalScriptWith B lim script stack { ctx with tapscript := some exec }
      if check then requireCleanTrue B stack else .ok ()
  | _ => fail "p2tr script path short"

def verify (amount : UInt64) (spk : Bytes) : Result Unit :=
  let outputKey := spk.slice 2 34
  let witness := (job.txIn i).witness
  if witness.length = 0 then fail "p2tr empty witness"
  else if witness.length = 1 ∨ (witness.length = 2 ∧ (bip341Annex witness).isSome) then
    verifyKeyPath B job i outputKey amount spk
  else verifyScriptPath B lim job i outputKey amount spk

end P2tr

/-- The last test of a bare or P2SH spend. -/
def requireFinal (stack : List Bytes) : Result Unit :=
  if job.flags.cleanstack then requireCleanTrue B stack else requireTrueTop B stack

/-- Run scriptSig, then scriptPubKey on its stack. -/
def verifyBare (amount : UInt64) (script : Bytes) : Result Unit := do
  let scriptSig := (job.txIn i).scriptSig
  let stack ← (if scriptSig = [] then .ok []
    else do
      let ctx ← fromJob job i amount scriptSig .base
      let (_, stack) ← evalScriptWith B lim scriptSig [] ctx
      return stack)
  let ctx ← fromJob job i amount script .base
  let (_, stack) ← evalScriptWith B lim script stack ctx
  requireFinal B job stack

namespace Nested

def checkP2shRedeemHash (spk redeem : Bytes) : Result Unit := do
  rejectIf (spk.length ≠ 23) (.script "p2sh spk")
  rejectIf (B.hash160 redeem ≠ spk.slice 2 22) (.script "p2sh redeem hash")

/-- A direct push; witness programs are short enough for one. -/
def minimalPushEncoding (data : Bytes) : Bytes := UInt8.ofNat data.length :: data

/-- Stands in for the one push of the scriptPubKey run. -/
def requireRoomForP2shHashPush (stack : List Bytes) : Result Unit :=
  rejectIf (maxStackSize ≤ stack.length) (.script "stack size")

def p2shScriptSigStack (amount : UInt64) : Result (List Bytes) := do
  let scriptSig := (job.txIn i).scriptSig
  let ctx ← fromJob job i amount scriptSig .base
  let (_, stack) ← evalScriptWith B lim scriptSig [] ctx
  requireRoomForP2shHashPush stack
  rejectIf (B.isPushOnly scriptSig = false) (.script "p2sh scriptSig op")
  return stack

/-- A redeem script that is a witness program; `none` for any other. -/
def tryP2shNestedSegwit (pre : TxScriptPrecompute) (items : List Bytes) (amount : UInt64)
    (outer : Bytes) : Option (Result Unit) :=
  if job.flags.witnessActive = false then none
  else
    match items with
    | [] => none
    | redeem :: below =>
      match witnessProgram B redeem with
      | none => none
      | some (version, program) => some do
        rejectIf (below ≠ [] ∨ (job.txIn i).scriptSig ≠ minimalPushEncoding redeem)
          (.script "WITNESS_MALLEATED_P2SH")
        checkP2shRedeemHash B outer redeem
        rejectIf (B.readScriptbool program = false) (.script "EVAL_FALSE")
        if version = 0 ∧ program.length = 20 then
          if needsInterpretedEcdsa job then P2wpkh.verifyInterpreted B lim job i program amount
          else P2wpkh.verifyWithKeyhash B job i program redeem pre amount
        else if version = 0 ∧ program.length = 32 then
          P2wsh.verifyWithScripthash B lim job i program amount
        else if version = 0 then fail "WITNESS_PROGRAM_WRONG_LENGTH"
        else
          rejectIf job.flags.discourageUpgradableWitness
            (.script "DISCOURAGE_UPGRADABLE_WITNESS_PROGRAM")

/-- Run the redeem script on what the scriptSig left below it. -/
def verifyP2shLegacy (stack : List Bytes) (amount : UInt64) (outer : Bytes) : Result Unit :=
  match stack with
  | [] => fail "p2sh empty scriptSig"
  | redeem :: stack => do
    checkP2shRedeemHash B outer redeem
    let ctx ← fromJob job i amount redeem .base
    let (_, stack) ← evalScriptWith B lim redeem stack ctx
    requireFinal B job stack

end Nested

variable (pre : TxScriptPrecompute)

def verifyNativeWitness (version : Nat) (program : Bytes)
    (amount : UInt64) (script : Bytes) : Result Unit := do
  rejectIf ((job.txIn i).scriptSig ≠ []) (.script "WITNESS_MALLEATED")
  rejectIf (B.readScriptbool program = false) (.script "EVAL_FALSE")
  if version = 0 ∧ program.length = 20 then
    if needsInterpretedEcdsa job then P2wpkh.verifyInterpreted B lim job i program amount
    else P2wpkh.verify B job i pre script amount
  else if version = 0 ∧ program.length = 32 then P2wsh.verify B lim job i script amount
  else if version = 0 then fail "WITNESS_PROGRAM_WRONG_LENGTH"
  else if version = 1 ∧ program.length = 32 then
    if job.flags.taprootActive then P2tr.verify B lim job i amount script else .ok ()
  else if version = 1 ∧ program.length = 2 ∧ program = p2aProgram then .ok ()
  else
    rejectIf job.flags.discourageUpgradableWitness
      (.script "DISCOURAGE_UPGRADABLE_WITNESS_PROGRAM")

/-- The P2PKH arm: the typed path, or the interpreter for a scriptSig of another shape. -/
def verifyP2pkh (amount : UInt64) (script : Bytes) : Result Unit :=
  if needsInterpretedEcdsa job then verifyBare B lim job i amount script
  else
    match P2pkh.verify B job i script with
    | .ok () => .ok ()
    | .error e =>
      if P2pkh.scriptsigShapeError e then verifyBare B lim job i amount script else .error e

/-- The P2SH arm. Before BIP16 the template is a bare script. -/
def verifyP2sh (amount : UInt64) (script : Bytes) : Result Unit :=
  if job.flags.bip16Active = false then verifyBare B lim job i amount script
  else do
    let stack ← Nested.p2shScriptSigStack B lim job i amount
    match Nested.tryP2shNestedSegwit B lim job i pre stack amount script with
    | some res => res
    | none =>
      rejectIf (job.flags.witnessActive ∧ (job.txIn i).witness ≠ []) (.script "WITNESS_UNEXPECTED")
      Nested.verifyP2shLegacy B lim job i stack amount script

/-- `verify_input`: a native witness program first, then the legacy templates. -/
def verifyInput (amount : UInt64) (script : Bytes) : Result Unit :=
  let native := if job.flags.witnessActive then witnessProgram B script else none
  match native with
  | some (version, program) => verifyNativeWitness B lim job i pre version program amount script
  | none => do
    let kind := classify B script
    rejectIf (job.flags.witnessActive ∧ (job.txIn i).witness ≠ [] ∧
      ¬(kind = .p2sh ∧ job.flags.bip16Active)) (.script "WITNESS_UNEXPECTED")
    match kind with
    | .p2pkh => verifyP2pkh B lim job i amount script
    | .p2sh => verifyP2sh B lim job i pre amount script
    | _ => verifyBare B lim job i amount script

end Rbitcoin.Script
