import Rbitcoin.Lib.Outcome
import Rbitcoin.Script.Bitcoin
import Rbitcoin.Script.ScriptNum

/-! Signature checks of the interpreter: the encodings a flag set demands, the script code a
signature commits to, and the comparison of one signature with one key. -/

namespace Rbitcoin.Script

open Bytes Tx Walk Outcome

/-- Main and alt stack together. -/
def maxStackSize : Nat := 1000
/-- A push or a witness stack item. -/
def maxScriptElementSize : Nat := 520
def maxScriptSizeLegacy : Nat := 10000
def maxOpsLegacy : Nat := 201
def maxPubkeysPerMultisig : Int := 20

inductive SigVersion
  | base
  | witnessV0
  | tapScript
  deriving DecidableEq, Repr

/-- The versions whose signatures are ECDSA. -/
inductive PreTapscript
  | base
  | witnessV0
  deriving DecidableEq, Repr

def PreTapscript.fromSigVersion : SigVersion → Option PreTapscript
  | .base => some .base
  | .witnessV0 => some .witnessV0
  | .tapScript => none

def scriptElem (data : Bytes) : Result Bytes := do
  rejectIf (maxScriptElementSize < data.length) (.script "push too large")
  return data

variable (B : Bitcoin)

/-- BIP66 strict DER, over the whole push with its hash type byte. -/
def isValidSignatureEncoding (sig : Bytes) : Bool :=
  let lenR := (sig.byteAt 3).toNat
  let lenS := (sig.byteAt (5 + lenR)).toNat
  let s0 := 6 + lenR
  if sig.length < 9 ∨ 73 < sig.length then false
  else if sig.byteAt 0 ≠ 0x30 then false
  else if (sig.byteAt 1).toNat ≠ sig.length - 3 then false
  else if sig.byteAt 2 ≠ 0x02 then false
  else if lenR = 0 then false
  else if sig.length ≤ 5 + lenR then false
  else if sig.byteAt (4 + lenR) ≠ 0x02 then false
  else if lenS = 0 then false
  else if lenR + lenS + 7 ≠ sig.length then false
  else if sig.byteAt 4 &&& 0x80 ≠ 0 then false
  else if 1 < lenR ∧ sig.byteAt 4 = 0x00 ∧ sig.byteAt 5 &&& 0x80 = 0 then false
  else if sig.byteAt s0 &&& 0x80 ≠ 0 then false
  else if 1 < lenS ∧ sig.byteAt s0 = 0x00 ∧ sig.byteAt (s0 + 1) &&& 0x80 = 0 then false
  else true

/-- The signature before the last byte, parsed laxly, and that byte as the raw hash type. -/
def parseDerSig (sigRaw : Bytes) (strictDer : Bool) : Result (B.Signature × UInt32) := do
  rejectIf (sigRaw = []) (.script "empty sig")
  rejectIf (strictDer ∧ isValidSignatureEncoding sigRaw = false) (.script "der sig")
  match sigRaw.getLast? with
  | none => fail "der sig"
  | some sighashByte =>
    match B.fromDerLax sigRaw.dropLast with
    | none => fail "der sig"
    | some sig => return (sig, sighashByte.toUInt32)

def parsePubkey (raw : Bytes) : Result B.PublicKey :=
  match B.publicKeyFromSlice raw with
  | none => fail "pubkey"
  | some pk => .ok pk

def isLowDerS (sig : B.Signature) : Bool :=
  B.serializeCompact sig == B.serializeCompact (B.normalizeS sig)

/-- ALL, NONE or SINGLE, with or without ANYONECANPAY. -/
def isDefinedHashtype (sigRaw : Bytes) : Bool :=
  match sigRaw.getLast? with
  | none => false
  | some ht => let base := ht &&& 0x7f; 1 ≤ base && base ≤ 3

def isCompressedOrUncompressedPubkey (pk : Bytes) : Bool :=
  match pk.head? with
  | some b => ((b = 0x02 ∨ b = 0x03) ∧ pk.length = 33) ∨ (b = 0x04 ∧ pk.length = 65)
  | none => false

def isCompressedPubkey (pk : Bytes) : Bool :=
  match pk.head? with
  | some b => (b = 0x02 ∨ b = 0x03) ∧ pk.length = 33
  | none => false

/-- Consensus accepts a high S, so S is normalized before the library check. -/
def verifyEcdsa (msg : Bytes) (sig : B.Signature) (pubkey : B.PublicKey) : Bool :=
  B.secpVerifyEcdsa msg (B.normalizeS sig) pubkey

/-- Push of `data` by its length, never as a small integer opcode. -/
def encodePush (data : Bytes) : Bytes :=
  let n := data.length
  (if n < opPushdata1.toNat then [UInt8.ofNat n]
    else if n ≤ 0xff then [opPushdata1, UInt8.ofNat n]
    else if n ≤ 0xffff then opPushdata2 :: toLe 2 n
    else opPushdata4 :: toLe 4 n) ++ data

/-- The locals of `legacy_script_code_needles`. `out` is `none` while the script is unchanged. -/
structure CodeWalk where
  out : Option Bytes
  deletedSig : Bool
  i : Nat

/-- One turn of the walk: drop a needle, drop a separator, or keep an instruction. -/
def codeTurn (script : Bytes) (dropSep : Bool) (needles : List Bytes) (s : CodeWalk) :
    Turn CodeWalk (Option Bytes × Bool) :=
  if s.i < script.length then
    match needles.find? fun needle => !needle.isEmpty && needle.isPrefixOf (script.drop s.i) with
    | some needle => .next ⟨some (s.out.getD (script.take s.i)), true, s.i + needle.length⟩
    | none =>
      let op := script.byteAt s.i
      match instructionEnd script s.i with
      | none =>
        -- a truncated push length: only its opcode byte stays
        match s.out with
        | some buf => .stop (some (buf ++ [op]), s.deletedSig)
        | none =>
          if s.i + 1 < script.length then .stop (some (script.take (s.i + 1)), s.deletedSig)
          else .stop (none, s.deletedSig)
      | some e =>
        if dropSep ∧ op = opCodeseparator then
          .next ⟨some (s.out.getD (script.take s.i)), s.deletedSig, e⟩
        else .next ⟨s.out.map (· ++ script.slice s.i e), s.deletedSig, e⟩
  else .stop (s.out, s.deletedSig)

/-- The script without the needles, and whether one was dropped. -/
def legacyScriptCodeNeedles (script : Bytes) (dropSep : Bool) (needles : List Bytes) :
    Bytes × Bool :=
  match run (codeTurn script dropSep needles) (script.length + 1) ⟨none, false, 0⟩ with
  | some (out, deleted) => (out.getD script, deleted)
  | none => (script, false)

/-- A base script code: without any push of a signature and without separators. -/
def legacyScriptCode (script : Bytes) (sigs : List Bytes) : Result (Bytes × Bool) := do
  let encoded ← sigs.mapM fun sig => do
    let raw ← scriptElem sig
    return encodePush raw
  return legacyScriptCodeNeedles script true encoded

/-- What does not change between the signature opcodes of one tapscript spend. -/
structure TapscriptExecData where
  job : ScriptCheckJob
  inputIndex : job.InputIndex
  tapleafHash : Bytes
  spentValue : UInt64
  spentScript : Bytes
  annexHash : Option Bytes

def TapscriptExecData.signatureHash (exec : TapscriptExecData) (hashType : UInt8)
    (codeseparatorPos : UInt32) : Result Bytes :=
  B.tapSignatureHash exec.job exec.inputIndex hashType exec.annexHash
    (some (exec.tapleafHash, codeseparatorPos)) exec.spentValue exec.spentScript

/-- The parts of `EvalContext` that an evaluation reads and never writes. The flags are those of
the job, with strict DER on whenever low S or strict encodings are asked for. -/
structure EvalContext where
  tx : Transaction
  inputIndex : Fin tx.input.length
  amount : UInt64
  scriptCode : Bytes
  sigVersion : SigVersion
  flags : ScriptVerifyFlags
  pre : TxScriptPrecompute
  tapscript : Option TapscriptExecData

abbrev EvalContext.txIn (ctx : EvalContext) : TxIn := ctx.tx.input.get ctx.inputIndex

def EvalContext.fromJob (job : ScriptCheckJob) (inputIndex : job.InputIndex) (amount : UInt64)
    (scriptCode : Bytes) (sigVersion : SigVersion) : Result EvalContext := do
  let pre ← (if sigVersion = .base then .ok baseSigPrecompute else job.pre)
  let bip66Active := job.flags.bip66Active || job.flags.lowS || job.flags.strictenc
  return { tx := job.tx, inputIndex, amount, scriptCode, sigVersion, pre, tapscript := none,
           flags := { job.flags with bip66Active } }

/-- The script code after the last executed separator, which starts at `off`. -/
def scriptCodeBytes (ctx : EvalContext) (off : Option Nat) : Bytes :=
  match off with
  | some off => ctx.scriptCode.drop off
  | none => ctx.scriptCode

def checkSignatureEncoding (sig : Bytes) (ctx : EvalContext) : Result Unit := do
  let needDer := ctx.flags.bip66Active || ctx.flags.lowS || ctx.flags.strictenc
  rejectIf (needDer ∧ isValidSignatureEncoding sig = false) (.script "SIG_DER")
  (if ctx.flags.lowS then
    match parseDerSig B sig false with
    -- the source expects that a strictly encoded signature parses
    | .error _ => .error (.internal "BIP66 signature parses")
    | .ok (ecdsa, _) => rejectIf (isLowDerS B ecdsa = false) (.script "SIG_HIGH_S")
  else .ok ())
  rejectIf (ctx.flags.strictenc ∧ isDefinedHashtype sig = false) (.script "SIG_HASHTYPE")

variable (sig pubkey : Bytes)

section

variable (ctx : EvalContext)

def checksigLegacyEncodings (ver : PreTapscript) : Result Unit := do
  (if sig = [] then .ok () else checkSignatureEncoding B sig ctx)
  rejectIf (ctx.flags.strictenc ∧ isCompressedOrUncompressedPubkey pubkey = false)
    (.script "PUBKEYTYPE")
  rejectIf (ctx.flags.witnessPubkeytype ∧ ver = .witnessV0 ∧ isCompressedPubkey pubkey = false)
    (.script "WITNESS_PUBKEYTYPE")

def sighashForScript (tyRaw : UInt32) (scriptCode : Bytes) (ver : PreTapscript) : Result Bytes :=
  match ver with
  | .base =>
    match B.legacySignatureHash ctx.tx ctx.inputIndex scriptCode tyRaw with
    | none => fail "legacy sighash"
    | some h => .ok h
  | .witnessV0 => B.bip143SignatureHash ctx.tx ctx.inputIndex scriptCode ctx.amount tyRaw ctx.pre

/-- One signature against one key. A bad encoding is an error where a flag demands it; a
signature that does not parse or verify is `false`. -/
def ecdsaSigMatches (scriptCode : Bytes) (ver : PreTapscript) : Result Bool := do
  checksigLegacyEncodings B sig pubkey ctx ver
  if sig = [] then return false
  else
    match parseDerSig B sig false with
    | .error _ => return false
    | .ok (ecdsaSig, sighashTy) =>
      match parsePubkey B pubkey with
      | .error _ => return false
      | .ok pk =>
        match sighashForScript B ctx sighashTy scriptCode ver with
        | .error _ => return false
        | .ok sighash => return verifyEcdsa B sighash ecdsaSig pk

end

/-- The script code signatures `sigs` commit to: base scripts delete their pushes. -/
def preparedScriptCode (sigs : List Bytes) (ctx : EvalContext) (off : Option Nat)
    (ver : PreTapscript) : Result Bytes :=
  let original := scriptCodeBytes ctx off
  match ver with
  | .base => do
    let (code, deleted) ← legacyScriptCode original sigs
    rejectIf (ctx.flags.constScriptcode ∧ deleted) (.script "SIG_FINDANDDELETE")
    return code
  | .witnessV0 => .ok original

def checksigLegacy (ctx : EvalContext) (off : Option Nat) (ver : PreTapscript) : Result Bool := do
  let scriptCode ← preparedScriptCode [sig] ctx off ver
  let ok ← ecdsaSigMatches B sig pubkey ctx scriptCode ver
  rejectIf (ok = false ∧ ctx.flags.nullfail ∧ sig ≠ []) (.script "NULLFAIL")
  return ok

/-- The key walk of `CHECKMULTISIG`: each key is tried once, a signature until it matches. -/
def checkmultisigPairs (ctx : EvalContext) (scriptCode : Bytes) (ver : PreTapscript) :
    (sigs pubkeys : List Bytes) → Result Bool
  | [], _ => .ok true
  -- the walk starts with no more signatures than keys and stops before it runs out of keys
  | _ :: _, [] => .ok false
  | sig :: sigs, key :: keys => do
    let ok ← ecdsaSigMatches B sig key ctx scriptCode ver
    let left := if ok then sigs else sig :: sigs
    if keys.length < left.length then return false
    else checkmultisigPairs ctx scriptCode ver left keys

/-- A tapscript signature against a 32-byte key. -/
def checksigSchnorr (ctx : EvalContext) (codeseparatorPos : UInt32) : Result Bool :=
  let verify (sigBytes : Bytes) (sighashTy : UInt8) : Result Bool :=
    match B.xOnlyFromSlice pubkey with
    | none => fail "tapscript xonly"
    | some xonly =>
      match ctx.tapscript with
      | none => fail "invariant: tapscript spend without tapleaf hash"
      | some exec => do
        let sighash ← exec.signatureHash B sighashTy codeseparatorPos
        return B.secpVerifySchnorr sigBytes sighash xonly
  if sig.length = 64 then verify sig 0
  else if sig.length = 65 then
    if sig.byteAt 64 = 0x00 then .ok false
    else
      match B.tapSighashType (sig.byteAt 64) with
      | none => fail "tapscript sighash"
      | some ty => verify (sig.take 64) ty
  else .ok false

end Rbitcoin.Script
