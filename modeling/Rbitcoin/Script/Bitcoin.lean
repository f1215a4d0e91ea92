import Rbitcoin.Script.Job

/-! What script verification calls outside itself: the script helpers of the bitcoin crate, with
the behaviour its documentation gives, and the hash, signature and sighash functions, about which
nothing is assumed. -/

namespace Rbitcoin.Script

open Bytes Tx List Option

inductive Instruction
  | pushBytes (data : Bytes)
  | op (code : UInt8)
  deriving DecidableEq, Repr

variable (script : Bytes)

/-- The instruction at `i`, whose end is `e`. Opcodes up to `OP_PUSHDATA4` push the bytes before
their end. -/
def instructionAt (i e : Nat) : Instruction :=
  if script.byteAt i ≤ opPushdata4 then
    .pushBytes (script.slice (((pushHeader script i).map Prod.fst).getD e) e)
  else .op (script.byteAt i)

/-- Instructions from `i` on with the byte they start at. A truncated push is an error and the end
of the list. -/
def decodeFrom (script : Bytes) : Nat → Nat → List (Option (Nat × Instruction))
  | 0, _ => []
  | fuel + 1, i =>
    if i < script.length then
      match opcodeEnd script i with
      | none => [none]
      | some e => some (i, instructionAt script i e) :: decodeFrom script fuel e
    else []

def decodeScript : List (Option (Nat × Instruction)) :=
  decodeFrom script script.length 0

theorem decodeFrom_cons {script : Bytes} {fuel i k : Nat} {ins : Instruction}
    {items : List (Option (Nat × Instruction))}
    (h : decodeFrom script fuel i = some (k, ins) :: items) :
    ∃ fuel' e, fuel = fuel' + 1 ∧ opcodeEnd script i = some e ∧ k = i ∧
      ins = instructionAt script i e ∧ items = decodeFrom script fuel' e := by
  cases fuel with
  | zero => simp [decodeFrom] at h
  | succ fuel =>
    rw [decodeFrom] at h
    split_ifs at h
    split at h
    · simp at h
    · rename_i e ends
      obtain ⟨⟨rfl, rfl⟩, rfl⟩ := h
      exact ⟨fuel, e, rfl, ends, rfl, rfl, rfl⟩

theorem opcodeEnd_le_of_push {script data : Bytes} {i e : Nat}
    (ends : opcodeEnd script i = some e) (push : instructionAt script i e = .pushBytes data) :
    e ≤ i + 5 + data.length ∧ e ≤ script.length := by
  obtain ⟨⟨j, n⟩, header, ends⟩ := bind_eq_some_iff.mp ends
  simp only at ends
  split_ifs at ends with inside
  simp only [some.injEq] at ends
  subst ends
  have near : j ≤ i + 5 := by
    simp only [pushHeader] at header
    split_ifs at header <;> simp only [some.injEq, Prod.mk.injEq] at header <;> omega
  rw [instructionAt] at push
  split_ifs at push
  simp only [header, map_some, getD_some, Instruction.pushBytes.injEq] at push
  have size : data.length = n := by
    rw [← push, slice_length inside]
    omega
  omega

/-- Script truth: some byte is not zero, the sign bit of the last byte aside. -/
def scriptbool (v : Bytes) : Bool :=
  match v.reverse with
  | [] => false
  | last :: rest => !(last &&& 0x7f == 0 && rest.all (· == 0))

/-- The version of a BIP141 witness program: a version opcode and one push of 2 to 40 bytes. -/
def programVersion : Option Nat :=
  let v := script.byteAt 0
  if 4 ≤ script.length ∧ script.length ≤ 42 ∧ (v = op0 ∨ (opTrue ≤ v ∧ v ≤ opPushnum16)) ∧
      (script.byteAt 1).toNat = script.length - 2 then
    some (if v = op0 then 0 else v.toNat - 0x50)
  else none

/-- Every instruction is a push, small integers included. -/
def pushesOnly : Bool :=
  (decodeScript script).all fun
    | none => false
    | some (_, .pushBytes _) => true
    | some (_, .op code) => code ≤ opPushnum16

/-- The functions of other crates and modules that script verification calls. -/
structure Bitcoin where
  Signature : Type
  PublicKey : Type
  XOnlyPublicKey : Type
  Scalar : Type
  enc : Encoding
  instructionIndices : Bytes → List (Option (Nat × Instruction))
  readScriptbool : Bytes → Bool
  isPushOnly : Bytes → Bool
  isP2pkh : Bytes → Bool
  isP2sh : Bytes → Bool
  isP2wpkh : Bytes → Bool
  isP2wsh : Bytes → Bool
  isP2tr : Bytes → Bool
  witnessVersion : Bytes → Option Nat
  p2wpkhScriptCode : Bytes → Option Bytes
  sha1 : Bytes → Bytes
  sha256 : Bytes → Bytes
  ripemd160 : Bytes → Bytes
  hash160 : Bytes → Bytes
  sha256d : Bytes → Bytes
  /-- `ecdsa::Signature::from_der_lax`. -/
  fromDerLax : Bytes → Option Signature
  normalizeS : Signature → Signature
  serializeCompact : Signature → Bytes
  /-- `PublicKey::from_slice`. -/
  publicKeyFromSlice : Bytes → Option PublicKey
  /-- `Secp256k1::verify_ecdsa` of a message digest. -/
  secpVerifyEcdsa : Bytes → Signature → PublicKey → Bool
  xOnlyFromSlice : Bytes → Option XOnlyPublicKey
  /-- `Secp256k1::verify_schnorr` of a 64-byte signature. -/
  secpVerifySchnorr : Bytes → Bytes → XOnlyPublicKey → Bool
  /-- `TapSighashType::from_consensus_u8`, by its byte. -/
  tapSighashType : UInt8 → Option UInt8
  tapLeafHash : UInt8 → Bytes → Bytes
  tapNodeHash : Bytes → Bytes → Bytes
  tapTweakHash : XOnlyPublicKey → Bytes → Bytes
  scalarFromBeBytes : Bytes → Option Scalar
  /-- `tweak_add_check` for an odd output key or an even one. -/
  tweakAddCheck : XOnlyPublicKey → XOnlyPublicKey → Bool → Scalar → Bool
  /-- `SighashCache::legacy_signature_hash`. -/
  legacySignatureHash : Transaction → Nat → Bytes → UInt32 → Option Bytes
  /-- `crypto::bip143_signature_hash`. -/
  bip143SignatureHash : Transaction → Nat → Bytes → UInt64 → UInt32 → TxScriptPrecompute →
    Result Bytes
  /-- `crypto::tap_signature_hash` of an input: hash type, annex hash, leaf hash with the
  separator position on the script path. -/
  tapSignatureHash : ScriptCheckJob → Nat → UInt8 → Option Bytes → Option (Bytes × UInt32) →
    UInt64 → Bytes → Result Bytes
  instructionIndices_eq : ∀ s, instructionIndices s = decodeScript s
  readScriptbool_eq : ∀ v, readScriptbool v = scriptbool v
  isPushOnly_eq : ∀ s, isPushOnly s = pushesOnly s
  isP2pkh_iff : ∀ s, isP2pkh s = true ↔
    s.length = 25 ∧ s.take 3 = p2pkhPrefix ∧ s.drop 23 = p2pkhSuffix
  isP2sh_iff : ∀ s, isP2sh s = true ↔
    s.length = 23 ∧ s.take 2 = p2shPrefix ∧ s.drop 22 = [opEqual]
  isP2wpkh_iff : ∀ s, isP2wpkh s = true ↔ s.length = 22 ∧ s.take 2 = [op0, opPushbytes20]
  isP2wsh_iff : ∀ s, isP2wsh s = true ↔ s.length = 34 ∧ s.take 2 = [op0, opPushbytes32]
  isP2tr_iff : ∀ s, isP2tr s = true ↔ s.length = 34 ∧ s.take 2 = [opTrue, opPushbytes32]
  witnessVersion_eq : ∀ s, witnessVersion s = programVersion s
  p2wpkhScriptCode_eq : ∀ s, p2wpkhScriptCode s =
    if isP2wpkh s then some (p2pkhPrefix ++ s.drop 2 ++ p2pkhSuffix) else none

/-- A library in which every parse and every check succeeds and every digest is zeros. -/
def Bitcoin.permissive : Bitcoin where
  Signature := Unit
  PublicKey := Unit
  XOnlyPublicKey := Unit
  Scalar := Unit
  enc := .standard (fun _ => replicate 32 0) fun _ => replicate 32 0
  instructionIndices := decodeScript
  readScriptbool := scriptbool
  isPushOnly := pushesOnly
  isP2pkh s := s.length = 25 ∧ s.take 3 = p2pkhPrefix ∧ s.drop 23 = p2pkhSuffix
  isP2sh s := s.length = 23 ∧ s.take 2 = p2shPrefix ∧ s.drop 22 = [opEqual]
  isP2wpkh s := s.length = 22 ∧ s.take 2 = [op0, opPushbytes20]
  isP2wsh s := s.length = 34 ∧ s.take 2 = [op0, opPushbytes32]
  isP2tr s := s.length = 34 ∧ s.take 2 = [opTrue, opPushbytes32]
  witnessVersion := programVersion
  p2wpkhScriptCode s :=
    if s.length = 22 ∧ s.take 2 = [op0, opPushbytes20] then
      some (p2pkhPrefix ++ s.drop 2 ++ p2pkhSuffix)
    else none
  sha1 _ := replicate 20 0
  sha256 _ := replicate 32 0
  ripemd160 _ := replicate 20 0
  hash160 _ := replicate 20 0
  sha256d _ := replicate 32 0
  fromDerLax _ := some ()
  normalizeS _ := ()
  serializeCompact _ := []
  publicKeyFromSlice _ := some ()
  secpVerifyEcdsa _ _ _ := true
  xOnlyFromSlice _ := some ()
  secpVerifySchnorr _ _ _ := true
  tapSighashType ty := some ty
  tapLeafHash _ _ := replicate 32 0
  tapNodeHash _ _ := replicate 32 0
  tapTweakHash _ _ := replicate 32 0
  scalarFromBeBytes _ := some ()
  tweakAddCheck _ _ _ _ := true
  legacySignatureHash _ _ _ _ := some (replicate 32 0)
  bip143SignatureHash _ _ _ _ _ _ := .ok (replicate 32 0)
  tapSignatureHash _ _ _ _ _ _ _ := .ok (replicate 32 0)
  instructionIndices_eq _ := rfl
  readScriptbool_eq _ := rfl
  isPushOnly_eq _ := rfl
  isP2pkh_iff _ := decide_eq_true_iff
  isP2sh_iff _ := decide_eq_true_iff
  isP2wpkh_iff _ := decide_eq_true_iff
  isP2wsh_iff _ := decide_eq_true_iff
  isP2tr_iff _ := decide_eq_true_iff
  witnessVersion_eq _ := rfl
  p2wpkhScriptCode_eq s := by
    by_cases h : s.length = 22 ∧ s.take 2 = [op0, opPushbytes20] <;> simp [h]

end Rbitcoin.Script
