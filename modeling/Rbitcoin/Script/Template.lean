import Rbitcoin.Script.Execute

/-! The key hash template `DUP HASH160 <20> EQUALVERIFY CHECKSIG`, run by the interpreter on a key
over a signature: its verdict is a hash comparison and one signature check. P2PKH runs it as its
scriptPubKey and P2WPKH as its witness script. -/

namespace Rbitcoin.Script

open Bytes Tx Outcome Walk PreTapscript

variable (B : Bitcoin)

def p2pkhTemplate (keyhash : Bytes) : Bytes := p2pkhPrefix ++ keyhash ++ p2pkhSuffix

section Run

variable {keyhash : Bytes} (len : keyhash.length = 20)
include len

theorem decodeScript_p2pkhTemplate : decodeScript (p2pkhTemplate keyhash) =
    [some (0, .op opDup), some (1, .op opHash160), some (2, .pushBytes keyhash),
      some (23, .op opEqualverify), some (24, .op opChecksig)] := by
  match keyhash, len with
  | [_, _, _, _, _, _, _, _, _, _, _, _, _, _, _, _, _, _, _, _], _ => rfl

theorem p2pkhTemplate_length : (p2pkhTemplate keyhash).length = 25 := by
  simp [p2pkhTemplate, p2pkhPrefix, p2pkhSuffix, len]

theorem checkMinimalPush_twenty : checkMinimalPush keyhash opPushbytes20 = true := by
  have nonempty : keyhash ≠ [] := by
    rintro rfl
    simp at len
  simp [checkMinimalPush, nonempty, len]

theorem evalScriptWith_p2pkhTemplate (lim : StackLimit) {ctx : EvalContext} {ver : PreTapscript}
    (version : fromSigVersion ctx.sigVersion = some ver) (pubkey sig : Bytes) :
    evalScriptWith B lim (p2pkhTemplate keyhash) [pubkey, sig] ctx = do
      rejectIf (keyhash ≠ B.hash160 pubkey) (.script "OP_EQUALVERIFY")
      let ok ← checksigLegacy B sig pubkey ctx none ver
      return (true, [boolEncode ok]) := by
  have notTap : ctx.sigVersion ≠ .tapScript := by
    intro tap
    simp [tap, fromSigVersion] at version
  rw [evalScriptWith_eq B notTap _ (by rw [p2pkhTemplate_length len]; decide),
    decodeScript_p2pkhTemplate len]
  obtain ⟨_, r1, h1⟩ := (Running.init B ctx [pubkey, sig]).dup B notTap (by decide)
    (by simp [maxStackSize])
  obtain ⟨_, r2, h2⟩ := r1.hash160 B notTap (by decide) (by simp [maxStackSize])
  obtain ⟨_, r3, h3⟩ := r2.push B (p2pkhTemplate keyhash) 2 (by rw [len]; decide)
    (fun _ => checkMinimalPush_twenty len) (by simp [maxStackSize])
  rw [h1, h2, h3]
  by_cases matched : keyhash = B.hash160 pubkey
  · rw [← matched] at r3
    obtain ⟨_, r4, h4⟩ := r3.equalverify B notTap (by decide) (by simp [maxStackSize])
    rw [h4, rejectIf_neg (not_not.mpr matched)]
    obtain ⟨failed, checked⟩ := r4.checksig B notTap version (by decide) (by simp [maxStackSize])
    cases result : checksigLegacy B sig pubkey ctx none ver with
    | error e =>
      rw [failed e result]
      rfl
    | ok ok =>
      obtain ⟨_, r5, h5⟩ := checked ok result
      rw [h5, r5.finish B]
      rfl
  · rw [r3.equalverify_error B notTap (by decide) matched, rejectIf_pos matched]
    rfl

end Run

/-- `sig` is a signature of the hash that its own hash type selects, under `pubkey`. -/
def Signed (strictDer : Bool) (sig pubkey : Bytes) (sighash : UInt32 → Result Bytes) : Prop :=
  ∃ ecdsaSig ty, parseDerSig B sig strictDer = .ok (ecdsaSig, ty) ∧
    ∃ key, parsePubkey B pubkey = .ok key ∧
      ∃ hash, sighash ty = .ok hash ∧ verifyEcdsa B hash ecdsaSig key = true

section Signed

variable {B} {strictDer : Bool} {sig pubkey : Bytes} {sighash : UInt32 → Result Bytes}

theorem Signed.sig_ne_nil (signed : Signed B strictDer sig pubkey sighash) : sig ≠ [] := by
  rintro rfl
  obtain ⟨_, _, parsed, -⟩ := signed
  cases parsed

theorem Signed.pubkey_ne_nil (signed : Signed B strictDer sig pubkey sighash)
    (refuses : B.publicKeyFromSlice [] = none) : pubkey ≠ [] := by
  rintro rfl
  obtain ⟨_, _, -, _, parsed, -⟩ := signed
  simp [parsePubkey, refuses] at parsed

end Signed

variable {sig pubkey : Bytes} {ctx : EvalContext} {ver : PreTapscript}

theorem parseDerSig_strict {strictDer : Bool} {r : B.Signature × UInt32} :
    parseDerSig B sig strictDer = .ok r ↔
      (strictDer = true → isValidSignatureEncoding sig = true) ∧
        parseDerSig B sig false = .ok r := by
  simp only [parseDerSig, bind_eq_ok, rejectIf_eq_ok, not_and, Bool.not_eq_false]
  constructor
  · rintro ⟨-, nonempty, -, strict, parsed⟩
    exact ⟨strict, (), nonempty, (), by simp, parsed⟩
  · rintro ⟨strict, -, nonempty, -, -, parsed⟩
    exact ⟨(), nonempty, (), strict, parsed⟩

theorem signed_strict {strictDer : Bool} {sighash : UInt32 → Result Bytes} :
    Signed B strictDer sig pubkey sighash ↔
      (strictDer = true → isValidSignatureEncoding sig = true) ∧
        Signed B false sig pubkey sighash := by
  constructor
  · rintro ⟨ecdsaSig, ty, parsed, rest⟩
    obtain ⟨strict, lax⟩ := (parseDerSig_strict B).mp parsed
    exact ⟨strict, ecdsaSig, ty, lax, rest⟩
  · rintro ⟨strict, ecdsaSig, ty, lax, rest⟩
    exact ⟨ecdsaSig, ty, (parseDerSig_strict B).mpr ⟨strict, lax⟩, rest⟩

theorem checksigLegacyEncodings_ok (lowS : ctx.flags.lowS = false)
    (strictenc : ctx.flags.strictenc = false) (nonempty : sig ≠ []) :
    checksigLegacyEncodings B sig pubkey ctx ver = .ok () ↔
      (ctx.flags.bip66Active = true → isValidSignatureEncoding sig = true) ∧
      (ctx.flags.witnessPubkeytype = true → ver = .witnessV0 →
        isCompressedPubkey pubkey = true) := by
  simp [checksigLegacyEncodings, checkSignatureEncoding, lowS, strictenc, nonempty, bind_eq_ok]

/-- With only strict DER and compressed keys to demand, a signature matches exactly when the key
has its form and the signature is one. -/
theorem ecdsaSigMatches_true {code : Bytes} (lowS : ctx.flags.lowS = false)
    (strictenc : ctx.flags.strictenc = false) :
    ecdsaSigMatches B sig pubkey ctx code ver = .ok true ↔
      (ctx.flags.witnessPubkeytype = true → ver = .witnessV0 → isCompressedPubkey pubkey = true) ∧
      Signed B ctx.flags.bip66Active sig pubkey (sighashForScript B ctx · code ver) := by
  rw [signed_strict]
  by_cases nonempty : sig = []
  · have unsigned : parseDerSig B [] false = fail "empty sig" := rfl
    simp [ecdsaSigMatches, Signed, nonempty, unsigned, bind_eq_ok, pure, Except.pure]
  · simp only [ecdsaSigMatches, bind_eq_ok, checksigLegacyEncodings_ok B lowS strictenc nonempty,
      if_neg nonempty, Signed]
    cases parsed : parseDerSig B sig false with
    | error e => simp [pure, Except.pure]
    | ok r =>
      obtain ⟨ecdsaSig, ty⟩ := r
      cases key : parsePubkey B pubkey with
      | error e => simp [pure, Except.pure]
      | ok pk =>
        cases hash : sighashForScript B ctx ty code ver with
        | error e => simp [pure, Except.pure, hash]
        | ok h =>
          simp [pure, Except.pure, hash]
          tauto

theorem checksigLegacy_true {off : Option Nat} :
    checksigLegacy B sig pubkey ctx off ver = .ok true ↔
      ∃ code, preparedScriptCode [sig] ctx off ver = .ok code ∧
        ecdsaSigMatches B sig pubkey ctx code ver = .ok true := by
  simp only [checksigLegacy, bind_eq_ok, pure, Except.pure, Except.ok.injEq]
  constructor
  · rintro ⟨code, prepared, _, matched, -, -, rfl⟩
    exact ⟨code, prepared, matched⟩
  · rintro ⟨code, prepared, matched⟩
    exact ⟨code, prepared, true, matched, (), by simp, rfl⟩

@[simp] theorem readScriptbool_boolEncode (b : Bool) : B.readScriptbool (boolEncode b) = b := by
  rw [B.readScriptbool_eq]
  cases b <;> decide

theorem accepts_requireCleanTrue (b : Bool) :
    Accepts (requireCleanTrue B [boolEncode b]) ↔ b = true := by
  cases b <;> simp [requireCleanTrue]

theorem accepts_requireTrueTop (b : Bool) :
    Accepts (requireTrueTop B [boolEncode b]) ↔ b = true := by
  cases b <;> simp [requireTrueTop]

theorem accepts_p2pkhTemplate {keyhash : Bytes} (len : keyhash.length = 20) {lim : StackLimit}
    (version : fromSigVersion ctx.sigVersion = some ver)
    {final : List Bytes → Result Unit} (single : ∀ b, Accepts (final [boolEncode b]) ↔ b = true) :
    Accepts (evalScriptWith B lim (p2pkhTemplate keyhash) [pubkey, sig] ctx >>=
      fun (_, stack) => final stack) ↔
    B.hash160 pubkey = keyhash ∧ checksigLegacy B sig pubkey ctx none ver = .ok true := by
  rw [evalScriptWith_p2pkhTemplate B len lim version]
  by_cases matched : keyhash = B.hash160 pubkey
  · cases checked : checksigLegacy B sig pubkey ctx none ver with
    | error e => simp
    | ok ok => simp [single, matched]
  · rw [rejectIf_pos matched]
    simp [Ne.symm matched]

end Rbitcoin.Script
