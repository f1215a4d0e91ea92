import Rbitcoin.Script.ScriptCode
import Rbitcoin.Script.Template

/-! P2PKH: the typed path against the interpreter running scriptSig and then the template. The
typed path reads a scriptSig of exactly two pushes; the interpreter leaves the same two elements,
unless a flag makes it refuse their encoding, and its `FindAndDelete` on the template is the one
comparison that the typed path makes. -/

namespace Rbitcoin.Script.P2pkh

open Bytes Tx Outcome Walk List EvalContext

variable (B : Bitcoin)

theorem encodePush_short {data : Bytes} (short : data.length < opPushdata1.toNat) :
    encodePush data = UInt8.ofNat data.length :: data := by
  simp only [encodePush, if_pos short, singleton_append]

theorem encodePush_ne_op {op : UInt8} (nonzero : op ≠ 0) (data : Bytes) :
    encodePush data ≠ [op] := by
  simp only [encodePush]
  split_ifs with h1 h2 h3
  · intro same
    obtain ⟨first, rfl⟩ := cons.inj same
    exact nonzero first.symm
  all_goals
    intro same
    cases (cons.inj same).2

section Template

variable {keyhash : Bytes} (len : keyhash.length = 20)
include len

theorem p2pkhTemplate_pieces : Pieces (p2pkhTemplate keyhash)
    [[opDup], [opHash160], opPushbytes20 :: keyhash, [opEqualverify], [opChecksig]] := by
  match keyhash, len with
  | [_, _, _, _, _, _, _, _, _, _, _, _, _, _, _, _, _, _, _, _], _ =>
    have nonempty {op : UInt8} {rest : Bytes} : op :: rest ≠ [] := cons_ne_nil _ _
    exact .next (e := 1) nonempty rfl (.next (e := 1) nonempty rfl (.next (e := 21) nonempty rfl
      (.next (e := 1) nonempty rfl (.next (e := 1) nonempty rfl .done))))

theorem encodePush_eq_keyhash_iff {sig : Bytes} :
    encodePush sig = opPushbytes20 :: keyhash ↔ sig = keyhash := by
  constructor
  · intro same
    simp only [encodePush] at same
    split_ifs at same
    · exact (cons.inj same).2
    all_goals cases (cons.inj same).1
  · rintro rfl
    rw [encodePush_short (by rw [len]; decide), len]
    rfl

theorem slice_template : (p2pkhTemplate keyhash).slice 3 23 = keyhash := by
  simp [p2pkhTemplate, p2pkhPrefix, slice, len]

theorem legacyScriptCode_template {sig : Bytes} (short : sig.length ≤ maxScriptElementSize) :
    legacyScriptCode (p2pkhTemplate keyhash) [sig] =
      .ok (sighashScriptCode (p2pkhTemplate keyhash) sig, decide (sig = keyhash)) := by
  have size := p2pkhTemplate_length len
  have payload := slice_template len
  -- the opcodes around the key hash are no pushes and no separators
  have op_kept {op : UInt8} (nonzero : op ≠ 0) (other : op ≠ opCodeseparator) :
      decide ([op] ∈ [sig].map encodePush) = false ∧ Kept true [sig] [op] = true := by
    have no_push : [op] ≠ encodePush sig := (encodePush_ne_op nonzero sig).symm
    simp [Kept, no_push, other]
  have dup := @op_kept opDup (by decide) (by decide)
  have hash160 := @op_kept opHash160 (by decide) (by decide)
  have equalverify := @op_kept opEqualverify (by decide) (by decide)
  have checksig := @op_kept opChecksig (by decide) (by decide)
  have push : decide (opPushbytes20 :: keyhash ∈ [sig].map encodePush) =
      decide (sig = keyhash) := by
    rw [map_singleton, decide_eq_decide, mem_singleton, eq_comm, encodePush_eq_keyhash_iff len]
  have push_kept : Kept true [sig] (opPushbytes20 :: keyhash) = !decide (sig = keyhash) := by
    rw [Kept, decide_not, push]
    simp [opCodeseparator]
  rw [legacyScriptCode_eq (forall_mem_singleton.mpr short) (p2pkhTemplate_pieces len)]
  simp only [any_cons, filter_cons, dup, hash160, push, push_kept, equalverify, checksig]
  by_cases same : sig = keyhash
  · simp [sighashScriptCode, size, payload, same, len]
  · have whole : sighashScriptCode (p2pkhTemplate keyhash) sig = p2pkhTemplate keyhash := by
      simp [sighashScriptCode, payload, same]
    rw [whole]
    simp [same, p2pkhTemplate, p2pkhPrefix, p2pkhSuffix]

end Template

structure TwoPushes (scriptSig sig pubkey : Bytes) (k l : Nat) : Prop where
  decoded : decodeScript scriptSig = [some (k, .pushBytes sig), some (l, .pushBytes pubkey)]
  sig_short : sig.length ≤ maxScriptElementSize
  pubkey_short : pubkey.length ≤ maxScriptElementSize

theorem parseTwoPushesFrom_cons {item : Option (Nat × Instruction)}
    {items : List (Option (Nat × Instruction))} {sig pubkey : Option Bytes} {r : Bytes × Bytes}
    (h : parseTwoPushesFrom (item :: items) sig pubkey = .ok r) :
    ∃ k b, item = some (k, .pushBytes b) ∧ b.length ≤ maxScriptElementSize ∧
      (sig = none ∧ parseTwoPushesFrom items (some b) pubkey = .ok r ∨
        sig ≠ none ∧ pubkey = none ∧ parseTwoPushesFrom items sig (some b) = .ok r) := by
  match item with
  | none => cases h
  | some (_, .op _) => cases h
  | some (k, .pushBytes b) =>
    simp only [parseTwoPushesFrom] at h
    split_ifs at h with long
    refine ⟨k, b, rfl, not_lt.mp long, ?_⟩
    cases sig with
    | none => exact .inl ⟨rfl, h⟩
    | some _ =>
      cases pubkey with
      | none => exact .inr ⟨by simp, rfl, h⟩
      | some _ => cases h

theorem parseTwoPushesFrom_ok {items : List (Option (Nat × Instruction))} {sig pubkey : Bytes}
    (h : parseTwoPushesFrom items none none = .ok (sig, pubkey)) :
    ∃ k l, items = [some (k, .pushBytes sig), some (l, .pushBytes pubkey)] ∧
      sig.length ≤ maxScriptElementSize ∧ pubkey.length ≤ maxScriptElementSize := by
  match items with
  | [] => cases h
  | first :: items =>
    obtain ⟨k, a, rfl, ha, ⟨-, h⟩ | ⟨none, -⟩⟩ := parseTwoPushesFrom_cons h
    · match items with
      | [] => cases h
      | second :: items =>
        obtain ⟨l, b, rfl, hb, ⟨full, -⟩ | ⟨-, -, h⟩⟩ := parseTwoPushesFrom_cons h
        · cases full
        · match items with
          | [] =>
            cases h
            exact ⟨k, l, rfl, ha, hb⟩
          | third :: items =>
            obtain ⟨_, _, -, -, ⟨full, -⟩ | ⟨-, full, -⟩⟩ :=
              parseTwoPushesFrom_cons h <;> cases full
    · exact absurd rfl none

theorem parseTwoPushes_ok {scriptSig sig pubkey : Bytes} :
    parseTwoPushes B scriptSig = .ok (sig, pubkey) ↔ ∃ k l, TwoPushes scriptSig sig pubkey k l := by
  rw [parseTwoPushes, B.instructionIndices_eq]
  constructor
  · intro h
    obtain ⟨k, l, decoded, hs, hp⟩ := parseTwoPushesFrom_ok h
    exact ⟨k, l, decoded, hs, hp⟩
  · rintro ⟨k, l, decoded, hs, hp⟩
    simp [decoded, parseTwoPushesFrom, not_lt.mpr hs, not_lt.mpr hp]

theorem parseTwoPushesFrom_error (items : List (Option (Nat × Instruction)))
    (sig pubkey : Option Bytes) {e : ConsensusError}
    (h : parseTwoPushesFrom items sig pubkey = .error e) : scriptsigShapeError e = true := by
  induction items generalizing sig pubkey with
  | nil =>
    cases sig <;> cases pubkey <;> simp [parseTwoPushesFrom] at h <;> subst h <;> decide
  | cons item items ih =>
    match item with
    | none =>
      simp only [parseTwoPushesFrom, Except.error.injEq] at h
      subst h
      decide
    | some (_, .op _) =>
      simp only [parseTwoPushesFrom, Except.error.injEq] at h
      subst h
      decide
    | some (_, .pushBytes b) =>
      simp only [parseTwoPushesFrom] at h
      split_ifs at h
      · simp only [Except.error.injEq] at h
        subst h
        decide
      · cases sig with
        | none => exact ih _ _ h
        | some _ =>
          cases pubkey with
          | none => exact ih _ _ h
          | some _ =>
            simp only [Except.error.injEq] at h
            subst h
            decide

namespace TwoPushes

variable {scriptSig sig pubkey : Bytes} {k l : Nat}

theorem nonempty (two : TwoPushes scriptSig sig pubkey k l) : scriptSig ≠ [] := by
  rintro rfl
  have := two.decoded
  simp [decodeScript, decodeFrom] at this

theorem length_le (two : TwoPushes scriptSig sig pubkey k l) :
    scriptSig.length ≤ maxScriptSizeLegacy := by
  obtain ⟨fuel, e, hfuel, ends, -, first, rest⟩ := decodeFrom_cons two.decoded
  obtain ⟨fuel', e', hfuel', ends', -, second, rest'⟩ := decodeFrom_cons rest.symm
  have h1 := opcodeEnd_le_of_push ends first.symm
  have h2 := opcodeEnd_le_of_push ends' second.symm
  have hs := two.sig_short
  have hp := two.pubkey_short
  simp only [maxScriptElementSize, maxScriptSizeLegacy] at *
  cases fuel' with
  | zero => omega
  | succ fuel' =>
    rw [decodeFrom] at rest'
    split_ifs at rest' with inside
    · split at rest' <;> simp at rest'
    · omega

def Minimal (flags : ScriptVerifyFlags) (scriptSig sig pubkey : Bytes) (k l : Nat) : Prop :=
  flags.minimalData = true → checkMinimalPush sig (scriptSig.byteAt k) = true ∧
    checkMinimalPush pubkey (scriptSig.byteAt l) = true

theorem evalScriptWith_eq_ok (two : TwoPushes scriptSig sig pubkey k l) {lim : StackLimit}
    {ctx : EvalContext} (notTap : ctx.sigVersion ≠ .tapScript) {r : Bool × List Bytes} :
    evalScriptWith B lim scriptSig [] ctx = .ok r ↔
      Minimal ctx.flags scriptSig sig pubkey k l ∧ r = (true, [pubkey, sig]) := by
  rw [evalScriptWith_eq B notTap _ two.length_le, two.decoded]
  have r0 := Running.init B ctx []
  by_cases first : ctx.flags.minimalData = true → checkMinimalPush sig (scriptSig.byteAt k) = true
  · obtain ⟨_, r1, h1⟩ := r0.push B scriptSig k two.sig_short first (by decide)
    rw [h1]
    by_cases second : ctx.flags.minimalData = true →
        checkMinimalPush pubkey (scriptSig.byteAt l) = true
    · obtain ⟨_, r2, h2⟩ := r1.push B scriptSig l two.pubkey_short second (by simp [maxStackSize])
      rw [h2, r2.finish B, Except.ok.injEq, eq_comm]
      exact ⟨fun h => ⟨fun flag => ⟨first flag, second flag⟩, h⟩, And.right⟩
    · simp only [Classical.not_imp, Bool.not_eq_true] at second
      rw [r1.push_nonminimal B two.pubkey_short second.1 second.2]
      simp [Minimal, second]
  · simp only [Classical.not_imp, Bool.not_eq_true] at first
    rw [r0.push_nonminimal B two.sig_short first.1 first.2]
    simp [Minimal, first]

end TwoPushes

section Paths

variable {B} {job : ScriptCheckJob} {i : job.InputIndex} {amount : UInt64}
  {keyhash sig pubkey : Bytes} {k l : Nat}

/-- What the typed path asks of the two elements. -/
def Spends (B : Bitcoin) (job : ScriptCheckJob) (i : job.InputIndex) (keyhash sig pubkey : Bytes) :
    Prop :=
  B.hash160 pubkey = keyhash ∧ Signed B job.flags.bip66Active sig pubkey fun ty =>
    match B.legacySignatureHash job.tx i (sighashScriptCode (p2pkhTemplate keyhash) sig) ty with
    | none => fail "legacy sighash"
    | some hash => .ok hash

theorem verify_accepts (len : keyhash.length = 20)
    (two : TwoPushes (job.txIn i).scriptSig sig pubkey k l) :
    Accepts (verify B job i (p2pkhTemplate keyhash)) ↔ Spends B job i keyhash sig pubkey := by
  have parsed := (parseTwoPushes_ok B).mpr ⟨k, l, two⟩
  simp only [verify, parsed, ok_bind, slice_template len, accepts_bind, rejectIf_eq_ok,
    exists_const, Prod.exists, not_not, Spends, Signed]
  refine and_congr_right fun _ => exists_congr fun es => exists_congr fun ty =>
    and_congr_right fun _ => exists_congr fun key => and_congr_right fun _ => ?_
  cases B.legacySignatureHash job.tx i (sighashScriptCode (p2pkhTemplate keyhash) sig) ty <;>
    simp [fail]

theorem checksigLegacy_template (len : keyhash.length = 20)
    (short : sig.length ≤ maxScriptElementSize) (lowS : job.flags.lowS = false)
    (strictenc : job.flags.strictenc = false) :
    B.hash160 pubkey = keyhash ∧
      checksigLegacy B sig pubkey (.base job i amount (p2pkhTemplate keyhash)) none .base =
        .ok true ↔
    ¬(job.flags.constScriptcode = true ∧ sig = keyhash) ∧ Spends B job i keyhash sig pubkey := by
  have prepared {code : Bytes} :
      preparedScriptCode [sig] (.base job i amount (p2pkhTemplate keyhash)) none .base = .ok code ↔
        ¬(job.flags.constScriptcode = true ∧ sig = keyhash) ∧
          sighashScriptCode (p2pkhTemplate keyhash) sig = code := by
    change (legacyScriptCode (p2pkhTemplate keyhash) [sig] >>= _) = .ok code ↔ _
    simp [legacyScriptCode_template len short, bind_eq_ok, base, pure, Except.pure]
  rw [checksigLegacy_true]
  simp only [prepared]
  have der : (base job i amount (p2pkhTemplate keyhash)).flags.bip66Active =
      job.flags.bip66Active := by simp [base, lowS, strictenc]
  constructor
  · rintro ⟨hashed, _, ⟨kept, rfl⟩, matched⟩
    obtain ⟨-, signed⟩ := (ecdsaSigMatches_true B lowS strictenc).mp matched
    exact ⟨kept, hashed, der ▸ signed⟩
  · rintro ⟨kept, hashed, signed⟩
    exact ⟨hashed, _, ⟨kept, rfl⟩,
      (ecdsaSigMatches_true B lowS strictenc).mpr ⟨by simp, der ▸ signed⟩⟩

theorem accepts_requireFinal (job : ScriptCheckJob) (b : Bool) :
    Accepts (requireFinal B job [boolEncode b]) ↔ b = true := by
  unfold requireFinal
  split
  · exact accepts_requireCleanTrue B b
  · exact accepts_requireTrueTop B b

/-- The interpreter on two pushes and the template: the typed tests, minimal pushes and no
deletion where the flags demand them. -/
theorem verifyBare_accepts (lim : StackLimit) (len : keyhash.length = 20)
    (two : TwoPushes (job.txIn i).scriptSig sig pubkey k l) (lowS : job.flags.lowS = false)
    (strictenc : job.flags.strictenc = false) :
    Accepts (verifyBare B lim job i amount (p2pkhTemplate keyhash)) ↔
      TwoPushes.Minimal job.flags (job.txIn i).scriptSig sig pubkey k l ∧
      ¬(job.flags.constScriptcode = true ∧ sig = keyhash) ∧
      Accepts (verify B job i (p2pkhTemplate keyhash)) := by
  have ran {r : Bool × List Bytes} :
      evalScriptWith B lim (job.txIn i).scriptSig [] (.base job i amount (job.txIn i).scriptSig) =
        .ok r ↔ TwoPushes.Minimal job.flags (job.txIn i).scriptSig sig pubkey k l ∧
          r = (true, [pubkey, sig]) :=
    two.evalScriptWith_eq_ok B (by simp [base])
  rw [verify_accepts len two, ← checksigLegacy_template len two.sig_short lowS strictenc,
    ← accepts_p2pkhTemplate B len rfl (accepts_requireFinal job)]
  simp only [verifyBare, if_neg two.nonempty, fromJob_base, ok_bind]
  rw [accepts_bind]
  simp only [bind_eq_ok, ran, pure, Except.pure, Except.ok.injEq]
  constructor
  · rintro ⟨_, ⟨_, ⟨minimal, rfl⟩, rfl⟩, accepted⟩
    exact ⟨minimal, accepted⟩
  · rintro ⟨minimal, accepted⟩
    exact ⟨_, ⟨_, ⟨minimal, rfl⟩, rfl⟩, accepted⟩

theorem verifyP2pkh_eq (B : Bitcoin) (lim : StackLimit) (job : ScriptCheckJob) (i : job.InputIndex)
    (amount : UInt64) (spk : Bytes) :
    verifyP2pkh B lim job i amount spk = verifyBare B lim job i amount spk ∨
      needsInterpretedEcdsa job = false ∧ verifyP2pkh B lim job i amount spk = verify B job i spk ∧
        ∃ sig pubkey k l, TwoPushes (job.txIn i).scriptSig sig pubkey k l := by
  unfold verifyP2pkh
  by_cases needs : needsInterpretedEcdsa job = true
  · exact .inl (if_pos needs)
  rw [if_neg needs]
  rw [Bool.not_eq_true] at needs
  cases parsed : parseTwoPushes B (job.txIn i).scriptSig with
  | ok r =>
    have two := (parseTwoPushes_ok B).mp parsed
    split
    · rename_i accepted
      exact .inr ⟨needs, accepted.symm, r.1, r.2, two⟩
    · rename_i e refused
      by_cases shape : scriptsigShapeError e = true
      · exact .inl (if_pos shape)
      · exact .inr ⟨needs, by rw [if_neg shape, refused], r.1, r.2, two⟩
  | error e =>
    have shape := parseTwoPushesFrom_error _ _ _ parsed
    have refused : verify B job i spk = .error e := by
      rw [verify, parsed, error_bind]
    rw [refused]
    exact .inl (if_pos shape)

theorem eq_p2pkhTemplate {spk : Bytes} (h : B.isP2pkh spk = true) :
    ∃ keyhash, keyhash.length = 20 ∧ spk = p2pkhTemplate keyhash := by
  obtain ⟨size, front, back⟩ := (B.isP2pkh_iff spk).mp h
  refine ⟨spk.slice 3 23, slice_length (by omega), ?_⟩
  rw [p2pkhTemplate, ← front, ← back]
  exact (take_slice_drop spk (by decide)).symm

/-- Under consensus flags the typed path decides as the interpreter does. -/
theorem verifyP2pkh_refines_bare (B : Bitcoin) (job : ScriptCheckJob) (i : job.InputIndex)
    (amount : UInt64) (spk : Bytes) (p2pkh : B.isP2pkh spk = true) (params : ActivationHeights)
    (height : Nat) (blockHash : Bytes) (bip16Active : Bool)
    (flags : job.flags = .consensusAt params height blockHash bip16Active) :
    Accepts (verifyP2pkh B .onPush job i amount spk) ↔
      Accepts (verifyBare B .onPush job i amount spk) := by
  obtain ⟨keyhash, len, rfl⟩ := eq_p2pkhTemplate p2pkh
  obtain same | ⟨-, same, sig, pubkey, k, l, two⟩ := verifyP2pkh_eq B .onPush job i amount _
  · rw [same]
  · have minimal : TwoPushes.Minimal job.flags (job.txIn i).scriptSig sig pubkey k l := by
      simp [TwoPushes.Minimal, flags, ScriptVerifyFlags.consensusAt]
    have kept : ¬(job.flags.constScriptcode = true ∧ sig = keyhash) := by
      simp [flags, ScriptVerifyFlags.consensusAt]
    rw [same, verifyBare_accepts .onPush len two (by rw [flags]; rfl) (by rw [flags]; rfl)]
    exact ⟨fun accepted => ⟨minimal, kept, accepted⟩, fun h => h.2.2⟩

/-- A spend of two pushes, not the shortest ones, that both paths accept. -/
theorem verifyP2pkh_refines_bare_spend :
    let spk := p2pkhTemplate (replicate 20 0)
    let job := ScriptCheckJob.single [0x4c, 1, 1, 0x4c, 1, 2] [] ⟨0, spk⟩
      (.consensusAt ⟨1, 1, 1, 1⟩ 0 [] true)
    Accepts (verifyP2pkh .permissive .onPush job ⟨0, by decide⟩ 0 spk) :=
  (verifyP2pkh_refines_bare .permissive _ ⟨0, by decide⟩ 0 _ (by decide) ⟨1, 1, 1, 1⟩ 0 [] true
    rfl).mpr (by decide)

end Paths

end Rbitcoin.Script.P2pkh
