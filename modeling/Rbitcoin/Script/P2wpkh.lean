import Rbitcoin.Script.Template

/-! P2WPKH: the typed paths against the interpreter running the key hash template on the witness.
Both come down to one predicate on the two witness items. -/

namespace Rbitcoin.Script.P2wpkh

open Bytes Tx Outcome List

variable (B : Bitcoin) (job : ScriptCheckJob) (i : job.InputIndex)

/-- The redeem script or scriptPubKey of a key hash. -/
def program (keyhash : Bytes) : Bytes := [op0, opPushbytes20] ++ keyhash

/-- `sig` and `pubkey` spend `keyhash`: the items are short, the key has the hash and its form,
and the signature is one of the BIP143 hash of the template. -/
structure Spends (keyhash : Bytes) (pre : TxScriptPrecompute) (amount : UInt64)
    (sig pubkey : Bytes) : Prop where
  sizes : sig.length ≤ maxScriptElementSize ∧ pubkey.length ≤ maxScriptElementSize
  hash : B.hash160 pubkey = keyhash
  compressed : job.flags.witnessPubkeytype = true → isCompressedPubkey pubkey = true
  signed : Signed B job.flags.bip66Active sig pubkey
    (B.bip143SignatureHash job.tx i (p2pkhTemplate keyhash) amount · pre)

variable {B job i} {keyhash : Bytes} {pre : TxScriptPrecompute} {amount : UInt64}

theorem bip143SignatureHash_program (len : keyhash.length = 20) (ty : UInt32) :
    bip143SignatureHash B job i (program keyhash) amount ty pre =
      B.bip143SignatureHash job.tx i (p2pkhTemplate keyhash) amount ty pre := by
  have template : B.isP2wpkh (program keyhash) = true :=
    (B.isP2wpkh_iff _).mpr ⟨by simp [program, len], rfl⟩
  simp only [bip143SignatureHash, B.p2wpkhScriptCode_eq, template]
  rfl

theorem verifyLoaded_accepts (len : keyhash.length = 20) {sig pubkey : Bytes} :
    Accepts (verifyLoaded B job i keyhash (program keyhash) pre amount sig pubkey) ↔
      Spends B job i keyhash pre amount sig pubkey := by
  simp only [verifyLoaded, checkElementSizes, bip143SignatureHash_program len, accepts_bind,
    rejectIf_eq_ok, exists_const, accepts_rejectIf, Prod.exists, not_and, Bool.not_eq_false,
    not_or, not_lt, not_not]
  constructor
  · rintro ⟨sizes, hash, compressed, ecdsaSig, ty, parsed, key, pk, sighash, hashed, checked⟩
    exact ⟨sizes, hash, compressed, ecdsaSig, ty, parsed, key, pk, sighash, hashed, checked⟩
  · rintro ⟨sizes, hash, compressed, ecdsaSig, ty, parsed, key, pk, sighash, hashed, checked⟩
    exact ⟨sizes, hash, compressed, ecdsaSig, ty, parsed, key, pk, sighash, hashed, checked⟩

theorem witnessPair_eq_ok {input : TxIn} {sig pubkey : Bytes} :
    witnessPair input = .ok (sig, pubkey) ↔ input.witness = [sig, pubkey] := by
  unfold witnessPair
  split
  · next items => simp [items]
  · next other => exact ⟨nofun, fun items => absurd items (other sig pubkey)⟩

theorem verifyWithKeyhash_accepts (len : keyhash.length = 20) :
    Accepts (verifyWithKeyhash B job i keyhash (program keyhash) pre amount) ↔
      ∃ sig pubkey, (job.txIn i).witness = [sig, pubkey] ∧
        Spends B job i keyhash pre amount sig pubkey := by
  simp only [verifyWithKeyhash, accepts_bind, Prod.exists, witnessPair_eq_ok,
    verifyLoaded_accepts len]

theorem verify_accepts (len : keyhash.length = 20) :
    Accepts (verify B job i pre (program keyhash) amount) ↔
      ∃ sig pubkey, (job.txIn i).witness = [sig, pubkey] ∧ (sig ≠ [] ∧ pubkey ≠ []) ∧
        Spends B job i keyhash pre amount sig pubkey := by
  have cut : (program keyhash).slice? 2 22 = some keyhash :=
    slice?_append (p := [op0, opPushbytes20]) (t := []) (by simp [program]) rfl (by simp [len])
  rw [verify, cut]
  simp only [accepts_bind, Prod.exists, witnessPair_eq_ok, rejectIf_eq_ok, exists_const,
    verifyLoaded_accepts len, not_or, ne_eq]

theorem pre_of_witness (row : midstateRow job = .ok pre) (present : (job.txIn i).witness ≠ []) :
    job.pre = .ok pre := by
  have segwit : usesSegwitSerialization job.tx = true := by
    have some : (job.tx.input.any fun input => !input.witness.isEmpty) = true :=
      any_eq_true.mpr ⟨job.txIn i, get_mem _ _, by simpa using present⟩
    simp [usesSegwitSerialization, some]
  simpa [midstateRow, ScriptCheckJob.skipsSegwitMidstates, segwit] using row

theorem verifyInterpreted_accepts (lim : StackLimit) (len : keyhash.length = 20)
    (lowS : job.flags.lowS = false) (strictenc : job.flags.strictenc = false)
    (row : midstateRow job = .ok pre) :
    Accepts (verifyInterpreted B lim job i keyhash amount) ↔
      ∃ sig pubkey, (job.txIn i).witness = [sig, pubkey] ∧
        Spends B job i keyhash pre amount sig pubkey := by
  simp only [verifyInterpreted, accepts_rejectIf_bind, not_not]
  rcases items : (job.txIn i).witness with _ | ⟨sig, _ | ⟨pubkey, _ | _⟩⟩
  · simp
  · simp
  · have hpre : job.pre = .ok pre := pre_of_witness row (by rw [items]; simp)
    have template : p2pkhPrefix ++ keyhash ++ p2pkhSuffix = p2pkhTemplate keyhash := rfl
    simp only [P2wsh.executeWitnessV0, EvalContext.fromJob, reduceCtorEq, if_false, hpre, ok_bind,
      pure, Except.pure, accepts_rejectIf_bind, length_cons, length_nil, true_and,
      reverse_cons, reverse_nil, nil_append, cons_append, template]
    rw [accepts_p2pkhTemplate B len rfl (accepts_requireCleanTrue B), checksigLegacy_true]
    simp only [preparedScriptCode, Except.ok.injEq, exists_eq_left']
    rw [ecdsaSigMatches_true B lowS strictenc]
    simp only [lowS, strictenc, Bool.or_false]
    constructor
    · rintro ⟨short, hash, compressed, signed⟩
      refine ⟨sig, pubkey, rfl, by simpa using short, hash, fun flag => compressed flag trivial,
        signed⟩
    · rintro ⟨sig', pubkey', same, spends⟩
      obtain ⟨rfl, rfl⟩ := same
      exact ⟨by simpa using spends.sizes, spends.hash, fun flag _ => spends.compressed flag,
        spends.signed⟩
  · simp

section Paths

variable (lim : StackLimit) (len : keyhash.length = 20) (row : midstateRow job = .ok pre)
  (lowS : job.flags.lowS = false) (strictenc : job.flags.strictenc = false)
include len row lowS strictenc

theorem verifyWithKeyhash_iff :
    Accepts (verifyWithKeyhash B job i keyhash (program keyhash) pre amount) ↔
      Accepts (verifyInterpreted B lim job i keyhash amount) := by
  rw [verifyWithKeyhash_accepts len, verifyInterpreted_accepts lim len lowS strictenc row]

theorem verify_iff : Accepts (verify B job i pre (program keyhash) amount) ↔
    Accepts (verifyInterpreted B lim job i keyhash amount) ∧
      ∀ sig pubkey, (job.txIn i).witness = [sig, pubkey] → pubkey ≠ [] := by
  rw [verify_accepts len, verifyInterpreted_accepts lim len lowS strictenc row]
  constructor
  · rintro ⟨sig, pubkey, items, nonempty, spends⟩
    refine ⟨⟨sig, pubkey, items, spends⟩, fun sig' pubkey' same => ?_⟩
    rw [items] at same
    cases same
    exact nonempty.2
  · rintro ⟨⟨sig, pubkey, items, spends⟩, key⟩
    exact ⟨sig, pubkey, items, ⟨spends.signed.sig_ne_nil, key sig pubkey items⟩, spends⟩

theorem verify_iff_of_refuses (refuses : B.publicKeyFromSlice [] = none) :
    Accepts (verify B job i pre (program keyhash) amount) ↔
      Accepts (verifyInterpreted B lim job i keyhash amount) := by
  rw [verify_iff lim len row lowS strictenc, and_iff_left_iff_imp,
    verifyInterpreted_accepts lim len lowS strictenc row]
  rintro ⟨sig, pubkey, items, spends⟩ sig' pubkey' same
  rw [items] at same
  cases same
  exact spends.signed.pubkey_ne_nil refuses

end Paths

/-- Over any hash, parse, sighash and verify functions, the nested typed path accepts exactly what
the interpreter accepts. The native typed path accepts what the interpreter accepts with a
non-empty key, so the two agree for a key parser that refuses the empty string. -/
theorem typed_paths_agree (B : Bitcoin) (job : ScriptCheckJob) (i : job.InputIndex)
    (keyhash : Bytes) (len : keyhash.length = 20) (amount : UInt64) (pre : TxScriptPrecompute)
    (row : midstateRow job = .ok pre) (lowS : job.flags.lowS = false)
    (strictenc : job.flags.strictenc = false) :
    (Accepts (verifyWithKeyhash B job i keyhash (program keyhash) pre amount) ↔
      Accepts (verifyInterpreted B .onPush job i keyhash amount)) ∧
    (Accepts (verify B job i pre (program keyhash) amount) ↔
      Accepts (verifyInterpreted B .onPush job i keyhash amount) ∧
        ∀ sig pubkey, (job.txIn i).witness = [sig, pubkey] → pubkey ≠ []) ∧
    (B.publicKeyFromSlice [] = none →
      (Accepts (verify B job i pre (program keyhash) amount) ↔
        Accepts (verifyInterpreted B .onPush job i keyhash amount))) :=
  ⟨verifyWithKeyhash_iff .onPush len row lowS strictenc, verify_iff .onPush len row lowS strictenc,
    verify_iff_of_refuses .onPush len row lowS strictenc⟩

/-- Flags at genesis of a chain that switches everything on at height 1. -/
def genesisFlags : ScriptVerifyFlags := .consensusAt ⟨1, 1, 1, 1⟩ 0 [] true

/-- A library whose key parser refuses the empty string. -/
def refusesEmptyKey : Bitcoin :=
  { Bitcoin.permissive with publicKeyFromSlice := fun raw => if raw = [] then none else some () }

/-- A spend that the native path accepts because the interpreter does. -/
theorem typed_paths_agree_spend :
    let keyhash : Bytes := replicate 20 0
    let job := ScriptCheckJob.single [] [[1], [2]] ⟨0, program keyhash⟩ genesisFlags
    Accepts (verify refusesEmptyKey job ⟨0, by decide⟩ baseSigPrecompute (program keyhash) 0) :=
  ((typed_paths_agree refusesEmptyKey _ ⟨0, by decide⟩ (replicate 20 0) rfl 0
    baseSigPrecompute rfl rfl rfl).2.2 rfl).mpr (by decide)

/-- A key parser that takes the empty string, with a hash that takes it to the key hash, spends
through the interpreter and not through the native path. -/
theorem native_refuses_empty_key :
    let keyhash : Bytes := replicate 20 0
    let job := ScriptCheckJob.single [] [[1], []] ⟨0, program keyhash⟩ genesisFlags
    Accepts (verifyInterpreted .permissive .onPush job ⟨0, by decide⟩ keyhash 0) ∧
      ¬Accepts (verify .permissive job ⟨0, by decide⟩ baseSigPrecompute (program keyhash) 0) := by
  decide

end Rbitcoin.Script.P2wpkh
