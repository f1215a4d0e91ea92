import Rbitcoin.Script.SkippedRuns
import Rbitcoin.Script.P2pkh
import Rbitcoin.Script.P2wpkh

/-! `verify_input` against the plain pipeline: run scriptSig, copy the stack, run scriptPubKey,
require a true top, run a witness program, run a P2SH redeem script and its witness program, and
refuse a witness that nothing asked for. The pipeline runs every script; `verify_input` skips the
runs that can have only one outcome. -/

namespace Rbitcoin.Script

open Bytes EvalContext Nested Outcome P2pkh Tx List

namespace Pipeline

variable (B : Bitcoin) (lim : StackLimit) (job : ScriptCheckJob) (i : job.InputIndex)
  (amount : UInt64)

def runBase (script : Bytes) (stack : List Bytes) : Result (List Bytes) := do
  let ctx ← EvalContext.fromJob job i amount script .base
  let (_, stack) ← evalScriptWith B lim script stack ctx
  return stack

def activeProgram (script : Bytes) : Option (Nat × Bytes) :=
  if job.flags.witnessActive then witnessProgram B script else none

variable (spk : Bytes)

/-- Run a witness program, which stands in `spk` or, for `p2sh`, in the redeem script. -/
def verifyWitnessProgram (version : Nat) (program : Bytes) (p2sh : Bool) : Result Unit :=
  if version = 0 then
    if program.length = 32 then P2wsh.verifyWithScripthash B lim job i program amount
    else if program.length = 20 then P2wpkh.verifyInterpreted B lim job i program amount
    else fail "WITNESS_PROGRAM_WRONG_LENGTH"
  else if version = 1 ∧ program.length = 32 ∧ p2sh = false then
    if job.flags.taprootActive then P2tr.verify B lim job i amount spk else .ok ()
  else if version = 1 ∧ program = p2aProgram ∧ p2sh = false then .ok ()
  else
    rejectIf job.flags.discourageUpgradableWitness
      (.script "DISCOURAGE_UPGRADABLE_WITNESS_PROGRAM")

/-- A scriptPubKey that is a witness program: the stack after it, and whether it was one. -/
def witnessStage (stack : List Bytes) : Result (List Bytes × Bool) :=
  match activeProgram B job spk with
  | none => .ok (stack, false)
  | some (version, program) => do
    rejectIf ((job.txIn i).scriptSig ≠ []) (.script "WITNESS_MALLEATED")
    verifyWitnessProgram B lim job i amount spk version program false
    return (stack.take 1, true)

def runRedeem (spk redeem : Bytes) (below : List Bytes) (hadWitness : Bool) :
    Result (List Bytes × Bool) := do
  let stack ← runBase B lim job i amount redeem below
  requireTrueTop B stack
  match activeProgram B job redeem with
  | none => return (stack, hadWitness)
  | some (version, program) =>
    rejectIf ((job.txIn i).scriptSig ≠ encodePush redeem) (.script "WITNESS_MALLEATED_P2SH")
    verifyWitnessProgram B lim job i amount spk version program true
    return (stack.take 1, true)

/-- P2SH: the redeem script is the top of the copied stack of scriptSig. -/
def redeemStage (copy stack : List Bytes) (hadWitness : Bool) : Result (List Bytes × Bool) :=
  if job.flags.bip16Active ∧ B.isP2sh spk then do
    rejectIf (B.isPushOnly (job.txIn i).scriptSig = false) (.script "SIG_PUSHONLY")
    match copy with
    -- the scriptPubKey has hashed an element of this stack
    | [] => fail "EVAL_FALSE"
    | redeem :: below => runRedeem B lim job i amount spk redeem below hadWitness
  else .ok (stack, hadWitness)

def finalStage (stack : List Bytes) (hadWitness : Bool) : Result Unit := do
  rejectIf (job.flags.cleanstack ∧ stack.length ≠ 1) (.script "CLEANSTACK")
  rejectIf (job.flags.witnessActive ∧ hadWitness = false ∧ (job.txIn i).witness ≠ [])
    (.script "WITNESS_UNEXPECTED")

def verifyScript : Result Unit := do
  let copy ← runBase B lim job i amount (job.txIn i).scriptSig []
  let stack ← runBase B lim job i amount spk copy
  requireTrueTop B stack
  let (stack, hadWitness) ← witnessStage B lim job i amount spk stack
  let (stack, hadWitness) ← redeemStage B lim job i amount spk copy stack hadWitness
  finalStage job i stack hadWitness

end Pipeline

open Pipeline

variable {B : Bitcoin} {lim : StackLimit} {job : ScriptCheckJob} {i : job.InputIndex}
  {amount : UInt64} {spk : Bytes}

variable {script program : Bytes} {stack : List Bytes}

theorem runBase_eq_ok {stack' : List Bytes} : runBase B lim job i amount script stack = .ok stack' ↔
      ∃ check, evalScriptWith B lim script stack (.base job i amount script) =
        .ok (check, stack') := by
  simp [runBase, fromJob_base, bind_eq_ok, pure, Except.pure]

theorem runBase_nil (stack : List Bytes) : runBase B lim job i amount [] stack = .ok stack := by
  refine runBase_eq_ok.mpr ⟨true, ?_⟩
  rw [evalScriptWith_eq B (by simp [base]) _ (by decide)]
  exact (Running.init B _ stack).finish B

theorem verifyBare_eq (spk : Bytes) : verifyBare B lim job i amount spk = (do
    let copy ← runBase B lim job i amount (job.txIn i).scriptSig []
    let stack ← runBase B lim job i amount spk copy
    requireFinal B job stack) := by
  have first : (if (job.txIn i).scriptSig = [] then .ok [] else do
      let ctx ← fromJob job i amount (job.txIn i).scriptSig .base
      let (_, stack) ← evalScriptWith B lim (job.txIn i).scriptSig [] ctx
      return stack) = runBase B lim job i amount (job.txIn i).scriptSig [] := by
    split_ifs with empty
    · rw [empty, runBase_nil]
    · rfl
  simp only [verifyBare, first]
  simp [runBase]

theorem accepts_requireFinal_iff :
    Accepts (requireFinal B job stack) ↔ Accepts (requireTrueTop B stack) ∧
      (job.flags.cleanstack = true → stack.length = 1) := by
  cases clean : job.flags.cleanstack with
  | false => simp [requireFinal, clean]
  | true =>
    rw [requireFinal, if_pos clean]
    match stack with
    | [] => simp [requireCleanTrue]
    | [_] => simp [requireCleanTrue, requireTrueTop]
    | _ :: _ :: _ => simp [requireCleanTrue]

theorem accepts_finalStage_program (v : Bytes) : Accepts (finalStage job i [v] true) := by
  simp [finalStage]

theorem accepts_finalStage : Accepts (finalStage job i stack false) ↔
    (job.flags.cleanstack = true → stack.length = 1) ∧
      ¬(job.flags.witnessActive = true ∧ (job.txIn i).witness ≠ []) := by
  simp [finalStage]

/-- Outside witness programs and P2SH the pipeline is the bare path and the unexpected witness
rule. -/
theorem verifyScript_bare (native : activeProgram B job spk = none)
    (notP2sh : ¬(job.flags.bip16Active = true ∧ B.isP2sh spk = true)) :
    Accepts (verifyScript B lim job i amount spk) ↔
      ¬(job.flags.witnessActive = true ∧ (job.txIn i).witness ≠ []) ∧
        Accepts (verifyBare B lim job i amount spk) := by
  simp only [verifyScript, witnessStage, native, redeemStage, notP2sh, if_false, ok_bind,
    verifyBare_eq, accepts_bind, accepts_finalStage, accepts_requireFinal_iff]
  constructor
  · rintro ⟨copy, ranSig, stack, ranSpk, _, top, clean, expected⟩
    exact ⟨expected, copy, ranSig, stack, ranSpk, ⟨_, top⟩, clean⟩
  · rintro ⟨expected, copy, ranSig, stack, ranSpk, ⟨_, top⟩, clean⟩
    exact ⟨copy, ranSig, stack, ranSpk, _, top, clean, expected⟩

variable {version : Nat}

theorem activeProgram_eq_some (h : activeProgram B job script = some (version, program)) :
    job.flags.witnessActive = true ∧ ∃ v, IsProgram script v program ∧ (version = 0 → v = op0) := by
  rw [activeProgram] at h
  split_ifs at h with active
  obtain ⟨v, is, rfl⟩ := witnessProgram_eq_some B h
  refine ⟨active, v, is, fun zero => ?_⟩
  rcases is.version with rfl | ⟨low, -⟩
  · rfl
  · simp only [opTrue, UInt8.le_iff_toNat_le, UInt8.reduceToNat] at low
    split_ifs at zero with h
    · exact h
    · omega

variable {v : UInt8}

theorem IsProgram.version_le (is : IsProgram script v program) : v ≤ opPushnum16 := by
  rcases is.version with rfl | ⟨-, h⟩
  · decide
  · exact h

theorem IsProgram.not_p2sh (is : IsProgram script v program) : B.isP2sh script = false := by
  rw [Bool.eq_false_iff]
  intro p2sh
  obtain ⟨-, front, -⟩ := (B.isP2sh_iff script).mp p2sh
  rw [is.script_eq] at front
  obtain ⟨rfl, -⟩ := cons.inj front
  exact absurd is.version_le (by decide)

theorem lowS_strictenc (typed : needsInterpretedEcdsa job = false) :
    job.flags.lowS = false ∧ job.flags.strictenc = false := by
  simp only [needsInterpretedEcdsa, Bool.or_eq_false_iff] at typed
  exact typed.1

section Row

variable {pre : TxScriptPrecompute} (row : midstateRow job = .ok pre)
  (refuses : B.publicKeyFromSlice [] = none)
include row

variable {program : Bytes}

omit row in
theorem accepts_needsInterpreted {typed interpreted : Result Unit}
    (same : job.flags.lowS = false → job.flags.strictenc = false →
      (Accepts typed ↔ Accepts interpreted)) :
    Accepts (if needsInterpretedEcdsa job then interpreted else typed) ↔ Accepts interpreted := by
  by_cases needs : needsInterpretedEcdsa job = true
  · rw [if_pos needs]
  · rw [if_neg needs]
    obtain ⟨lowS, strictenc⟩ := lowS_strictenc (Bool.eq_false_iff.mpr needs)
    exact same lowS strictenc

include refuses in
theorem verifyScript_native (native : activeProgram B job spk = some (version, program)) :
    Accepts (verifyScript B lim job i amount spk) ↔
      Accepts (verifyNativeWitness B lim job i pre version program amount spk) := by
  obtain ⟨active, v, is, zero⟩ := activeProgram_eq_some native
  by_cases empty : (job.txIn i).scriptSig = []
  · have ran : runBase B lim job i amount spk [] = .ok [program, versionElem v] :=
      runBase_eq_ok.mpr ⟨true, is.evalScriptWith_eq B lim (by simp [base])⟩
    simp only [verifyScript, verifyNativeWitness, witnessStage, native, redeemStage, is.not_p2sh,
      empty, runBase_nil, ran, ok_bind, requireTrueTop, Bool.false_eq_true, and_false, if_false,
      accepts_rejectIf_bind, ne_eq, not_true_eq_false, not_false_eq_true, rejectIf_neg]
    refine and_congr_right fun _ => ?_
    trans Accepts (verifyWitnessProgram B lim job i amount spk version program false)
    · cases verifyWitnessProgram B lim job i amount spk version program false <;>
        simp [accepts_finalStage_program]
    by_cases h0 : version = 0
    · have spk_eq : spk = op0 :: UInt8.ofNat program.length :: program := zero h0 ▸ is.script_eq
      by_cases h20 : program.length = 20
      · have template : spk = P2wpkh.program program := by
          rw [spk_eq, h20]
          rfl
        rw [if_pos ⟨h0, h20⟩, template, accepts_needsInterpreted fun lowS strict =>
          P2wpkh.verify_iff_of_refuses lim h20 row lowS strict refuses]
        simp [verifyWitnessProgram, h0, h20]
      · by_cases h32 : program.length = 32
        · have hash : spk.slice 2 34 = program := by
            rw [spk_eq]
            exact take_of_length_le h32.le
          simp [verifyWitnessProgram, h0, h32, P2wsh.verify, hash]
        · simp [verifyWitnessProgram, h0, h20, h32]
    · have anchor : program = p2aProgram → program.length = 2 := by
        rintro rfl
        rfl
      have same : (version = 1 ∧ program.length = 2 ∧ program = p2aProgram) ↔
          version = 1 ∧ program = p2aProgram := by
        simp only [and_congr_right_iff, and_iff_right_iff_imp]
        exact fun _ => anchor
      simp only [verifyWitnessProgram, h0, false_and, if_false, and_true, same]
  · refine iff_of_false ?_ ?_
    · simp only [verifyScript, witnessStage, native, accepts_bind, bind_eq_ok, rejectIf_eq_ok]
      rintro ⟨_, -, _, -, _, -, _, ⟨_, malleated, -⟩, -⟩
      exact malleated empty
    · rw [verifyNativeWitness, accepts_rejectIf_bind]
      exact fun h => h.1 empty

end Row

section P2sh

variable {scripthash : Bytes} (len : scripthash.length = 20)

variable {copy below : List Bytes} {redeem : Bytes} {pre : TxScriptPrecompute}

theorem runBase_length_le (h : runBase B lim job i amount script [] = .ok copy) :
    copy.length ≤ maxStackSize := by
  obtain ⟨check, ran⟩ := runBase_eq_ok.mp h
  cases lim with
  | afterInstruction => exact evalScriptWith_length_le B (Nat.zero_le _) ran
  | onPush => exact evalScriptWith_length_le B (Nat.zero_le _) (evalScriptWith_nil B _ ▸ ran)

include len in
theorem runBase_p2sh {stack : List Bytes} (within : copy.length ≤ maxStackSize) :
    runBase B lim job i amount (p2shTemplate scripthash) copy = .ok stack ∧
      Accepts (requireTrueTop B stack) ↔
    ∃ redeem below, copy = redeem :: below ∧ copy.length < maxStackSize ∧
      B.hash160 redeem = scripthash ∧ stack = boolEncode true :: below := by
  have run (check : Bool) := @evalScriptWith_p2shTemplate B scripthash len lim
    (.base job i amount (p2shTemplate scripthash)) (by simp [base]) copy within
    (check, stack)
  simp only [runBase_eq_ok, run, Prod.mk.injEq]
  constructor
  · rintro ⟨⟨_, redeem, below, same, room, -, rfl⟩, top⟩
    have hash : scripthash = B.hash160 redeem := by
      by_contra differ
      simp [requireTrueTop, differ] at top
    exact ⟨redeem, below, same, room, hash.symm, by simp [hash]⟩
  · rintro ⟨redeem, below, same, room, rfl, rfl⟩
    exact ⟨⟨true, redeem, below, same, room, rfl, by simp⟩, by simp [requireTrueTop]⟩

/-- The scriptSig only pushes, and leaves a redeem script of the hash with room above it. -/
structure Redeems (B : Bitcoin) (lim : StackLimit) (job : ScriptCheckJob) (i : job.InputIndex)
    (amount : UInt64) (scripthash redeem : Bytes) (below : List Bytes) : Prop where
  ran : runBase B lim job i amount (job.txIn i).scriptSig [] = .ok (redeem :: below)
  room : (redeem :: below).length < maxStackSize
  pushOnly : B.isPushOnly (job.txIn i).scriptSig = true
  hash : B.hash160 redeem = scripthash

variable (bip16 : job.flags.bip16Active = true)

theorem isP2sh_p2shTemplate (len : scripthash.length = 20) :
    B.isP2sh (p2shTemplate scripthash) = true := by
  refine (B.isP2sh_iff _).mpr ⟨by simp [p2shTemplate, p2shPrefix, len], rfl, ?_⟩
  simp [p2shTemplate, p2shPrefix, len]

theorem activeProgram_p2shTemplate (len : scripthash.length = 20) :
    activeProgram B job (p2shTemplate scripthash) = none := by
  cases native : activeProgram B job (p2shTemplate scripthash) with
  | none => rfl
  | some found =>
    obtain ⟨-, v, is, -⟩ := activeProgram_eq_some native
    have := isP2sh_p2shTemplate (B := B) len
    rw [is.not_p2sh] at this
    cases this

include len bip16 in
theorem verifyScript_p2sh : Accepts (verifyScript B lim job i amount (p2shTemplate scripthash)) ↔
      ∃ redeem below, Redeems B lim job i amount scripthash redeem below ∧
        Accepts (do
          let (stack, hadWitness) ←
            runRedeem B lim job i amount (p2shTemplate scripthash) redeem below false
          finalStage job i stack hadWitness) := by
  simp only [verifyScript, witnessStage, activeProgram_p2shTemplate len, ok_bind, redeemStage,
    bip16, isP2sh_p2shTemplate len, and_self, if_true, accepts_bind, bind_eq_ok, rejectIf_eq_ok,
    exists_const, Bool.not_eq_false]
  constructor
  · rintro ⟨copy, ran, stack, hashed, _, top, final, ⟨pushOnly, staged⟩, accepted⟩
    obtain ⟨redeem, below, rfl, room, hash, -⟩ :=
      (runBase_p2sh len (runBase_length_le ran)).mp ⟨hashed, _, top⟩
    exact ⟨redeem, below, ⟨ran, room, pushOnly, hash⟩, final, staged, accepted⟩
  · rintro ⟨redeem, below, redeems, final, staged, accepted⟩
    obtain ⟨hashed, _, top⟩ := (runBase_p2sh len redeems.room.le).mpr
      ⟨redeem, below, rfl, redeems.room, redeems.hash, rfl⟩
    exact ⟨_, redeems.ran, _, hashed, _, top, final, ⟨redeems.pushOnly, staged⟩, accepted⟩

theorem p2shScriptSigStack_eq_ok : p2shScriptSigStack B lim job i amount = .ok copy ↔
      runBase B lim job i amount (job.txIn i).scriptSig [] = .ok copy ∧
        copy.length < maxStackSize ∧ B.isPushOnly (job.txIn i).scriptSig = true := by
  simp only [p2shScriptSigStack, requireRoomForP2shHashPush, runBase_eq_ok,
    fromJob_base, ok_bind, bind_eq_ok, rejectIf_eq_ok, exists_const, not_le, Bool.not_eq_false,
    Prod.exists, pure, Except.pure, Except.ok.injEq]
  constructor
  · rintro ⟨check, stack, ran, room, pushOnly, rfl⟩
    exact ⟨⟨check, ran⟩, room, pushOnly⟩
  · rintro ⟨⟨check, ran⟩, room, pushOnly⟩
    exact ⟨check, copy, ran, room, pushOnly, rfl⟩

theorem accepts_checkP2shRedeemHash (len : scripthash.length = 20) :
    Accepts (checkP2shRedeemHash B (p2shTemplate scripthash) redeem) ↔
      B.hash160 redeem = scripthash := by
  have size : (p2shTemplate scripthash).length = 23 := by simp [p2shTemplate, p2shPrefix, len]
  have cut : (p2shTemplate scripthash).slice 2 22 = scripthash := by
    simp [p2shTemplate, p2shPrefix, slice, len]
  simp [checkP2shRedeemHash, size, cut]

theorem redeem_legacy (len : scripthash.length = 20) (legacy : activeProgram B job redeem = none) :
    Accepts (do
      rejectIf (job.flags.witnessActive ∧ (job.txIn i).witness ≠ []) (.script "WITNESS_UNEXPECTED")
      verifyP2shLegacy B lim job i (redeem :: below) amount (p2shTemplate scripthash)) ↔
    B.hash160 redeem = scripthash ∧ Accepts (do
      let (stack, hadWitness) ←
        runRedeem B lim job i amount (p2shTemplate scripthash) redeem below false
      finalStage job i stack hadWitness) := by
  have run : verifyP2shLegacy B lim job i (redeem :: below) amount (p2shTemplate scripthash) =
      (do
        checkP2shRedeemHash B (p2shTemplate scripthash) redeem
        let stack ← runBase B lim job i amount redeem below
        requireFinal B job stack) := by
    simp [verifyP2shLegacy, runBase]
  rw [run, accepts_rejectIf_bind, runRedeem, legacy]
  simp only [accepts_bind, bind_eq_ok, ← accepts_checkP2shRedeemHash len, accepts_requireFinal_iff,
    pure, Except.pure, Except.ok.injEq]
  constructor
  · rintro ⟨expected, _, hash, stack, ran, ⟨_, top⟩, clean⟩
    exact ⟨⟨_, hash⟩, _, ⟨stack, ran, _, top, rfl⟩, accepts_finalStage.mpr ⟨clean, expected⟩⟩
  · rintro ⟨⟨_, hash⟩, _, ⟨stack, ran, _, top, rfl⟩, accepted⟩
    obtain ⟨clean, expected⟩ := accepts_finalStage.mp accepted
    exact ⟨expected, _, hash, stack, ran, ⟨_, top⟩, clean⟩

theorem verifyWitnessProgram_nested (row : midstateRow job = .ok pre)
    (is : IsProgram redeem v program) (zero : version = 0 → v = op0) :
    Accepts (verifyWitnessProgram B lim job i amount spk version program true) ↔
    Accepts (if version = 0 ∧ program.length = 20 then
        if needsInterpretedEcdsa job then P2wpkh.verifyInterpreted B lim job i program amount
        else P2wpkh.verifyWithKeyhash B job i program redeem pre amount
      else if version = 0 ∧ program.length = 32 then
        P2wsh.verifyWithScripthash B lim job i program amount
      else if version = 0 then fail "WITNESS_PROGRAM_WRONG_LENGTH"
      else
        rejectIf job.flags.discourageUpgradableWitness
          (.script "DISCOURAGE_UPGRADABLE_WITNESS_PROGRAM")) := by
  by_cases h0 : version = 0
  · by_cases h20 : program.length = 20
    · have template : redeem = P2wpkh.program program := by
        rw [is.script_eq, zero h0, h20]
        rfl
      rw [if_pos ⟨h0, h20⟩, template, accepts_needsInterpreted fun lowS strict =>
        P2wpkh.verifyWithKeyhash_iff lim h20 row lowS strict]
      simp [verifyWitnessProgram, h0, h20]
    · by_cases h32 : program.length = 32 <;> simp [verifyWitnessProgram, h0, h20]
  · simp [verifyWitnessProgram, h0]

/-- The only scriptSig that the pipeline lets through to a nested program is the push of the redeem
script, so nothing is below it, and its run can only leave the program on top. -/
theorem accepts_runRedeem
    (ran : runBase B lim job i amount (job.txIn i).scriptSig [] = .ok (redeem :: below))
    (nested : activeProgram B job redeem = some (version, program))
    (is : IsProgram redeem v program) :
    Accepts (do
      let (stack, hadWitness) ← runRedeem B lim job i amount spk redeem below false
      finalStage job i stack hadWitness) ↔
    (below = [] ∧ (job.txIn i).scriptSig = minimalPushEncoding redeem) ∧
      B.readScriptbool program = true ∧
        Accepts (verifyWitnessProgram B lim job i amount spk version program true) := by
  have short : redeem.length ≤ 75 := by
    have := is.short
    rw [is.length_eq]
    omega
  have pushed : encodePush redeem = minimalPushEncoding redeem :=
    encodePush_short (Nat.lt_succ_of_le short)
  have left : runBase B lim job i amount (minimalPushEncoding redeem) [] = .ok [redeem] :=
    runBase_eq_ok.mpr ⟨true, evalScriptWith_push B (by rw [is.length_eq]; omega) short lim
      (by simp [base])⟩
  have redeemed : runBase B lim job i amount redeem [] = .ok [program, versionElem v] :=
    runBase_eq_ok.mpr ⟨true, is.evalScriptWith_eq B lim (by simp [base])⟩
  simp only [runRedeem, nested, accepts_bind, bind_eq_ok, rejectIf_eq_ok, exists_const, not_not,
    pushed, pure, Except.pure, Except.ok.injEq]
  constructor
  · rintro ⟨_, ⟨stack, run, _, top, sig, _, verified, rfl⟩, -⟩
    rw [sig, left, Except.ok.injEq] at ran
    obtain ⟨-, rfl⟩ := ran
    rw [redeemed, Except.ok.injEq] at run
    subst run
    exact ⟨⟨rfl, sig⟩, by simpa [requireTrueTop] using top, _, verified⟩
  · rintro ⟨⟨rfl, sig⟩, true, _, verified⟩
    exact ⟨_, ⟨_, redeemed, (), by simp [requireTrueTop, true], sig, _, verified, rfl⟩,
      accepts_finalStage_program program⟩

theorem redeem_iff (row : midstateRow job = .ok pre) (len : scripthash.length = 20)
    (ran : runBase B lim job i amount (job.txIn i).scriptSig [] = .ok (redeem :: below)) :
    Accepts (match tryP2shNestedSegwit B lim job i pre (redeem :: below) amount
        (p2shTemplate scripthash) with
      | some res => res
      | none => do
        rejectIf (job.flags.witnessActive ∧ (job.txIn i).witness ≠ [])
          (.script "WITNESS_UNEXPECTED")
        verifyP2shLegacy B lim job i (redeem :: below) amount (p2shTemplate scripthash)) ↔
    B.hash160 redeem = scripthash ∧ Accepts (do
      let (stack, hadWitness) ←
        runRedeem B lim job i amount (p2shTemplate scripthash) redeem below false
      finalStage job i stack hadWitness) := by
  cases nested : activeProgram B job redeem with
  | none =>
    have legacy : tryP2shNestedSegwit B lim job i pre (redeem :: below) amount
        (p2shTemplate scripthash) = none := by
      cases active : job.flags.witnessActive with
      | false => rw [tryP2shNestedSegwit, if_pos active]
      | true =>
        rw [activeProgram, if_pos active] at nested
        simp [tryP2shNestedSegwit, nested]
    rw [legacy]
    exact redeem_legacy len nested
  | some found =>
    obtain ⟨version, program⟩ := found
    obtain ⟨active, v, is, zero⟩ := activeProgram_eq_some nested
    have found : witnessProgram B redeem = some (version, program) := by
      rwa [activeProgram, if_pos active] at nested
    simp only [tryP2shNestedSegwit, active, Bool.true_eq_false, if_false, found]
    rw [accepts_runRedeem ran nested is, verifyWitnessProgram_nested row is zero,
      ← accepts_checkP2shRedeemHash len]
    simp only [accepts_bind, rejectIf_eq_ok, exists_const, Bool.not_eq_false, not_or, not_not]
    constructor
    · rintro ⟨sig, _, hash, true, verified⟩
      exact ⟨⟨_, hash⟩, sig, true, verified⟩
    · rintro ⟨⟨_, hash⟩, sig, true, verified⟩
      exact ⟨sig, _, hash, true, verified⟩

theorem verifyP2sh_iff (row : midstateRow job = .ok pre) (len : scripthash.length = 20)
    (bip16 : job.flags.bip16Active = true) :
    Accepts (verifyP2sh B lim job i pre amount (p2shTemplate scripthash)) ↔
      Accepts (verifyScript B lim job i amount (p2shTemplate scripthash)) := by
  rw [verifyScript_p2sh len bip16, verifyP2sh, if_neg (by simp [bip16]), accepts_bind]
  constructor
  · rintro ⟨copy, left, accepted⟩
    obtain ⟨ran, room, pushOnly⟩ := p2shScriptSigStack_eq_ok.mp left
    cases copy with
    | nil =>
      have nothing : tryP2shNestedSegwit B lim job i pre [] amount
          (p2shTemplate scripthash) = none := by simp [tryP2shNestedSegwit]
      simp [nothing, verifyP2shLegacy] at accepted
    | cons redeem below =>
      obtain ⟨hash, tail⟩ := (redeem_iff row len ran).mp accepted
      exact ⟨redeem, below, ⟨ran, room, pushOnly, hash⟩, tail⟩
  · rintro ⟨redeem, below, redeems, tail⟩
    exact ⟨_, p2shScriptSigStack_eq_ok.mpr ⟨redeems.ran, redeems.room, redeems.pushOnly⟩,
      (redeem_iff row len redeems.ran).mpr ⟨redeems.hash, tail⟩⟩

end P2sh

theorem classify_cases (B : Bitcoin) (script : Bytes) :
    classify B script = .p2pkh ∧ B.isP2pkh script = true ∧ B.isP2sh script = false ∨
    classify B script = .p2sh ∧ B.isP2pkh script = false ∧ B.isP2sh script = true ∨
    classify B script ≠ .p2pkh ∧ classify B script ≠ .p2sh ∧ B.isP2pkh script = false ∧
      B.isP2sh script = false := by
  have p2pkh : script.length ≠ 25 → B.isP2pkh script = false := fun differ =>
    Bool.eq_false_iff.mpr fun h => differ ((B.isP2pkh_iff script).mp h).1
  have p2sh : script.length ≠ 23 → B.isP2sh script = false := fun differ =>
    Bool.eq_false_iff.mpr fun h => differ ((B.isP2sh_iff script).mp h).1
  unfold classify
  split_ifs with h1 h2 h3 h4 h5
  · have len := ((B.isP2wpkh_iff script).mp h1).1
    exact .inr (.inr ⟨nofun, nofun, p2pkh (by simp [len]), p2sh (by simp [len])⟩)
  · have len := ((B.isP2wsh_iff script).mp h2).1
    exact .inr (.inr ⟨nofun, nofun, p2pkh (by simp [len]), p2sh (by simp [len])⟩)
  · have len := ((B.isP2tr_iff script).mp h3).1
    exact .inr (.inr ⟨nofun, nofun, p2pkh (by simp [len]), p2sh (by simp [len])⟩)
  · exact .inl ⟨rfl, h4, p2sh (by rw [((B.isP2pkh_iff script).mp h4).1]; simp)⟩
  · exact .inr (.inl ⟨rfl, Bool.eq_false_iff.mpr h4, h5⟩)
  · exact .inr (.inr ⟨by simp, by simp, Bool.eq_false_iff.mpr h4, Bool.eq_false_iff.mpr h5⟩)

/-- A P2PKH input that the typed path accepts in spite of a flag that only the interpreter
applies: two pushes that spend the key hash, where `minimalData` refuses the encoding of a push or
`constScriptcode` refuses a signature that is found in the script code. -/
def SkipsFlag (B : Bitcoin) (job : ScriptCheckJob) (i : job.InputIndex) (script : Bytes) : Prop :=
  B.isP2pkh script = true ∧ needsInterpretedEcdsa job = false ∧
  ¬(job.flags.witnessActive = true ∧ (job.txIn i).witness ≠ []) ∧
  ∃ sig pubkey k l, P2pkh.TwoPushes (job.txIn i).scriptSig sig pubkey k l ∧
    P2pkh.Spends B job i (script.slice 3 23) sig pubkey ∧
    (¬P2pkh.TwoPushes.Minimal job.flags (job.txIn i).scriptSig sig pubkey k l ∨
      job.flags.constScriptcode = true ∧ sig = script.slice 3 23)

theorem SkipsFlag.differ (skips : SkipsFlag B job i script) :
    Accepts (verifyP2pkh B lim job i amount script) ∧
      ¬Accepts (verifyBare B lim job i amount script) := by
  obtain ⟨p2pkh, typed, -, sig, pubkey, k, l, two, spends, skipped⟩ := skips
  obtain ⟨keyhash, len, rfl⟩ := eq_p2pkhTemplate p2pkh
  rw [slice_template len] at spends skipped
  have accepted := (verify_accepts len two).mpr spends
  obtain ⟨lowS, strictenc⟩ := lowS_strictenc typed
  constructor
  · obtain ⟨_, ok⟩ := accepted
    simp [verifyP2pkh, typed, ok]
  · rw [verifyBare_accepts lim len two lowS strictenc]
    rintro ⟨minimal, kept, -⟩
    exact skipped.elim (fun bad => bad minimal) kept

theorem verifyP2pkh_iff (p2pkh : B.isP2pkh script = true)
    (expected : ¬(job.flags.witnessActive = true ∧ (job.txIn i).witness ≠ []))
    (applies : ¬SkipsFlag B job i script) :
    Accepts (verifyP2pkh B lim job i amount script) ↔
      Accepts (verifyBare B lim job i amount script) := by
  obtain same | ⟨typed, same, sig, pubkey, k, l, two⟩ := verifyP2pkh_eq B lim job i amount script
  · rw [same]
  · obtain ⟨keyhash, len, rfl⟩ := eq_p2pkhTemplate p2pkh
    obtain ⟨lowS, strictenc⟩ := lowS_strictenc typed
    rw [same, verifyBare_accepts lim len two lowS strictenc]
    refine ⟨fun accepted => ?_, fun h => h.2.2⟩
    by_contra differ
    refine applies ⟨p2pkh, typed, expected, sig, pubkey, k, l, two, ?_, ?_⟩ <;>
      rw [slice_template len]
    · exact (verify_accepts len two).mp accepted
    · by_contra none
      rw [not_or, not_not] at none
      exact differ ⟨none.1, none.2, accepted⟩

theorem IsProgram.not_p2pkh (is : IsProgram script v program) : B.isP2pkh script = false := by
  rw [Bool.eq_false_iff]
  intro p2pkh
  obtain ⟨-, front, -⟩ := (B.isP2pkh_iff script).mp p2pkh
  rw [is.script_eq] at front
  obtain ⟨rfl, -⟩ := cons.inj front
  exact absurd is.version_le (by decide)

theorem verifyInput_native {pre : TxScriptPrecompute}
    (native : activeProgram B job script = some (version, program)) :
    verifyInput B lim job i pre amount script =
      verifyNativeWitness B lim job i pre version program amount script := by
  simp only [activeProgram] at native
  simp [verifyInput, native]

theorem verifyInput_legacy {pre : TxScriptPrecompute} (legacy : activeProgram B job script = none) :
    verifyInput B lim job i pre amount script = (do
      rejectIf (job.flags.witnessActive ∧ (job.txIn i).witness ≠ [] ∧
        ¬(classify B script = .p2sh ∧ job.flags.bip16Active)) (.script "WITNESS_UNEXPECTED")
      match classify B script with
      | .p2pkh => verifyP2pkh B lim job i amount script
      | .p2sh => verifyP2sh B lim job i pre amount script
      | _ => verifyBare B lim job i amount script) := by
  simp only [activeProgram] at legacy
  cases kind : classify B script <;> simp only [verifyInput, legacy, kind]

/-- `verify_input` decides as the pipeline on every input but those on which the typed P2PKH path
skips a flag. -/
theorem verifyInput_iff_verifyScript (B : Bitcoin) (refuses : B.publicKeyFromSlice [] = none)
    (job : ScriptCheckJob) (i : job.InputIndex) (pre : TxScriptPrecompute)
    (row : midstateRow job = .ok pre) (amount : UInt64) (script : Bytes) :
    (Accepts (verifyInput B .onPush job i pre amount script) ↔
      Accepts (verifyScript B .onPush job i amount script)) ↔ ¬SkipsFlag B job i script := by
  have unskipped (other : B.isP2pkh script = false) : ¬SkipsFlag B job i script := by
    rintro ⟨p2pkh, -⟩
    rw [other] at p2pkh
    cases p2pkh
  cases native : activeProgram B job script with
  | some found =>
    obtain ⟨-, v, is, -⟩ := activeProgram_eq_some native
    rw [verifyInput_native native]
    exact iff_of_true (verifyScript_native row refuses native).symm (unskipped is.not_p2pkh)
  | none =>
    rw [verifyInput_legacy native]
    obtain ⟨kind, p2pkh, notP2sh⟩ | ⟨kind, notP2pkh, p2sh⟩ |
        ⟨notKind, notKind', notP2pkh, notP2sh⟩ := classify_cases B script
    · rw [verifyScript_bare native (by simp [notP2sh]), kind, accepts_rejectIf_bind]
      simp only [reduceCtorEq, false_and, not_false_eq_true, and_true]
      constructor
      · rintro same skips
        have expected := skips.2.2.1
        obtain ⟨typed, bare⟩ := @SkipsFlag.differ B .onPush job i amount script skips
        exact bare (same.mp ⟨expected, typed⟩).2
      · exact fun applies => and_congr_right fun expected => verifyP2pkh_iff p2pkh expected applies
    · refine iff_of_true ?_ (unskipped notP2pkh)
      rw [kind]
      cases bip16 : job.flags.bip16Active with
      | true =>
        obtain ⟨scripthash, len, rfl⟩ := eq_p2shTemplate B p2sh
        simp only [not_true_eq_false, and_false, true_and]
        exact verifyP2sh_iff row len bip16
      | false =>
        rw [verifyScript_bare native (by simp [bip16])]
        simp [verifyP2sh, bip16]
    · refine iff_of_true ?_ (unskipped notP2pkh)
      rw [verifyScript_bare native (by simp [notP2sh])]
      simp [notKind']

def minimalDataFlags : ScriptVerifyFlags :=
  { ScriptVerifyFlags.consensusAt ⟨1, 1, 1, 1⟩ 0 [] true with minimalData := true }

/-- A spend of the zero key hash under `minimalDataFlags`. -/
def keyhashSpend (scriptSig : Bytes) : ScriptCheckJob :=
  .single scriptSig [] ⟨0, p2pkhTemplate (replicate 20 0)⟩ minimalDataFlags

/-- Direct pushes of a signature and a key skip nothing. -/
theorem verifyInput_iff_verifyScript_direct :
    ¬SkipsFlag P2wpkh.refusesEmptyKey (keyhashSpend [2, 1, 1, 2, 2, 2]) ⟨0, by decide⟩
      (p2pkhTemplate (replicate 20 0)) :=
  (verifyInput_iff_verifyScript P2wpkh.refusesEmptyKey rfl _ ⟨0, by decide⟩ baseSigPrecompute rfl 0
    _).mp (by decide)

/-- The same two elements pushed with `OP_PUSHDATA1` pass `verify_input` and not the pipeline. -/
theorem verifyInput_skips_minimalData :
    Accepts (verifyInput P2wpkh.refusesEmptyKey .onPush
      (keyhashSpend [0x4c, 2, 1, 1, 0x4c, 2, 2, 2])
      ⟨0, by decide⟩ baseSigPrecompute 0 (p2pkhTemplate (replicate 20 0))) ∧
    ¬Accepts (verifyScript P2wpkh.refusesEmptyKey .onPush
      (keyhashSpend [0x4c, 2, 1, 1, 0x4c, 2, 2, 2]) ⟨0, by decide⟩ 0
      (p2pkhTemplate (replicate 20 0))) := by
  decide

end Rbitcoin.Script
