import Mathlib.Data.List.NodupEquivFin
import Rbitcoin.Lib.Loop
import Rbitcoin.Script.Signature

/-! The pairing loop of `CHECKMULTISIG` with its indices, over any comparison of a signature with a
key. It succeeds exactly when the signatures match keys in order, each key at most once. -/

namespace Rbitcoin.Script

open Loop List

variable {ε : Type}

/-- The locals of `checkmultisig_pairs`. -/
structure PairWalk where
  fSuccess : Bool
  nSigs : Nat
  nKeys : Nat
  isig : Nat
  ikey : Nat

/-- The loop answers, a comparison fails, or an index or a count leaves its range. -/
inductive PairEnd (ε : Type)
  | answer (fSuccess : Bool)
  | failed (e : ε)
  | panics
  deriving DecidableEq, Repr

/-- One turn of `checkmultisig_pairs`; a turn that goes on has made one comparison. -/
def pairTurn (sigMatches : Bytes → Bytes → Except ε Bool) (sigs pubkeys : List Bytes)
    (s : PairWalk) : PairEnd ε ⊕ PairWalk :=
  if s.fSuccess ∧ 0 < s.nSigs then
    match sigs[s.isig]?, pubkeys[s.ikey]? with
    | some sig, some pubkey =>
      match sigMatches sig pubkey with
      | .error e => .inl (.failed e)
      | .ok fOk =>
        let isig := if fOk then s.isig + 1 else s.isig
        let nSigs := if fOk then s.nSigs - 1 else s.nSigs
        if s.nKeys = 0 then .inl .panics
        else .inr ⟨nSigs ≤ s.nKeys - 1, nSigs, s.nKeys - 1, isig, s.ikey + 1⟩
    | _, _ => .inl .panics
  else .inl (.answer s.fSuccess)

def pairStart (sigs pubkeys : List Bytes) : PairWalk := ⟨true, sigs.length, pubkeys.length, 0, 0⟩

/-- The signatures match keys in order. -/
def Paired (sigMatches : Bytes → Bytes → Except ε Bool) : List Bytes → List Bytes → Prop :=
  List.SublistForall₂ fun sig pubkey => sigMatches sig pubkey = .ok true

section Pairing

variable {sigMatches : Bytes → Bytes → Except ε Bool} {sig key : Bytes} {sigs keys : List Bytes}

theorem Paired.length_le (paired : Paired sigMatches sigs keys) : sigs.length ≤ keys.length := by
  obtain ⟨matched, all, sub⟩ := sublistForall₂_iff.mp paired
  rw [all.length_eq]
  exact sub.length_le

theorem Paired.of_cons (paired : Paired sigMatches (sig :: sigs) keys) :
    Paired sigMatches sigs keys := by
  induction keys with
  | nil => cases paired
  | cons key keys ih =>
    cases paired with
    | cons _ rest => exact .cons_right rest
    | cons_right rest => exact .cons_right (ih rest)

/-- A signature that matches the first key may be paired with it. -/
theorem paired_cons_of_match (matched : sigMatches sig key = .ok true) :
    Paired sigMatches (sig :: sigs) (key :: keys) ↔ Paired sigMatches sigs keys := by
  refine ⟨fun paired => ?_, fun paired => .cons matched paired⟩
  cases paired with
  | cons _ rest => exact rest
  | cons_right rest => exact Paired.of_cons rest

theorem paired_cons_of_miss (missed : sigMatches sig key = .ok false) :
    Paired sigMatches (sig :: sigs) (key :: keys) ↔ Paired sigMatches (sig :: sigs) keys := by
  refine ⟨fun paired => ?_, fun paired => .cons_right paired⟩
  cases paired with
  | cons matched _ =>
    rw [missed] at matched
    cases matched
  | cons_right rest => exact rest

/-- An order-preserving injection of the signatures into the keys is a pairing. -/
theorem paired_iff_embedding : Paired sigMatches sigs keys ↔
    ∃ f : Fin sigs.length ↪o Fin keys.length, ∀ i, sigMatches sigs[i] keys[f i] = .ok true := by
  constructor
  · intro paired
    obtain ⟨matched, all, sub⟩ := sublistForall₂_iff.mp paired
    obtain ⟨f, same⟩ := sublist_iff_exists_fin_orderEmbedding_get_eq.mp sub
    have length := all.length_eq
    refine ⟨(Fin.castOrderIso length).toOrderEmbedding.trans f, fun i => ?_⟩
    have pair := forall₂_iff_get.mp all |>.2 i i.isLt (length ▸ i.isLt)
    rw [same] at pair
    exact pair
  · rintro ⟨f, all⟩
    refine sublistForall₂_iff.mpr ⟨ofFn fun i => keys[f i], ?_, ?_⟩
    · rw [forall₂_iff_get]
      refine ⟨by simp, fun i inside inside' => ?_⟩
      simpa using all ⟨i, inside⟩
    · rw [sublist_iff_exists_fin_orderEmbedding_get_eq]
      refine ⟨(Fin.castOrderIso (by simp)).toOrderEmbedding.trans f, fun i => ?_⟩
      rw [get_ofFn]
      rfl

end Pairing

section Loop

variable {sigMatches : Bytes → Bytes → Except ε Bool} {sigs pubkeys : List Bytes}

variable {sigs' keys' : List Bytes} {isig ikey : Nat}

variable (sigMatches) in
theorem pairTurn_next {sig key : Bytes} {fOk : Bool} (left : sigs.drop isig = sig :: sigs')
    (right : pubkeys.drop ikey = key :: keys') (compared : sigMatches sig key = .ok fOk) :
    let rest := if fOk then sigs' else sig :: sigs'
    pairTurn sigMatches sigs pubkeys
        ⟨true, (sig :: sigs').length, (key :: keys').length, isig, ikey⟩ =
      .inr ⟨rest.length ≤ keys'.length, rest.length, keys'.length,
        if fOk then isig + 1 else isig, ikey + 1⟩ := by
  intro rest
  have atSig : sigs[isig]? = some sig := by
    rw [← head?_drop, left, head?_cons]
  have atKey : pubkeys[ikey]? = some key := by
    rw [← head?_drop, right, head?_cons]
  simp only [pairTurn, atSig, atKey, compared]
  cases fOk <;> simp [rest]

theorem drop_compared {sig : Bytes} {sigs' : List Bytes} {isig : Nat}
    (left : sigs.drop isig = sig :: sigs') (fOk : Bool) :
    sigs.drop (if fOk then isig + 1 else isig) = if fOk then sigs' else sig :: sigs' := by
  cases fOk with
  | true =>
    rw [if_pos rfl, ← tail_drop, left]
    rfl
  | false => exact left

theorem pairs_run (total : ∀ sig ∈ sigs, ∀ key ∈ pubkeys, ∃ fOk, sigMatches sig key = .ok fOk)
    (left : sigs.drop isig = sigs') (right : pubkeys.drop ikey = keys')
    (enough : sigs'.length ≤ keys'.length) :
    ∃ calls ≤ keys'.length, ∃ fSuccess, run (pairTurn sigMatches sigs pubkeys) calls
        ⟨true, sigs'.length, keys'.length, isig, ikey⟩ = none ∧
      run (pairTurn sigMatches sigs pubkeys) (calls + 1)
        ⟨true, sigs'.length, keys'.length, isig, ikey⟩ = some (.answer fSuccess) ∧
      (fSuccess = true ↔ Paired sigMatches sigs' keys') := by
  induction keys' generalizing sigs' isig ikey with
  | nil =>
    obtain rfl := length_eq_zero_iff.mp (Nat.le_zero.mp enough)
    exact ⟨0, le_refl 0, true, rfl, rfl, by simpa using .nil⟩
  | cons key keys' ih =>
    cases sigs' with
    | nil => exact ⟨0, Nat.zero_le _, true, rfl, rfl, by simpa using .nil⟩
    | cons sig sigs' =>
      have mem : sig ∈ sigs := mem_of_mem_drop (left ▸ mem_cons_self)
      have mem' : key ∈ pubkeys := mem_of_mem_drop (right ▸ mem_cons_self)
      obtain ⟨fOk, compared⟩ := total sig mem key mem'
      have turn := pairTurn_next sigMatches left right compared
      have paired : Paired sigMatches (sig :: sigs') (key :: keys') ↔
          Paired sigMatches (if fOk then sigs' else sig :: sigs') keys' := by
        cases fOk with
        | true => exact paired_cons_of_match compared
        | false => exact paired_cons_of_miss compared
      have kept := drop_compared left fOk
      have next : pubkeys.drop (ikey + 1) = keys' := by
        rw [← tail_drop, right]
        rfl
      rw [paired]
      generalize (if fOk then sigs' else sig :: sigs') = rest at turn kept ⊢
      by_cases fits : rest.length ≤ keys'.length
      · obtain ⟨calls, few, fSuccess, before, ends, answer⟩ := ih kept next fits
        refine ⟨calls + 1, Nat.succ_le_succ few, fSuccess, ?_, ?_, answer⟩
        · rw [run_of_inr turn, decide_eq_true fits]
          exact before
        · rw [run_of_inr turn, decide_eq_true fits]
          exact ends
      · refine ⟨1, Nat.succ_le_succ (Nat.zero_le _), false, ?_, ?_, ?_⟩
        · rw [run_of_inr turn]
          rfl
        · rw [run_of_inr turn, decide_eq_false fits]
          rfl
        · exact ⟨nofun, fun paired => absurd paired.length_le fits⟩

/-- With no more signatures than keys and comparisons that do not fail, the loop answers after at
most one comparison for each key, and whether there is an order-preserving injection of the
signatures into the keys that match them. -/
theorem checkmultisig_pairs_iff (sigMatches : Bytes → Bytes → Except ε Bool)
    (sigs pubkeys : List Bytes) (enough : sigs.length ≤ pubkeys.length)
    (total : ∀ sig ∈ sigs, ∀ key ∈ pubkeys, ∃ fOk, sigMatches sig key = .ok fOk) :
    ∃ calls ≤ pubkeys.length, ∃ fSuccess,
      Loop.run (pairTurn sigMatches sigs pubkeys) calls (pairStart sigs pubkeys) = none ∧
      Loop.run (pairTurn sigMatches sigs pubkeys) (calls + 1) (pairStart sigs pubkeys) =
        some (.answer fSuccess) ∧
      (fSuccess = true ↔ ∃ f : Fin sigs.length ↪o Fin pubkeys.length,
        ∀ i, sigMatches sigs[i] pubkeys[f i] = .ok true) := by
  obtain ⟨calls, few, fSuccess, before, ends, answer⟩ :=
    pairs_run total (drop_zero (l := sigs)) (drop_zero (l := pubkeys)) enough
  exact ⟨calls, few, fSuccess, before, ends, answer.trans paired_iff_embedding⟩

theorem checkmultisig_pairs_second : ∃ calls ≤ 2, ∃ fSuccess,
    Loop.run (pairTurn (ε := Unit) (fun s k => .ok (s == k)) [[7]] [[1], [7]]) calls
      (pairStart [[7]] [[1], [7]]) = none ∧
    Loop.run (pairTurn (ε := Unit) (fun s k => .ok (s == k)) [[7]] [[1], [7]]) (calls + 1)
      (pairStart [[7]] [[1], [7]]) = some (.answer fSuccess) ∧
    (fSuccess = true ↔ ∃ f : Fin 1 ↪o Fin 2, ∀ i : Fin 1,
      (.ok (([[7]] : List Bytes)[i] == ([[1], [7]] : List Bytes)[f i]) : Except Unit Bool) =
        .ok true) :=
  checkmultisig_pairs_iff _ [[7]] [[1], [7]] (by decide) fun sig _ key _ => ⟨sig == key, rfl⟩

def PairEnd.result : PairEnd ConsensusError → Option (Result Bool)
  | .answer fSuccess => some (.ok fSuccess)
  | .failed e => some (.error e)
  | .panics => none

/-- The recursion of the interpreter is the loop with its comparison. -/
theorem checkmultisigPairs_run (B : Bitcoin) (ctx : EvalContext) (scriptCode : Bytes)
    (ver : PreTapscript)
    (left : sigs.drop isig = sigs') (right : pubkeys.drop ikey = keys')
    (enough : sigs'.length ≤ keys'.length) :
    ∃ r, run (pairTurn (ecdsaSigMatches B · · ctx scriptCode ver) sigs pubkeys)
        (keys'.length + 1) ⟨true, sigs'.length, keys'.length, isig, ikey⟩ = some r ∧
      r.result = some (checkmultisigPairs B ctx scriptCode ver sigs' keys') := by
  induction keys' generalizing sigs' isig ikey with
  | nil =>
    obtain rfl := length_eq_zero_iff.mp (Nat.le_zero.mp enough)
    exact ⟨.answer true, rfl, rfl⟩
  | cons key keys' ih =>
    cases sigs' with
    | nil => exact ⟨.answer true, rfl, rfl⟩
    | cons sig sigs' =>
      unfold checkmultisigPairs
      cases compared : ecdsaSigMatches B sig key ctx scriptCode ver with
      | error e =>
        have atSig : sigs[isig]? = some sig := by rw [← head?_drop, left, head?_cons]
        have atKey : pubkeys[ikey]? = some key := by rw [← head?_drop, right, head?_cons]
        refine ⟨.failed e, run_of_inl ?_, rfl⟩
        simp [pairTurn, atSig, atKey, compared]
      | ok fOk =>
        have turn := pairTurn_next (ecdsaSigMatches B · · ctx scriptCode ver) left right compared
        have kept := drop_compared left fOk
        have next : pubkeys.drop (ikey + 1) = keys' := by
          rw [← tail_drop, right]
          rfl
        rw [run_of_inr turn, Outcome.ok_bind]
        generalize (if fOk then sigs' else sig :: sigs') = rest at kept ⊢
        by_cases fits : rest.length ≤ keys'.length
        · obtain ⟨r, ends, same⟩ := ih kept next fits
          rw [decide_eq_true fits]
          refine ⟨r, ends, same.trans ?_⟩
          rw [if_neg (not_lt.mpr fits)]
        · rw [decide_eq_false fits]
          refine ⟨.answer false, rfl, ?_⟩
          rw [if_pos (not_le.mp fits)]
          rfl

end Loop

end Rbitcoin.Script
