import Rbitcoin.Store.PackedOutputs

/-! The readers that want only a part of a `txout` row: some outputs, the taproot keys, or the
scripts one by one. Each walks the outputs with a loop of its own, and each is compared with the
decoder of the whole row. -/

namespace Rbitcoin.Store

open Bytes Outcome OutputRecord Tx
open List hiding rec

def OutputRecord.skipAt (buf : Bytes) : Result Nat := do return (← OutputHead.read buf).next

/-- What a loop over the outputs leaves: the outputs that were wanted, and, unless it has returned
early, where it ended and what was not found. -/
abbrev Picked := List (Nat × Nat × OutputRecord) × Option (Nat × List Nat)

/-- The loop of `decode_packed_outs`, with the wanted indexes that are still to come. -/
def pickOuts (raw : Bytes) (takeAll : Bool) (secret : Option StoreSecret) (throughEnd : Bool) :
    Nat → Nat → Nat → List Nat → Result Picked
  | 0, _, off, need => .ok ([], some (off, need))
  | n + 1, vout, off, need =>
    if raw.length ≤ off then corrupt "packed outputs short"
    else if takeAll ∨ need.head? = some vout then do
      let (rec, used) ← decodeAtSecret (raw.drop off) secret
      let need := if takeAll then need else need.tail
      if ¬takeAll ∧ need = [] ∧ ¬throughEnd then return ([(vout, off, rec)], none)
      let (outs, left) ← pickOuts raw takeAll secret throughEnd n (vout + 1) (off + used) need
      return ((vout, off, rec) :: outs, left)
    else do
      let used ← skipAt (raw.drop off)
      pickOuts raw takeAll secret throughEnd n (vout + 1) (off + used) need

/-- The head, the outputs with their indexes, and their `u32` offsets with the indexes. -/
abbrev SparseOutsRow := TxRecord × List (Nat × OutputRecord) × List (Nat × Nat)

variable (raw : Bytes) (nOut : Nat) (need : List Nat)

def decodePackedOuts (takeAll : Bool)
    (secret : Option StoreSecret) (throughEnd : Bool) : Result SparseOutsRow := do
  let (rec, off) ← TxRecord.decodeBodyMetaV17 raw
  if nOut = 0 then corrupt "invariant: create n_out"
  else
    let (outs, left) ← pickOuts raw takeAll secret throughEnd nOut 0 off need
    let row : SparseOutsRow := ({ rec with outputCount := nOut },
      outs.map fun o => (o.1, o.2.2), outs.map fun o => (o.1, o.2.1 % 2 ^ 32))
    match left with
    | none => return row
    | some (logicalEnd, missing) =>
      if ¬takeAll ∧ missing ≠ [] then
        corrupt "packed need_vouts missing (vout past output_count)"
      else
        checkTrailingZeroPad raw logicalEnd
        return row

variable (secret : Option StoreSecret)

/-- Nothing wanted is everything wanted. -/
def decodePackedTxNeedOutsWithSpenderRelsSecret : Result SparseOutsRow :=
  decodePackedOuts raw nOut need need.isEmpty secret false

def decodePackedTxOutsExact : Result SparseOutsRow :=
  decodePackedOuts raw nOut need false secret true

def scanOuts (raw : Bytes) (secret : Option StoreSecret) :
    Nat → Nat → Nat → Result (List (Nat × Bytes × Nat) × Nat)
  | 0, _, off => .ok ([], off)
  | n + 1, vout, off =>
    if raw.length ≤ off then corrupt "packed outputs short"
    else if raw.length - off < 2 then corrupt "short output record"
    else do
      let h ← OutputHead.read (raw.drop off)
      let (outs, logicalEnd) ← scanOuts raw secret n (vout + 1) (off + h.next)
      if h.kind = .p2tr ∧ h.used = 32 then
        let xonly := hide secret 0 (raw.slice (off + h.start) (off + h.start + 32))
        return ((vout, xonly, h.value) :: outs, logicalEnd)
      else return (outs, logicalEnd)

/-- The index, the key and the amount of every taproot output. -/
def scanPackedP2trOuts : Result (List (Nat × Bytes × Nat)) := do
  let (_, off) ← TxRecord.decodeBodyMetaV17 raw
  let (outs, logicalEnd) ← scanOuts raw secret nOut 0 off
  checkTrailingZeroPad raw logicalEnd
  return outs

section Visit

variable {σ : Type}

def visitOuts (raw : Bytes) (secret : Option StoreSecret) (f : σ → Bytes → Result σ) :
    Nat → Nat → σ → Result (σ × Nat)
  | 0, off, s => .ok (s, off)
  | n + 1, off, s =>
    if raw.length ≤ off then corrupt "packed outputs short"
    else do
      let h ← OutputHead.read (raw.drop off)
      let payload := raw.slice (off + h.start) (off + h.next)
      let disk :=
        match secret with
        | none => payload
        | some secret => xorScriptKindV17Payload secret h.kind payload
      let (script, _) ← decodeScriptKindV17 h.kind disk
      visitOuts raw secret f n (off + h.next) (← f s script)

/-- Every script goes to the visitor, which keeps a state of its own and may stop. -/
def visitPackedScripts (raw : Bytes) (nOut : Nat) (secret : Option StoreSecret)
    (f : σ → Bytes → Result σ) (s : σ) : Result σ := do
  let (_, off) ← TxRecord.decodeBodyMetaV17 raw
  let (s, logicalEnd) ← visitOuts raw secret f nOut off s
  checkTrailingZeroPad raw logicalEnd
  return s

end Visit

theorem OutputRecord.skipAt_eq (buf : Bytes) (secret : Option StoreSecret) :
    skipAt buf = (·.2) <$> decodeAtSecret buf secret := by
  unfold skipAt
  cases read : OutputHead.read buf with
  | error e =>
    rw [decodeAtSecret, read]
    rfl
  | ok h =>
    obtain ⟨-, -, script, -, -, -, -, decoded⟩ := decodeAtSecret_of_head read secret
    rw [decoded]
    rfl

/-! ### The loop over the wanted outputs -/

/-- The elements at the wanted places, with the places. -/
def restrictTo {α : Type} (want : Nat → Bool) : Nat → List α → List (Nat × α)
  | _, [] => []
  | vout, a :: as =>
    if want vout then (vout, a) :: restrictTo want (vout + 1) as else restrictTo want (vout + 1) as

variable {vout : Nat} {want : Nat → Bool} {α : Type}

theorem restrictTo_congr {want' : Nat → Bool} (same : ∀ v, vout ≤ v → want v = want' v)
    (as : List α) : restrictTo want vout as = restrictTo want' vout as := by
  induction as generalizing vout with
  | nil => rfl
  | cons a as ih =>
    rw [restrictTo, restrictTo, same vout (le_refl vout), ih fun v le => same v (by omega)]

theorem restrictTo_map {β : Type} (f : α → β) (want : Nat → Bool) (vout : Nat) (as : List α) :
    restrictTo want vout (as.map f) = (restrictTo want vout as).map fun p => (p.1, f p.2) := by
  induction as generalizing vout with
  | nil => rfl
  | cons a as ih =>
    rw [map_cons, restrictTo, restrictTo, ih]
    split <;> rfl

/-- Wanted indexes in order, from some index on: that index is the first of them, or all are
later. -/
theorem need_cases {need : List Nat} (sorted : need.Pairwise (· < ·))
    (from_ : ∀ v ∈ need, vout ≤ v) :
    (∃ rest, need = vout :: rest ∧ rest.Pairwise (· < ·) ∧ ∀ v ∈ rest, vout + 1 ≤ v) ∨
      (need.head? ≠ some vout ∧ vout ∉ need ∧ ∀ v ∈ need, vout + 1 ≤ v) := by
  cases need with
  | nil => exact .inr ⟨nofun, nofun, nofun⟩
  | cons first rest =>
    obtain ⟨below, sorted⟩ := pairwise_cons.mp sorted
    obtain ⟨le, later⟩ := forall_mem_cons.mp from_
    by_cases same : first = vout
    · subst same
      exact .inl ⟨rest, rfl, sorted, below⟩
    · have past : ∀ v ∈ first :: rest, vout + 1 ≤ v := by
        refine forall_mem_cons.mpr ⟨by omega, fun v mem => ?_⟩
        have := below v mem
        omega
      exact .inr ⟨fun head => same (Option.some.inj head),
        fun mem => absurd (past vout mem) (Nat.not_succ_le_self _), past⟩

section Loops

variable {raw : Bytes} {secret : Option StoreSecret}

variable {n vout off : Nat} {need : List Nat} {throughEnd : Bool}

theorem decodeOutputs_succ (inside : ¬raw.length ≤ off) : decodeOutputs raw secret (n + 1) off =
      decodeAtSecret (raw.drop off) secret >>= fun read =>
        (fun p => ((off, read.1) :: p.1, p.2)) <$> decodeOutputs raw secret n (off + read.2) := by
  rw [decodeOutputs, if_neg inside]
  rfl

theorem pickOuts_want {rest : List Nat} (inside : ¬raw.length ≤ off) :
    pickOuts raw false secret throughEnd (n + 1) vout off (vout :: rest) =
      decodeAtSecret (raw.drop off) secret >>= fun read =>
        if rest = [] ∧ throughEnd = false then pure ([(vout, off, read.1)], none)
        else (fun p => ((vout, off, read.1) :: p.1, p.2)) <$>
          pickOuts raw false secret throughEnd n (vout + 1) (off + read.2) rest := by
  rw [pickOuts, if_neg inside, if_pos (.inr rfl)]
  simp only [true_and, Bool.not_eq_true]
  rfl

theorem pickOuts_pass (inside : ¬raw.length ≤ off) (other : need.head? ≠ some vout) :
    pickOuts raw false secret throughEnd (n + 1) vout off need =
      decodeAtSecret (raw.drop off) secret >>= fun read =>
        pickOuts raw false secret throughEnd n (vout + 1) (off + read.2) need := by
  rw [pickOuts, if_neg inside, if_neg (by simpa using other), skipAt_eq _ secret]
  cases decodeAtSecret (raw.drop off) secret <;> rfl

theorem pickOuts_short {takeAll : Bool} (outside : raw.length ≤ off) :
    pickOuts raw takeAll secret throughEnd (n + 1) vout off need =
      corrupt "packed outputs short" := by
  rw [pickOuts, if_pos outside]

theorem decodeOutputs_short (outside : raw.length ≤ off) :
    decodeOutputs raw secret (n + 1) off = corrupt "packed outputs short" := by
  rw [decodeOutputs, if_pos outside]

theorem pickOuts_all : pickOuts raw true secret throughEnd n vout off need =
      (fun p => (restrictTo (fun _ => true) vout p.1, some (p.2, need))) <$>
        decodeOutputs raw secret n off := by
  induction n generalizing vout off with
  | zero => rfl
  | succ n ih =>
    simp only [pickOuts, decodeOutputs]
    split
    · rfl
    · cases decoded : decodeAtSecret (raw.drop off) secret with
      | error e => rfl
      | ok read =>
        simp only [if_true, ok_bind, ih]
        cases decodeOutputs raw secret n (off + read.2) with
        | error e => rfl
        | ok outs => rfl

theorem restrictTo_first {rest : List Nat} (a : α) (as : List α) :
    restrictTo (· ∈ vout :: rest) vout (a :: as) =
      (vout, a) :: restrictTo (· ∈ rest) (vout + 1) as := by
  rw [restrictTo, if_pos (by simp)]
  congr 1
  refine restrictTo_congr (fun v le => ?_) as
  simp only [mem_cons, decide_eq_decide]
  exact ⟨fun mem => mem.resolve_left (by omega), .inr⟩

theorem restrictTo_skip (absent : vout ∉ need) (a : α) (as : List α) :
    restrictTo (· ∈ need) vout (a :: as) = restrictTo (· ∈ need) (vout + 1) as := by
  rw [restrictTo, if_neg (by simpa using absent)]

/-- A loop that goes to the end, because it has to or because something wanted is not there: some
outputs decoded, the others skipped. -/
theorem pickOuts_through (sorted : need.Pairwise (· < ·)) (from_ : ∀ v ∈ need, vout ≤ v)
    (goes : throughEnd = true ∨ ∃ v ∈ need, vout + n ≤ v) :
    pickOuts raw false secret throughEnd n vout off need =
      (fun p => (restrictTo (· ∈ need) vout p.1, some (p.2, need.filter (vout + n ≤ ·)))) <$>
        decodeOutputs raw secret n off := by
  induction n generalizing vout off need with
  | zero =>
    have all : need.filter (vout + 0 ≤ ·) = need :=
      filter_eq_self.mpr fun v mem => decide_eq_true (from_ v mem)
    rw [all]
    rfl
  | succ n ih =>
    by_cases inside : raw.length ≤ off
    · rw [pickOuts_short inside, decodeOutputs_short inside]
      rfl
    rw [show vout + (n + 1) = vout + 1 + n by omega] at goes ⊢
    rw [decodeOutputs_succ inside, map_bind]
    obtain ⟨rest, rfl, sorted, later⟩ | ⟨other, absent, later⟩ := need_cases sorted from_
    · have passed : (vout :: rest).filter (vout + 1 + n ≤ ·) = rest.filter (vout + 1 + n ≤ ·) :=
        filter_cons_of_neg (by simp; omega)
      have goes : throughEnd = true ∨ ∃ v ∈ rest, vout + 1 + n ≤ v := by
        refine goes.imp_right fun ⟨v, mem, le⟩ => ⟨v, ?_, le⟩
        exact (mem_cons.mp mem).resolve_left (by omega)
      have more : ¬(rest = [] ∧ throughEnd = false) := by
        rintro ⟨rfl, rfl⟩
        simp at goes
      rw [pickOuts_want inside, passed]
      refine bind_congr_ok fun read _ => ?_
      rw [if_neg more, ih sorted later goes]
      simp only [Functor.map_map, restrictTo_first]
    · rw [pickOuts_pass inside other]
      refine bind_congr_ok fun read _ => ?_
      rw [ih sorted later goes]
      simp [restrictTo_skip absent]

theorem pickOuts_early {last : Nat} (sorted : need.Pairwise (· < ·)) (from_ : ∀ v ∈ need, vout ≤ v)
    (final : need.getLast? = some last) (lt : last < vout + n) :
    pickOuts raw false secret false n vout off need =
      (fun p => (restrictTo (· ∈ need) vout p.1, none)) <$>
        decodeOutputs raw secret (last + 1 - vout) off := by
  have le : vout ≤ last := from_ last (mem_of_getLast? final)
  induction n generalizing vout off need with
  | zero => omega
  | succ n ih =>
    obtain ⟨count, counted⟩ : ∃ count, last + 1 - vout = count + 1 := ⟨last - vout, by omega⟩
    rw [counted]
    by_cases inside : raw.length ≤ off
    · rw [pickOuts_short inside, decodeOutputs_short inside]
      rfl
    rw [decodeOutputs_succ inside, map_bind]
    obtain ⟨rest, rfl, sorted, later⟩ | ⟨other, absent, later⟩ := need_cases sorted from_
    · rw [pickOuts_want inside]
      refine bind_congr_ok fun read _ => ?_
      by_cases done : rest = []
      · subst done
        obtain rfl : vout = last := Option.some.inj final
        obtain rfl : count = 0 := by omega
        simp only [Functor.map_map, restrictTo_first]
        rfl
      · have final : rest.getLast? = some last := by
          rwa [getLast?_cons_of_ne_nil done] at final
        have le : vout + 1 ≤ last := later last (mem_of_getLast? final)
        rw [if_neg fun both => done both.1, ih sorted later final (by omega) le,
          show last + 1 - (vout + 1) = count by omega]
        simp only [Functor.map_map, restrictTo_first]
    · have le : vout + 1 ≤ last := later last (mem_of_getLast? final)
      rw [pickOuts_pass inside other]
      refine bind_congr_ok fun read _ => ?_
      rw [ih sorted later final (by omega) le, show last + 1 - (vout + 1) = count by omega]
      simp [restrictTo_skip absent]

theorem decodeOutputs_take {outs : List (Nat × OutputRecord)} {logicalEnd k : Nat}
    (ok : decodeOutputs raw secret n off = .ok (outs, logicalEnd)) (le : k ≤ n) :
    ∃ mid, decodeOutputs raw secret k off = .ok (outs.take k, mid) := by
  induction k generalizing n off outs with
  | zero => exact ⟨off, rfl⟩
  | succ k ih =>
    obtain ⟨n, rfl⟩ : ∃ n', n = n' + 1 := ⟨n - 1, by omega⟩
    by_cases inside : raw.length ≤ off
    · rw [decodeOutputs_short inside] at ok
      cases ok
    · rw [decodeOutputs_succ inside] at ok ⊢
      obtain ⟨read, decoded, ok⟩ := bind_eq_ok.mp ok
      obtain ⟨rest, more, same⟩ := map_eq_ok.mp ok
      cases same
      obtain ⟨mid, some_outs⟩ := ih more (by omega)
      refine ⟨mid, ?_⟩
      rw [decoded, ok_bind, some_outs]
      rfl

end Loops

theorem restrictTo_none (none : ∀ v, vout ≤ v → want v = false) (as : List α) :
    restrictTo want vout as = [] := by
  induction as generalizing vout with
  | nil => rfl
  | cons a as ih =>
    rw [restrictTo, none vout (le_refl vout)]
    exact ih fun v le => none v (by omega)

theorem restrictTo_take {k : Nat} (none : ∀ v, vout + k ≤ v → want v = false) (as : List α) :
    restrictTo want vout (as.take k) = restrictTo want vout as := by
  induction k generalizing vout as with
  | zero => exact (restrictTo_none none as).symm
  | succ k ih =>
    cases as with
    | nil => rfl
    | cons a as =>
      rw [take_succ_cons, restrictTo, restrictTo, ih fun v le => none v (by omega)]

def restrictRow (want : Nat → Bool) (row : TxRecord × List OutputRecord × List Nat) :
    SparseOutsRow :=
  (row.1, restrictTo want 0 row.2.1, restrictTo want 0 row.2.2)

/-- The decoder of the whole row, stopped after some outputs. -/
def decodeFirstOuts (nOut count : Nat) (secret : Option StoreSecret) :
    Result (TxRecord × List OutputRecord × List Nat) := do
  let (rec, off) ← TxRecord.decodeBodyMetaV17 raw
  if nOut = 0 then corrupt "invariant: create n_out"
  else
    let (outs, _) ← decodeOutputs raw secret count off
    return ({ rec with outputCount := nOut }, outs.map (·.2), outs.map (·.1 % 2 ^ 32))

section Rows

variable {raw : Bytes} {nOut : Nat} {secret : Option StoreSecret} {need : List Nat}

theorem sparseRow_eq (rec : TxRecord) (want : Nat → Bool) (outs : List (Nat × OutputRecord)) :
    ((rec, (restrictTo want 0 outs).map (fun o => (o.1, o.2.2)),
        (restrictTo want 0 outs).map fun o => (o.1, o.2.1 % 2 ^ 32)) : SparseOutsRow) =
      restrictRow want (rec, outs.map (·.2), outs.map (·.1 % 2 ^ 32)) := by
  rw [restrictRow, restrictTo_map, restrictTo_map]

theorem decodePackedOuts_through {takeAll throughEnd : Bool}
    (walk : ∀ off, pickOuts raw takeAll secret throughEnd nOut 0 off need =
      (fun p => (restrictTo want 0 p.1, some (p.2, if takeAll then need else []))) <$>
        decodeOutputs raw secret nOut off) :
    decodePackedOuts raw nOut need takeAll secret throughEnd =
      restrictRow want <$> decodePackedTxOutsWithSpenderRelsSecret raw nOut secret := by
  simp only [decodePackedOuts, decodePackedTxOutsWithSpenderRelsSecret, decodePackedRow]
  cases TxRecord.decodeBodyMetaV17 raw with
  | error e => rfl
  | ok head =>
    by_cases zero : nOut = 0
    · simp only [if_pos zero]
      rfl
    · simp only [ok_bind, if_neg zero, walk]
      cases decodeOutputs raw secret nOut head.2 with
      | error e => rfl
      | ok outs =>
        have found : ¬(¬takeAll = true ∧ (if takeAll = true then need else []) ≠ []) := by
          cases takeAll <;> simp
        simp only [ok_bind, Except.map, Functor.map, if_neg found]
        cases checkTrailingZeroPad raw outs.2 with
        | error e => rfl
        | ok _ => exact congrArg Except.ok (sparseRow_eq _ want outs.1)

variable {last : Nat}

theorem filter_none (below : ∀ v ∈ need, v < last) : need.filter (0 + last ≤ ·) = [] :=
  filter_eq_nil_iff.mpr fun v mem => by simpa using below v mem

theorem decodePackedTxOutsExact_eq (sorted : need.Pairwise (· < ·)) (below : ∀ v ∈ need, v < nOut) :
    decodePackedTxOutsExact raw nOut need secret =
      restrictRow (· ∈ need) <$> decodePackedTxOutsWithSpenderRelsSecret raw nOut secret := by
  refine decodePackedOuts_through fun off => ?_
  rw [pickOuts_through sorted (fun v _ => Nat.zero_le v) (.inl rfl), filter_none below]
  rfl

theorem decodePackedTxNeedOuts_eq (sorted : need.Pairwise (· < ·))
    (final : need.getLast? = some last) (lt : last < nOut) :
    decodePackedTxNeedOutsWithSpenderRelsSecret raw nOut need secret =
      restrictRow (· ∈ need) <$> decodeFirstOuts raw nOut (last + 1) secret := by
  have nonempty : need.isEmpty = false :=
    isEmpty_eq_false_iff_exists_mem.mpr ⟨last, mem_of_getLast? final⟩
  simp only [decodePackedTxNeedOutsWithSpenderRelsSecret, decodePackedOuts, decodeFirstOuts,
    nonempty]
  cases TxRecord.decodeBodyMetaV17 raw with
  | error e => rfl
  | ok head =>
    have some_out : nOut ≠ 0 := by omega
    have walk : pickOuts raw false secret false nOut 0 head.2 need =
        (fun p => (restrictTo (· ∈ need) 0 p.1, none)) <$>
          decodeOutputs raw secret (last + 1) head.2 :=
      pickOuts_early sorted (fun v _ => Nat.zero_le v) final (by omega)
    simp only [ok_bind, if_neg some_out, walk]
    cases decodeOutputs raw secret (last + 1) head.2 with
    | error e => rfl
    | ok outs => exact congrArg Except.ok (sparseRow_eq _ _ outs.1)

theorem decodePackedOuts_missing {throughEnd : Bool} {v : Nat} (sorted : need.Pairwise (· < ·))
    (mem : v ∈ need) (past : nOut ≤ v) :
    ¬Outcome.Accepts (decodePackedOuts raw nOut need false secret throughEnd) := by
  rintro ⟨row, ok⟩
  obtain ⟨head, -, ok⟩ := bind_eq_ok.mp ok
  dsimp only at ok
  split at ok
  · cases ok
  · rw [pickOuts_through sorted (fun v _ => Nat.zero_le v) (.inr ⟨v, mem, by omega⟩)] at ok
    obtain ⟨picked, walked, ok⟩ := bind_eq_ok.mp ok
    obtain ⟨outs, -, rfl⟩ := map_eq_ok.mp walked
    have missing : need.filter (0 + nOut ≤ ·) ≠ [] :=
      ne_nil_of_mem (mem_filter.mpr ⟨mem, by simpa using past⟩)
    dsimp only at ok
    rw [if_pos ⟨by simp, missing⟩] at ok
    cases ok

theorem decodePackedRow_eq_ok {rec : TxRecord} {outs : List (Nat × OutputRecord)} :
    decodePackedRow raw nOut secret = .ok (rec, outs) ↔
      nOut ≠ 0 ∧ ∃ head off logicalEnd, TxRecord.decodeBodyMetaV17 raw = .ok (head, off) ∧
        decodeOutputs raw secret nOut off = .ok (outs, logicalEnd) ∧
        checkTrailingZeroPad raw logicalEnd = .ok () ∧ rec = { head with outputCount := nOut } := by
  constructor
  · intro ok
    obtain ⟨⟨head, off⟩, first, ok⟩ := bind_eq_ok.mp ok
    dsimp only at ok
    split at ok
    · cases ok
    · next some_out =>
      obtain ⟨⟨outs, logicalEnd⟩, run, ok⟩ := bind_eq_ok.mp ok
      obtain ⟨_, padding, ok⟩ := bind_eq_ok.mp ok
      cases ok
      exact ⟨some_out, head, off, logicalEnd, first, run, padding, rfl⟩
  · rintro ⟨some_out, head, off, logicalEnd, first, run, padding, rfl⟩
    simp only [decodePackedRow, first, ok_bind, if_neg some_out, run, padding]
    rfl

theorem le_last (sorted : need.Pairwise (· < ·)) (final : need.getLast? = some last) {v : Nat}
    (mem : v ∈ need) : v ≤ last := by
  rw [getLast?_eq_some_getLast (ne_nil_of_mem mem)] at final
  exact Option.some.inj final ▸ (sorted.imp le_of_lt).rel_getLast mem

theorem decodePackedTxNeedOuts_of_full {row : TxRecord × List OutputRecord × List Nat}
    (sorted : need.Pairwise (· < ·)) (final : need.getLast? = some last) (lt : last < nOut)
    (full : decodePackedTxOutsWithSpenderRelsSecret raw nOut secret = .ok row) :
    decodePackedTxNeedOutsWithSpenderRelsSecret raw nOut need secret =
      .ok (restrictRow (· ∈ need) row) := by
  obtain ⟨⟨rec, outs⟩, whole, same⟩ := bind_eq_ok.mp full
  cases same
  obtain ⟨some_out, head, off, logicalEnd, first, run, -, rfl⟩ := decodePackedRow_eq_ok.mp whole
  obtain ⟨mid, taken⟩ := decodeOutputs_take run (show last + 1 ≤ nOut from lt)
  have beyond (v : Nat) (le : 0 + (last + 1) ≤ v) : decide (v ∈ need) = false := by
    refine decide_eq_false fun mem => ?_
    have := le_last sorted final mem
    omega
  rw [decodePackedTxNeedOuts_eq sorted final lt]
  simp only [decodeFirstOuts, first, ok_bind, if_neg some_out, taken]
  refine congrArg Except.ok ?_
  simp only [restrictRow, map_take, restrictTo_take beyond]

end Rows

/-! ### Visiting and scanning -/

theorem slice_drop (off a b : Nat) :
    Bytes.slice (raw.drop off) a b = raw.slice (off + a) (off + b) := by
  rw [slice, slice, drop_drop, Nat.add_sub_add_left]

theorem decodeAtSecret_error {buf : Bytes} {e : StoreError}
    (read : OutputHead.read buf = .error e) (secret : Option StoreSecret) :
    decodeAtSecret buf secret = .error e := by
  rw [decodeAtSecret, read]
  rfl

section Walks

variable {raw : Bytes} {secret : Option StoreSecret}

variable {h : OutputHead} {off logicalEnd n : Nat}

theorem decodeScript_span (read : OutputHead.read (raw.drop off) = .ok h)
    (secret : Option StoreSecret) :
    ∃ script used, decodeScriptKindV17 h.kind
        (match secret with
          | none => raw.slice (off + h.start) (off + h.next)
          | some secret => xorScriptKindV17Payload secret h.kind
              (raw.slice (off + h.start) (off + h.next))) = .ok (script, used) ∧
      decodeAtSecret (raw.drop off) secret = .ok (⟨h.value, script⟩, h.next) := by
  obtain ⟨head, payload, script, disk, -, span, expands, decoded⟩ :=
    decodeAtSecret_of_head read secret
  have shown := (disk.of_length (length_hide secret 0 payload)).decode [] expands
  rw [append_nil] at shown
  refine ⟨script, _, Eq.trans ?_ shown, decoded⟩
  rw [slice_drop] at span
  cases secret with
  | none =>
    rw [span]
    rfl
  | some secret =>
    simp only [span, disk.xorPayload secret]
    rfl

variable {σ : Type} {f : σ → Bytes → Result σ}

theorem visitOuts_eq_ok {s s' : σ} : visitOuts raw secret f n off s = .ok (s', logicalEnd) ↔
      ∃ outs, decodeOutputs raw secret n off = .ok (outs, logicalEnd) ∧
        (outs.map (·.2.script)).foldlM f s = .ok s' := by
  induction n generalizing off s with
  | zero =>
    constructor
    · intro ok
      cases ok
      exact ⟨[], rfl, rfl⟩
    · rintro ⟨outs, run, fold⟩
      cases run
      cases fold
      rfl
  | succ n ih =>
    by_cases inside : raw.length ≤ off
    · rw [visitOuts, if_pos inside, decodeOutputs_short inside]
      exact ⟨nofun, nofun⟩
    rw [visitOuts, if_neg inside, decodeOutputs_succ inside]
    cases read : OutputHead.read (raw.drop off) with
    | error e =>
      rw [decodeAtSecret_error read]
      exact ⟨nofun, nofun⟩
    | ok h =>
      obtain ⟨script, used, shown, decoded⟩ := decodeScript_span read secret
      simp only [ok_bind, shown, decoded]
      constructor
      · intro ok
        obtain ⟨mid, visited, ok⟩ := bind_eq_ok.mp ok
        obtain ⟨outs, run, fold⟩ := ih.mp ok
        refine ⟨(off, ⟨h.value, script⟩) :: outs, by rw [run]; rfl, ?_⟩
        rw [map_cons, foldlM_cons, visited]
        exact fold
      · rintro ⟨outs, run, fold⟩
        obtain ⟨rest, more, same⟩ := map_eq_ok.mp run
        cases same
        obtain ⟨mid, visited, fold⟩ := bind_eq_ok.mp fold
        rw [visited]
        exact ih.mpr ⟨rest.1, more, fold⟩

/-- The outputs of a run that are stored as taproot outputs: index, key and amount. -/
def taprootOuts (raw : Bytes) : Nat → List (Nat × OutputRecord) → List (Nat × Bytes × Nat)
  | _, [] => []
  | vout, (off, rec) :: outs =>
    if (raw.byteAt off).toNat % 16 = ScriptKind.p2tr.nibble then
      (vout, rec.script.drop 2, rec.value) :: taprootOuts raw (vout + 1) outs
    else taprootOuts raw (vout + 1) outs

theorem ofNibble_eq_some {kind : ScriptKind} (same : ScriptKind.ofNibble n = some kind) :
    n = kind.nibble := by
  unfold ScriptKind.ofNibble at same
  split at same <;> cases same <;> rfl

theorem nibble_injective {kind other : ScriptKind} (same : kind.nibble = other.nibble) :
    kind = other := by
  have back := ofNibble_nibble kind
  rw [same, ofNibble_nibble] at back
  exact (Option.some.inj back).symm

theorem nibble_of_head (read : OutputHead.read (raw.drop off) = .ok h) :
    (raw.byteAt off).toNat % 16 = h.kind.nibble := by
  obtain ⟨flags, first, kind, -⟩ := OutputHead.read_spec read
  rw [head?_drop] at first
  rw [byteAt, getD_eq_getElem?_getD, first]
  exact ofNibble_eq_some kind

theorem taproot_of_head (read : OutputHead.read (raw.drop off) = .ok h) (kind : h.kind = .p2tr)
    (secret : Option StoreSecret) :
    h.used = 32 ∧ decodeAtSecret (raw.drop off) secret =
      .ok (⟨h.value, p2trPrefix ++ hide secret 0 (raw.slice (off + h.start) (off + h.start + 32))⟩,
        h.next) := by
  obtain ⟨head, payload, script, disk, -, span, expands, decoded⟩ :=
    decodeAtSecret_of_head read secret
  obtain ⟨-, -, -, -, -, counted⟩ := OutputHead.read_spec read
  rw [kind] at disk expands counted
  have used : h.used = 32 := (fixedPayload_eq counted).1
  have plain : head = [] := disk.plain (by simp [ScriptKind.Counted])
  subst plain
  rw [slice_drop, OutputHead.next, used, ← add_assoc, nil_append] at span
  rw [expandScriptKind, hash256Payload_ok (by rw [length_hide]; exact disk.takes)] at expands
  cases expands
  refine ⟨used, ?_⟩
  rw [decoded, span]

theorem scanOuts_eq_ok {keys : List (Nat × Bytes × Nat)} :
    scanOuts raw secret n vout off = .ok (keys, logicalEnd) ↔
      ∃ outs, decodeOutputs raw secret n off = .ok (outs, logicalEnd) ∧
        keys = taprootOuts raw vout outs := by
  induction n generalizing vout off keys with
  | zero =>
    constructor
    · intro ok
      cases ok
      exact ⟨[], rfl, rfl⟩
    · rintro ⟨outs, run, rfl⟩
      cases run
      rfl
  | succ n ih =>
    by_cases inside : raw.length ≤ off
    · rw [scanOuts, if_pos inside, decodeOutputs_short inside]
      exact ⟨nofun, nofun⟩
    rw [scanOuts, if_neg inside, decodeOutputs_succ inside]
    cases read : OutputHead.read (raw.drop off) with
    | error e =>
      rw [decodeAtSecret_error read]
      refine ⟨fun ok => ?_, nofun⟩
      split at ok <;> cases ok
    | ok h =>
      obtain ⟨-, -, -, start, long, -⟩ := OutputHead.read_spec read
      have wide : ¬raw.length - off < 2 := by
        rw [length_drop, OutputHead.next] at long
        omega
      have nibble := nibble_of_head read
      rw [if_neg wide]
      -- what the step does with the rest, whatever it puts in front
      have step (front : List (Nat × Bytes × Nat)) (rec : OutputRecord)
          (taken : ∀ outs, taprootOuts raw vout ((off, rec) :: outs) =
            front ++ taprootOuts raw (vout + 1) outs) :
          ((do let (outs, e) ← scanOuts raw secret n (vout + 1) (off + h.next)
               return (front ++ outs, e) : Result _) = .ok (keys, logicalEnd)) ↔
            ∃ outs, ((fun p => ((off, rec) :: p.1, p.2)) <$>
              decodeOutputs raw secret n (off + h.next)) = .ok (outs, logicalEnd) ∧
              keys = taprootOuts raw vout outs := by
        constructor
        · intro ok
          obtain ⟨⟨outs, e⟩, scanned, same⟩ := bind_eq_ok.mp ok
          cases same
          obtain ⟨outs, run, rfl⟩ := ih.mp scanned
          exact ⟨(off, rec) :: outs, by rw [run]; rfl, (taken outs).symm⟩
        · rintro ⟨outs, run, rfl⟩
          obtain ⟨rest, more, same⟩ := map_eq_ok.mp run
          cases same
          rw [ih.mpr ⟨rest.1, more, rfl⟩, taken]
          rfl
      by_cases kind : h.kind = .p2tr
      · obtain ⟨used, decoded⟩ := taproot_of_head read kind secret
        simp only [ok_bind, decoded, kind, used]
        refine step [_] _ fun outs => ?_
        rw [taprootOuts, if_pos (by rw [nibble, kind])]
        rfl
      · obtain ⟨-, -, script, -, -, -, -, decoded⟩ :=
          decodeAtSecret_of_head read secret
        simp only [ok_bind, decoded, kind]
        refine step [] _ fun outs => ?_
        rw [taprootOuts, if_neg fun same => kind (nibble_injective (nibble.symm.trans same))]
        rfl

theorem decodeOutputs_read {outs : List (Nat × OutputRecord)}
    (ok : decodeOutputs raw secret n off = .ok (outs, logicalEnd)) {o : Nat × OutputRecord}
    (mem : o ∈ outs) :
    ∃ used, decodeAtSecret (raw.drop o.1) secret = .ok (o.2, used) := by
  induction n generalizing off outs with
  | zero =>
    cases ok
    cases mem
  | succ n ih =>
    by_cases inside : raw.length ≤ off
    · rw [decodeOutputs_short inside] at ok
      cases ok
    · rw [decodeOutputs_succ inside] at ok
      obtain ⟨read, decoded, ok⟩ := bind_eq_ok.mp ok
      obtain ⟨rest, more, same⟩ := map_eq_ok.mp ok
      cases same
      obtain rfl | mem := mem_cons.mp mem
      · exact ⟨read.2, decoded⟩
      · exact ih more mem

theorem script_of_taproot {used : Nat} {rec : OutputRecord}
    (decoded : decodeAtSecret (raw.drop off) secret = .ok (rec, used))
    (nibble : (raw.byteAt off).toNat % 16 = ScriptKind.p2tr.nibble) :
    ∃ key : Bytes, key.length = 32 ∧ rec.script = p2trPrefix ++ key := by
  obtain ⟨h, read, rfl⟩ := head_of_decodeAtSecret decoded
  have kind := nibble_injective ((nibble_of_head read).symm.trans nibble)
  obtain ⟨_, payload, script, disk, -, -, expands, again⟩ :=
    decodeAtSecret_of_head read secret
  rw [decoded] at again
  cases again
  rw [kind] at disk expands
  have length : (hide secret 0 payload).length = 32 := by
    rw [length_hide]
    exact disk.takes
  rw [expandScriptKind, hash256Payload_ok length] at expands
  cases expands
  exact ⟨_, length, rfl⟩

theorem taproot_of_script {used : Nat} {rec : OutputRecord} {key : Bytes}
    (decoded : decodeAtSecret (raw.drop off) secret = .ok (rec, used))
    (length : key.length = 32) (script : rec.script = p2trPrefix ++ key) :
    (raw.byteAt off).toNat % 16 = ScriptKind.p2tr.nibble ∨
      (raw.byteAt off).toNat % 16 = ScriptKind.raw.nibble := by
  obtain ⟨h, read, rfl⟩ := head_of_decodeAtSecret decoded
  rw [nibble_of_head read]
  by_cases plain : h.kind = .raw
  · exact .inr (congrArg ScriptKind.nibble plain)
  · obtain ⟨_, payload, out, -, -, -, expands, again⟩ :=
      decodeAtSecret_of_head read secret
    rw [decoded] at again
    cases again
    obtain rfl : out = p2trPrefix ++ key := script
    have template : expandScriptKind .p2tr key = .ok (p2trPrefix ++ key) := by
      rw [expandScriptKind, hash256Payload_ok length]
      rfl
    have same := classifyScript_of_expand plain expands
    rw [classifyScript_of_expand (by decide) template] at same
    exact .inl (congrArg (·.1.nibble) same).symm

variable {nOut : Nat}

theorem visitPackedScripts_eq_ok (some_out : nOut ≠ 0) {s s' : σ} :
    visitPackedScripts raw nOut secret f s = .ok s' ↔
      ∃ row, decodePackedTxOutsWithSpenderRelsSecret raw nOut secret = .ok row ∧
        (row.2.1.map (·.script)).foldlM f s = .ok s' := by
  constructor
  · intro ok
    obtain ⟨⟨head, off⟩, first, ok⟩ := bind_eq_ok.mp ok
    obtain ⟨⟨mid, logicalEnd⟩, visited, ok⟩ := bind_eq_ok.mp ok
    obtain ⟨_, padding, ok⟩ := bind_eq_ok.mp ok
    cases ok
    obtain ⟨outs, run, fold⟩ := visitOuts_eq_ok.mp visited
    have whole := decodePackedRow_eq_ok.mpr
      ⟨some_out, head, off, logicalEnd, first, run, padding, rfl⟩
    refine ⟨_, bind_eq_ok.mpr ⟨_, whole, rfl⟩, ?_⟩
    rw [map_map]
    exact fold
  · rintro ⟨row, full, fold⟩
    obtain ⟨⟨rec, outs⟩, whole, same⟩ := bind_eq_ok.mp full
    cases same
    obtain ⟨-, head, off, logicalEnd, first, run, padding, -⟩ := decodePackedRow_eq_ok.mp whole
    rw [map_map] at fold
    simp only [visitPackedScripts, first, ok_bind, visitOuts_eq_ok.mpr ⟨outs, run, fold⟩, padding]
    rfl

theorem scanPackedP2trOuts_eq_ok (some_out : nOut ≠ 0) {keys : List (Nat × Bytes × Nat)} :
    scanPackedP2trOuts raw nOut secret = .ok keys ↔
      ∃ rec outs, decodePackedRow raw nOut secret = .ok (rec, outs) ∧
        keys = taprootOuts raw 0 outs := by
  constructor
  · intro ok
    obtain ⟨⟨head, off⟩, first, ok⟩ := bind_eq_ok.mp ok
    obtain ⟨⟨keys, logicalEnd⟩, scanned, ok⟩ := bind_eq_ok.mp ok
    obtain ⟨_, padding, ok⟩ := bind_eq_ok.mp ok
    cases ok
    obtain ⟨outs, run, same⟩ := scanOuts_eq_ok.mp scanned
    exact ⟨_, outs, decodePackedRow_eq_ok.mpr
      ⟨some_out, head, off, logicalEnd, first, run, padding, rfl⟩, same⟩
  · rintro ⟨rec, outs, whole, rfl⟩
    obtain ⟨-, head, off, logicalEnd, first, run, padding, -⟩ := decodePackedRow_eq_ok.mp whole
    simp only [scanPackedP2trOuts, first, ok_bind, scanOuts_eq_ok.mpr ⟨outs, run, rfl⟩, padding]
    rfl

end Walks

/-- **The partial decoders against the decoder of the whole row.** With wanted indexes that are
there, the exact decoder is the whole decoder restricted. The sparse decoder is the whole decoder
stopped after the last wanted output, and so it finds what the whole row has. An index past the
outputs is an error for both. In a row that has outputs, the visitor gets the scripts of the whole
row, and the scan gives the outputs that are stored as taproot outputs: those are taproot outputs,
and a taproot output is stored otherwise only as a raw script. -/
theorem decodePacked_parts (raw : Bytes) (nOut : Nat) (secret : Option StoreSecret)
    (need : List Nat) (sorted : need.Pairwise (· < ·)) :
    ((∀ v ∈ need, v < nOut) → decodePackedTxOutsExact raw nOut need secret =
        restrictRow (· ∈ need) <$> decodePackedTxOutsWithSpenderRelsSecret raw nOut secret) ∧
      (need = [] → decodePackedTxNeedOutsWithSpenderRelsSecret raw nOut need secret =
        restrictRow (fun _ => true) <$> decodePackedTxOutsWithSpenderRelsSecret raw nOut secret) ∧
      (∀ last, need.getLast? = some last → last < nOut →
        decodePackedTxNeedOutsWithSpenderRelsSecret raw nOut need secret =
            restrictRow (· ∈ need) <$> decodeFirstOuts raw nOut (last + 1) secret ∧
          ∀ row, decodePackedTxOutsWithSpenderRelsSecret raw nOut secret = .ok row →
            decodePackedTxNeedOutsWithSpenderRelsSecret raw nOut need secret =
              .ok (restrictRow (· ∈ need) row)) ∧
      (∀ v ∈ need, nOut ≤ v → ¬Outcome.Accepts (decodePackedTxOutsExact raw nOut need secret) ∧
          ¬Outcome.Accepts (decodePackedTxNeedOutsWithSpenderRelsSecret raw nOut need secret)) ∧
      (nOut ≠ 0 →
        (∀ (σ : Type) (f : σ → Bytes → Result σ) (s s' : σ),
          visitPackedScripts raw nOut secret f s = .ok s' ↔
            ∃ row, decodePackedTxOutsWithSpenderRelsSecret raw nOut secret = .ok row ∧
              (row.2.1.map (·.script)).foldlM f s = .ok s') ∧
        (∀ keys, scanPackedP2trOuts raw nOut secret = .ok keys ↔
          ∃ rec outs, decodePackedRow raw nOut secret = .ok (rec, outs) ∧
            keys = taprootOuts raw 0 outs) ∧
        ∀ rec outs, decodePackedRow raw nOut secret = .ok (rec, outs) → ∀ o ∈ outs,
          ((raw.byteAt o.1).toNat % 16 = ScriptKind.p2tr.nibble →
            ∃ key : Bytes, key.length = 32 ∧ o.2.script = p2trPrefix ++ key) ∧
          ∀ key : Bytes, key.length = 32 → o.2.script = p2trPrefix ++ key →
            (raw.byteAt o.1).toNat % 16 = ScriptKind.p2tr.nibble ∨
              (raw.byteAt o.1).toNat % 16 = ScriptKind.raw.nibble) := by
  refine ⟨decodePackedTxOutsExact_eq sorted, ?_, fun last final lt => ?_, fun v mem past => ?_,
    fun some_out => ⟨fun _ _ _ _ => visitPackedScripts_eq_ok some_out,
      fun _ => scanPackedP2trOuts_eq_ok some_out, fun rec outs whole o mem => ?_⟩⟩
  · rintro rfl
    exact decodePackedOuts_through fun _ => pickOuts_all
  · exact ⟨decodePackedTxNeedOuts_eq sorted final lt,
      fun _ => decodePackedTxNeedOuts_of_full sorted final lt⟩
  · have nonempty : need.isEmpty = false := isEmpty_eq_false_iff_exists_mem.mpr ⟨v, mem⟩
    refine ⟨decodePackedOuts_missing sorted mem past, ?_⟩
    rw [decodePackedTxNeedOutsWithSpenderRelsSecret, nonempty]
    exact decodePackedOuts_missing sorted mem past
  · obtain ⟨-, _, _, _, -, run, -, -⟩ := decodePackedRow_eq_ok.mp whole
    obtain ⟨used, decoded⟩ := decodeOutputs_read run mem
    exact ⟨script_of_taproot decoded, fun _ => taproot_of_script decoded⟩

/-- Two outputs, an empty script and `OP_TRUE`, with the second one wanted. -/
theorem decodePacked_parts_second :
    decodePackedTxOutsExact [0x99, 0x01, 0x05, 0x02, 0x07] 2 [1] none = restrictRow (· ∈ [1]) <$>
        decodePackedTxOutsWithSpenderRelsSecret [0x99, 0x01, 0x05, 0x02, 0x07] 2 none :=
  (decodePacked_parts [0x99, 0x01, 0x05, 0x02, 0x07] 2 none [1] (by decide)).1 (by decide)

/-- Where they differ. A row of no outputs passes the scan and the visitor. The sparse decoder does
not see what comes after the last wanted output. An index past the outputs is an error to the exact
decoder. A taproot script that is stored as a raw script is not in the scan. -/
theorem decodePacked_parts_differ :
    (¬Outcome.Accepts (decodePackedTxOutsWithSpenderRelsSecret [0x99] 0 none) ∧
      Outcome.Accepts (scanPackedP2trOuts [0x99] 0 none) ∧
      Outcome.Accepts (visitPackedScripts [0x99] 0 none (fun n _ => .ok (n + 1)) 0)) ∧
    (¬Outcome.Accepts (decodePackedTxOutsWithSpenderRelsSecret [0x99, 0x01, 0x05, 0xff] 2 none) ∧
      Outcome.Accepts
        (decodePackedTxNeedOutsWithSpenderRelsSecret [0x99, 0x01, 0x05, 0xff] 2 [0] none)) ∧
    (Outcome.Accepts (decodePackedTxOutsWithSpenderRelsSecret [0x99, 0x01, 0x05] 1 none) ∧
      ¬Outcome.Accepts (decodePackedTxOutsExact [0x99, 0x01, 0x05] 1 [1] none)) ∧
    (decodePackedTxOutsWithSpenderRelsSecret
        ([0x99, 0x00, 0x05, 34] ++ p2trPrefix ++ List.replicate 32 9) 1 none).toOption.map (·.2.1) =
      some [⟨5, p2trPrefix ++ List.replicate 32 9⟩] ∧
    (scanPackedP2trOuts
        ([0x99, 0x00, 0x05, 34] ++ p2trPrefix ++ List.replicate 32 9) 1 none).toOption =
      some [] := by
  decide +kernel

end Rbitcoin.Store
