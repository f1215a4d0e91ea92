import Mathlib.Data.List.ReduceOption
import Rbitcoin.Tx.Block

/-! Compact blocks. An announcement has the header, the short ids of most transactions and the rest
of them prefilled. The transactions at hand fill the slots whose short id has one candidate; what is
missing is asked for and laid over the holes. A block comes out only if its txids have the merkle
root of the header and it is not mutated. -/

namespace Rbitcoin.Net

open Tx List Option

namespace Compact

structure PrefilledTransaction where
  /-- The distance from the prefilled transaction before. -/
  idx : UInt16
  tx : Transaction
  deriving DecidableEq, Repr

/-- A compact block. -/
structure HeaderAndShortIds where
  header : Header
  shortIds : List Bytes
  prefilledTxs : List PrefilledTransaction
  deriving DecidableEq, Repr

section

variable (hsi : HeaderAndShortIds)

def HeaderAndShortIds.total : Nat :=
  hsi.shortIds.length + hsi.prefilledTxs.length

/-- The weight limit of a block over the least weight of a transaction. -/
def maxBlockTxCount : Nat := 4000000 / (10 * 4)

def absoluteFrom (abs : Nat) : List PrefilledTransaction → List (Nat × Transaction)
  | [] => []
  | p :: rest => (abs + p.idx.toNat, p.tx) :: absoluteFrom (abs + p.idx.toNat + 1) rest

def prefilledAbsoluteIndexes : List (Nat × Transaction) :=
  absoluteFrom 0 hsi.prefilledTxs

/-- The loop of `cmpct_init_data_ok` over the indexes. -/
def indexesOk (total : Nat) : Option Nat → List (Nat × Transaction) → Bool
  | _, [] => true
  | last, (abs, _) :: rest =>
    if total ≤ abs then false
    else if ∃ p ∈ last, abs ≤ p then false
    else indexesOk total (some abs) rest

def cmpctInitDataOk : Bool :=
  if hsi.total = 0 ∨ maxBlockTxCount < hsi.total then false
  else if hsi.prefilledTxs.any fun p => p.tx.input.isEmpty && p.tx.output.isEmpty then false
  else indexesOk hsi.total none (prefilledAbsoluteIndexes hsi)

end

/-- A block with gaps, and where they are. -/
structure CmpctPartial where
  slots : List (Option Transaction)
  missing : List Nat
  deriving DecidableEq, Repr

inductive Reconstruct
  | block (block : Block)
  | incomplete (fill : CmpctPartial)
  | fail
  deriving DecidableEq, Repr

section Code

variable (E : Encoding)

def blockTxidMerkle (txdata : List Transaction) : Option (Bytes × Bool) :=
  if txdata.isEmpty then none else some (E.merkleRootMutated (txdata.map E.txid))

/-- A block without a coinbase in front and with a transaction of the length of an inner node. -/
def blockMutatedWithoutCoinbase (block : Block) : Bool :=
  if ∃ tx ∈ block.txdata.head?, E.isCoinbase tx then false
  else block.txdata.any fun tx => (E.stripped tx).length = 64

def finishReconstructed (header : Header) (txdata : List Transaction) : Except (List Nat) Block :=
  match blockTxidMerkle E txdata with
  | none => .error []
  | some (root, mutated) =>
    let block : Block := ⟨header, txdata⟩
    if root ≠ block.header.merkleRoot ∨ mutated ∨ blockMutatedWithoutCoinbase E block then .error []
    else .ok block

/-- The transactions at hand under a short id, if there is only one. -/
def candidate (available : Bytes → Option (List Transaction)) (sid : Bytes) : Option Transaction :=
  match available sid with
  | some [tx] => some tx
  | _ => none

def prefill (total : Nat) (prefilled : List (Nat × Transaction)) : List (Option Transaction) :=
  prefilled.foldl (fun slots p => slots.set p.1 (some p.2)) (List.replicate total none)

/-- The loop of `reconstruct` over the slots from `abs` on: the slots and the missing indexes.
`placed` has the txids so far, `sids` the short ids that are left. -/
def fillSlots (available : Bytes → Option (List Transaction)) (prefilledSet : List Nat) :
    Nat → List Bytes → List Bytes → List (Option Transaction) →
      List (Option Transaction) × List Nat
  | _, _, _, [] => ([], [])
  | abs, sids, placed, slot :: slots =>
    if abs ∈ prefilledSet then
      let rest := fillSlots available prefilledSet (abs + 1) sids placed slots
      (slot :: rest.1, rest.2)
    else
      match sids with
      | [] =>
        let rest := fillSlots available prefilledSet (abs + 1) [] placed slots
        (slot :: rest.1, abs :: rest.2)
      | sid :: sids =>
        match candidate available sid with
        | some tx =>
          -- the same candidate in two slots would be a block with a txid twice
          if E.txid tx ∈ placed then
            let rest := fillSlots available prefilledSet (abs + 1) sids placed slots
            (slot :: rest.1, abs :: rest.2)
          else
            let rest := fillSlots available prefilledSet (abs + 1) sids (E.txid tx :: placed) slots
            (some tx :: rest.1, rest.2)
        | none =>
          let rest := fillSlots available prefilledSet (abs + 1) sids placed slots
          (slot :: rest.1, abs :: rest.2)

variable (hsi : HeaderAndShortIds)

def firstPass (available : Bytes → Option (List Transaction)) :
    List (Option Transaction) × List Nat :=
  let prefilled := prefilledAbsoluteIndexes hsi
  fillSlots E available (prefilled.map Prod.fst) 0 hsi.shortIds
    (prefilled.map fun p => E.txid p.2) (prefill hsi.total prefilled)

def reconstruct (available : Bytes → Option (List Transaction)) : Reconstruct :=
  if !cmpctInitDataOk hsi then .fail
  else
    let (slots, missing) := firstPass E hsi available
    if !missing.isEmpty then .incomplete ⟨slots, missing⟩
    else
      match slots.mapM id with
      | none => .fail
      | some txdata =>
        match finishReconstructed E hsi.header txdata with
        | .ok block => .block block
        | .error _ => .fail

/-- The loop of `apply_block_transactions`. -/
def overlay (missing : List Nat) :
    List (Option Transaction) → List Bytes → List (Nat × Transaction) →
      Except (List Nat) (List (Option Transaction))
  | slots, _, [] => .ok slots
  | slots, placed, (abs, tx) :: rest =>
    if slots.length ≤ abs ∨ (slots.getD abs none).isSome then .error []
    else if E.txid tx ∈ placed then .error missing
    else overlay missing (slots.set abs (some tx)) (E.txid tx :: placed) rest

def applyBlockTransactions (fill : CmpctPartial)
    (transactions : List Transaction) : Except (List Nat) Block :=
  if transactions.length ≠ fill.missing.length then .error fill.missing
  else if fill.slots.isEmpty then .error []
  else
    match overlay E fill.missing fill.slots (fill.slots.reduceOption.map E.txid)
      (fill.missing.zip transactions) with
    | .error missing => .error missing
    | .ok slots =>
      match slots.mapM id with
      | none => .error fill.missing
      | some txdata => finishReconstructed E hsi.header txdata

end Code

def unfilled (abs : Nat) : List (Option Transaction) → List Nat
  | [] => []
  | none :: slots => abs :: unfilled (abs + 1) slots
  | some _ :: slots => unfilled (abs + 1) slots

variable {slots : List (Option Transaction)}

theorem mem_unfilled {abs p : Nat} :
    p ∈ unfilled abs slots ↔ ∃ i, p = abs + i ∧ slots[i]? = some none := by
  fun_induction unfilled abs slots with
  | case1 => simp
  | case2 abs slots ih =>
    rw [mem_cons, ← Nat.or_exists_add_one, ih]
    simp [add_assoc, add_comm 1]
  | case3 abs tx slots ih =>
    rw [← Nat.or_exists_add_one, ih]
    simp [add_assoc, add_comm 1]

theorem unfilled_pairwise (abs : Nat) (slots : List (Option Transaction)) :
    (unfilled abs slots).Pairwise (· < ·) := by
  fun_induction unfilled abs slots with
  | case1 => exact Pairwise.nil
  | case2 abs slots ih =>
    refine Pairwise.cons (fun p mem => ?_) ih
    obtain ⟨i, rfl, -⟩ := mem_unfilled.mp mem
    omega
  | case3 abs tx slots ih => exact ih

def Fits (slots : List (Option Transaction)) (txdata : List Transaction) : Prop :=
  List.Forall₂ (fun slot tx => ∀ filled ∈ slot, filled = tx) slots txdata

section Fits

variable {slots : List (Option Transaction)} {txdata : List Transaction}

theorem Fits.getElem? (fits : Fits slots txdata) {i : Nat} {tx : Transaction}
    (filled : slots[i]? = some (some tx)) : txdata[i]? = some tx := by
  induction fits generalizing i with
  | nil => cases filled
  | cons head tail ih =>
    cases i with
    | zero =>
      rw [getElem?_cons_zero, some.injEq] at filled
      rw [getElem?_cons_zero, head tx filled]
    | succ i => exact ih filled

theorem Fits.set (fits : Fits slots txdata) {i : Nat} {tx : Transaction}
    (own : txdata[i]? = some tx) : Fits (slots.set i (some tx)) txdata := by
  induction fits generalizing i with
  | nil => cases own
  | cons head tail ih =>
    cases i with
    | zero =>
      rw [getElem?_cons_zero, some.injEq] at own
      exact .cons (fun _ filled => (some.inj filled).symm.trans own.symm) tail
    | succ i => exact .cons head (ih own)

theorem Fits.full (fits : Fits slots txdata) (full : ∀ i : Nat, slots[i]? ≠ some none) :
    slots.mapM id = some txdata := by
  induction fits with
  | nil => rfl
  | @cons slot tx slots txdata head tail ih =>
    cases slot with
    | none => exact absurd rfl (full 0)
    | some filled =>
      have rest := ih fun i => full (i + 1)
      rw [mapM_cons, rest, head filled rfl]
      rfl

end Fits

/-! ### The first pass -/

def slotsOf (prefilledSet : List Nat) (abs : Nat) : List Transaction → List (Option Transaction)
  | [] => []
  | tx :: txs =>
    (if abs ∈ prefilledSet then some tx else none) :: slotsOf prefilledSet (abs + 1) txs

theorem getElem?_slotsOf (prefilledSet : List Nat) (abs : Nat) (txs : List Transaction) (i : Nat) :
    (slotsOf prefilledSet abs txs)[i]? =
      txs[i]?.map fun tx => if abs + i ∈ prefilledSet then some tx else none := by
  induction txs generalizing abs i with
  | nil => rfl
  | cons tx txs ih =>
    cases i with
    | zero => rfl
    | succ i =>
      rw [slotsOf, getElem?_cons_succ, getElem?_cons_succ, ih]
      simp only [add_assoc, add_comm 1]

section Prefill

variable {l : List (Nat × Transaction)} {slots : List (Option Transaction)} {i : Nat}

theorem foldl_set_of_not_mem (other : i ∉ l.map Prod.fst) :
    (l.foldl (fun slots p => slots.set p.1 (some p.2)) slots)[i]? = slots[i]? := by
  induction l generalizing slots with
  | nil => rfl
  | cons p l ih =>
    rw [map_cons, mem_cons, not_or] at other
    rw [foldl_cons, ih other.2, getElem?_set_ne (Ne.symm other.1)]

theorem foldl_set_of_mem (distinct : (l.map Prod.fst).Nodup) {tx : Transaction} (mem : (i, tx) ∈ l)
    (inside : i < slots.length) :
    (l.foldl (fun slots p => slots.set p.1 (some p.2)) slots)[i]? = some (some tx) := by
  induction l generalizing slots with
  | nil => cases mem
  | cons p l ih =>
    rw [map_cons, nodup_cons] at distinct
    rw [foldl_cons]
    rcases mem_cons.mp mem with rfl | later
    · rw [foldl_set_of_not_mem distinct.1, getElem?_set_self inside]
    · exact ih distinct.2 later (by rwa [length_set])

theorem absoluteFrom_ge {abs : Nat} {prefilled : List PrefilledTransaction} {p : Nat × Transaction}
    (mem : p ∈ absoluteFrom abs prefilled) : abs ≤ p.1 := by
  induction prefilled generalizing abs with
  | nil => cases mem
  | cons first rest ih =>
    rcases mem_cons.mp mem with rfl | later
    · exact Nat.le_add_right ..
    · have := ih later
      omega

theorem absoluteFrom_nodup (abs : Nat) (prefilled : List PrefilledTransaction) :
    ((absoluteFrom abs prefilled).map Prod.fst).Nodup := by
  induction prefilled generalizing abs with
  | nil => exact nodup_nil
  | cons first rest ih =>
    refine nodup_cons.mpr ⟨fun again => ?_, ih _⟩
    obtain ⟨p, mem, same⟩ := mem_map.mp again
    have := absoluteFrom_ge mem
    omega

end Prefill

/-- A well-formed announcement of the block: it has its header, and its transactions at the
positions that are prefilled, whichever they are. -/
structure Announces (hsi : HeaderAndShortIds) (block : Block) : Prop where
  header : hsi.header = block.header
  wellFormed : cmpctInitDataOk hsi = true
  total : hsi.total = block.txdata.length
  prefilled : ∀ p ∈ prefilledAbsoluteIndexes hsi, block.txdata[p.1]? = some p.2

variable {hsi : HeaderAndShortIds}

theorem Announces.prefill_eq {block : Block} (announces : Announces hsi block) :
    prefill hsi.total (prefilledAbsoluteIndexes hsi) =
      slotsOf ((prefilledAbsoluteIndexes hsi).map Prod.fst) 0 block.txdata := by
  refine ext_getElem? fun i => ?_
  rw [getElem?_slotsOf, zero_add, announces.total, prefill]
  by_cases mem : i ∈ (prefilledAbsoluteIndexes hsi).map Prod.fst
  · obtain ⟨p, mem', rfl⟩ := mem_map.mp mem
    have own := announces.prefilled p mem'
    have inside := (List.getElem?_eq_some_iff.mp own).1
    have distinct : ((prefilledAbsoluteIndexes hsi).map Prod.fst).Nodup := absoluteFrom_nodup ..
    rw [foldl_set_of_mem distinct mem' (by rwa [length_replicate]), own, map_some, if_pos mem]
  · rw [foldl_set_of_not_mem mem, getElem?_replicate]
    split_ifs with inside
    · rw [getElem?_eq_getElem inside, map_some]
    · rw [getElem?_eq_none (not_lt.mp inside), map_none]

/-- The positions with their short ids, from a position on. -/
def announcedFrom (prefilledSet : List Nat) (abs n : Nat) (sids : List Bytes) :
    List (Nat × Bytes) :=
  ((List.range' abs n).filter (· ∉ prefilledSet)).zip sids

def announced (hsi : HeaderAndShortIds) : List (Nat × Bytes) :=
  announcedFrom ((prefilledAbsoluteIndexes hsi).map Prod.fst) 0 hsi.total hsi.shortIds

section FirstPass

variable (E : Encoding) (available : Bytes → Option (List Transaction))

/-- A candidate that a short id has alone is the transaction at the first position with the id, or
its txid is placed before. -/
def Owns (txdata : List Transaction) (placed : List Bytes)
    (positions : List (Nat × Bytes)) : Prop :=
  ∀ sid tx, candidate available sid = some tx → E.txid tx ∈ placed ∨
    ∀ e, positions.find? (fun e => e.2 == sid) = some e → txdata[e.1]? = some tx

variable {E available} {txdata : List Transaction} {prefilledSet : List Nat}

theorem Owns.tail {placed : List Bytes} {e : Nat × Bytes} {positions : List (Nat × Bytes)}
    (owns : Owns E available txdata placed (e :: positions)) {more : List Bytes}
    (own : ∀ tx, candidate available e.2 = some tx → E.txid tx ∈ more)
    (kept : ∀ id ∈ placed, id ∈ more) : Owns E available txdata more positions := by
  intro sid tx alone
  by_cases same : e.2 = sid
  · exact Or.inl (own tx (same ▸ alone))
  · rcases owns sid tx alone with before | first
    · exact Or.inl (kept _ before)
    · refine Or.inr fun e' found => first e' ?_
      rwa [find?_cons_of_neg (by simpa using same)]

/-- **The loop.** Every slot is filled with the block's own transaction or left, and what is missing
are the slots that are left. -/
theorem fillSlots_spec {abs : Nat} {sids placed : List Bytes} {txs : List Transaction}
    (rest : txdata.drop abs = txs)
    (owns : Owns E available txdata placed (announcedFrom prefilledSet abs txs.length sids)) :
    let fill := fillSlots E available prefilledSet abs sids placed (slotsOf prefilledSet abs txs)
    Fits fill.1 txs ∧ fill.2 = unfilled abs fill.1 := by
  induction txs generalizing abs sids placed with
  | nil => exact ⟨.nil, rfl⟩
  | cons tx txs ih =>
    have here : txdata[abs]? = some tx := by
      rw [← add_zero abs, ← getElem?_drop, rest, getElem?_cons_zero]
    have later : txdata.drop (abs + 1) = txs := by
      rw [← drop_drop, rest, drop_one, tail_cons]
    rw [length_cons, announcedFrom, range'_succ] at owns
    by_cases mem : abs ∈ prefilledSet
    · rw [filter_cons_of_neg (by simpa using mem)] at owns
      have next := ih later owns
      simp only [slotsOf, fillSlots, if_pos mem]
      exact ⟨.cons (fun _ filled => (some.inj filled).symm) next.1, next.2⟩
    rw [filter_cons_of_pos (by simpa using mem)] at owns
    -- a slot that is left makes its position missing
    have left (sids placed : List Bytes)
        (owns : Owns E available txdata placed
          (announcedFrom prefilledSet (abs + 1) txs.length sids)) :
        let fill := fillSlots E available prefilledSet (abs + 1) sids placed
          (slotsOf prefilledSet (abs + 1) txs)
        Fits (none :: fill.1) (tx :: txs) ∧ abs :: fill.2 = unfilled abs (none :: fill.1) := by
      have next := ih later owns
      exact ⟨.cons (by simp) next.1, by rw [unfilled, ← next.2]⟩
    simp only [slotsOf]
    cases sids with
    | nil =>
      simp only [fillSlots, if_neg mem]
      refine left [] placed fun sid tx' alone => Or.inr fun e found => ?_
      rw [announcedFrom, zip_nil_right] at found
      cases found
    | cons sid sids =>
      simp only [fillSlots, if_neg mem]
      cases alone : candidate available sid with
      | none =>
        exact left sids placed (owns.tail (fun tx' alone' => by simp [alone] at alone')
          fun _ before => before)
      | some tx' =>
        have only (tx'' : Transaction) (alone' : candidate available sid = some tx'') :
            tx'' = tx' := some.inj (alone'.symm.trans alone)
        dsimp only
        by_cases again : E.txid tx' ∈ placed
        · rw [if_pos again]
          exact left sids placed (owns.tail (fun tx'' alone' => only tx'' alone' ▸ again)
            fun _ before => before)
        · rw [if_neg again]
          have owns' : Owns E available txdata (E.txid tx' :: placed)
              (announcedFrom prefilledSet (abs + 1) txs.length sids) :=
            owns.tail (fun tx'' alone' => only tx'' alone' ▸ mem_cons_self)
              fun _ before => mem_cons_of_mem _ before
          have next := ih later owns'
          have own : tx' = tx := by
            have first := (owns sid tx' alone).resolve_left again (abs, sid)
              (find?_cons_of_pos (by simp))
            exact some.inj (first.symm.trans here)
          exact ⟨.cons (fun _ filled => (some.inj filled).symm.trans own) next.1, next.2⟩

end FirstPass

section SecondPass

variable {E : Encoding} {txdata : List Transaction}

theorem position_eq (distinct : (txdata.map E.txid).Nodup) {i j : Nat} {tx tx' : Transaction}
    (left : txdata[i]? = some tx) (right : txdata[j]? = some tx') (same : E.txid tx = E.txid tx') :
    i = j := by
  have inside : i < (txdata.map E.txid).length := by
    rw [length_map]
    exact (List.getElem?_eq_some_iff.mp left).1
  refine (List.getElem?_inj inside distinct).mp ?_
  rw [getElem?_map, getElem?_map, left, right, map_some, map_some, same]

theorem overlay_own (distinct : (txdata.map E.txid).Nodup) (missing : List Nat)
    (fits : Fits slots txdata) {placed : List Bytes}
    (known : ∀ id ∈ placed, ∃ (i : Nat) (tx : Transaction),
      slots[i]? = some (some tx) ∧ E.txid tx = id)
    {todo : List (Nat × Transaction)} (once : (todo.map Prod.fst).Nodup)
    (holes : ∀ e ∈ todo, slots[e.1]? = some none ∧ txdata[e.1]? = some e.2) :
    ∃ slots', overlay E missing slots placed todo = .ok slots' ∧ Fits slots' txdata ∧
      ∀ i : Nat, slots'[i]? = some none → slots[i]? = some none ∧ i ∉ todo.map Prod.fst := by
  induction todo generalizing slots placed with
  | nil => exact ⟨slots, rfl, fits, fun i hole => ⟨hole, by simp⟩⟩
  | cons e todo ih =>
    obtain ⟨abs, tx⟩ := e
    obtain ⟨hole, own⟩ := holes _ mem_cons_self
    have inside : abs < slots.length := (List.getElem?_eq_some_iff.mp hole).1
    rw [List.map_cons, List.nodup_cons] at once
    have fresh : E.txid tx ∉ placed := by
      intro before
      obtain ⟨i, tx', filled, same⟩ := known _ before
      have at_hole := position_eq distinct (fits.getElem? filled) own same
      rw [at_hole, hole] at filled
      cases filled
    have known' : ∀ id ∈ E.txid tx :: placed, ∃ (i : Nat) (tx' : Transaction),
          (slots.set abs (some tx))[i]? = some (some tx') ∧ E.txid tx' = id := by
      refine forall_mem_cons.mpr ⟨⟨abs, tx, getElem?_set_self inside, rfl⟩, fun id before => ?_⟩
      obtain ⟨i, tx', filled, same⟩ := known id before
      refine ⟨i, tx', ?_, same⟩
      rw [getElem?_set_ne, filled]
      rintro rfl
      rw [hole] at filled
      cases filled
    have holes' : ∀ e ∈ todo, (slots.set abs (some tx))[e.1]? = some none ∧
        txdata[e.1]? = some e.2 := by
      intro e mem
      have other : abs ≠ e.1 := fun same => once.1 (mem_map.mpr ⟨e, mem, same.symm⟩)
      rw [getElem?_set_ne other]
      exact holes e (mem_cons_of_mem _ mem)
    obtain ⟨slots', run, fits', left⟩ := ih (fits.set own) known' once.2 holes'
    refine ⟨slots', ?_, fits', fun i hole' => ?_⟩
    · have open_slot : ¬(slots.length ≤ abs ∨ (slots.getD abs none).isSome) := by
        rw [getD_eq_getElem?_getD, hole]
        simpa using inside
      rw [overlay, if_neg open_slot, if_neg fresh, run]
    · obtain ⟨still, rest⟩ := left i hole'
      have other : abs ≠ i := by
        rintro rfl
        rw [getElem?_set_self inside] at still
        cases still
      rw [getElem?_set_ne other] at still
      exact ⟨still, by simp [Ne.symm other, rest]⟩

end SecondPass

section Blocks

variable (E : Encoding)

structure Committed (block : Block) : Prop where
  root : E.merkleRootMutated (block.txdata.map E.txid) = (block.header.merkleRoot, false)
  coinbase : blockMutatedWithoutCoinbase E block = false

variable {E} {block : Block}

theorem finishReconstructed_eq_ok (some_tx : block.txdata ≠ []) (committed : Committed E block) :
    finishReconstructed E block.header block.txdata = .ok block := by
  rw [finishReconstructed, blockTxidMerkle, if_neg (by simpa using some_tx), committed.root]
  simp [committed.coinbase]

theorem committed_of_finish {header : Header} {txdata : List Transaction}
    (ok : finishReconstructed E header txdata = .ok block) :
    block.header = header ∧ Committed E block := by
  unfold finishReconstructed blockTxidMerkle at ok
  by_cases empty : txdata.isEmpty
  · rw [if_pos empty] at ok
    cases ok
  rw [if_neg empty] at ok
  dsimp only at ok
  split_ifs at ok with bad
  rw [Except.ok.injEq] at ok
  rw [not_or, not_or, not_not] at bad
  rw [← ok]
  exact ⟨rfl, Prod.ext bad.1 (Bool.eq_false_iff.mpr bad.2.1), Bool.eq_false_iff.mpr bad.2.2⟩

theorem committed_of_reconstruct {available : Bytes → Option (List Transaction)}
    (ok : reconstruct E hsi available = .block block) :
    block.header = hsi.header ∧ Committed E block := by
  unfold reconstruct at ok
  dsimp only at ok
  split_ifs at ok
  cases full : (firstPass E hsi available).1.mapM id with
  | none =>
    rw [full] at ok
    cases ok
  | some txdata =>
    rw [full] at ok
    dsimp only at ok
    cases finish : finishReconstructed E hsi.header txdata with
    | error missing =>
      rw [finish] at ok
      cases ok
    | ok out =>
      rw [finish, Reconstruct.block.injEq] at ok
      exact ok ▸ committed_of_finish finish

theorem committed_of_apply {fill : CmpctPartial} {transactions : List Transaction}
    (ok : applyBlockTransactions E hsi fill transactions = .ok block) :
    block.header = hsi.header ∧ Committed E block := by
  unfold applyBlockTransactions at ok
  split_ifs at ok
  generalize overlay E fill.missing fill.slots (fill.slots.reduceOption.map E.txid)
    (fill.missing.zip transactions) = laid at ok
  cases laid with
  | error missing => cases ok
  | ok slots =>
    dsimp only at ok
    cases full : slots.mapM id with
    | none =>
      rw [full] at ok
      cases ok
    | some txdata =>
      rw [full] at ok
      exact committed_of_finish ok

theorem apply_own (distinct : (block.txdata.map E.txid).Nodup) (some_tx : block.txdata ≠ [])
    (committed : Committed E block) (header : hsi.header = block.header)
    (fits : Fits slots block.txdata) {transactions : List Transaction}
    (own : Forall₂ (fun p tx => block.txdata[p]? = some tx) (unfilled 0 slots) transactions) :
    applyBlockTransactions E hsi ⟨slots, unfilled 0 slots⟩ transactions = .ok block := by
  have known : ∀ id ∈ slots.reduceOption.map E.txid, ∃ (i : Nat) (tx : Transaction),
      slots[i]? = some (some tx) ∧ E.txid tx = id := by
    intro id mem
    obtain ⟨tx, among, rfl⟩ := mem_map.mp mem
    obtain ⟨i, filled⟩ := mem_iff_getElem?.mp (reduceOption_mem_iff.mp among)
    exact ⟨i, tx, filled, rfl⟩
  have keys : ((unfilled 0 slots).zip transactions).map Prod.fst = unfilled 0 slots :=
    map_fst_zip (le_of_eq own.length_eq)
  have once : (((unfilled 0 slots).zip transactions).map Prod.fst).Nodup := by
    rw [keys]
    exact (unfilled_pairwise 0 slots).imp ne_of_lt
  have holes : ∀ e ∈ (unfilled 0 slots).zip transactions,
      slots[e.1]? = some none ∧ block.txdata[e.1]? = some e.2 := by
    intro e mem
    obtain ⟨i, at_hole, hole⟩ := mem_unfilled.mp (of_mem_zip mem).1
    rw [zero_add] at at_hole
    exact ⟨at_hole ▸ hole, forall₂_zip own mem⟩
  obtain ⟨slots', run, fits', left⟩ := overlay_own distinct (unfilled 0 slots) fits known once holes
  have full (i : Nat) : slots'[i]? ≠ some none := by
    intro hole
    obtain ⟨hole, other⟩ := left i hole
    rw [keys] at other
    exact other (mem_unfilled.mpr ⟨i, (zero_add i).symm, hole⟩)
  have some_slot : ¬slots.isEmpty := by
    rw [isEmpty_iff_length_eq_zero, fits.length_eq]
    exact fun none_left => some_tx (length_eq_zero_iff.mp none_left)
  rw [applyBlockTransactions, if_neg (not_not.mpr own.length_eq.symm), if_neg some_slot]
  rw [run]
  dsimp only
  rw [fits'.full full, header]
  exact finishReconstructed_eq_ok some_tx committed

def transactionsAt (block : Block) (positions : List Nat) : List Transaction :=
  positions.filterMap fun p => block.txdata[p]?

theorem transactionsAt_forall₂ {positions : List Nat}
    (inside : ∀ p ∈ positions, p < block.txdata.length) :
    Forall₂ (fun p tx => block.txdata[p]? = some tx) positions
      (transactionsAt block positions) := by
  induction positions with
  | nil => exact .nil
  | cons p positions ih =>
    have here := getElem?_eq_getElem (inside p mem_cons_self)
    rw [transactionsAt, filterMap_cons, here]
    exact .cons here (ih (forall_mem_cons.mp inside).2)

end Blocks

/-- **Compact blocks.** A block with distinct txids, whose header has its merkle root and which has
no transaction of 64 bytes without a coinbase in front, comes out of any well-formed announcement of
it and any transactions at hand whose lone candidates are its own: at once, or after the block's own
transactions are laid over what is missing, which are the slots that are not filled, in order. Any
block that comes out at all, of whatever announcement, candidates and response, has the announced
header and is not mutated, with the merkle root of that header. -/
theorem reconstruct_own (E : Encoding) (block : Block) (distinct : (block.txdata.map E.txid).Nodup)
    (some_tx : block.txdata ≠ [])
    (root : (E.merkleRootMutated (block.txdata.map E.txid)).1 = block.header.merkleRoot)
    (free : E.NoCollision (block.txdata.map E.txid))
    (coinbase : blockMutatedWithoutCoinbase E block = false)
    (hsi : HeaderAndShortIds) (announces : Announces hsi block)
    (available : Bytes → Option (List Transaction))
    (owns : Owns E available block.txdata
      ((prefilledAbsoluteIndexes hsi).map fun p => E.txid p.2) (announced hsi)) :
    (reconstruct E hsi available = .block block ∨
      ∃ fill, reconstruct E hsi available = .incomplete fill ∧
        fill.missing.Pairwise (· < ·) ∧ fill.slots.length = block.txdata.length ∧
        (∀ p, p ∈ fill.missing ↔ fill.slots[p]? = some none) ∧
        applyBlockTransactions E hsi fill (transactionsAt block fill.missing) = .ok block) ∧
      (∀ hsi available out, reconstruct E hsi available = .block out →
        out.header = hsi.header ∧ Committed E out) ∧
      ∀ hsi fill transactions out, applyBlockTransactions E hsi fill transactions = .ok out →
        out.header = hsi.header ∧ Committed E out := by
  refine ⟨?_, fun _ _ _ => committed_of_reconstruct, fun _ _ _ _ => committed_of_apply⟩
  have committed : Committed E block :=
    ⟨Prod.ext root (E.merkleRootMutated_snd (by simpa using some_tx) distinct free), coinbase⟩
  have pass : Fits (firstPass E hsi available).1 block.txdata ∧
      (firstPass E hsi available).2 = unfilled 0 (firstPass E hsi available).1 := by
    rw [announced, announces.total] at owns
    rw [firstPass, announces.prefill_eq]
    exact fillSlots_spec drop_zero owns
  rw [reconstruct, if_neg (by simp [announces.wellFormed])]
  generalize firstPass E hsi available = fill at pass
  obtain ⟨slots, missing⟩ := fill
  obtain ⟨fits, rfl⟩ : Fits slots block.txdata ∧ missing = unfilled 0 slots := pass
  dsimp only
  have holes (p : Nat) : p ∈ unfilled 0 slots ↔ slots[p]? = some none := by simp [mem_unfilled]
  by_cases complete : unfilled 0 slots = []
  · refine Or.inl ?_
    have full (i : Nat) : slots[i]? ≠ some none := fun hole => by
      have mem := (holes i).mpr hole
      rw [complete] at mem
      cases mem
    rw [if_neg (by simp [complete]), fits.full full, announces.header]
    dsimp only
    rw [finishReconstructed_eq_ok some_tx committed]
  · refine Or.inr ⟨_, if_pos (by simpa using complete), unfilled_pairwise 0 slots,
      fits.length_eq, holes, ?_⟩
    have inside : ∀ p ∈ unfilled 0 slots, p < block.txdata.length := by
      intro p mem
      rw [← fits.length_eq]
      exact (List.getElem?_eq_some_iff.mp ((holes p).mp mem)).1
    exact apply_own distinct some_tx committed announces.header fits (transactionsAt_forall₂ inside)

/-! A block of a coinbase, which is prefilled, and another transaction. -/

section Sample

def sampleEncoding : Encoding := Encoding.standard id id

def sampleCoinbase : Transaction :=
  ⟨1, 0, [⟨⟨List.replicate 32 0, 0xffffffff⟩, [], 0, []⟩], [⟨50, []⟩]⟩

def sampleSpend : Transaction :=
  ⟨1, 0, [⟨⟨List.replicate 32 1, 0⟩, [], 0, []⟩], [⟨49, [1, 2, 3, 4]⟩]⟩

def sealedBlock (txdata : List Transaction) : Block :=
  ⟨⟨1, [], (sampleEncoding.merkleRootMutated (txdata.map sampleEncoding.txid)).1, 0, 0, 0⟩, txdata⟩

def sampleBlock : Block := sealedBlock [sampleCoinbase, sampleSpend]

def sampleAnnouncement : HeaderAndShortIds := ⟨sampleBlock.header, [[7]], [⟨0, sampleCoinbase⟩]⟩

theorem reconstruct_own_sample : reconstruct sampleEncoding sampleAnnouncement (fun _ => none) =
        .incomplete ⟨[some sampleCoinbase, none], [1]⟩ ∧
      (reconstruct sampleEncoding sampleAnnouncement (fun _ => none) = .block sampleBlock ∨
        ∃ fill, reconstruct sampleEncoding sampleAnnouncement (fun _ => none) = .incomplete fill ∧
          applyBlockTransactions sampleEncoding sampleAnnouncement fill
            (transactionsAt sampleBlock fill.missing) = .ok sampleBlock) := by
  refine ⟨by decide +kernel, ?_⟩
  have own := (reconstruct_own sampleEncoding sampleBlock (by decide +kernel) (by decide)
    (by decide +kernel) (.of_length _ (by decide)) (by decide +kernel) sampleAnnouncement
    ⟨rfl, by decide +kernel, rfl, by decide +kernel⟩ (fun _ => none)
    (fun _ _ alone => by cases alone)).1
  exact own.imp id fun ⟨fill, run, _, _, _, apply⟩ => ⟨fill, run, apply⟩

def loneBlock : Block := sealedBlock [sampleSpend]

def loneAnnouncement : HeaderAndShortIds := ⟨loneBlock.header, [[7]], []⟩

/-- A block of one transaction of 64 bytes and no coinbase: its header has its merkle root, its
transaction is at hand, and no block comes out. -/
theorem reconstruct_lone_fail :
    (loneBlock.txdata.map sampleEncoding.txid).Nodup ∧ loneBlock.txdata ≠ [] ∧
      sampleEncoding.merkleRootMutated (loneBlock.txdata.map sampleEncoding.txid) =
        (loneBlock.header.merkleRoot, false) ∧
      Announces loneAnnouncement loneBlock ∧
      Owns sampleEncoding (fun _ => some [sampleSpend]) loneBlock.txdata [] [(0, [7])] ∧
      announced loneAnnouncement = [(0, [7])] ∧
      reconstruct sampleEncoding loneAnnouncement (fun _ => some [sampleSpend]) = .fail := by
  refine ⟨by decide +kernel, by decide, by decide +kernel,
    ⟨rfl, by decide +kernel, rfl, by decide +kernel⟩, ?_, by decide +kernel, by decide +kernel⟩
  intro sid tx alone
  refine Or.inr fun e found => ?_
  have first := mem_of_find?_eq_some found
  rw [mem_singleton] at first
  rw [first, ← some.inj alone]
  rfl

end Sample

end Compact

end Rbitcoin.Net
