import Mathlib.Data.List.Nodup
import Rbitcoin.Lib.Loop
import Rbitcoin.Tx.Transaction

/-! Blocks and the merkle root of their txids, with the flag for a list that is mutated: some level
has two equal hashes in one pair, so that a shorter list has the same root. Distinct txids are not
mutated unless the hash has a collision inside their tree. -/

namespace Rbitcoin.Tx

open List

structure Header where
  version : UInt32
  prevBlockhash : Bytes
  merkleRoot : Bytes
  time : UInt32
  bits : UInt32
  nonce : UInt32
  deriving DecidableEq, Repr

structure Block where
  header : Header
  txdata : List Transaction
  deriving DecidableEq, Repr

section Chunks

variable {α : Type}

def chunksExact2 : List α → List (α × α)
  | a :: b :: rest => (a, b) :: chunksExact2 rest
  | _ => []

/-- A level of odd length ends with its last hash twice. -/
def padded (level : List α) : List α :=
  if level.length % 2 = 1 then level ++ level.getLast?.toList else level

theorem chunksExact2_length (l : List α) : (chunksExact2 l).length = l.length / 2 := by
  fun_induction chunksExact2 l with
  | case1 a b rest ih =>
    simp only [length_cons]
    omega
  | case2 l short =>
    match l with
    | [] => simp
    | [_] => simp
    | a :: b :: rest => exact absurd rfl (short a b rest)

theorem padded_length (level : List α) : (padded level).length = (level.length + 1) / 2 * 2 := by
  unfold padded
  split_ifs with odd
  · cases level with
    | nil => cases odd
    | cons a rest =>
      rw [getLast?_cons, Option.toList_some, length_append, length_singleton]
      omega
  · omega

theorem padded_cons_cons (a b : α) (rest : List α) :
    padded (a :: b :: rest) = a :: b :: padded rest := by
  unfold padded
  simp only [length_cons, show (rest.length + 1 + 1) % 2 = rest.length % 2 by omega]
  split_ifs with odd
  · cases rest with
    | nil => cases odd
    | cons c rest => simp [getLast?_cons]
  · rfl

theorem ne_of_mem_chunksExact2 {l : List α} (distinct : l.Nodup) {p : α × α}
    (mem : p ∈ chunksExact2 l) : p.1 ≠ p.2 := by
  fun_induction chunksExact2 l with
  | case1 a b rest ih =>
    rw [nodup_cons, nodup_cons] at distinct
    rcases mem_cons.mp mem with rfl | later
    · exact fun same => distinct.1 (mem_cons.mpr (Or.inl same))
    · exact ih distinct.2.2 later
  | case2 => cases mem

theorem fst_mem_of_mem_chunks {level : List α} {p : α × α}
    (mem : p ∈ chunksExact2 (padded level)) : p.1 ∈ level := by
  fun_induction chunksExact2 level with
  | case1 a b rest ih =>
    rw [padded_cons_cons] at mem
    rcases mem_cons.mp mem with rfl | later
    · exact mem_cons_self
    · exact mem_cons_of_mem _ (mem_cons_of_mem _ (ih later))
  | case2 l short =>
    match l with
    | [] => cases mem
    | [a] =>
      rw [show chunksExact2 (padded [a]) = [(a, a)] from rfl, mem_singleton] at mem
      rw [mem]
      exact mem_cons_self
    | a :: b :: rest => exact absurd rfl (short a b rest)

theorem chunks_nodup {level : List α} (distinct : level.Nodup) :
    (chunksExact2 (padded level)).Nodup := by
  fun_induction chunksExact2 level with
  | case1 a b rest ih =>
    rw [nodup_cons, nodup_cons] at distinct
    rw [padded_cons_cons]
    refine nodup_cons.mpr ⟨fun again => ?_, ih distinct.2.2⟩
    exact distinct.1 (mem_cons_of_mem _ (fst_mem_of_mem_chunks again))
  | case2 l short =>
    match l with
    | [] => exact nodup_nil
    | [a] => exact nodup_singleton _
    | a :: b :: rest => exact absurd rfl (short a b rest)

end Chunks

namespace Encoding

variable (E : Encoding)

def txid (tx : Transaction) : Bytes := E.sha256d (E.stripped tx)

def hash256Concat (a b : Bytes) : Bytes := E.sha256 (E.sha256 (a ++ b))

def merkleParentLevel (level : List Bytes) : List Bytes :=
  (chunksExact2 (padded level)).map fun pair => E.hash256Concat pair.1 pair.2

/-- A turn of the loop of `merkle_root_mutated`, over the flag and the level. -/
def merkleTurn (s : Bool × List Bytes) : (Bytes × Bool) ⊕ (Bool × List Bytes) :=
  if 1 < s.2.length then
    .inr (s.1 || (chunksExact2 s.2).any fun pair => pair.1 == pair.2, E.merkleParentLevel s.2)
  else .inl (s.2.headD [], s.1)

/-- The root and the flag. A level has fewer hashes than the one before, so that there are not more
turns than leaves. -/
def merkleRootMutated (leaves : List Bytes) : Bytes × Bool :=
  if leaves.isEmpty then (List.replicate 32 0, false)
  else (Loop.run E.merkleTurn leaves.length (false, leaves)).getD ([], false)

theorem merkleParentLevel_length (level : List Bytes) :
    (E.merkleParentLevel level).length = (level.length + 1) / 2 := by
  rw [merkleParentLevel, length_map, chunksExact2_length, padded_length]
  omega

variable {leaves : List Bytes}

theorem merkleRootMutated_run (some_leaf : leaves ≠ []) :
    Loop.run E.merkleTurn leaves.length (false, leaves) = some (E.merkleRootMutated leaves) := by
  have turns (s t : Bool × List Bytes) (_ : True) (goes_on : E.merkleTurn s = .inr t) :
      True ∧ t.2.length - 1 < s.2.length - 1 := by
    unfold merkleTurn at goes_on
    split_ifs at goes_on with more
    rw [Sum.inr.injEq] at goes_on
    rw [← goes_on, merkleParentLevel_length]
    exact ⟨trivial, by omega⟩
  have length := length_pos_iff.mpr some_leaf
  have ends : ∃ r, Loop.run E.merkleTurn leaves.length (false, leaves) = some r :=
    Loop.run_ends turns trivial (Nat.sub_lt length Nat.one_pos)
  obtain ⟨r, ends⟩ := ends
  rw [merkleRootMutated, if_neg (by simpa using some_leaf), ends, Option.getD_some]

/-- No two different pairs of one level of the tree have the same hash. -/
def NoCollision (leaves : List Bytes) : Prop :=
  ∀ level, Set.InjOn (fun pair => E.hash256Concat pair.1 pair.2)
    {pair | pair ∈ chunksExact2 (padded (E.merkleParentLevel^[level] leaves))}

theorem NoCollision.parent (free : E.NoCollision leaves) :
    E.NoCollision (E.merkleParentLevel leaves) := by
  intro level
  exact free (level + 1)

theorem NoCollision.of_length (short : leaves.length ≤ 2) : E.NoCollision leaves := by
  intro level
  have length : (E.merkleParentLevel^[level] leaves).length ≤ 2 := by
    induction level with
    | zero => exact short
    | succ level ih =>
      rw [Function.iterate_succ_apply', merkleParentLevel_length]
      omega
  have one : (chunksExact2 (padded (E.merkleParentLevel^[level] leaves))).length ≤ 1 := by
    rw [chunksExact2_length, padded_length]
    omega
  intro p mem q mem' _
  match h : chunksExact2 (padded (E.merkleParentLevel^[level] leaves)) with
  | [] => simp [h] at mem
  | [pair] =>
    rw [Set.mem_ofPred_eq, h, mem_singleton] at mem mem'
    rw [mem, mem']
  | _ :: _ :: _ => simp [h] at one

theorem merkleParentLevel_nodup (distinct : leaves.Nodup) (free : E.NoCollision leaves) :
    (E.merkleParentLevel leaves).Nodup :=
  (chunks_nodup distinct).map_on fun _ mem _ mem' same => free 0 mem mem' same

/-- Distinct leaves are not reported as mutated. -/
theorem merkleRootMutated_snd (some_leaf : leaves ≠ []) (distinct : leaves.Nodup)
    (free : E.NoCollision leaves) : (E.merkleRootMutated leaves).2 = false := by
  let clean (s : Bool × List Bytes) : Prop := s.1 = false ∧ s.2.Nodup ∧ E.NoCollision s.2
  have last (s : Bool × List Bytes) (r : Bytes × Bool) (kept : clean s)
      (ends : E.merkleTurn s = .inl r) : r.2 = false := by
    unfold merkleTurn at ends
    split_ifs at ends
    rw [← Sum.inl.inj ends]
    exact kept.1
  have turns (s t : Bool × List Bytes) (kept : clean s) (goes_on : E.merkleTurn s = .inr t) :
      clean t := by
    unfold merkleTurn at goes_on
    split_ifs at goes_on
    have pairs : ((chunksExact2 s.2).any fun pair => pair.1 == pair.2) = false := by
      rw [any_eq_false]
      exact fun pair mem => by simpa using ne_of_mem_chunksExact2 kept.2.1 mem
    rw [← Sum.inr.inj goes_on]
    exact ⟨by rw [kept.1, pairs, Bool.or_false], E.merkleParentLevel_nodup kept.2.1 kept.2.2,
      kept.2.2.parent⟩
  have start : clean (false, leaves) := ⟨rfl, distinct, free⟩
  have unmutated := Loop.run_good last turns start (E.merkleRootMutated_run some_leaf)
  exact unmutated

end Encoding

end Rbitcoin.Tx
