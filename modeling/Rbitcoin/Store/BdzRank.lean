import Rbitcoin.Store.Bdz

/-! Rank over the occupancy bits: superblock counts and a partial count add up to the number of set
bits below a vertex, and the bits are those of the vertices that were set. -/

namespace Rbitcoin.Store

open Bytes List

theorem count_congr {p q : Nat → Prop} [DecidablePred p] [DecidablePred q] {n : Nat}
    (h : ∀ k < n, p k ↔ q k) : Nat.count p n = Nat.count q n := by
  induction n with
  | zero => simp
  | succ n ih =>
    rw [Nat.count_succ, Nat.count_succ, ih fun k hk => h k (by omega)]
    simp only [h n (by omega)]

variable (occ : Bytes)

def Occupied (b : Nat) : Prop := (ofLe occ).testBit b = true

instance (occ : Bytes) : DecidablePred (Occupied occ) := fun b =>
  inferInstanceAs (Decidable ((ofLe occ).testBit b = true))

theorem testBit_mask {take bit : Nat} (inside : bit + take ≤ 8) (k : Nat) :
    (if take = 8 then 0xff else (2 ^ take - 1) * 2 ^ bit).testBit k =
      decide (bit ≤ k ∧ k < bit + take) := by
  split_ifs with whole
  · have zero : bit = 0 := by omega
    rw [show 0xff = 2 ^ 8 - 1 from rfl, Nat.testBit_two_pow_sub_one, zero, whole]
    simp
  · rw [Nat.testBit_mul_two_pow, Nat.testBit_two_pow_sub_one]
    by_cases h : bit ≤ k
    · simp only [h, true_and]
      exact decide_eq_decide.mpr (by omega)
    · simp [h]

theorem countOnes_mask {byte take bit : Nat} (inside : bit + take ≤ 8) :
    countOnes (byte &&& (if take = 8 then 0xff else (2 ^ take - 1) * 2 ^ bit)) =
      Nat.count (fun k => byte.testBit (bit + k) = true) take := by
  obtain ⟨rest, hrest⟩ : ∃ rest, 8 = bit + take + rest := ⟨8 - (bit + take), by omega⟩
  have masked : countOnes (byte &&& (if take = 8 then 0xff else (2 ^ take - 1) * 2 ^ bit)) =
      Nat.count (fun k => byte.testBit k = true ∧ bit ≤ k ∧ k < bit + take) 8 :=
    count_congr fun k _ => by rw [Nat.testBit_and, testBit_mask inside]; simp
  have below : Nat.count (fun k => byte.testBit k = true ∧ bit ≤ k ∧ k < bit + take) bit = 0 :=
    Nat.count_iff_forall_not.mpr fun k hk h => by omega
  have above : Nat.count (fun k => byte.testBit (bit + take + k) = true ∧ bit ≤ bit + take + k ∧
      bit + take + k < bit + take) rest = 0 :=
    Nat.count_iff_forall_not.mpr fun k hk h => by omega
  rw [masked, hrest, Nat.count_add, Nat.count_add, below, above, zero_add]
  exact count_congr fun k hk => and_iff_left (by omega)

theorem popcountFrom_eq (hi fuel b : Nat) (enough : hi - b ≤ fuel) (le : b ≤ hi) :
    Nat.count (Occupied occ) b + popcountFrom occ hi fuel b = Nat.count (Occupied occ) hi := by
  induction fuel generalizing b with
  | zero =>
    have : b = hi := by omega
    subst this
    rfl
  | succ fuel ih =>
    rw [popcountFrom]
    split_ifs with inside
    · -- one byte, or what is left of it
      have bits : countOnes ((occ.byteAt (b / 8)).toNat &&&
          (if min (8 - b % 8) (hi - b) = 8 then 0xff
          else (2 ^ min (8 - b % 8) (hi - b) - 1) * 2 ^ (b % 8))) =
          Nat.count (fun k => Occupied occ (b + k)) (min (8 - b % 8) (hi - b)) := by
        rw [countOnes_mask (by omega)]
        refine count_congr fun k hk => ?_
        rw [Occupied, testBit_ofLe, show (b + k) / 8 = b / 8 by omega,
          show (b + k) % 8 = b % 8 + k by omega]
      simp only [bits]
      rw [← add_assoc, ← Nat.count_add]
      exact ih _ (by omega) (by omega)
    · have : b = hi := by omega
      rw [this, add_zero]

theorem popcountBits_eq {lo hi : Nat} (le : lo ≤ hi) :
    Nat.count (Occupied occ) lo + popcountBits occ lo hi = Nat.count (Occupied occ) hi :=
  popcountFrom_eq occ hi _ lo le_rfl le

theorem supersFrom_getD (m k i j : Nat) (hj : j ≤ k) (inside : (i + j) * rankSuperBits ≤ m) :
    (supersFrom occ m k i (Nat.count (Occupied occ) (i * rankSuperBits))).getD j 0 =
      Nat.count (Occupied occ) ((i + j) * rankSuperBits) := by
  induction k generalizing i j with
  | zero =>
    obtain rfl : j = 0 := by omega
    rfl
  | succ k ih =>
    cases j with
    | zero => rfl
    | succ j =>
      have step : (i + 1) * rankSuperBits ≤ (i + (j + 1)) * rankSuperBits :=
        Nat.mul_le_mul_right _ (by omega)
      have block : i * rankSuperBits ≤ (i + 1) * rankSuperBits :=
        Nat.mul_le_mul_right _ (Nat.le_succ i)
      have same : i + 1 + j = i + (j + 1) := by omega
      have next := ih (i + 1) j (by omega) (same ▸ inside)
      rw [same] at next
      rw [supersFrom, getD_cons_succ, min_eq_left (step.trans inside),
        popcountBits_eq occ block, next]

/-- The rank of a vertex is the number of occupied vertices below it. The superblocks may come from
an image with more bytes. -/
theorem rank1_eq {rank : CompactRank} {image : Bytes}
    (supers : rank.supers = supersFromOccBytes image rank.m)
    (same : ∀ b < rank.m, Occupied image b ↔ Occupied rank.occ b) (v : Nat) :
    rank.rank1 v = Nat.count (Occupied rank.occ) (min v rank.m) := by
  have le : min v rank.m ≤ rank.m := min_le_right ..
  rw [CompactRank.rank1]
  generalize min v rank.m = v at le
  have block : v / rankSuperBits * rankSuperBits ≤ v := Nat.div_mul_le_self v rankSuperBits
  have first : Nat.count (Occupied image) (0 * rankSuperBits) = 0 := by simp
  have top : v / rankSuperBits ≤ (rank.m + rankSuperBits - 1) / rankSuperBits :=
    Nat.div_le_div_right (by simp only [rankSuperBits]; omega)
  have below := supersFrom_getD image rank.m _ 0 _ top (by rw [zero_add]; exact block.trans le)
  rw [first, zero_add, count_congr fun b hb => same b (by omega)] at below
  rw [supers, supersFromOccBytes, below, popcountBits_eq _ block]

theorem occupied_take {s : Bytes} {k b : Nat} (h : b < 8 * k) :
    Occupied (s.take k) b ↔ Occupied s b := by
  rw [Occupied, Occupied, ofLe_take, show 256 ^ k = 2 ^ (8 * k) from (pow_mul 2 8 k).symm]
  simp [h]

theorem testBit_wordsAsBytes {words : List Nat} (small : ∀ w ∈ words, w < 2 ^ 64) (i : Nat) :
    (ofLe (wordsAsBytes words)).testBit i = (words.getD (i / 64) 0).testBit (i % 64) := by
  induction words generalizing i with
  | nil => simp [wordsAsBytes, ofLe]
  | cons w words ih =>
    have hw : w < 2 ^ 64 := small w mem_cons_self
    have tail := ih (forall_mem_cons.mp small).2
    rw [wordsAsBytes, flatMap_cons, ofLe_append, toLe_length, ofLe_toLe_of_lt (by omega),
      add_comm, show (256 : Nat) ^ 8 = 2 ^ 64 from rfl, Nat.testBit_two_pow_mul_add _ hw]
    split_ifs with h
    · rw [Nat.div_eq_of_lt h, Nat.mod_eq_of_lt h]
      rfl
    · rw [← wordsAsBytes, tail, show i / 64 = (i - 64) / 64 + 1 by omega,
        show i % 64 = (i - 64) % 64 by omega]
      rfl

def Words64 (words : List Nat) : Prop := ∀ w ∈ words, w < 2 ^ 64

theorem occSet_words {occ : List Nat} (small : Words64 occ) (v : Nat) : Words64 (occSet occ v) := by
  intro w hw
  rw [occSet, mem_iff_getElem] at hw
  obtain ⟨i, hi, rfl⟩ := hw
  rw [length_modify] at hi
  rw [getElem_modify]
  split_ifs
  · exact Nat.or_lt_two_pow (small _ (getElem_mem hi))
      (Nat.pow_lt_pow_right (by decide) (Nat.mod_lt _ (by decide)))
  · exact small _ (getElem_mem hi)

theorem occupied_occSet {occ : List Nat} (small : Words64 occ) {v : Nat}
    (inside : v / 64 < occ.length) (b : Nat) :
    Occupied (wordsAsBytes (occSet occ v)) b ↔ b = v ∨ Occupied (wordsAsBytes occ) b := by
  rw [Occupied, Occupied, testBit_wordsAsBytes (occSet_words small v), testBit_wordsAsBytes small]
  by_cases word : b / 64 = v / 64
  · have cell : (occSet occ v).getD (b / 64) 0 = occ.getD (b / 64) 0 ||| 2 ^ (v % 64) := by
      rw [occSet, word, getD_eq_getElem?_getD, getD_eq_getElem?_getD,
        getElem?_modify_eq, getElem?_eq_getElem inside]
      rfl
    rw [cell, Nat.testBit_or, Nat.testBit_two_pow]
    simp only [Bool.or_eq_true, decide_eq_true_eq]
    have same : v % 64 = b % 64 ↔ b = v := by omega
    rw [same, or_comm]
  · have cell : (occSet occ v).getD (b / 64) 0 = occ.getD (b / 64) 0 := by
      rw [occSet, getD_eq_getElem?_getD, getD_eq_getElem?_getD,
        getElem?_modify_ne _ _ (Ne.symm word)]
    rw [cell]
    have differ : b ≠ v := by
      rintro rfl
      exact word rfl
    simp [differ]

theorem occupied_foldr (order : List (Nat × Nat)) {k : Nat} (inside : ∀ x ∈ order, x.2 / 64 < k) :
    (order.foldr (fun x occ => occSet occ x.2) (replicate k 0)).length = k ∧
    Words64 (order.foldr (fun x occ => occSet occ x.2) (replicate k 0)) ∧
    ∀ b, Occupied (wordsAsBytes (order.foldr (fun x occ => occSet occ x.2) (replicate k 0))) b ↔
      b ∈ order.map Prod.snd := by
  induction order with
  | nil =>
    have small : Words64 (replicate k 0) := by
      intro w hw
      rw [eq_of_mem_replicate hw]
      decide
    refine ⟨by simp, small, fun b => ?_⟩
    have zero : (replicate k 0).getD (b / 64) 0 = 0 := by
      rw [getD_eq_getElem?_getD, getElem?_replicate]
      split_ifs <;> rfl
    simp only [foldr_nil]
    rw [Occupied, testBit_wordsAsBytes small, zero]
    simp
  | cons x order ih =>
    obtain ⟨size, small, bits⟩ := ih (forall_mem_cons.mp inside).2
    have here : x.2 / 64 < (order.foldr (fun x occ => occSet occ x.2) (replicate k 0)).length := by
      rw [size]
      exact inside x mem_cons_self
    refine ⟨?_, occSet_words small x.2, fun b => ?_⟩
    · rw [foldr_cons, occSet, length_modify, size]
    · rw [foldr_cons, occupied_occSet small here, bits, map_cons, mem_cons]

end Rbitcoin.Store
