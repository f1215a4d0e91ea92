import Mathlib.Data.List.Sort

/-! Search in a list that strictly increases by a rank: the number of smaller elements, a scan of a
page, and the page that an index of the first elements of the pages leads to. -/

namespace Rbitcoin.SortedSearch

open List

variable {α : Type} (rank : α → Nat)

/-- How many elements at the front are smaller. -/
def lowerBound (l : List α) (x : Nat) : Nat := (l.takeWhile fun a => rank a < x).length

/-- The element of rank `x` and its position, if it is there. Positions start at `i`. -/
def scan (x : Nat) : List α → Nat → Option (Nat × α)
  | [], _ => none
  | a :: l, i =>
    if rank a = x then some (i, a) else if x < rank a then none else scan x l (i + 1)

variable {rank} {l : List α} {x : Nat}

theorem lowerBound_le : lowerBound rank l x ≤ l.length := by
  exact (takeWhile_sublist _).length_le

theorem rank_lt_of_lt_lowerBound {j : Nat} (h : j < lowerBound rank l x) (hj : j < l.length) :
    rank l[j] < x := by
  have taken : (l.takeWhile fun a => rank a < x)[j] = l[j] := by
    have := takeWhile_prefix (l := l) fun a => decide (rank a < x)
    exact this.getElem h
  have small := all_eq_true.mp (all_takeWhile (l := l)) _ (getElem_mem h)
  rw [taken] at small
  simpa using small

section Sorted

variable (sorted : l.Pairwise fun a b => rank a < rank b)
include sorted

theorem rank_mono {i j : Nat} (h : i < j) (hj : j < l.length) : rank l[i] < rank l[j] :=
  pairwise_iff_getElem.mp sorted i j (by omega) hj h

theorem le_rank_of_lowerBound_le {j : Nat} (h : lowerBound rank l x ≤ j) (hj : j < l.length) :
    x ≤ rank l[j] := by
  induction l generalizing j with
  | nil => exact absurd hj (Nat.not_lt_zero j)
  | cons a l ih =>
    rw [pairwise_cons] at sorted
    by_cases small : rank a < x
    · rw [lowerBound, takeWhile_cons_of_pos (by simpa using small), length_cons] at h
      obtain ⟨j, rfl⟩ : ∃ i, j = i + 1 := ⟨j - 1, by omega⟩
      exact ih sorted.2 (Nat.le_of_succ_le_succ h) (by simpa using hj)
    · cases j with
      | zero => exact not_lt.mp small
      | succ j =>
        have inside : j < l.length := by simpa using hj
        have := sorted.1 l[j] (getElem_mem inside)
        simp only [getElem_cons_succ]
        omega

theorem scan_eq_some {j : Nat} (hj : j < l.length) (i : Nat) (at_j : rank l[j] = x) :
    scan rank x l i = some (i + j, l[j]) := by
  induction l generalizing i j with
  | nil => exact absurd hj (Nat.not_lt_zero j)
  | cons a l ih =>
    rw [pairwise_cons] at sorted
    cases j with
    | zero =>
      simp only [getElem_cons_zero] at at_j
      simp [scan, at_j]
    | succ j =>
      have inside : j < l.length := by simpa using hj
      have before : rank a < x := at_j ▸ sorted.1 l[j] (getElem_mem inside)
      rw [scan, if_neg (by omega), if_neg (by omega), ih sorted.2 inside (i + 1) at_j]
      congr 2
      omega

end Sorted

theorem scan_eq_none (missing : ∀ a ∈ l, rank a ≠ x) (i : Nat) : scan rank x l i = none := by
  induction l generalizing i with
  | nil => rfl
  | cons a l ih =>
    rw [scan, if_neg (missing a mem_cons_self)]
    split_ifs
    · rfl
    · exact ih (forall_mem_cons.mp missing).2 (i + 1)

end Rbitcoin.SortedSearch
