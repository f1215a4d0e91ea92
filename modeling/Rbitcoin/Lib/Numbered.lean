import Mathlib.Algebra.BigOperators.Group.List.Basic
import Mathlib.Tactic.Ring

/-! Items that are numbered in order and stand one after another. An item starts where those before
it end; a mark is the position after a whole stride of items; and some items are selected, with
their numbers. -/

namespace Rbitcoin.Numbered

open List

section Positions

variable {α M : Type} [AddCommMonoid M] (origin : M) (len : α → M)

/-- The position after the first `k` items. -/
def pos (l : List α) (k : Nat) : M := origin + ((l.take k).map len).sum

theorem pos_zero (l : List α) : pos origin len l 0 = origin := by simp [pos]

variable {l : List α}

theorem pos_succ {k : Nat} {a : α} (h : l[k]? = some a) :
    pos origin len l (k + 1) = pos origin len l k + len a := by
  simp [pos, take_add_one, h, add_assoc]

theorem pos_take (l : List α) (n k : Nat) :
    pos origin len (l.take n) k = pos origin len l (min k n) := by
  rw [pos, take_take, pos]

theorem pos_append {l m : List α} {k : Nat} (inside : k ≤ l.length) :
    pos origin len (l ++ m) k = pos origin len l k := by
  rw [pos, take_append_of_le_length inside, pos]

theorem pos_drop (l : List α) (i k : Nat) :
    pos (pos origin len l i) len (l.drop i) k = pos origin len l (i + k) := by
  simp [pos, take_add, add_assoc]

theorem pos_snoc (l : List α) (a : α) :
    pos origin len (l ++ [a]) (l.length + 1) = pos origin len l l.length + len a := by
  rw [pos_succ origin len getElem?_concat_length, pos_append origin len le_rfl]

variable (stride : Nat)

/-- The positions after every `stride` items. -/
def marks (l : List α) : List M :=
  (List.range (l.length / stride)).map fun w => pos origin len l ((w + 1) * stride)

@[simp] theorem marks_nil : marks origin len stride ([] : List α) = [] := by
  simp [marks]

@[simp] theorem length_marks (l : List α) :
    (marks origin len stride l).length = l.length / stride := by
  simp [marks]

theorem getElem?_marks {w : Nat} (inside : w < l.length / stride) :
    (marks origin len stride l)[w]? = some (pos origin len l ((w + 1) * stride)) := by
  simp [marks, inside]

theorem marks_take {n : Nat} (inside : n ≤ l.length) :
    marks origin len stride (l.take n) = (marks origin len stride l).take (n / stride) := by
  have fewer : n / stride ≤ l.length / stride := Nat.div_le_div_right inside
  simp only [marks, length_take_of_le inside, ← map_take, take_range, min_eq_left fewer]
  apply map_congr_left
  intro w small
  rw [mem_range] at small
  have within : (w + 1) * stride ≤ n := by
    calc (w + 1) * stride ≤ n / stride * stride := Nat.mul_le_mul_right stride small
      _ ≤ n := Nat.div_mul_le_self n stride
  rw [pos_take, min_eq_left within]

/-- The marks among items that come after `k` others and start at `p`, with their numbers. -/
def marksFrom : Nat → M → List α → List (Nat × M)
  | _, _, [] => []
  | k, p, a :: l =>
    if (k + 1) % stride = 0 then
      ((k + 1) / stride - 1, p + len a) :: marksFrom (k + 1) (p + len a) l
    else marksFrom (k + 1) (p + len a) l

variable {stride}

theorem marks_snoc (positive : 0 < stride) (l : List α) (a : α) :
    marks origin len stride (l ++ [a]) = marks origin len stride l ++
      if (l.length + 1) % stride = 0 then [pos origin len l l.length + len a] else [] := by
  have front : (marks origin len stride (l ++ [a])).take (l.length / stride) =
      marks origin len stride l := by
    rw [← marks_take origin len stride (by simp), take_left]
  rw [← front]
  by_cases whole : (l.length + 1) % stride = 0
  · obtain ⟨c, hc⟩ := Nat.dvd_of_mod_eq_zero whole
    obtain ⟨d, rfl⟩ : ∃ d, c = d + 1 := by
      cases c with
      | zero => simp at hc
      | succ d => exact ⟨d, rfl⟩
    have ahead : l.length + 1 = stride * d + stride := by rw [hc, Nat.mul_succ]
    have below : l.length / stride = d := by
      rw [show l.length = stride - 1 + stride * d by omega, Nat.add_mul_div_left _ _ positive,
        Nat.div_eq_of_lt (by omega), zero_add]
    have count : (l ++ [a]).length / stride = d + 1 := by
      rw [length_append, length_singleton, hc, Nat.mul_div_cancel_left _ positive]
    rw [if_pos whole, below]
    simp only [marks, count]
    rw [← map_take, take_range, min_eq_left (Nat.le_succ d), range_succ,
      map_append, map_singleton, mul_comm (d + 1), ← hc, pos_snoc]
  · have same : (l.length + 1) / stride = l.length / stride :=
      Nat.succ_div_of_not_dvd fun divides => whole (Nat.mod_eq_zero_of_dvd divides)
    rw [if_neg whole, append_nil]
    simp [same]

theorem marks_append (positive : 0 < stride) (l m : List α) :
    marks origin len stride (l ++ m) = marks origin len stride l ++
      (marksFrom len stride l.length (pos origin len l l.length) m).map Prod.snd := by
  induction m generalizing l with
  | nil => simp [marksFrom]
  | cons a m ih =>
    rw [append_cons, ih, marks_snoc origin len positive, length_append, length_singleton, pos_snoc,
      marksFrom]
    split_ifs <;> simp

theorem fst_of_head?_marksFrom {k : Nat} {p : M}
    {x : Nat × M} (first : (marksFrom len stride k p l).head? = some x) : x.1 = k / stride := by
  induction l generalizing k p with
  | nil => simp [marksFrom] at first
  | cons a l ih =>
    rw [marksFrom] at first
    by_cases whole : (k + 1) % stride = 0
    · have next : (k + 1) / stride = k / stride + 1 := by
        rw [Nat.succ_div_of_dvd (Nat.dvd_of_mod_eq_zero whole)]
      rw [if_pos whole, head?_cons, Option.some.injEq] at first
      rw [← first, next, Nat.add_sub_cancel]
    · have same : (k + 1) / stride = k / stride :=
        Nat.succ_div_of_not_dvd fun divides => whole (Nat.mod_eq_zero_of_dvd divides)
      rw [if_neg whole] at first
      rw [ih first, same]

end Positions

section Selected

variable {α : Type} (chosen : α → Bool)

/-- The chosen items among those that come after `k` others, with their numbers from one on. -/
def selectFrom : Nat → List α → List (Nat × α)
  | _, [] => []
  | k, a :: l => if chosen a then (k + 1, a) :: selectFrom (k + 1) l else selectFrom (k + 1) l

theorem selectFrom_append (k : Nat) (l m : List α) :
    selectFrom chosen k (l ++ m) = selectFrom chosen k l ++ selectFrom chosen (k + l.length) m := by
  induction l generalizing k with
  | nil => rfl
  | cons a l ih =>
    rw [cons_append, selectFrom, selectFrom, ih,
      show k + 1 + l.length = k + (l.length + 1) by omega]
    split_ifs <;> rfl

theorem mem_selectFrom {k i : Nat} {l : List α} {a : α} :
    (i, a) ∈ selectFrom chosen k l ↔ k < i ∧ l[i - (k + 1)]? = some a ∧ chosen a := by
  induction l generalizing k with
  | nil => simp [selectFrom]
  | cons b l ih =>
    have later : (k < i ∧ (b :: l)[i - (k + 1)]? = some a ∧ chosen a) ↔
        (i = k + 1 ∧ b = a ∧ chosen a) ∨ (k + 1 < i ∧ l[i - (k + 1 + 1)]? = some a ∧ chosen a) := by
      rcases Nat.lt_trichotomy i (k + 1) with below | rfl | above
      · constructor
        · omega
        · rintro (⟨h, -⟩ | ⟨h, -⟩) <;> omega
      · simp
      · obtain ⟨j, hj⟩ : ∃ j, i - (k + 1) = j + 1 := ⟨i - (k + 2), by omega⟩
        rw [hj, show i - (k + 1 + 1) = j by omega]
        constructor
        · rintro ⟨-, h⟩
          exact Or.inr ⟨above, h⟩
        · rintro (⟨h, -⟩ | ⟨-, h⟩)
          · omega
          · exact ⟨by omega, h⟩
    rw [later, selectFrom, ← ih]
    by_cases taken : chosen b
    · rw [if_pos taken, mem_cons, Prod.mk.injEq]
      constructor
      · rintro (⟨rfl, rfl⟩ | h)
        · exact Or.inl ⟨rfl, rfl, taken⟩
        · exact Or.inr h
      · rintro (⟨rfl, rfl, -⟩ | h)
        · exact Or.inl ⟨rfl, rfl⟩
        · exact Or.inr h
    · rw [if_neg taken]
      constructor
      · exact Or.inr
      · rintro (⟨-, rfl, h⟩ | h)
        · exact absurd h taken
        · exact h

theorem pairwise_selectFrom (k : Nat) (l : List α) :
    (selectFrom chosen k l).Pairwise fun x y => x.1 < y.1 := by
  induction l generalizing k with
  | nil => exact Pairwise.nil
  | cons a l ih =>
    rw [selectFrom]
    split_ifs
    · refine pairwise_cons.mpr ⟨?_, ih (k + 1)⟩
      rintro ⟨i, b⟩ later
      exact (mem_selectFrom chosen).mp later |>.1
    · exact ih (k + 1)

theorem filter_selectFrom (k n : Nat) (l : List α) :
    (selectFrom chosen k l).filter (fun x => x.1 ≤ k + n) = selectFrom chosen k (l.take n) := by
  have front : ∀ x ∈ selectFrom chosen k (l.take n), decide (x.1 ≤ k + n) = true := by
    rintro ⟨i, a⟩ mem
    obtain ⟨above, here, -⟩ := (mem_selectFrom chosen).mp mem
    have bound := (List.getElem?_eq_some_iff.mp here).1
    rw [List.length_take] at bound
    exact decide_eq_true (by omega)
  rcases le_total l.length n with all | short
  · rw [take_of_length_le all] at front ⊢
    exact filter_eq_self.mpr front
  · have rear : ∀ x ∈ selectFrom chosen (k + (l.take n).length) (l.drop n),
        ¬decide (x.1 ≤ k + n) = true := by
      rintro ⟨i, a⟩ mem
      have above := ((mem_selectFrom chosen).mp mem).1
      rw [length_take_of_le short] at above
      rw [decide_eq_true_eq]
      omega
    conv_lhs => rw [← take_append_drop n l, selectFrom_append]
    rw [filter_append, filter_eq_self.mpr front, filter_eq_nil_iff.mpr rear, append_nil]

end Selected

end Rbitcoin.Numbered
