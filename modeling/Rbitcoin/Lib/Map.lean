import Mathlib.Algebra.GroupWithZero.Nat
import Mathlib.Data.Finmap
import Mathlib.Data.Finset.Sort
import Mathlib.Algebra.BigOperators.Group.Finset.Basic
import Mathlib.Algebra.Order.BigOperators.Group.Finset
import Mathlib.Algebra.Order.Group.Nat

/-! Finite maps and the loops that programs run over them: one update for each key of a list. What
a lookup gives afterwards does not depend on the order of the list. -/

namespace Rbitcoin

open Finset

abbrev Map (κ ν : Type) := Finmap fun _ : κ => ν

namespace Map

variable {κ ν : Type} [DecidableEq κ] (m : Map κ ν) {k a : κ} {l : List κ}

/-- Change the value of a key that is there. -/
def modify (k : κ) (f : ν → ν) : Map κ ν :=
  match m.lookup k with
  | none => m
  | some v => m.insert k (f v)

/-- Give one value to every key of a list. -/
def insertAll (l : List κ) (v : ν) : Map κ ν := l.foldl (fun m k => m.insert k v) m

def modifyAll (l : List κ) (f : ν → ν) : Map κ ν := l.foldl (fun m k => m.modify k f) m

/-- Take out the keys of a list that have the given value. -/
def eraseAll [DecidableEq ν] (l : List κ) (v : ν) : Map κ ν :=
  l.foldl (fun m k => if m.lookup k = some v then m.erase k else m) m

/-- Give a key another value, or none. -/
def alter (k : κ) (f : Option ν → Option ν) : Map κ ν :=
  match f (m.lookup k) with
  | none => m.erase k
  | some v => m.insert k v

def alterAll (l : List κ) (f : Option ν → Option ν) : Map κ ν := l.foldl (fun m k => m.alter k f) m

theorem lookup_insert (v : ν) : (m.insert k v).lookup a = if a = k then some v else m.lookup a := by
  split
  · next same => rw [same, Finmap.lookup_insert]
  · next other => rw [Finmap.lookup_insert_of_ne m other]

theorem lookup_erase : (m.erase k).lookup a = if a = k then none else m.lookup a := by
  split
  · next same => rw [same, Finmap.lookup_erase]
  · next other => rw [Finmap.lookup_erase_ne other]

section Having

variable {m} {P : ν → Prop}

theorem exists_insert {v : ν} : (∃ x, (m.insert k v).lookup a = some x ∧ P x) ↔
    if a = k then P v else ∃ x, m.lookup a = some x ∧ P x := by
  rw [lookup_insert]
  split <;> simp

theorem exists_erase : (∃ x, (m.erase k).lookup a = some x ∧ P x) ↔
    a ≠ k ∧ ∃ x, m.lookup a = some x ∧ P x := by
  rw [lookup_erase]
  split <;> simp [*]

end Having

theorem erase_eq_self {m : Map κ ν} (gone : m.lookup k = none) : m.erase k = m := by
  refine Finmap.ext_lookup fun a => ?_
  rw [lookup_erase]
  split
  · next here => rw [here, gone]
  · rfl

theorem lookup_modify (f : ν → ν) :
    (m.modify k f).lookup a = if a = k then (m.lookup a).map f else m.lookup a := by
  unfold modify
  cases found : m.lookup k with
  | none =>
    dsimp only
    split
    · next same => rw [same, found]; rfl
    · rfl
  | some v =>
    rw [lookup_insert]
    split
    · next same => rw [same, found]; rfl
    · rfl

theorem lookup_insertAll (v : ν) :
    (m.insertAll l v).lookup a = if a ∈ l then some v else m.lookup a := by
  induction l generalizing m with
  | nil => rfl
  | cons k l ih =>
    change (Map.insertAll (m.insert k v) l v).lookup a = _
    rw [ih, lookup_insert]
    by_cases here : a = k <;> by_cases later : a ∈ l <;> simp [later]

variable {f : ν → ν} {v : ν} {w : ν → Nat}

theorem lookup_modifyAll (idem : ∀ v, f (f v) = f v) :
    (m.modifyAll l f).lookup a = if a ∈ l then (m.lookup a).map f else m.lookup a := by
  induction l generalizing m with
  | nil => rfl
  | cons k l ih =>
    change ((m.modify k f).modifyAll l f).lookup a = _
    rw [ih, lookup_modify]
    by_cases here : a = k <;> by_cases later : a ∈ l <;>
      simp [here, Function.comp_def, idem]

theorem lookup_eraseAll [DecidableEq ν] (v : ν) :
    (m.eraseAll l v).lookup a = if a ∈ l ∧ m.lookup a = some v then none else m.lookup a := by
  induction l generalizing m with
  | nil => simp [eraseAll]
  | cons k l ih =>
    change (Map.eraseAll (if m.lookup k = some v then m.erase k else m) l v).lookup a = _
    rw [ih]
    by_cases here : a = k
    · subst here
      by_cases hit : m.lookup a = some v <;> simp [hit]
    · by_cases hit : m.lookup k = some v <;> simp [hit, here]

theorem lookup_alter (f : Option ν → Option ν) :
    (m.alter k f).lookup a = if a = k then f (m.lookup a) else m.lookup a := by
  unfold alter
  split
  · next gone =>
    rw [lookup_erase]
    split
    · next same => rw [same, gone]
    · rfl
  · next v given =>
    rw [lookup_insert]
    split
    · next same => rw [same, given]
    · rfl

theorem lookup_alterAll (f : Option ν → Option ν) (nodup : l.Nodup) :
    (m.alterAll l f).lookup a = if a ∈ l then f (m.lookup a) else m.lookup a := by
  induction l generalizing m with
  | nil => rfl
  | cons k l ih =>
    obtain ⟨fresh, nodup⟩ := List.nodup_cons.mp nodup
    change ((m.alter k f).alterAll l f).lookup a = _
    rw [ih _ nodup, lookup_alter]
    by_cases here : a = k
    · subst here
      simp [fresh]
    · simp [here]

def total (w : ν → Nat) : Nat := (m.entries.map fun e => w e.2).sum

variable {m}

theorem total_insert (fresh : m.lookup k = none) : total (m.insert k v) w = w v + total m w := by
  have new : k ∉ m := by rwa [← Finmap.lookup_eq_none]
  rw [total, total, Finmap.entries_insert_of_notMem new, Multiset.map_cons, Multiset.sum_cons]

theorem insert_erase (found : m.lookup k = some v) : (m.erase k).insert k v = m := by
  refine Finmap.ext_lookup fun a => ?_
  rw [lookup_insert, lookup_erase]
  split
  · next same => rw [same, found]
  · rfl

theorem total_erase (found : m.lookup k = some v) : w v + total (m.erase k) w = total m w := by
  rw [← total_insert (by rw [lookup_erase, if_pos rfl]), insert_erase found]

theorem total_replace {v' : ν} (found : m.lookup k = some v) :
    w v + total (m.insert k v') w = w v' + total m w := by
  have again : m.insert k v' = (m.erase k).insert k v' := by
    refine Finmap.ext_lookup fun a => ?_
    rw [lookup_insert, lookup_insert, lookup_erase]
    split <;> rfl
  have fresh : (m.erase k).lookup k = none := by rw [lookup_erase, if_pos rfl]
  have erased : w v + total (m.erase k) w = total m w := total_erase found
  rw [again, total_insert fresh]
  omega

theorem total_modify (keep : ∀ v, w (f v) = w v) : total (m.modify k f) w = total m w := by
  unfold modify
  cases found : m.lookup k with
  | none => rfl
  | some v =>
    have replaced : w v + total (m.insert k (f v)) w = w (f v) + total m w := total_replace found
    rw [keep] at replaced
    exact add_left_cancel replaced

theorem total_modifyAll (keep : ∀ v, w (f v) = w v) : total (m.modifyAll l f) w = total m w := by
  induction l generalizing m with
  | nil => rfl
  | cons k l ih => exact ih.trans (total_modify keep)

omit [DecidableEq κ] in
theorem total_mono {w' : ν → Nat} (le : ∀ v, w v ≤ w' v) : total m w ≤ total m w' :=
  Multiset.sum_map_le_sum_map _ _ fun e _ => le e.2

theorem exists_of_total_ne_zero (some_weight : total m w ≠ 0) :
    ∃ k v, m.lookup k = some v ∧ w v ≠ 0 := by
  by_contra none
  push Not at none
  refine some_weight (Multiset.sum_eq_zero fun n mem => ?_)
  obtain ⟨⟨k, v⟩, entry, rfl⟩ := Multiset.mem_map.mp mem
  exact none k v (Finmap.lookup_eq_some_iff.mpr entry)

theorem total_eq_sum : total m w = ∑ k ∈ m.keys, ((m.lookup k).map w).getD 0 := by
  rw [total, Finset.sum, show m.keys.val = m.entries.map Sigma.fst from rfl, Multiset.map_map]
  refine congrArg _ (Multiset.map_congr rfl fun e mem => ?_)
  rw [Function.comp_apply, Finmap.lookup_eq_some_iff.mpr mem]
  rfl

theorem sum_le_total (s : Finset κ) : ∑ k ∈ s, ((m.lookup k).map w).getD 0 ≤ total m w := by
  rw [total_eq_sum]
  refine sum_le_sum_of_ne_zero fun k _ counts => ?_
  rw [Finmap.mem_keys, ← not_not (a := k ∈ m), ← Finmap.lookup_eq_none]
  intro gone
  rw [gone] at counts
  exact counts rfl

theorem total_le_total {m' : Map κ ν}
    (less : ∀ k v, m.lookup k = some v → ∃ v', m'.lookup k = some v' ∧ w v ≤ w v') :
    total m w ≤ total m' w := by
  rw [total_eq_sum]
  refine (sum_le_sum fun k _ => ?_).trans (sum_le_total m.keys)
  cases found : m.lookup k with
  | none => exact Nat.zero_le _
  | some v =>
    obtain ⟨v', found', le⟩ := less k v found
    rwa [found']

end Map

namespace Ordered

variable {α : Type} [LinearOrder α]

/-- The members of a set, the least first. -/
def ascending (s : Finset α) : List α :=
  Quot.liftOn s.val (List.insertionSort (· ≤ ·)) fun _ _ perm =>
    List.Perm.eq_of_pairwise (fun _ _ _ _ => le_antisymm) (List.pairwise_insertionSort _ _)
      (List.pairwise_insertionSort _ _)
      ((List.perm_insertionSort _ _).trans (perm.trans (List.perm_insertionSort _ _).symm))

variable (s : Finset α)

theorem coe_ascending : (ascending s : Multiset α) = s.val := by
  obtain ⟨⟨l⟩, nodup⟩ := s
  exact Quot.sound (List.perm_insertionSort _ l)

@[simp] theorem mem_ascending {a : α} : a ∈ ascending s ↔ a ∈ s := by
  rw [← Multiset.mem_coe, coe_ascending, mem_val]

theorem pairwise_ascending : (ascending s).Pairwise (· ≤ ·) := by
  obtain ⟨⟨l⟩, nodup⟩ := s
  exact List.pairwise_insertionSort _ l

theorem head?_ascending {a : α} : (ascending s).head? = some a ↔ a ∈ s ∧ ∀ b ∈ s, a ≤ b := by
  have sorted := pairwise_ascending s
  have mem (b : α) : b ∈ ascending s ↔ b ∈ s := mem_ascending s
  cases listed : ascending s with
  | nil =>
    simp only [listed, List.not_mem_nil, false_iff] at mem
    simp [mem]
  | cons first rest =>
    simp only [listed, List.mem_cons] at mem
    rw [listed, List.pairwise_cons] at sorted
    rw [List.head?_cons, Option.some.injEq]
    constructor
    · rintro rfl
      refine ⟨(mem first).mp (Or.inl rfl), fun b hb => ?_⟩
      rcases (mem b).mpr hb with rfl | later
      · exact le_refl _
      · exact sorted.1 b later
    · rintro ⟨inside, least⟩
      have below := least first ((mem first).mp (Or.inl rfl))
      rcases (mem a).mpr inside with rfl | later
      · rfl
      · exact le_antisymm (sorted.1 a later) below

theorem sum_ascending (f : α → Nat) : ((ascending s).map f).sum = ∑ a ∈ s, f a := by
  rw [Finset.sum, ← coe_ascending, Multiset.map_coe, Multiset.sum_coe]

theorem nodup_ascending : (ascending s).Nodup := by
  rw [← Multiset.coe_nodup, coe_ascending]
  exact s.nodup

end Ordered

end Rbitcoin
