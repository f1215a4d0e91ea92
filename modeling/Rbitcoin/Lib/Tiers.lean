import Mathlib.Data.List.Forall2

/-! Partial maps that are read one after the other. When no key is in two of them, their order does
not matter: what is read is what is anywhere. -/

namespace Rbitcoin.Tiers

open List Function

variable {κ ω : Type} {fs gs : List (κ → Option ω)} {k : κ} {w : ω}

def first (fs : List (κ → Option ω)) (k : κ) : Option ω := fs.findSome? (· k)

/-- No key is in two of the maps. -/
def Apart (fs : List (κ → Option ω)) : Prop :=
  fs.Pairwise fun f g => ∀ k, f k = none ∨ g k = none

theorem first_cons (f : κ → Option ω) : first (f :: fs) k = (f k).or (first fs k) := by
  rw [first, findSome?_cons]
  cases f k <;> rfl

theorem first_append : first (fs ++ gs) k = (first fs k).or (first gs k) := findSome?_append

theorem first_eq_none : first fs k = none ↔ ∀ f ∈ fs, f k = none := findSome?_eq_none_iff

theorem first_eq_some (apart : Apart fs) : first fs k = some w ↔ ∃ f ∈ fs, f k = some w := by
  constructor
  · exact exists_of_findSome?_eq_some
  · rintro ⟨f, mem, found⟩
    induction fs with
    | nil => cases mem
    | cons g fs ih =>
      obtain ⟨others, apart⟩ := pairwise_cons.mp apart
      rcases mem_cons.mp mem with rfl | later
      · rw [first, findSome?_cons, found]
      · have skipped : g k = none := (others f later k).resolve_right (by rw [found]; nofun)
        rw [first, findSome?_cons, skipped]
        exact ih apart later

theorem first_congr (apart : Apart fs) (apart' : Apart gs)
    (same : ∀ w, (∃ f ∈ fs, f k = some w) ↔ ∃ g ∈ gs, g k = some w) : first fs k = first gs k := by
  apply Option.ext
  intro w
  rw [first_eq_some apart, first_eq_some apart']
  exact same w

theorem Apart.perm (apart : Apart fs) (perm : fs.Perm gs) : Apart gs :=
  perm.pairwise apart fun h k => (h k).symm

theorem exists_mem_set {α : Type} {l : List α} {i : Nat} {a b : α} {P : α → Prop}
    (at_i : l[i]? = some a) (same : P b ↔ P a) : (∃ x ∈ l.set i b, P x) ↔ ∃ x ∈ l, P x := by
  constructor
  · rintro ⟨x, mem, holds⟩
    rcases mem_or_eq_of_mem_set mem with old | rfl
    · exact ⟨x, old, holds⟩
    · exact ⟨a, mem_of_getElem? at_i, same.mp holds⟩
  · rintro ⟨x, mem, holds⟩
    obtain ⟨j, at_j⟩ := getElem?_of_mem mem
    by_cases here : i = j
    · subst here
      obtain rfl := Option.some.inj (at_j.symm.trans at_i)
      exact ⟨b, List.mem_set (List.getElem?_eq_some_iff.mp at_i).1 b, same.mpr holds⟩
    · exact ⟨x, List.mem_of_getElem? ((List.getElem?_set_ne here).trans at_j), holds⟩

theorem Apart.of_le (apart : Apart fs)
    (le : Forall₂ (fun f g => ∀ k, f k = none → g k = none) fs gs) : Apart gs := by
  induction le with
  | nil => exact Pairwise.nil
  | @cons f g fs gs le les ih =>
    obtain ⟨others, apart⟩ := pairwise_cons.mp apart
    refine pairwise_cons.mpr ⟨fun h mem k => ?_, ih apart⟩
    obtain ⟨i, at_i⟩ := getElem?_of_mem mem
    obtain ⟨hi, rfl⟩ := List.getElem?_eq_some_iff.mp at_i
    have hi' : i < fs.length := les.length_eq ▸ hi
    rcases others fs[i] (getElem_mem hi') k with missing | missing
    · exact .inl (le k missing)
    · exact .inr (Forall₂.get les hi' hi k missing)

variable [DecidableEq κ]

theorem Apart.set {i : Nat} {f : κ → Option ω} (apart : Apart fs) (at_i : fs[i]? = some f)
    (member : (f k).isSome) (w : ω) :
    Apart (fs.set i (update f k (some w))) ∧
      first (fs.set i (update f k (some w))) = update (first fs) k (some w) := by
  obtain ⟨hi, rfl⟩ := List.getElem?_eq_some_iff.mp at_i
  have within : List.Forall₂ (fun f g => ∀ k, f k = none → g k = none) fs
      (fs.set i (update fs[i] k (some w))) := by
    rw [forall₂_iff_get]
    refine ⟨by rw [length_set], fun j hj hj' l missing => ?_⟩
    simp only [get_eq_getElem] at missing ⊢
    rw [getElem_set]
    split_ifs with here
    · subst here
      have other : l ≠ k := by
        rintro rfl
        rw [missing] at member
        cases member
      rw [update_of_ne other]
      exact missing
    · exact missing
  have apart' := apart.of_le within
  refine ⟨apart', ?_⟩
  funext l
  by_cases same : l = k
  · subst same
    rw [update_self, first_eq_some apart']
    exact ⟨_, mem_set hi _, update_self ..⟩
  · rw [update_of_ne same]
    apply first_congr apart' apart
    intro x
    exact exists_mem_set at_i (by rw [update_of_ne same])

end Rbitcoin.Tiers
