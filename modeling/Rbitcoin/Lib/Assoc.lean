import Mathlib.Data.List.Nodup

/-! Association lists with distinct keys: a lookup says what is in the list, whatever its order. -/

namespace Rbitcoin.Assoc

variable {κ ν : Type} [DecidableEq κ] {l l' : List (κ × ν)} {k : κ}

theorem lookup_eq_some (nodup : (l.map Prod.fst).Nodup) {v : ν} :
    l.lookup k = some v ↔ (k, v) ∈ l := by
  induction l with
  | nil => simp
  | cons x l ih =>
    rw [List.map_cons, List.nodup_cons] at nodup
    rw [List.lookup_cons]
    by_cases same : k = x.1
    · subst same
      have other : (x.1, v) ∉ l := fun h => nodup.1 (List.mem_map.mpr ⟨_, h, rfl⟩)
      obtain ⟨k, u⟩ := x
      simp [other, eq_comm]
    · have apart : (k, v) ≠ x := fun h => same (congrArg Prod.fst h)
      have differ : (k == x.1) = false := beq_eq_false_iff_ne.mpr same
      simp [differ, ih nodup.2, apart]

theorem lookup_eq_none : l.lookup k = none ↔ k ∉ l.map Prod.fst := by
  rw [List.lookup_eq_none_iff]
  simp only [bne_iff_ne, List.mem_map, not_exists, not_and]
  exact ⟨fun h x hx same => h x hx same.symm, fun h x hx same => h x hx same.symm⟩

theorem lookup_perm (perm : l.Perm l') (nodup : (l.map Prod.fst).Nodup) (k : κ) :
    l.lookup k = l'.lookup k := by
  have nodup' : (l'.map Prod.fst).Nodup := (perm.map Prod.fst).nodup_iff.mp nodup
  apply Option.ext
  intro v
  rw [lookup_eq_some nodup, lookup_eq_some nodup', perm.mem_iff]

end Rbitcoin.Assoc
