import Mathlib.Data.Nat.ModEq

/-! Open addressing with linear probing. A slot is empty or shows a key and a value; a search starts
at the slot of the hash and ends at the key or at an empty slot. A table whose keys are all reached
by their search is a partial map, and writing where the search ends keeps it one. -/

namespace Rbitcoin.Probe

open List Option

variable {α κ ω : Type} (view : α → Option (κ × ω)) (slots : List α)

def cell (i : Nat) : Option (κ × ω) := slots[i]?.bind view

/-- Where a search ends. -/
inductive Spot
  | hit (i : Nat)
  | free (i : Nat)
  | full
  deriving DecidableEq, Repr

def probe [DecidableEq κ] (slots : List α) (key : κ) : Nat → Nat → Spot
  | 0, _ => .full
  | fuel + 1, i =>
    match cell view slots i with
    | none => .free i
    | some (k, _) => if k = key then .hit i else probe slots key fuel ((i + 1) % slots.length)

def Passes (key : κ) (i d : Nat) : Prop :=
  ∀ e < d, ∃ x, cell view slots ((i + e) % slots.length) = some x ∧ x.1 ≠ key

/-- How many slots are not empty. -/
def occupied : Nat := slots.countP fun a => (view a).isSome

section Cells

variable {view} {slots : List α} {i : Nat}

theorem lt_of_cell {x : κ × ω} (h : cell view slots i = some x) : i < slots.length := by
  by_contra outside
  rw [cell, getElem?_eq_none (not_lt.mp outside)] at h
  cases h

theorem cell_set (inside : i < slots.length) (a : α) (j : Nat) :
    cell view (slots.set i a) j = if j = i then view a else cell view slots j := by
  unfold cell
  split_ifs with same
  · subst same
    rw [getElem?_set_self inside]
    rfl
  · rw [getElem?_set_ne (Ne.symm same)]

theorem occupied_set_hit {x y : κ × ω} {a : α} (old : cell view slots i = some x)
    (new : view a = some y) : occupied view (slots.set i a) = occupied view slots := by
  have inside := lt_of_cell old
  have shown : view slots[i] = some x := by
    simpa [cell, getElem?_eq_getElem inside] using old
  have some_old : 1 ≤ slots.countP fun a => (view a).isSome :=
    countP_pos_iff.mpr ⟨slots[i], getElem_mem inside, by rw [shown]; rfl⟩
  rw [occupied, countP_set inside, shown, new]
  simp only [isSome_some, if_true, occupied]
  omega

theorem occupied_set_free {y : κ × ω} {a : α} (inside : i < slots.length)
    (old : cell view slots i = none) (new : view a = some y) :
    occupied view (slots.set i a) = occupied view slots + 1 := by
  have shown : view slots[i] = none := by
    simpa [cell, getElem?_eq_getElem inside] using old
  rw [occupied, countP_set inside, shown, new]
  simp [occupied]

theorem exists_free (room : occupied view slots < slots.length) :
    ∃ i < slots.length, cell view slots i = none := by
  by_contra none_free
  apply absurd room
  have all : ∀ a ∈ slots, (view a).isSome := by
    intro a ha
    obtain ⟨i, hi, rfl⟩ := getElem_of_mem ha
    by_contra free
    apply none_free
    exact ⟨i, hi, by simpa [cell, getElem?_eq_getElem hi] using free⟩
  rw [occupied, countP_eq_length.mpr all]
  exact lt_irrefl _

end Cells

section Search

variable [DecidableEq κ] (slots : List α) (key : κ)

theorem probe_cases (fuel : Nat) {i : Nat} (inside : i < slots.length) :
    (∃ d < fuel, Passes view slots key i d ∧
      ((cell view slots ((i + d) % slots.length) = none ∧
          probe view slots key fuel i = .free ((i + d) % slots.length)) ∨
        (∃ w, cell view slots ((i + d) % slots.length) = some (key, w)) ∧
          probe view slots key fuel i = .hit ((i + d) % slots.length))) ∨
    (Passes view slots key i fuel ∧ probe view slots key fuel i = .full) := by
  induction fuel generalizing i with
  | zero => exact .inr ⟨fun e he => absurd he (Nat.not_lt_zero e), rfl⟩
  | succ fuel ih =>
    have here : (i + 0) % slots.length = i := Nat.mod_eq_of_lt inside
    have start : Passes view slots key i 0 := fun e he => absurd he (Nat.not_lt_zero e)
    cases shown : cell view slots i with
    | none =>
      refine .inl ⟨0, by omega, start, .inl ?_⟩
      rw [here]
      exact ⟨shown, by simp [probe, shown]⟩
    | some x =>
      by_cases same : x.1 = key
      · subst same
        refine .inl ⟨0, by omega, start, .inr ?_⟩
        rw [here]
        exact ⟨⟨x.2, shown⟩, by simp [probe, shown]⟩
      · -- the search goes on from the next slot, one step short
        have next : probe view slots key (fuel + 1) i =
            probe view slots key fuel ((i + 1) % slots.length) := by
          simp [probe, shown, same]
        have step (e : Nat) : ((i + 1) % slots.length + e) % slots.length =
            (i + (e + 1)) % slots.length := by
          rw [Nat.mod_add_mod]
          congr 1
          omega
        have extend {d : Nat} (rest : Passes view slots key ((i + 1) % slots.length) d) :
            Passes view slots key i (d + 1) := by
          intro e he
          cases e with
          | zero => exact ⟨x, by rw [here, shown], same⟩
          | succ e =>
            rw [← step]
            exact rest e (by omega)
        rcases ih (Nat.mod_lt (i + 1) (by omega)) with ⟨d, hd, rest, ended⟩ | ⟨rest, ended⟩
        · refine .inl ⟨d + 1, by omega, extend rest, ?_⟩
          rw [← step, next]
          exact ended
        · exact .inr ⟨extend rest, next.trans ended⟩

end Search

/-- The table holds the map `m`: every key is where its search leads. -/
structure Holds (hash : κ → Nat) (slots : List α) (m : κ → Option ω) : Prop where
  hash_lt : ∀ k, hash k < slots.length
  reached : ∀ {i k w}, cell view slots i = some (k, w) →
    ∃ d < slots.length, (hash k + d) % slots.length = i ∧ Passes view slots k (hash k) d
  entry : ∀ {k w}, m k = some w ↔ ∃ i, cell view slots i = some (k, w)

namespace Holds

variable {view} {hash : κ → Nat} {slots : List α} {m : κ → Option ω}
  (holds : Holds view hash slots m)
include holds

variable {k : κ} {w : ω}

theorem eq_of_ends {d : Nat} (passed : Passes view slots k (hash k) d)
    (ends : ∀ x, cell view slots ((hash k + d) % slots.length) = some x → x.1 = k) {i : Nat}
    (shown : cell view slots i = some (k, w)) : i = (hash k + d) % slots.length := by
  obtain ⟨e, he, at_i, passes⟩ := holds.reached shown
  rcases Nat.lt_trichotomy e d with before | same | after
  · obtain ⟨x, hx, ne⟩ := passed e before
    rw [at_i, shown, some.injEq] at hx
    exact absurd (congrArg Prod.fst hx.symm) ne
  · rw [← at_i, same]
  · obtain ⟨x, hx, ne⟩ := passes d after
    exact absurd (ends x hx) ne

variable [DecidableEq κ]

theorem probe_member {i : Nat} (shown : cell view slots i = some (k, w)) :
    probe view slots k slots.length (hash k) = .hit i := by
  rcases probe_cases view slots k slots.length (holds.hash_lt k) with
    ⟨d, -, passes, ⟨free, -⟩ | ⟨⟨v, hit⟩, found⟩⟩ | ⟨passes, -⟩
  · -- an empty slot shows no key
    rw [holds.eq_of_ends passes (by simp [free]) shown, free] at shown
    cases shown
  · rw [found, holds.eq_of_ends passes (by simp [hit]) shown]
  · obtain ⟨d, hd, at_i, -⟩ := holds.reached shown
    obtain ⟨x, hx, ne⟩ := passes d hd
    rw [at_i, shown, some.injEq] at hx
    exact absurd (congrArg Prod.fst hx.symm) ne

/-- A key that is in the table is found where it stands. -/
theorem probe_some (member : m k = some w) :
    ∃ i, probe view slots k slots.length (hash k) = .hit i ∧ cell view slots i = some (k, w) := by
  obtain ⟨i, shown⟩ := holds.entry.mp member
  exact ⟨i, holds.probe_member shown, shown⟩

/-- For a key that is not there the search ends at a free cell. -/
theorem probe_none (missing : m k = none) (room : occupied view slots < slots.length) :
    ∃ d < slots.length, Passes view slots k (hash k) d ∧
      cell view slots ((hash k + d) % slots.length) = none ∧
      probe view slots k slots.length (hash k) = .free ((hash k + d) % slots.length) := by
  rcases probe_cases view slots k slots.length (holds.hash_lt k) with
    ⟨d, hd, passes, ended | ⟨⟨w, shown⟩, -⟩⟩ | ⟨passes, -⟩
  · exact ⟨d, hd, passes, ended⟩
  · rw [holds.entry.mpr ⟨_, shown⟩] at missing
    cases missing
  · -- all slots were passed, but one of them is empty
    obtain ⟨i, hi, free⟩ := exists_free room
    have start := holds.hash_lt k
    obtain ⟨x, hx, -⟩ := passes ((i + slots.length - hash k) % slots.length)
      (Nat.mod_lt _ (by omega))
    have around : (hash k + (i + slots.length - hash k) % slots.length) % slots.length = i := by
      rw [Nat.add_mod_mod, show hash k + (i + slots.length - hash k) = i + slots.length by omega,
        Nat.add_mod_right, Nat.mod_eq_of_lt hi]
    rw [around, free] at hx
    cases hx

theorem set {a : α} {d : Nat} (new : view a = some (k, w)) (hd : d < slots.length)
    (passed : Passes view slots k (hash k) d)
    (ends : ∀ x, cell view slots ((hash k + d) % slots.length) = some x → x.1 = k) :
    Holds view hash (slots.set ((hash k + d) % slots.length) a) (Function.update m k (some w)) := by
  have inside : (hash k + d) % slots.length < slots.length := Nat.mod_lt _ (by omega)
  have only {j : Nat} {v : ω} := holds.eq_of_ends passed ends (i := j) (w := v)
  generalize at_i : (hash k + d) % slots.length = i at *
  have others {l : κ} (ne : l ≠ k) {j : Nat} {v : ω} (shown : cell view slots j = some (l, v)) :
      j ≠ i := by
    rintro rfl
    exact ne (ends _ shown)
  refine ⟨by simpa using holds.hash_lt, ?_, ?_⟩
  · intro j l v shown
    rw [length_set]
    rw [cell_set inside] at shown
    split_ifs at shown with same
    · rw [new, some.injEq] at shown
      obtain ⟨rfl, rfl⟩ := shown
      refine ⟨d, hd, by rw [at_i, same], ?_⟩
      intro e he
      obtain ⟨⟨l, v⟩, hx, ne⟩ := passed e he
      rw [length_set, cell_set inside, if_neg (others ne hx)]
      exact ⟨_, hx, ne⟩
    · have other : l ≠ k := by
        rintro rfl
        exact same (only shown)
      -- the search for another key passes the slot that was written, as it has a key now
      obtain ⟨e, he, at_j, passes⟩ := holds.reached shown
      refine ⟨e, he, at_j, ?_⟩
      intro f hf
      rw [length_set, cell_set inside]
      split_ifs
      · exact ⟨_, new, Ne.symm other⟩
      · exact passes f hf
  · intro l v
    by_cases same : l = k
    · subst same
      rw [Function.update_self, some.injEq]
      constructor
      · rintro rfl
        exact ⟨i, by rw [cell_set inside, if_pos rfl, new]⟩
      · rintro ⟨j, shown⟩
        rw [cell_set inside] at shown
        split_ifs at shown with at_j
        · rw [new, some.injEq, Prod.mk.injEq] at shown
          exact shown.2
        · exact absurd (only shown) at_j
    · rw [Function.update_of_ne same, holds.entry]
      constructor
      · rintro ⟨j, shown⟩
        exact ⟨j, by rw [cell_set inside, if_neg (others same shown), shown]⟩
      · rintro ⟨j, shown⟩
        rw [cell_set inside] at shown
        split_ifs at shown with at_j
        · rw [new, some.injEq, Prod.mk.injEq] at shown
          exact absurd shown.1.symm same
        · exact ⟨j, shown⟩

end Holds

end Rbitcoin.Probe
