import Mathlib.Data.Finset.Card

/-! Breadth first walks. A walk takes the front of its queue and puts the neighbours it has not seen
at the back, each once; from a set of seeds it sees what they reach and nothing else. -/

namespace Rbitcoin.Reach

open Relation List

variable {α : Type} [DecidableEq α] (next : α → List α)

/-- What is not seen yet joins the back of the queue. -/
def enqueue (queue : List α) (seen : Finset α) : List α → List α × Finset α
  | [] => (queue, seen)
  | n :: l => if n ∈ seen then enqueue queue seen l else enqueue (queue ++ [n]) (insert n seen) l

/-- The nodes taken from the queue, in their order, and all that was seen. -/
def walk : Nat → List α → Finset α → List α × Finset α
  | 0, _, seen => ([], seen)
  | _ + 1, [], seen => ([], seen)
  | rounds + 1, cur :: queue, seen =>
    let (queue, seen) := enqueue queue seen (next cur)
    let (taken, seen) := walk rounds queue seen
    (cur :: taken, seen)

abbrev Step (a b : α) : Prop := b ∈ next a

def From (seeds : List α) (b : α) : Prop := ∃ a ∈ seeds, ReflTransGen (Step next) a b

variable {next}

theorem enqueue_spec (queue : List α) (seen : Finset α) (l : List α) :
    ∃ fresh : List α, enqueue queue seen l = (queue ++ fresh, seen ∪ fresh.toFinset) ∧
      fresh.Nodup ∧ (∀ x ∈ fresh, x ∉ seen ∧ x ∈ l) ∧ ∀ x ∈ l, x ∈ seen ∨ x ∈ fresh := by
  induction l generalizing queue seen with
  | nil => exact ⟨[], by simp [enqueue], nodup_nil, by simp, by simp⟩
  | cons n l ih =>
    by_cases known : n ∈ seen
    · obtain ⟨fresh, eq, nodup, new, all⟩ := ih queue seen
      refine ⟨fresh, ?_, nodup, fun x hx => ⟨(new x hx).1, mem_cons_of_mem _ (new x hx).2⟩, ?_⟩
      · rw [← eq, enqueue, if_pos known]
      · exact forall_mem_cons.mpr ⟨Or.inl known, all⟩
    · obtain ⟨fresh, eq, nodup, new, all⟩ := ih (queue ++ [n]) (insert n seen)
      refine ⟨n :: fresh, ?_, ?_, ?_, ?_⟩
      · rw [enqueue, if_neg known, eq]
        simp
      · exact nodup_cons.mpr ⟨fun hn => (new n hn).1 (Finset.mem_insert_self n seen), nodup⟩
      · refine forall_mem_cons.mpr ⟨⟨known, mem_cons_self ..⟩, fun x hx => ?_⟩
        obtain ⟨apart, mem⟩ := new x hx
        exact ⟨fun h => apart (Finset.mem_insert_of_mem h), mem_cons_of_mem _ mem⟩
      · refine forall_mem_cons.mpr ⟨Or.inr mem_cons_self, fun x hx => ?_⟩
        rcases all x hx with h | h
        · rcases Finset.mem_insert.mp h with rfl | h
          · exact Or.inr mem_cons_self
          · exact Or.inl h
        · exact Or.inr (mem_cons_of_mem _ h)

/-- What a walk over a universe `U` gives: it takes the queue and everything new that it sees, and
what it has taken is closed. -/
structure Walked (next : α → List α) (queue : List α) (seen : Finset α)
    (out : List α × Finset α) : Prop where
  seen_iff : ∀ x, x ∈ out.2 ↔ x ∈ seen ∨ x ∈ out.1
  queue_taken : ∀ x ∈ queue, x ∈ out.1
  reached : ∀ x ∈ out.1, From next queue x
  closed : ∀ x ∈ out.1, ∀ y ∈ next x, y ∈ out.2

theorem walk_spec {U : Finset α} (closed : ∀ x ∈ U, ∀ y ∈ next x, y ∈ U) {rounds : Nat}
    {queue : List α} {seen : Finset α} (inside : ∀ x ∈ queue, x ∈ U)
    (queued : ∀ x ∈ queue, x ∈ seen) (enough : (U \ seen).card + queue.length ≤ rounds) :
    Walked next queue seen (walk next rounds queue seen) := by
  induction rounds generalizing queue seen with
  | zero =>
    have empty : queue = [] := eq_nil_of_length_eq_zero (by omega)
    subst empty
    exact ⟨by simp [walk], by simp, by simp [walk], by simp [walk]⟩
  | succ rounds ih =>
    cases queue with
    | nil => exact ⟨by simp [walk], by simp, by simp [walk], by simp [walk]⟩
    | cons cur queue =>
      obtain ⟨fresh, eq, nodup, new, all⟩ := enqueue_spec queue seen (next cur)
      have cur_in : cur ∈ U := inside cur mem_cons_self
      have fresh_in : ∀ x ∈ fresh, x ∈ U := fun x hx => closed cur cur_in x (new x hx).2
      have inside' : ∀ x ∈ queue ++ fresh, x ∈ U :=
        forall_mem_append.mpr ⟨(forall_mem_cons.mp inside).2, fresh_in⟩
      have queued' : ∀ x ∈ queue ++ fresh, x ∈ seen ∪ fresh.toFinset :=
        forall_mem_append.mpr
          ⟨fun x hx => Finset.mem_union_left _ (queued x (mem_cons_of_mem _ hx)),
            fun x hx => Finset.mem_union_right _ (mem_toFinset.mpr hx)⟩
      have smaller : (U \ (seen ∪ fresh.toFinset)).card + fresh.length = (U \ seen).card := by
        have sub : fresh.toFinset ⊆ U \ seen := fun x hx =>
          have hf := mem_toFinset.mp hx
          Finset.mem_sdiff.mpr ⟨fresh_in x hf, (new x hf).1⟩
        rw [← Finset.sup_eq_union, ← sdiff_sdiff_left, ← toFinset_card_of_nodup nodup,
          Finset.card_sdiff_add_card_eq_card sub]
      obtain ⟨seen_iff, taken, reached, closed'⟩ := ih inside' queued' (by
        rw [length_append]
        rw [length_cons] at enough
        omega)
      have unfold : walk next (rounds + 1) (cur :: queue) seen =
          (cur :: (walk next rounds (queue ++ fresh) (seen ∪ fresh.toFinset)).1,
            (walk next rounds (queue ++ fresh) (seen ∪ fresh.toFinset)).2) := by
        rw [walk, eq]
      rw [unfold]
      refine ⟨?_, ?_, ?_, ?_⟩
      · intro x
        rw [seen_iff x, Finset.mem_union, mem_toFinset, mem_cons, or_assoc]
        constructor
        · rintro (h | h | h)
          · exact Or.inl h
          · exact Or.inr (Or.inr (taken x (mem_append_right _ h)))
          · exact Or.inr (Or.inr h)
        · rintro (h | rfl | h)
          · exact Or.inl h
          · exact Or.inl (queued x mem_cons_self)
          · exact Or.inr (Or.inr h)
      · exact forall_mem_cons.mpr
          ⟨mem_cons_self .., fun x hx => mem_cons_of_mem _ (taken x (mem_append_left _ hx))⟩
      · refine forall_mem_cons.mpr ⟨⟨cur, mem_cons_self .., ReflTransGen.refl⟩, fun x hx => ?_⟩
        obtain ⟨a, ha, path⟩ := reached x hx
        rcases mem_append.mp ha with ha | ha
        · exact ⟨a, mem_cons_of_mem _ ha, path⟩
        · exact ⟨cur, mem_cons_self .., ReflTransGen.head (new a ha).2 path⟩
      · refine forall_mem_cons.mpr ⟨fun y hy => ?_, closed'⟩
        rw [seen_iff y, Finset.mem_union, mem_toFinset]
        exact Or.inl (all y hy)

/-- A walk with enough rounds meets what can be reached from its seeds. -/
theorem mem_walk {U : Finset α} (closed : ∀ x ∈ U, ∀ y ∈ next x, y ∈ U) {rounds : Nat}
    {seeds : List α} (inside : ∀ x ∈ seeds, x ∈ U) (enough : U.card ≤ rounds)
    (nodup : seeds.Nodup) (x : α) :
    x ∈ (walk next rounds seeds seeds.toFinset).2 ↔ From next seeds x := by
  have sub : seeds.toFinset ⊆ U := fun x hx => inside x (mem_toFinset.mp hx)
  have enough' : (U \ seeds.toFinset).card + seeds.length ≤ rounds := by
    have := Finset.card_le_card sub
    rw [toFinset_card_of_nodup nodup] at this
    rw [Finset.card_sdiff_of_subset sub, toFinset_card_of_nodup nodup]
    omega
  have walked := walk_spec closed inside (fun x hx => mem_toFinset.mpr hx) enough'
  have taken (y : α) : y ∈ (walk next rounds seeds seeds.toFinset).2 ↔
      y ∈ (walk next rounds seeds seeds.toFinset).1 := by
    rw [walked.seen_iff y, mem_toFinset]
    exact ⟨fun h => h.elim (walked.queue_taken y) id, Or.inr⟩
  constructor
  · intro hx
    exact walked.reached x ((taken x).mp hx)
  · rintro ⟨a, ha, path⟩
    induction path with
    | refl => exact (taken a).mpr (walked.queue_taken a ha)
    | tail _ step ih => exact walked.closed _ ((taken _).mp ih) _ step

end Rbitcoin.Reach
