import Rbitcoin.Mempool.Linearize
import Mathlib.Algebra.BigOperators.Group.List.Basic
import Mathlib.Data.Fintype.EquivFin

/-! The ancestor sets of a dependency graph are what its parents relation reaches, when that
relation has no cycle. -/

namespace Rbitcoin.Mempool.DepGraph

open Relation List

/-- `i` names `p` as a parent, and both are in the cluster. -/
def Parent (n : Nat) (parents : List (List Nat)) (p i : Nat) : Prop :=
  i < n ∧ p < n ∧ p ∈ parents.getD i []

def Acyclic (n : Nat) (parents : List (List Nat)) : Prop :=
  ∀ i, ¬TransGen (Parent n parents) i i

variable {n : Nat} {parents : List (List Nat)}

theorem mem_parentsOf (acyclic : Acyclic n parents) {p i : Nat} (hi : i < n) :
    p ∈ parentsOf n parents i ↔ Parent n parents p i := by
  rw [parentsOf, mem_filter, Bool.and_eq_true, decide_eq_true_eq, bne_iff_ne]
  constructor
  · rintro ⟨mem, lt, -⟩
    exact ⟨hi, lt, mem⟩
  · rintro ⟨-, lt, mem⟩
    refine ⟨mem, lt, ?_⟩
    rintro rfl
    exact acyclic p (TransGen.single ⟨hi, lt, mem⟩)

theorem count_childrenOf {p c : Nat} (hc : c < n) :
    (childrenOf n parents p).count c = (parentsOf n parents c).count p := by
  have each (i : Nat) : (((parentsOf n parents i).filter (· == p)).map fun _ => i).count c =
      if i = c then (parentsOf n parents c).count p else 0 := by
    rw [map_const', count_replicate, ← countP_eq_length_filter]
    simp only [beq_iff_eq]
    split_ifs with same
    · rw [same]
      rfl
    · rfl
  rw [childrenOf, count_flatMap]
  simp only [Function.comp_def, each]
  rw [sum_map_eq_nsmul_single c _ (fun i ne _ => if_neg ne), if_pos rfl,
    count_eq_one_of_mem nodup_range (mem_range.mpr hc), one_nsmul]

theorem mem_childrenOf {p c : Nat} :
    c ∈ childrenOf n parents p ↔ c < n ∧ p ∈ parentsOf n parents c := by
  simp only [childrenOf, mem_flatMap, mem_range, mem_map, mem_filter, beq_iff_eq]
  constructor
  · rintro ⟨i, hi, q, ⟨mem, rfl⟩, rfl⟩
    exact ⟨hi, mem⟩
  · rintro ⟨hc, mem⟩
    exact ⟨c, hc, p, ⟨mem, rfl⟩, rfl⟩

theorem getD_modify {α : Type} (f : α → α) (l : List α) (i j : Nat) (d : α) (h : i < l.length) :
    (l.modify i f).getD j d = if i = j then f (l.getD j d) else l.getD j d := by
  rw [getD_eq_getElem?_getD, getElem?_modify, getD_eq_getElem?_getD]
  split_ifs with same
  · subst same
    rw [getElem?_eq_getElem h]
    rfl
  · simp

section Visit

variable {p x : Nat} {w : Walk}

theorem mem_visit_ancestors (inside : x < w.ancestors.length) (c a : Nat) :
    a ∈ (visit p w x).ancestors.getD c ∅ ↔
      a ∈ w.ancestors.getD c ∅ ∨ x = c ∧ a ∈ w.ancestors.getD p ∅ := by
  have step : (visit p w x).ancestors.getD c ∅ =
      if x = c then w.ancestors.getD c ∅ ∪ w.ancestors.getD p ∅ else w.ancestors.getD c ∅ :=
    getD_modify _ _ _ _ _ inside
  rw [step]
  split_ifs with same <;> simp [same]

theorem visit_pending (inside : x < w.pending.length) (c : Nat) : (visit p w x).pending.getD c 0 =
    if x = c then w.pending.getD c 0 - 1 else w.pending.getD c 0 :=
  getD_modify _ _ _ _ _ inside

theorem mem_visit_ready (inside : x < w.pending.length) (waits : 0 < w.pending.getD x 0) (c : Nat) :
    c ∈ (visit p w x).ready ↔ c ∈ w.ready ∨ c = x ∧ w.pending.getD x 0 = 1 := by
  have at_x : (visit p w x).pending.getD x 0 = w.pending.getD x 0 - 1 :=
    (visit_pending inside x).trans (if_pos rfl)
  have pushed : (visit p w x).ready =
      if (visit p w x).pending.getD x 0 = 0 then x :: w.ready else w.ready := rfl
  rw [pushed, at_x]
  split_ifs with zero
  · rw [mem_cons, or_comm]
    refine or_congr Iff.rfl ⟨fun same => ⟨same, by omega⟩, And.left⟩
  · exact ⟨Or.inl, fun h => h.resolve_right fun h => zero (by omega)⟩

theorem nodup_visit_ready (fresh : x ∉ w.ready) (nodup : w.ready.Nodup) :
    (visit p w x).ready.Nodup := by
  show (if _ then x :: w.ready else w.ready).Nodup
  split_ifs
  · exact nodup_cons.mpr ⟨fresh, nodup⟩
  · exact nodup

end Visit

/-- The children of `p` one after the other: each takes in the ancestors of `p`, and becomes ready
where `p` was all that it was waiting for. -/
theorem visits_spec {p : Nat} {cs : List Nat} {w : Walk} (not_child : p ∉ cs)
    (inside : ∀ c ∈ cs, c < w.ancestors.length ∧ c < w.pending.length)
    (enough : ∀ c ∈ cs, cs.count c ≤ w.pending.getD c 0) (nodup : w.ready.Nodup)
    (fresh : ∀ c ∈ cs, c ∉ w.ready) :
    let w' := cs.foldl (visit p) w
    w'.ancestors.length = w.ancestors.length ∧ w'.pending.length = w.pending.length ∧
    (∀ c a, a ∈ w'.ancestors.getD c ∅ ↔
      a ∈ w.ancestors.getD c ∅ ∨ c ∈ cs ∧ a ∈ w.ancestors.getD p ∅) ∧
    (∀ c, w'.pending.getD c 0 = w.pending.getD c 0 - cs.count c) ∧
    w'.ready.Nodup ∧
    ∀ c, c ∈ w'.ready ↔ c ∈ w.ready ∨ c ∈ cs ∧ w.pending.getD c 0 = cs.count c := by
  induction cs generalizing w with
  | nil => simp [nodup]
  | cons x cs ih =>
    have x_in := inside x mem_cons_self
    have x_enough := enough x mem_cons_self
    rw [count_cons_self] at x_enough
    have pending_at (c : Nat) := visit_pending (p := p) x_in.2 c
    have ready_iff (c : Nat) := mem_visit_ready (p := p) x_in.2 (by omega) c
    have not_ready : ∀ c ∈ cs, c ∉ (visit p w x).ready := by
      intro c hc
      rw [ready_iff]
      rintro (old | ⟨rfl, one⟩)
      · exact fresh c (mem_cons_of_mem _ hc) old
      · have := count_pos_iff.mpr hc
        omega
    have still_enough : ∀ c ∈ cs, cs.count c ≤ (visit p w x).pending.getD c 0 := by
      intro c hc
      have := enough c (mem_cons_of_mem _ hc)
      rw [count_cons] at this
      rw [pending_at]
      split_ifs with same
      · subst same
        omega
      · omega
    obtain ⟨len_anc, len_pending, anc, pending, nodup', ready⟩ := ih
      (fun mem => not_child (mem_cons_of_mem _ mem))
      (by
        intro c hc
        simpa [visit] using inside c (mem_cons_of_mem _ hc))
      still_enough (nodup_visit_ready (fresh x mem_cons_self) nodup) not_ready
    refine ⟨len_anc.trans (by simp [visit]), len_pending.trans (by simp [visit]), ?_, ?_, nodup',
      ?_⟩
    · intro c a
      rw [foldl_cons, anc, mem_visit_ancestors x_in.1, mem_visit_ancestors x_in.1, mem_cons,
        eq_comm (a := c)]
      tauto
    · intro c
      rw [foldl_cons, pending, pending_at, count_cons]
      by_cases same : x = c
      · subst same
        simp
        omega
      · simp [same]
    · intro c
      rw [foldl_cons, ready, ready_iff, pending_at, count_cons, mem_cons]
      by_cases same : x = c
      · subst same
        have new : x ∉ w.ready := fresh x mem_cons_self
        by_cases again : x ∈ cs
        · simp only [again, new, if_true, beq_self_eq_true, true_and, true_or, false_or]
          omega
        · have := count_eq_zero_of_not_mem again
          simp only [again, new, if_true, beq_self_eq_true, true_and, or_false, false_or]
          omega
      · simp [same, Ne.symm same]

theorem length_filter_not_mem_insert {done : Finset Nat} {p : Nat} (new : p ∉ done) (l : List Nat) :
    (l.filter (· ∉ done)).length = (l.filter (· ∉ insert p done)).length + l.count p := by
  induction l with
  | nil => rfl
  | cons x l ih =>
    by_cases same : x = p
    · subst same
      simp [new] at ih ⊢
      omega
    · by_cases old : x ∈ done
      · simpa [old, same] using ih
      · simp [old, same] at ih ⊢
        omega

/-! ### The whole walk -/

/-- The state of the walk after the positions in `done`. -/
structure Visited (n : Nat) (parents : List (List Nat)) (w : Walk) (done : Finset Nat) : Prop where
  len_anc : w.ancestors.length = n
  len_pending : w.pending.length = n
  done_lt : ∀ c ∈ done, c < n
  closed : ∀ c ∈ done, ∀ p ∈ parentsOf n parents c, p ∈ done
  pending : ∀ c < n, w.pending.getD c 0 = ((parentsOf n parents c).filter (· ∉ done)).length
  nodup : w.ready.Nodup
  ready : ∀ c, c ∈ w.ready ↔ c < n ∧ c ∉ done ∧ w.pending.getD c 0 = 0
  anc : ∀ c < n, ∀ a, a ∈ w.ancestors.getD c ∅ ↔
    a = c ∨ ∃ p ∈ parentsOf n parents c, p ∈ done ∧ ReflTransGen (Parent n parents) a p

theorem visited_start : Visited n parents (start n parents) ∅ := by
  have pending_at : ∀ c < n, (start n parents).pending.getD c 0 =
      (parentsOf n parents c).length := by
    intro c hc
    simp [start, hc]
  refine ⟨by simp [start], by simp [start], by simp, by simp, ?_, ?_, ?_, ?_⟩
  · intro c hc
    rw [pending_at c hc]
    simp
  · exact nodup_reverse.mpr (nodup_range.filter _)
  · intro c
    show c ∈ ((range n).filter _).reverse ↔ _
    simp [start]
  · intro c hc a
    simp [start, hc]

namespace Visited

variable {w : Walk} {done : Finset Nat} (h : Visited n parents w done) (acyclic : Acyclic n parents)
include h acyclic

theorem anc_eq {c : Nat} (hc : c < n) (parents_done : ∀ p ∈ parentsOf n parents c, p ∈ done)
    (a : Nat) : a ∈ w.ancestors.getD c ∅ ↔ ReflTransGen (Parent n parents) a c := by
  rw [h.anc c hc, ReflTransGen.cases_tail_iff]
  refine or_congr eq_comm ?_
  constructor
  · rintro ⟨p, mem, -, path⟩
    exact ⟨p, path, (mem_parentsOf acyclic hc).mp mem⟩
  · rintro ⟨p, path, parent⟩
    have mem := (mem_parentsOf acyclic hc).mpr parent
    exact ⟨p, mem, parents_done p mem, path⟩

/-- A child is not done, as the done positions have their parents done. -/
theorem child_new {p c : Nat} (new : p ∉ done) (child : c ∈ childrenOf n parents p) :
    c ∉ insert p done := by
  obtain ⟨c_lt, mem⟩ := mem_childrenOf.mp child
  rw [Finset.mem_insert]
  rintro (rfl | c_done)
  · exact acyclic c (TransGen.single ((mem_parentsOf acyclic c_lt).mp mem))
  · exact new (h.closed c c_done p mem)

omit acyclic in
theorem count_le {p c : Nat} (new : p ∉ done) (child : c ∈ childrenOf n parents p) :
    (childrenOf n parents p).count c ≤ w.pending.getD c 0 := by
  obtain ⟨c_lt, -⟩ := mem_childrenOf.mp child
  rw [count_childrenOf c_lt, h.pending c c_lt, length_filter_not_mem_insert new]
  omega

omit acyclic in
theorem parents_done {p : Nat} (lt : p < n) (zero : w.pending.getD p 0 = 0) :
    ∀ q ∈ parentsOf n parents p, q ∈ done := by
  intro q hq
  have none := length_eq_zero_iff.mp ((h.pending p lt).symm.trans zero)
  simpa using filter_eq_nil_iff.mp none q hq

theorem next {p : Nat} {ready : List Nat} (top : w.ready = p :: ready) :
    Visited n parents ((childrenOf n parents p).foldl (visit p) { w with ready })
      (insert p done) := by
  obtain ⟨p_lt, p_new, p_zero⟩ := (h.ready p).mp (top ▸ mem_cons_self)
  obtain ⟨p_fresh, ready_nodup⟩ := nodup_cons.mp (top ▸ h.nodup)
  have parents_done := h.parents_done p_lt p_zero
  have child_new (c : Nat) := h.child_new acyclic (c := c) p_new
  have count_le (c : Nat) := h.count_le (c := c) p_new
  obtain ⟨len_anc, len_pending, anc, pending, nodup, ready'⟩ :=
    visits_spec (w := { w with ready }) (fun mem => child_new p mem (Finset.mem_insert_self _ _))
      (by
        intro c hc
        rw [h.len_anc, h.len_pending]
        exact ⟨(mem_childrenOf.mp hc).1, (mem_childrenOf.mp hc).1⟩)
      count_le ready_nodup
      (by
        intro c hc mem
        have zero := ((h.ready c).mp (top ▸ mem_cons_of_mem _ mem)).2.2
        have := count_le c hc
        have := count_pos_iff.mpr hc
        omega)
  have pending' : ∀ c < n, ((childrenOf n parents p).foldl (visit p) { w with ready }).pending.getD
      c 0 = ((parentsOf n parents c).filter (· ∉ insert p done)).length := by
    intro c hc
    rw [pending, count_childrenOf hc]
    rw [h.pending c hc, length_filter_not_mem_insert p_new]
    omega
  refine ⟨len_anc.trans h.len_anc, len_pending.trans h.len_pending, ?_, ?_, pending', nodup, ?_, ?_⟩
  · exact Finset.forall_mem_insert .. |>.mpr ⟨p_lt, h.done_lt⟩
  · exact Finset.forall_mem_insert .. |>.mpr
      ⟨fun q hq => Finset.mem_insert_of_mem (parents_done q hq),
        fun c hc q hq => Finset.mem_insert_of_mem (h.closed c hc q hq)⟩
  · intro c
    rw [ready', pending, Finset.mem_insert, not_or]
    show c ∈ ready ∨ _ ∧ w.pending.getD c 0 = _ ↔ _ ∧ _ ∧ w.pending.getD c 0 - _ = 0
    constructor
    · rintro (old | ⟨child, last⟩)
      · obtain ⟨c_lt, c_new, zero⟩ := (h.ready c).mp (top ▸ mem_cons_of_mem _ old)
        exact ⟨c_lt, ⟨fun same => p_fresh (same ▸ old), c_new⟩, by omega⟩
      · have c_new := child_new c child
        rw [Finset.mem_insert, not_or] at c_new
        exact ⟨(mem_childrenOf.mp child).1, c_new, by omega⟩
    · rintro ⟨c_lt, ⟨c_ne, c_new⟩, zero⟩
      by_cases child : c ∈ childrenOf n parents p
      · exact Or.inr ⟨child, by have := count_le c child; omega⟩
      · rw [count_eq_zero_of_not_mem child] at zero
        have old := (h.ready c).mpr ⟨c_lt, c_new, zero⟩
        rw [top] at old
        exact Or.inl ((mem_cons.mp old).resolve_left c_ne)
  · intro c hc a
    have known : a ∈ w.ancestors.getD p ∅ ↔ ReflTransGen (Parent n parents) a p :=
      h.anc_eq acyclic p_lt parents_done a
    rw [anc]
    rw [h.anc c hc, known, mem_childrenOf, or_assoc]
    refine or_congr Iff.rfl ?_
    constructor
    · rintro (⟨q, hq, q_done, path⟩ | ⟨⟨-, mem⟩, path⟩)
      · exact ⟨q, hq, Finset.mem_insert_of_mem q_done, path⟩
      · exact ⟨p, mem, Finset.mem_insert_self _ _, path⟩
    · rintro ⟨q, hq, q_done, path⟩
      rcases Finset.mem_insert.mp q_done with rfl | q_done
      · exact Or.inr ⟨⟨hc, hq⟩, path⟩
      · exact Or.inl ⟨q, hq, q_done, path⟩

theorem walk_end {rounds : Nat} (enough : n ≤ done.card + rounds) :
    ∃ done', Visited n parents (walk (childrenOf n parents) rounds w) done' ∧
      (walk (childrenOf n parents) rounds w).ready = [] := by
  induction rounds generalizing w done with
  | zero =>
    refine ⟨done, h, ?_⟩
    have all : done = Finset.range n := by
      apply Finset.eq_of_subset_of_card_le
      · exact fun c hc => Finset.mem_range.mpr (h.done_lt c hc)
      · rw [Finset.card_range]
        omega
    rw [walk, eq_nil_iff_forall_not_mem]
    intro c hc
    obtain ⟨c_lt, c_new, -⟩ := (h.ready c).mp hc
    exact c_new (all ▸ Finset.mem_range.mpr c_lt)
  | succ rounds ih =>
    rw [walk]
    cases top : w.ready with
    | nil => exact ⟨done, h, top⟩
    | cons p ready =>
      have p_new := ((h.ready p).mp (top ▸ mem_cons_self)).2.1
      refine ih (h.next acyclic top) ?_
      rw [Finset.card_insert_of_notMem p_new]
      omega

theorem all_done (ended : w.ready = []) : ∀ c < n, c ∈ done := by
  let below (a b : Fin n) : Prop := TransGen (Parent n parents) a b
  have : Std.Irrefl below := ⟨fun a => acyclic a⟩
  have wf : WellFounded below := Finite.wellFounded_of_trans_of_irrefl below
  intro c hc
  have all := wf.induction (C := fun c => (c : Nat) ∈ done) ⟨c, hc⟩ ?_
  · exact all
  intro c ih
  by_contra left
  have none : (parentsOf n parents c).filter (· ∉ done) = [] := by
    rw [filter_eq_nil_iff]
    intro p hp
    have parent := (mem_parentsOf acyclic c.2).mp hp
    simpa using ih ⟨p, parent.2.1⟩ (TransGen.single parent)
  have zero := h.pending c c.2
  rw [none] at zero
  have ready := (h.ready c).mpr ⟨c.2, left, zero⟩
  rw [ended] at ready
  exact not_mem_nil ready

end Visited

theorem mem_anc_new (feerate : List FeeFrac) (acyclic : Acyclic feerate.length parents) {i : Nat}
    (hi : i < feerate.length) (a : Nat) :
    a ∈ (new feerate parents).anc i ↔ ReflTransGen (Parent feerate.length parents) a i := by
  have enough : feerate.length ≤ (∅ : Finset Nat).card + feerate.length := by simp
  obtain ⟨done, visited, ended⟩ := visited_start.walk_end acyclic enough
  have all := visited.all_done acyclic ended
  refine visited.anc_eq acyclic hi ?_ a
  intro p hp
  exact all p ((mem_parentsOf acyclic hi).mp hp).2.1

end Rbitcoin.Mempool.DepGraph
