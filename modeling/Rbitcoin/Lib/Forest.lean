import Rbitcoin.Lib.Diagram

/-! Where the elements that depend on one element form a chain, settling by rate is optimal. Each
group then hangs together under its last element, and no part of a group that could come first has
a higher rate than the group. -/

namespace Rbitcoin.Diagram.Weighing

open Settle List

variable {α K : Type*} [Field K] [LinearOrder K] [IsStrictOrderedRing K] {W : Weighing α K}

variable (R : α → α → Prop)

def ClosedIn (l : List α) (C : α → Bool) : Prop :=
  ∀ a ∈ l, C a → ∀ b ∈ l, R b a → C b

/-- Everything in the list is `top` or something that `top` depends on. -/
def Under (l : List α) (top : α) : Prop := ∀ b ∈ l, b = top ∨ R b top

variable (W) in
/-- No part of the group that could come first has a higher rate. -/
def Solid (g : List α) : Prop :=
  ∀ C, ClosedIn R g C → ∀ c, W.value c g ≤ 0 → W.value c (g.filter C) ≤ 0

variable {R : α → α → Prop}

theorem ClosedIn.sub {l l' : List α} {C : α → Bool} (h : ClosedIn R l C) (sub : l' ⊆ l) :
    ClosedIn R l' C := fun a ha in_C b hb dep => h a (sub ha) in_C b (sub hb) dep

omit [IsStrictOrderedRing K] in
theorem solid_of_under {g : List α} {top : α} (under : Under R g top) (in_g : top ∈ g)
    (without : ∀ C, ClosedIn R g C → C top = false → ∀ c, W.value c g ≤ 0 →
      W.value c (g.filter C) ≤ 0) : W.Solid R g := by
  intro C closed c hc
  cases with_top : C top with
  | false => exact without C closed with_top c hc
  | true =>
    have all : g.filter C = g := by
      rw [filter_eq_self]
      intro b hb
      rcases under b hb with rfl | dep
      · exact with_top
      · exact closed top in_g with_top b hb dep
    rw [all]
    exact hc

theorem Solid.value_le {g : List α} (solid : W.Solid R g) (hg : g ≠ []) {C : α → Bool}
    (closed : ClosedIn R g C) (c : K) : W.value c (g.filter C) ≤ max (W.value c g) 0 := by
  by_cases none : g.filter C = []
  · rw [none, value_nil]
    exact le_max_right _ _
  · have rate_le := solid C closed (W.rate g) ((value_nonpos_iff hg).mpr le_rfl)
    rw [value_nonpos_iff none] at rate_le
    exact value_le_of_rate_le none hg rate_le (W.sizes_le_of_sublist filter_sublist) c

section Settle

variable (trans : ∀ a b c, R a b → R b c → R a c)
  (chain : ∀ u x y, R u x → R u y → x = y ∨ R x y ∨ R y x)
  {dep : List α → List α → Bool} (touch : ∀ cur g, dep cur g = true → ∃ b ∈ g, ∃ a ∈ cur, R b a)
include trans chain touch

theorem under_takeIn {cur g : List α} {x s : α} (under : Under R cur x) (in_cur : x ∈ cur)
    (under_g : Under R g s) (in_g : s ∈ g) (nodup : (g ++ cur).Nodup)
    (order : Topological R (g ++ cur)) (depends : dep cur g = true) :
    Under R (takeIn cur g) x := by
  obtain ⟨u, hu, z, hz, hdep⟩ := touch cur g depends
  have u_x : R u x := by
    rcases under z hz with rfl | z_x
    · exact hdep
    · exact trans u z x hdep z_x
  have s_x : R s x := by
    rcases under_g u hu with rfl | u_s
    · exact u_x
    · rcases chain u s x u_s u_x with rfl | s_x | x_s
      · exact absurd rfl ((nodup_append.mp nodup).2.2 s in_g s in_cur)
      · exact s_x
      · exact absurd x_s ((pairwise_append.mp order).2.2 s in_g x in_cur)
  intro b hb
  rcases mem_append.mp hb with hb | hb
  · rcases under_g b hb with rfl | b_s
    · exact Or.inr s_x
    · exact Or.inr (trans b s x b_s s_x)
  · exact under b hb

/-- The loop keeps that a part of the moving group without its last element has no higher rate than
the groups it has not passed yet. -/
theorem settle_solid {gs : List (List α)} (solid : ∀ g ∈ gs, W.Solid R g ∧ ∃ s ∈ g, Under R g s)
    (desc : W.Descending gs) {cur : List α} {x : α} (under : Under R cur x) (in_cur : x ∈ cur)
    (nodup : (flat id gs ++ cur).Nodup) (order : Topological R (flat id gs ++ cur))
    (own : ∀ C, ClosedIn R cur C → C x = false → ∀ c, W.value c cur ≤ 0 →
      W.value c (cur.filter C) ≤ 0)
    (low : ∀ C, ClosedIn R cur C → C x = false → ∀ h ∈ gs, ∀ c, W.value c h ≤ 0 →
      W.value c (cur.filter C) ≤ 0) :
    ∀ g ∈ settle W.higher dep takeIn cur gs, W.Solid R g ∧ ∃ s ∈ g, Under R g s := by
  induction gs generalizing cur with
  | nil =>
    intro g hg
    rw [settle, mem_singleton] at hg
    exact hg ▸ ⟨solid_of_under under in_cur own, x, in_cur, under⟩
  | cons g gs ih =>
    obtain ⟨lowest, desc⟩ := pairwise_cons.mp desc
    obtain ⟨solid_g, s, in_g, under_g⟩ := solid g mem_cons_self
    have solid_tail := fun h (hh : h ∈ gs) => solid h (mem_cons_of_mem _ hh)
    have hg : g ≠ [] := ne_nil_of_mem in_g
    have hcur : cur ≠ [] := ne_nil_of_mem in_cur
    rw [flat_cons, append_assoc] at nodup order
    rw [settle]
    split_ifs with hi depends
    · rw [higher_iff hcur hg] at hi
      -- Where `g` is worth nothing neither part of a part that leaves out `x` is worth anything.
      have parts : ∀ C, ClosedIn R (takeIn cur g) C → C x = false → ∀ c, W.value c g ≤ 0 →
          W.value c ((takeIn cur g).filter C) ≤ 0 := by
        intro C closed without c hc
        rw [takeIn, filter_append, value_append]
        have left := solid_g C (closed.sub (subset_append_left _ _)) c hc
        have right := low C (closed.sub (subset_append_right _ _)) without g mem_cons_self c hc
        linarith
      refine ih solid_tail desc
        (under_takeIn trans chain touch under in_cur under_g in_g
          (nodup.sublist (sublist_append_right _ _))
          (order.sublist (sublist_append_right _ _)) depends)
        (mem_append_right _ in_cur) nodup order ?_ ?_
      · intro C closed without c hc
        refine parts C closed without c ?_
        rw [value_nonpos_iff (by simp [takeIn, hcur])] at hc
        exact (value_nonpos_iff hg).mpr ((le_rate_append hg hcur le_rfl hi.le).trans hc)
      · intro C closed without h hh c hc
        refine parts C closed without c ?_
        have hne : h ≠ [] := by
          obtain ⟨_, s', in_h, _⟩ := solid_tail h hh
          exact ne_nil_of_mem in_h
        rw [value_nonpos_iff hne] at hc
        exact (value_nonpos_iff hg).mpr ((lowest h hh).trans hc)
    · have skip : (flat id gs ++ cur).Sublist (flat id gs ++ (id g ++ cur)) :=
        (sublist_append_right _ _).append_left _
      have rest := ih solid_tail desc under in_cur (nodup.sublist skip) (order.sublist skip) own
        fun C closed without h hh => low C closed without h (mem_cons_of_mem _ hh)
      intro h hh
      rcases mem_cons.mp hh with rfl | hh
      · exact solid h mem_cons_self
      · exact rest h hh
    · exact forall_mem_cons.mpr ⟨⟨solid_of_under under in_cur own, x, in_cur, under⟩, solid⟩

variable (free : ∀ cur g, dep cur g = false → ∀ b ∈ g, ∀ a ∈ cur, ¬R b a)
include free

theorem settleByRate_solid {l : List α} (nodup : l.Nodup) (order : Topological R l) :
    ∀ g ∈ W.settleByRate dep l, W.Solid R g ∧ ∃ s ∈ g, Under R g s := by
  induction l using reverseRecOn with
  | nil => exact fun g hg => absurd hg not_mem_nil
  | append_singleton l x ih =>
    have perm := settleByRate_perm (W := W) dep l
    obtain ⟨order_l, _, across⟩ := pairwise_append.mp order
    have order_flat : Topological R (flat id (W.settleByRate dep l)) :=
      settleAll_topological (p := fun _ => True) (fun _ _ => rfl) (fun _ _ _ _ => trivial)
        (fun cur g _ _ => free cur g) (fun _ _ => trivial)
        (by simpa [flatMap_map] using order_l)
    -- A part of a single element without it is empty.
    have nothing : ∀ C : α → Bool, C x = false → ∀ c, W.value c ([x].filter C) ≤ 0 := by
      intro C without c
      simp [without]
    rw [settleByRate_concat]
    refine settle_solid trans chain touch (ih (nodup.sublist (sublist_append_left _ _)) order_l)
      (settleByRate_groups dep l).2 (x := x) ?_ (mem_singleton.mpr rfl)
      ((perm.append_right [x]).nodup_iff.mpr nodup) ?_ ?_ ?_
    · exact fun b hb => Or.inl (mem_singleton.mp hb)
    · refine pairwise_append.mpr ⟨order_flat, pairwise_singleton _ _, ?_⟩
      exact fun b hb a ha => across b (perm.mem_iff.mp hb) a ha
    · exact fun C _ without c _ => nothing C without c
    · exact fun C _ without _ _ c _ => nothing C without c

theorem dominated_of_chain [DecidableEq α] {l l' : List α}
    (nodup : l.Nodup) (order : Topological R l) (perm : l'.Perm l) (order' : Topological R l') :
    W.Dominated l' (flat id (W.settleByRate dep l)) := by
  obtain ⟨nonempty, desc⟩ := settleByRate_groups (W := W) dep l
  have solid := settleByRate_solid (W := W) trans chain touch free nodup order
  refine dominated_flat nonempty desc ?_
  intro c p ⟨r, split⟩
  have nodup' : (p ++ r).Nodup := split ▸ perm.nodup_iff.mpr nodup
  -- A prefix is closed, and is what it contains of all the groups.
  let C : α → Bool := fun a => decide (a ∈ p)
  have closed : ClosedIn R l C := by
    intro a ha in_p b hb dep
    rw [← perm.mem_iff, ← split, mem_append] at hb
    rcases hb with hb | hb
    · exact decide_eq_true hb
    · rw [← split] at order'
      exact absurd dep ((pairwise_append.mp order').2.2 a (of_decide_eq_true in_p) b hb)
  have part : (p ++ r).filter C = p := by
    rw [filter_append, filter_eq_self.mpr fun a ha => decide_eq_true ha,
      filter_eq_nil_iff.mpr, append_nil]
    intro a ha in_p
    exact (nodup_append.mp nodup').2.2 a (of_decide_eq_true in_p) a ha rfl
  have split_groups : ∀ gs : List (List α), (∀ g ∈ gs, g ≠ [] ∧ W.Solid R g ∧ ClosedIn R g C) →
      W.value c ((flat id gs).filter C) ≤ W.gain c gs := by
    intro gs
    induction gs with
    | nil => simp
    | cons g gs ih =>
      intro all
      obtain ⟨hg, solid, closed⟩ := all g mem_cons_self
      rw [flat_cons, filter_append, value_append, add_comm]
      exact add_le_add (solid.value_le hg closed c) (ih (forall_mem_cons.mp all).2)
  have perm_flat := settleByRate_perm (W := W) dep l
  have perm_p : p.Perm ((flat id (W.settleByRate dep l)).filter C) := by
    have := (perm.trans perm_flat.symm).filter C
    rwa [← split, part] at this
  rw [W.value_perm c perm_p]
  apply split_groups
  intro g hg
  refine ⟨nonempty g hg, (solid g hg).1, closed.sub ?_⟩
  intro a ha
  rw [← perm_flat.mem_iff, flat, mem_flatMap]
  exact ⟨g, mem_reverse.mpr hg, ha⟩

end Settle

end Rbitcoin.Diagram.Weighing
