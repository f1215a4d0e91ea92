import Mathlib.Data.List.Perm.Basic

/-! Groups that settle one after the other: a new group moves towards the front past the groups it
ranks above, and takes in those it depends on. Whatever the ranking is, no element gets in front of
one that it depends on. Lists of groups have the latest group at the head. -/

namespace Rbitcoin.Settle

open List

section Settle

variable {β : Type*} (hi dep : β → β → Bool) (absorb : β → β → β)

/-- Put a group behind the groups that are there. -/
def settle : β → List β → List β
  | cur, [] => [cur]
  | cur, g :: gs =>
    if hi cur g then
      if dep cur g then settle (absorb cur g) gs else g :: settle cur gs
    else cur :: g :: gs

def settleAll (l : List β) : List β := l.foldl (fun gs cur => settle hi dep absorb cur gs) []

/-- A property of groups that follows from what the loop keeps of the moving group and the groups
before it. -/
theorem settle_forall_of_inv {p : β → Prop} {inv : β → List β → Prop}
    (tail : ∀ cur g gs, inv cur (g :: gs) → inv cur gs)
    (join : ∀ cur g gs, inv cur (g :: gs) → inv (absorb cur g) gs)
    (of_inv : ∀ cur gs, inv cur gs → p cur ∧ ∀ g ∈ gs, p g) {cur : β} {gs : List β}
    (h : inv cur gs) : ∀ g ∈ settle hi dep absorb cur gs, p g := by
  induction gs generalizing cur with
  | nil =>
    intro g hg
    rw [settle, mem_singleton] at hg
    exact hg ▸ (of_inv cur [] h).1
  | cons k gs ih =>
    obtain ⟨at_cur, at_gs⟩ := of_inv cur (k :: gs) h
    rw [settle]
    split_ifs with higher depends
    · exact ih (join cur k gs h)
    · intro g hg
      rcases mem_cons.mp hg with rfl | hg
      · exact at_gs g mem_cons_self
      · exact ih (tail cur k gs h) g hg
    · exact forall_mem_cons.mpr ⟨at_cur, at_gs⟩

theorem settle_forall {p : β → Prop} (keeps : ∀ cur g, p cur → p g → p (absorb cur g)) {cur : β}
    {gs : List β} (at_cur : p cur) (at_gs : ∀ g ∈ gs, p g) :
    ∀ g ∈ settle hi dep absorb cur gs, p g := by
  let inv (cur : β) (gs : List β) : Prop := p cur ∧ ∀ g ∈ gs, p g
  have start : inv cur gs := ⟨at_cur, at_gs⟩
  refine settle_forall_of_inv hi dep absorb ?_ ?_ ?_ start
  · exact fun cur g gs h => ⟨h.1, (forall_mem_cons.mp h.2).2⟩
  · exact fun cur g gs h =>
      ⟨keeps cur g h.1 (h.2 g mem_cons_self), (forall_mem_cons.mp h.2).2⟩
  · exact fun cur gs h => h

theorem settleAll_forall {p : β → Prop} (keeps : ∀ cur g, p cur → p g → p (absorb cur g))
    {l : List β} (at_l : ∀ g ∈ l, p g) : ∀ g ∈ settleAll hi dep absorb l, p g := by
  suffices all : ∀ gs, (∀ g ∈ gs, p g) →
      ∀ g ∈ l.foldl (fun gs cur => settle hi dep absorb cur gs) gs, p g by
    exact all [] (forall_mem_nil p)
  induction l with
  | nil => exact fun gs at_gs => at_gs
  | cons x l ih =>
    obtain ⟨at_x, at_l⟩ := forall_mem_cons.mp at_l
    exact fun gs at_gs => ih at_l _ (settle_forall hi dep absorb keeps at_x at_gs)

theorem settle_map {γ : Type*} {f : β → γ} {hi' dep' : γ → γ → Bool} {absorb' : γ → γ → γ}
    {inv : β → List β → Prop} (tail : ∀ cur g gs, inv cur (g :: gs) → inv cur gs)
    (join : ∀ cur g gs, inv cur (g :: gs) → inv (absorb cur g) gs)
    (same : ∀ cur g gs, inv cur (g :: gs) → hi' (f cur) (f g) = hi cur g ∧
      dep' (f cur) (f g) = dep cur g ∧ absorb' (f cur) (f g) = f (absorb cur g))
    {cur : β} {gs : List β} (h : inv cur gs) :
    settle hi' dep' absorb' (f cur) (gs.map f) = (settle hi dep absorb cur gs).map f := by
  induction gs generalizing cur with
  | nil => rfl
  | cons g gs ih =>
    obtain ⟨same_hi, same_dep, same_absorb⟩ := same cur g gs h
    rw [map_cons, settle, settle, same_hi, same_dep, same_absorb]
    split_ifs
    · exact ih (join cur g gs h)
    · rw [map_cons, ih (tail cur g gs h)]
    · rfl

end Settle

section Order

variable {α : Type*} (R : α → α → Prop)

/-- Nothing comes after an element that depends on it. -/
abbrev Topological (l : List α) : Prop := l.Pairwise fun a b => ¬R b a

theorem Topological.reverse {R : α → α → Prop} {l : List α} (h : Topological R l) :
    Topological (fun a b => R b a) l.reverse := by
  rw [Topological, pairwise_reverse]
  exact h

theorem Topological.idxOf_lt [DecidableEq α] {R : α → α → Prop} {l : List α} (h : Topological R l)
    {a b : α} (irrefl : ∀ a, ¬R a a) (ha : a ∈ l) (hb : b ∈ l) (dep : R a b) :
    l.idxOf a < l.idxOf b := by
  have ia := idxOf_lt_length_of_mem ha
  have ib := idxOf_lt_length_of_mem hb
  rcases Nat.lt_trichotomy (l.idxOf a) (l.idxOf b) with lt | eq | gt
  · exact lt
  · have same : a = b := (idxOf_inj ha).mp eq
    exact absurd (same ▸ dep) (irrefl b)
  · have := pairwise_iff_getElem.mp h _ _ ib ia gt
    rw [getElem_idxOf, getElem_idxOf] at this
    exact absurd dep this

end Order

section Flat

variable {α β : Type*} (txs : β → List α)

/-- The elements of the groups from the first group on. -/
def flat (gs : List β) : List α := gs.reverse.flatMap txs

@[simp] theorem flat_nil : flat txs [] = [] := rfl

@[simp] theorem flat_cons (g : β) (gs : List β) : flat txs (g :: gs) = flat txs gs ++ txs g := by
  simp [flat]

variable {txs} {hi dep : β → β → Bool} {absorb : β → β → β}
  (takes : ∀ cur g, txs (absorb cur g) = txs g ++ txs cur)
include takes

theorem settle_perm (cur : β) (gs : List β) :
    (flat txs (settle hi dep absorb cur gs)).Perm (flat txs gs ++ txs cur) := by
  induction gs generalizing cur with
  | nil => simp [settle]
  | cons g gs ih =>
    rw [settle, flat_cons]
    split_ifs with higher depends
    · have joined := ih (absorb cur g)
      rwa [takes, ← append_assoc] at joined
    · rw [flat_cons]
      have moved := (ih cur).append_right (txs g)
      rw [append_assoc] at moved ⊢
      exact moved.trans (perm_append_comm.append_left _)
    · simp

variable {R : α → α → Prop} {p : β → Prop} (keeps : ∀ cur g, p cur → p g → p (absorb cur g))
  (free : ∀ cur g, p cur → p g → dep cur g = false → ∀ b ∈ txs g, ∀ a ∈ txs cur, ¬R b a)
include keeps free

theorem settle_topological {cur : β} {gs : List β} (at_cur : p cur) (at_gs : ∀ g ∈ gs, p g)
    (h : Topological R (flat txs gs ++ txs cur)) :
    Topological R (flat txs (settle hi dep absorb cur gs)) := by
  induction gs generalizing cur with
  | nil => simpa [settle] using h
  | cons g gs ih =>
    have at_g : p g := at_gs g mem_cons_self
    have at_tail : ∀ g ∈ gs, p g := (forall_mem_cons.mp at_gs).2
    rw [flat_cons] at h
    rw [settle]
    split_ifs with higher depends
    · apply ih (keeps cur g at_cur at_g) at_tail
      rwa [takes, ← append_assoc]
    · rw [flat_cons]
      obtain ⟨front, _, across⟩ := pairwise_append.mp h
      obtain ⟨front_gs, front_g, across_gs⟩ := pairwise_append.mp front
      have without : Topological R (flat txs gs ++ txs cur) :=
        h.sublist ((sublist_append_left _ _).append_right _)
      refine pairwise_append.mpr ⟨ih at_cur at_tail without, front_g, ?_⟩
      intro a ha b hb
      rw [(settle_perm takes cur gs).mem_iff, mem_append] at ha
      rcases ha with ha | ha
      · exact across_gs a ha b hb
      · exact free cur g at_cur at_g (Bool.eq_false_iff.mpr depends) b hb a ha
    · simpa using h

omit keeps free in
theorem settleAll_perm (l : List β) :
    (flat txs (settleAll hi dep absorb l)).Perm (l.flatMap txs) := by
  suffices all : ∀ gs, (flat txs (l.foldl (fun gs cur => settle hi dep absorb cur gs) gs)).Perm
      (flat txs gs ++ l.flatMap txs) by simpa [settleAll] using all []
  induction l with
  | nil => simp
  | cons x l ih =>
    intro gs
    refine (ih _).trans ?_
    rw [flatMap_cons, ← append_assoc]
    exact (settle_perm takes x gs).append_right _

theorem settleAll_topological {l : List β} (at_l : ∀ g ∈ l, p g)
    (h : Topological R (l.flatMap txs)) :
    Topological R (flat txs (settleAll hi dep absorb l)) := by
  suffices all : ∀ gs, (∀ g ∈ gs, p g) → Topological R (flat txs gs ++ l.flatMap txs) →
      Topological R (flat txs (l.foldl (fun gs cur => settle hi dep absorb cur gs) gs)) by
    exact all [] (by simp) (by simpa using h)
  clear h
  induction l with
  | nil =>
    simp
  | cons x l ih =>
    intro gs at_gs h
    have at_x : p x := at_l x mem_cons_self
    rw [flatMap_cons, ← append_assoc] at h
    obtain ⟨front, back, across⟩ := pairwise_append.mp h
    have settled : Topological R (flat txs (settle hi dep absorb x gs)) :=
      settle_topological takes keeps free at_x at_gs front
    refine ih (forall_mem_cons.mp at_l).2 _ (settle_forall hi dep absorb keeps at_x at_gs)
      (pairwise_append.mpr ⟨settled, back, ?_⟩)
    intro a ha b hb
    exact across a ((settle_perm takes x gs).mem_iff.mp ha) b hb

end Flat

end Rbitcoin.Settle
