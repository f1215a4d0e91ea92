import Mathlib.Algebra.Order.BigOperators.Group.Finset

/-! Connected components of a graph given by a relation, and bounds on their size that survive the
loss of vertices and edges, and a new vertex when what it touches is small enough. -/

namespace Rbitcoin.Component

open Relation Finset

variable {α : Type}

/-- There is a path along edges, in either direction. -/
def Joined (edge : α → α → Prop) : α → α → Prop := ReflTransGen fun a b => edge a b ∨ edge b a

variable {edge edge' : α → α → Prop} {a b c v : α}

theorem Joined.symm (joined : Joined edge a b) : Joined edge b a := by
  induction joined with
  | refl => exact .refl
  | tail _ step ih => exact .head step.symm ih

theorem Joined.trans (first : Joined edge a b) (second : Joined edge b c) : Joined edge a c :=
  ReflTransGen.trans first second

theorem Joined.mono (sub : ∀ a b, edge' a b → edge a b) (joined : Joined edge' a b) :
    Joined edge a b :=
  ReflTransGen.mono (fun a b => Or.imp (sub a b) (sub b a)) _ _ joined

section NewVertex

variable {near : α → Prop} (old : ∀ a b, a ≠ v → b ≠ v → edge' a b → edge a b)
  (touches : ∀ b, b ≠ v → edge' v b ∨ edge' b v → near b)
include old

include touches in
theorem Joined.of_new (joined : Joined edge' v b) : b = v ∨ ∃ n, near n ∧ Joined edge n b := by
  induction joined with
  | refl => exact Or.inl rfl
  | @tail b c _ step ih =>
    by_cases end' : c = v
    · exact Or.inl end'
    · right
      rcases ih with rfl | ⟨n, close, path⟩
      · exact ⟨c, touches c end' step, .refl⟩
      · by_cases start : b = v
        · exact ⟨c, touches c end' (start ▸ step), .refl⟩
        · exact ⟨n, close, path.tail (step.imp (old b c start end') (old c b end' start))⟩

theorem Joined.avoid (other : a ≠ v) (joined : Joined edge' a b) :
    b ≠ v ∧ Joined edge a b ∨ Joined edge' a v := by
  induction joined with
  | refl => exact Or.inl ⟨other, .refl⟩
  | @tail b c path step ih =>
    rcases ih with ⟨start, before⟩ | meets
    · by_cases end' : c = v
      · exact Or.inr (end' ▸ path.tail step)
      · exact Or.inl ⟨end', before.tail (step.imp (old b c start end') (old c b end' start))⟩
    · exact Or.inr meets

end NewVertex

open Classical in
noncomputable def component (edge : α → α → Prop) (U : Finset α) (a : α) : Finset α :=
  U.filter (Joined edge a)

open Classical in
theorem mem_component {U : Finset α} : b ∈ component edge U a ↔ b ∈ U ∧ Joined edge a b := by
  unfold component
  exact mem_filter

/-- Every component has at most `count` vertices, of weight at most `size` together. -/
def Within (edge : α → α → Prop) (U : Finset α) (weight : α → Nat) (count size : Nat) : Prop :=
  ∀ a ∈ U, (component edge U a).card ≤ count ∧ ∑ x ∈ component edge U a, weight x ≤ size

variable {U U' : Finset α} {weight weight' : α → Nat} {count size : Nat}

theorem Within.mono (within : Within edge U weight count size) (sub : U' ⊆ U)
    (edges : ∀ a b, edge' a b → edge a b) (same : ∀ x ∈ U', weight' x = weight x) :
    Within edge' U' weight' count size := by
  intro a mem
  have smaller : component edge' U' a ⊆ component edge U a := by
    intro x hx
    obtain ⟨inside, joined⟩ := mem_component.mp hx
    exact mem_component.mpr ⟨sub inside, joined.mono edges⟩
  obtain ⟨few, light⟩ := within a (sub mem)
  refine ⟨(card_le_card smaller).trans few, ?_⟩
  calc ∑ x ∈ component edge' U' a, weight' x
      = ∑ x ∈ component edge' U' a, weight x :=
        sum_congr rfl fun x hx => same x (mem_component.mp hx).1
    _ ≤ ∑ x ∈ component edge U a, weight x := sum_le_sum_of_subset smaller
    _ ≤ size := light

theorem Within.add [DecidableEq α] (within : Within edge U weight count size) {near : α → Prop}
    (old : ∀ a b, a ≠ v → b ≠ v → edge' a b → edge a b)
    (touches : ∀ b, b ≠ v → edge' v b ∨ edge' b v → near b) (sub : U' ⊆ insert v U)
    (same : ∀ x ∈ U', x ≠ v → weight' x = weight x) {reached : Finset α}
    (reaches : ∀ n x, near n → Joined edge n x → x ∈ U' → x ∈ reached)
    (few : reached.card + 1 ≤ count) (light : ∑ x ∈ reached, weight x + weight' v ≤ size) :
    Within edge' U' weight' count size := by
  intro a mem
  by_cases meets : Joined edge' a v
  · have smaller : component edge' U' a ⊆ insert v reached := by
      intro x hx
      obtain ⟨inside, joined⟩ := mem_component.mp hx
      rcases Joined.of_new old touches (meets.symm.trans joined) with rfl | ⟨n, close, path⟩
      · exact mem_insert_self ..
      · exact mem_insert_of_mem (reaches n x close path inside)
    refine ⟨((card_le_card smaller).trans (card_insert_le ..)).trans few, ?_⟩
    have others : ∀ x ∈ (component edge' U' a).erase v, x ∈ reached ∧ weight' x = weight x := by
      intro x hx
      obtain ⟨apart, inside⟩ := mem_erase.mp hx
      exact ⟨(mem_insert.mp (smaller inside)).resolve_left apart,
        same x (mem_component.mp inside).1 apart⟩
    calc ∑ x ∈ component edge' U' a, weight' x
        ≤ ∑ x ∈ insert v ((component edge' U' a).erase v), weight' x :=
          sum_le_sum_of_subset fun x hx => by
            rw [mem_insert, mem_erase]
            exact (eq_or_ne x v).imp_right fun apart => ⟨apart, hx⟩
      _ = weight' v + ∑ x ∈ (component edge' U' a).erase v, weight x := by
          rw [sum_insert (notMem_erase v _)]
          exact congrArg _ (sum_congr rfl fun x hx => (others x hx).2)
      _ ≤ weight' v + ∑ x ∈ reached, weight x :=
          Nat.add_le_add_left (sum_le_sum_of_subset fun x hx => (others x hx).1) _
      _ ≤ size := by omega
  · have other : a ≠ v := fun same => meets (same ▸ .refl)
    have apart : ∀ x ∈ component edge' U' a, x ≠ v ∧ Joined edge a x := by
      intro x hx
      exact (Joined.avoid old other (mem_component.mp hx).2).resolve_right meets
    have inside : ∀ x ∈ U', x ≠ v → x ∈ U := fun x hx ne =>
      (mem_insert.mp (sub hx)).resolve_left ne
    have smaller : component edge' U' a ⊆ component edge U a := by
      intro x hx
      obtain ⟨ne, joined⟩ := apart x hx
      exact mem_component.mpr ⟨inside x (mem_component.mp hx).1 ne, joined⟩
    obtain ⟨few', light'⟩ := within a (inside a mem other)
    refine ⟨(card_le_card smaller).trans few', ?_⟩
    calc ∑ x ∈ component edge' U' a, weight' x
        = ∑ x ∈ component edge' U' a, weight x :=
          sum_congr rfl fun x hx => same x (mem_component.mp hx).1 (apart x hx).1
      _ ≤ ∑ x ∈ component edge U a, weight x := sum_le_sum_of_subset smaller
      _ ≤ size := light'

end Rbitcoin.Component
