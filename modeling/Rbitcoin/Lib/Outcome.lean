import Mathlib.Tactic.Common

/-! Fallible steps: acceptance of an `Except` computation, a guard that fails with an error, and
the rules that take an accepted sequence of steps apart. -/

namespace Rbitcoin.Outcome

variable {ε α β : Type}

def Accepts (x : Except ε α) : Prop := ∃ a, x = .ok a

instance (x : Except ε α) : Decidable (Accepts x) :=
  match x with
  | .ok a => isTrue ⟨a, rfl⟩
  | .error _ => isFalse (by rintro ⟨_, h⟩; cases h)

@[simp] theorem accepts_ok (a : α) : Accepts (.ok a : Except ε α) := ⟨a, rfl⟩

@[simp] theorem not_accepts_error (e : ε) : ¬Accepts (.error e : Except ε α) := by
  rintro ⟨_, h⟩
  cases h

/-- Fail with `e` when `bad` holds. -/
def rejectIf (bad : Prop) [Decidable bad] (e : ε) : Except ε Unit :=
  if bad then .error e else .ok ()

variable {f : α → Except ε β} {x : Except ε α} {bad : Prop} {e : ε} {l : List α}

theorem bind_eq_ok {b : β} : (x >>= f) = .ok b ↔ ∃ a, x = .ok a ∧ f a = .ok b := by
  cases x with
  | error e => exact ⟨nofun, nofun⟩
  | ok a =>
    constructor
    · exact fun h => ⟨a, rfl, h⟩
    · rintro ⟨_, h, hf⟩
      cases h
      exact hf

theorem map_eq_ok {g : α → β} {b : β} : g <$> x = .ok b ↔ ∃ a, x = .ok a ∧ g a = b := by
  cases x with
  | error e => exact ⟨nofun, nofun⟩
  | ok a =>
    constructor
    · exact fun h => ⟨a, rfl, Except.ok.inj h⟩
    · rintro ⟨_, h, rfl⟩
      cases h
      rfl

@[simp] theorem ok_bind (a : α) (f : α → Except ε β) : ((.ok a : Except ε α) >>= f) = f a := rfl

@[simp] theorem error_bind (e : ε) (f : α → Except ε β) :
    ((.error e : Except ε α) >>= f) = .error e := rfl

theorem bind_congr_ok {g : α → Except ε β} (h : ∀ a, x = .ok a → f a = g a) :
    (x >>= f) = x >>= g := by
  cases x with
  | error e => rfl
  | ok a => exact h a rfl

theorem accepts_bind : Accepts (x >>= f) ↔ ∃ a, x = .ok a ∧ Accepts (f a) := by
  simp only [Accepts, bind_eq_ok]
  exact ⟨fun ⟨b, a, h⟩ => ⟨a, h.1, b, h.2⟩, fun ⟨a, h, b, hb⟩ => ⟨b, a, h, hb⟩⟩

@[simp] theorem rejectIf_eq_ok [Decidable bad] {u : Unit} : rejectIf bad e = .ok u ↔ ¬bad := by
  by_cases h : bad <;> simp [rejectIf]

@[simp] theorem accepts_rejectIf [Decidable bad] : Accepts (rejectIf bad e) ↔ ¬bad := by
  by_cases h : bad <;> simp [rejectIf, h]

@[simp] theorem accepts_rejectIf_bind [Decidable bad] {f : Unit → Except ε β} :
    Accepts (rejectIf bad e >>= f) ↔ ¬bad ∧ Accepts (f ()) := by
  by_cases h : bad <;> simp [rejectIf, h]

theorem rejectIf_pos [Decidable bad] (h : bad) (e : ε) : rejectIf bad e = .error e := if_pos h

theorem rejectIf_neg [Decidable bad] (h : ¬bad) (e : ε) : rejectIf bad e = .ok () := if_neg h

/-- A result of one kind or an error of another. -/
def Ends (P : α → Prop) (Q : ε → Prop) : Except ε α → Prop
  | .ok a => P a
  | .error e => Q e

section

variable {P : α → Prop} {Q : ε → Prop}

theorem Ends.bind {P' : β → Prop} (first : Ends P Q x) (next : ∀ a, P a → Ends P' Q (f a)) :
    Ends P' Q (x >>= f) := by
  cases x with
  | error e => exact first
  | ok a => exact next a first

theorem Ends.ok (ends : Ends P (fun _ => False) x) : ∃ a, x = .ok a ∧ P a := by
  cases x with
  | error e => exact ends.elim
  | ok a => exact ⟨a, rfl, ends⟩

end

theorem mapM_ok {g : α → β} (h : ∀ a ∈ l, f a = .ok (g a)) : l.mapM f = .ok (l.map g) := by
  induction l with
  | nil => rfl
  | cons a l ih =>
    rw [List.mapM_cons, h a List.mem_cons_self, ih fun b hb => h b (List.mem_cons_of_mem _ hb)]
    rfl

theorem mapM_forall₂ {R : α → β → Prop} (h : ∀ a ∈ l, ∃ b, f a = .ok b ∧ R a b) :
    ∃ bs, l.mapM f = .ok bs ∧ List.Forall₂ R l bs := by
  induction l with
  | nil => exact ⟨[], rfl, .nil⟩
  | cons a l ih =>
    obtain ⟨b, one, good⟩ := h a List.mem_cons_self
    obtain ⟨bs, rest, all⟩ := ih fun c hc => h c (List.mem_cons_of_mem _ hc)
    refine ⟨b :: bs, ?_, .cons good all⟩
    rw [List.mapM_cons, one, rest]
    rfl

end Rbitcoin.Outcome
