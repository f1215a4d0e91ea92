import Mathlib.Tactic.Common

/-! Loops. A turn of a loop ends it with a result or goes on to another state; a run of a number of
turns gives the result if the loop ends within them. -/

namespace Rbitcoin.Loop

variable {σ ρ : Type} (turn : σ → ρ ⊕ σ)

/-- The result of the loop from a state, if it ends within `n` turns. -/
def run : Nat → σ → Option ρ
  | 0, _ => none
  | n + 1, s =>
    match turn s with
    | .inl r => some r
    | .inr t => run n t

/-- The loop ends from a state, with a result. -/
def Ends (s : σ) (r : ρ) : Prop := ∃ n, run turn n s = some r

variable {turn} {s t : σ} {r : ρ} {n : Nat}

theorem run_of_inl (last : turn s = .inl r) : run turn (n + 1) s = some r := by
  rw [run, last]

theorem run_of_inr (next : turn s = .inr t) : run turn (n + 1) s = run turn n t := by
  rw [run, next]

/-- What all states of a run have in common with the first one: each turn keeps it, and a last turn
with it has a good result. -/
theorem run_good {inv : σ → Prop} {good : ρ → Prop} (last : ∀ s r, inv s → turn s = .inl r → good r)
    (turns : ∀ s t, inv s → turn s = .inr t → inv t) (start : inv s)
    (ends : run turn n s = some r) : good r := by
  induction n generalizing s with
  | zero => cases ends
  | succ n ih =>
    cases h : turn s with
    | inl result =>
      rw [run_of_inl h, Option.some.injEq] at ends
      exact ends ▸ last s result start h
    | inr next =>
      rw [run_of_inr h] at ends
      exact ih (turns s next start h) ends

theorem run_ends {inv : σ → Prop} {measure : σ → Nat}
    (turns : ∀ s t, inv s → turn s = .inr t → inv t ∧ measure t < measure s) (start : inv s)
    (enough : measure s < n) : ∃ r, run turn n s = some r := by
  induction n generalizing s with
  | zero => exact absurd enough (Nat.not_lt_zero _)
  | succ n ih =>
    cases h : turn s with
    | inl result => exact ⟨result, run_of_inl h⟩
    | inr next =>
      obtain ⟨kept, less⟩ := turns s next start h
      obtain ⟨result, ends⟩ := ih kept (Nat.lt_of_lt_of_le less (Nat.le_of_lt_succ enough))
      exact ⟨result, by rw [run_of_inr h, ends]⟩

theorem Ends.next (ends : Ends turn s r) (one : turn s = .inr t) : Ends turn t r := by
  obtain ⟨n, ends⟩ := ends
  cases n with
  | zero => cases ends
  | succ n => exact ⟨n, by rwa [run_of_inr one] at ends⟩

theorem Ends.last (ends : Ends turn s r) {result : ρ} (one : turn s = .inl result) :
    result = r := by
  obtain ⟨n, ends⟩ := ends
  cases n with
  | zero => cases ends
  | succ n => exact Option.some.inj ((run_of_inl one).symm.trans ends)

/-- What a fold that returns keeps. -/
theorem foldlM_keeps {β : Type} {step : σ → β → Option σ} {P : σ → Prop} {l : List β}
    (each : ∀ b ∈ l, ∀ s s', P s → step s b = some s' → P s') {s' : σ} (start : P s)
    (returns : l.foldlM step s = some s') : P s' := by
  induction l generalizing s with
  | nil =>
    cases returns
    exact start
  | cons b l ih =>
    rw [List.foldlM_cons] at returns
    obtain ⟨mid, first, rest⟩ := Option.bind_eq_some_iff.mp returns
    exact ih (fun c mem => each c (List.mem_cons_of_mem _ mem))
      (each b List.mem_cons_self s mid start first) rest

/-- A fold that does the work at hand one after the other returns with none left. -/
theorem foldlM_returns {β : Type} (step : σ → β → Option σ) {P : List β → σ → Prop} {l : List β}
    (each : ∀ b ∈ l, ∀ rest s, P (b :: rest) s → ∃ s', step s b = some s' ∧ P rest s')
    (start : P l s) : ∃ s', l.foldlM step s = some s' ∧ P [] s' := by
  induction l generalizing s with
  | nil => exact ⟨s, rfl, start⟩
  | cons b l ih =>
    obtain ⟨one, others⟩ := List.forall_mem_cons.mp each
    obtain ⟨mid, first, kept⟩ := one l s start
    obtain ⟨s', rest, kept⟩ := ih others kept
    refine ⟨s', ?_, kept⟩
    rw [List.foldlM_cons, first]
    exact rest

end Rbitcoin.Loop
