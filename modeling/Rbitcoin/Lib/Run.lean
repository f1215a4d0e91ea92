import Mathlib.Tactic.Common

/-! Runs of a machine. A step takes a state and an input to a state and an output; what one step
keeps, a run keeps, and a machine that simulates another step by step gives the same outputs. -/

namespace Rbitcoin.Run

variable {σ τ α β ε : Type}

/-- The state after the inputs, and their outputs. -/
def run (step : σ → α → σ × β) (s : σ) : List α → σ × List β
  | [] => (s, [])
  | a :: as =>
    let (s, b) := step s a
    let (s, bs) := run step s as
    (s, b :: bs)

/-- A step that fails leaves the state as it was. -/
def attempt (s : σ) (x : Except ε (σ × β)) : σ × Except ε β :=
  match x with
  | .ok (s, b) => (s, .ok b)
  | .error e => (s, .error e)

@[simp] theorem attempt_ok (s t : σ) (b : β) :
    attempt s (.ok (t, b) : Except ε (σ × β)) = (t, .ok b) := rfl

/-- Two machines with related states answer alike. -/
theorem run_simulates {left : σ → α → σ × β} {right : τ → α → τ × β} {R : σ → τ → Prop}
    {admitted : α → Prop}
    (step : ∀ {s t a}, admitted a → R s t →
      R (left s a).1 (right t a).1 ∧ (left s a).2 = (right t a).2)
    {s : σ} {t : τ} (start : R s t) {as : List α} (all : ∀ a ∈ as, admitted a) :
    R (run left s as).1 (run right t as).1 ∧ (run left s as).2 = (run right t as).2 := by
  induction as generalizing s t with
  | nil => exact ⟨start, rfl⟩
  | cons a as ih =>
    obtain ⟨next, output⟩ := step (all a List.mem_cons_self) start
    obtain ⟨rest, outputs⟩ := ih next fun b hb => all b (List.mem_cons_of_mem _ hb)
    exact ⟨rest, by simp only [run, output, outputs]⟩

section Conditions

variable {step : σ → α → σ} {met : σ → α → Prop} {s : σ} {as bs : List α}

/-- Every input of a run meets a condition on the state before it. -/
def AllMeet (step : σ → α → σ) (met : σ → α → Prop) (s : σ) : List α → Prop
  | [] => True
  | a :: as => met s a ∧ AllMeet step met (step s a) as

theorem AllMeet.of_append (all : AllMeet step met s (as ++ bs)) : AllMeet step met s as := by
  induction as generalizing s with
  | nil => trivial
  | cons a as ih => exact ⟨all.1, ih all.2⟩

theorem AllMeet.next {b : α} (all : AllMeet step met s (as ++ b :: bs)) :
    met (as.foldl step s) b := by
  induction as generalizing s with
  | nil => exact all.1
  | cons a as ih => exact ih all.2

theorem AllMeet.invariant (inv : σ → Prop) (keep : ∀ s a, inv s → met s a → inv (step s a))
    (all : AllMeet step met s as) (start : inv s) : inv (as.foldl step s) := by
  induction as generalizing s with
  | nil => exact start
  | cons a as ih => exact ih all.2 (keep s a start all.1)

end Conditions

end Rbitcoin.Run
