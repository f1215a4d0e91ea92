import Mathlib.Data.List.Basic

/-! Loops that walk a cursor over a string of known length. A body looks at its state and either
goes on in a new state or stops with a result, and the positions a loop visits are the cursors at
which its body runs. A loop whose cursor follows a boundary function `next` visits the path of
`next` from its first cursor, so two such loops visit the same positions. -/

namespace Rbitcoin.Walk

variable {σ ρ : Type}

/-- One turn of a loop body. -/
inductive Turn (σ ρ : Type) where
  | next (s : σ)
  | stop (r : ρ)

/-- The result of `body` from `s`, or `none` when `fuel` turns do not reach a stop. -/
def run (body : σ → Turn σ ρ) : Nat → σ → Option ρ
  | 0, _ => none
  | fuel + 1, s =>
    match body s with
    | .next s' => run body fuel s'
    | .stop r => some r

variable {body : σ → Turn σ ρ} {i : Nat} {l : List Nat}

theorem run_next {s s' : σ} (h : body s = .next s') (fuel : Nat) :
    run body (fuel + 1) s = run body fuel s' := by
  rw [run, h]

theorem run_stop {s : σ} {r : ρ} (h : body s = .stop r) (fuel : Nat) :
    run body (fuel + 1) s = some r := by
  rw [run, h]

/-- The cursors below `len` at which `body` runs, in order. -/
def visited (body : σ → Turn σ ρ) (pos : σ → Nat) (len : Nat) : Nat → σ → List Nat
  | 0, _ => []
  | fuel + 1, s =>
    if pos s < len then
      pos s :: match body s with
        | .next s' => visited body pos len fuel s'
        | .stop _ => []
    else []

/-- `Path next len i l`: from `i` the positions of `l` follow `next` until the cursor leaves the
string or `next` has no boundary. -/
inductive Path (next : Nat → Option Nat) (len : Nat) : Nat → List Nat → Prop
  | done {i : Nat} (out : len ≤ i) : Path next len i []
  | cut {i : Nat} (inside : i < len) (none : next i = none) : Path next len i [i]
  | step {i j : Nat} {l : List Nat} (inside : i < len) (some : next i = some j)
      (rest : Path next len j l) : Path next len i (i :: l)

variable {next : Nat → Option Nat} {len : Nat}

theorem Path.unique {m : List Nat} (hl : Path next len i l) (hm : Path next len i m) : l = m := by
  induction hl generalizing m with
  | done out =>
    cases hm with
    | done => rfl
    | cut inside => omega
    | step inside => omega
  | cut inside none =>
    cases hm with
    | done out => omega
    | cut => rfl
    | step _ some => rw [none] at some; cases some
  | step inside some _ ih =>
    cases hm with
    | done out => omega
    | cut _ none => rw [none] at some; cases some
    | step _ some' rest =>
      rw [some] at some'
      cases some'
      rw [ih rest]

theorem Path.le_mem (forward : ∀ i j, next i = some j → i < j) (path : Path next len i l) :
    ∀ p ∈ l, i ≤ p := by
  induction path with
  | done => simp
  | cut => simp
  | step inside some rest ih =>
    refine List.forall_mem_cons.mpr ⟨Nat.le_refl _, fun p hp => ?_⟩
    have := forward _ _ some
    have := ih p hp
    omega

/-- Nothing strictly inside a step of the path is on the path, and nothing after a position
without a boundary is. -/
theorem Path.skips (forward : ∀ i j, next i = some j → i < j) (path : Path next len i l) {p q : Nat}
    (hp : p ∈ l) (hq : q ∈ l) (lt : p < q) : ∃ e, next p = some e ∧ e ≤ q := by
  induction path with
  | done => simp at hp
  | cut =>
    simp only [List.mem_singleton] at hp hq
    omega
  | step inside some rest ih =>
    rcases List.mem_cons.mp hq with rfl | later
    · have := (Path.step inside some rest).le_mem forward p hp
      omega
    rcases List.mem_cons.mp hp with rfl | inner
    · exact ⟨_, some, rest.le_mem forward q later⟩
    · exact ih inner later

theorem visited_out {pos : σ → Nat} {s : σ} (out : len ≤ pos s) (fuel : Nat) :
    visited body pos len fuel s = [] := by
  cases fuel with
  | zero => rfl
  | succ fuel => rw [visited, if_neg (by omega)]

/-- A turn that follows `next` goes to the boundary and stops where there is none, or where `halt`
holds. Where there is none it may also run past the end of the string: it visits nothing there. -/
def Follows (next : Nat → Option Nat) (len : Nat) (pos : σ → Nat) (halt : Nat → Bool) (s : σ) :
    Turn σ ρ → Prop
  | .next s' => halt (pos s) = false ∧
    (next (pos s) = some (pos s') ∨ next (pos s) = none ∧ len ≤ pos s')
  | .stop _ => halt (pos s) = true ∨ next (pos s) = none

/-- A loop whose cursor follows `next` visits its path. -/
theorem visited_path {pos : σ → Nat} (forward : ∀ i j, next i = some j → i < j)
    (follows : ∀ s, pos s < len → Follows next len pos (fun _ => false) s (body s)) (fuel : Nat)
    (s : σ) (enough : len - pos s < fuel) :
    Path next len (pos s) (visited body pos len fuel s) := by
  induction fuel generalizing s with
  | zero => omega
  | succ fuel ih =>
    rw [visited]
    split
    case isFalse out => exact .done (by omega)
    case isTrue inside =>
      have turn := follows s inside
      cases h : body s with
      | stop r =>
        rw [h] at turn
        exact .cut inside (turn.resolve_left Bool.false_ne_true)
      | next s' =>
        rw [h] at turn
        obtain ⟨-, some | ⟨none, out⟩⟩ := turn
        · have := forward _ _ some
          exact .step inside some (ih s' (by omega))
        · simpa only [visited_out out] using Path.cut inside none

/-- The prefix of `l` through its first element that satisfies `halt`. -/
def upTo (halt : Nat → Bool) : List Nat → List Nat
  | [] => []
  | p :: l => p :: if halt p then [] else upTo halt l

/-- A loop that follows `next` but stops at the first position that satisfies `halt` visits the
path of `next` through that position. -/
theorem visited_upTo {pos : σ → Nat} {halt : Nat → Bool} (forward : ∀ i j, next i = some j → i < j)
    (follows : ∀ s, pos s < len → Follows next len pos halt s (body s)) (fuel : Nat) (s : σ)
    (enough : len - pos s < fuel) (path : Path next len (pos s) l) :
    visited body pos len fuel s = upTo halt l := by
  induction fuel generalizing s l with
  | zero => omega
  | succ fuel ih =>
    rw [visited]
    split
    case isFalse out =>
      cases path with
      | done => rfl
      | cut inside => omega
      | step inside => omega
    case isTrue inside =>
      have turn := follows s inside
      cases h : body s with
      | stop r =>
        rw [h] at turn
        cases path with
        | done out => omega
        | cut => cases hh : halt (pos s) <;> simp [upTo]
        | step _ some =>
          rcases turn with hh | none
          · simp [upTo, hh]
          · rw [none] at some; cases some
      | next s' =>
        rw [h] at turn
        obtain ⟨hh, some' | ⟨none, out⟩⟩ := turn
        · cases path with
          | done out => omega
          | cut _ none => rw [none] at some'; cases some'
          | step _ some rest =>
            rw [some'] at some
            cases some
            have := forward _ _ some'
            simp only [upTo, hh, Bool.false_eq_true, if_false]
            rw [ih s' (by omega) rest]
        · cases path with
          | done out => omega
          | step _ some => rw [none] at some; cases some
          | cut => simp [upTo, visited_out out]

end Rbitcoin.Walk
