import Rbitcoin.Lib.Bytes

/-! Readers of byte strings. A reader takes a value off the front of its input or stops, with an
error or a panic, and counts the bytes that it reserves on the way. What a writer puts down is read
back by a reader that inverts it; a reader pays for what it reserves with the input it consumes. -/

namespace Rbitcoin

open List

/-- Why a reader stops. -/
inductive Halt (ε : Type) where
  | error (e : ε)
  | panic
  deriving DecidableEq

/-- The value and the input left, or the reason to stop, with the number of bytes reserved. -/
structure Reading (ε α : Type) where
  result : Except (Halt ε) (α × Bytes)
  reserved : Nat

def Reader (ε α : Type) : Type := Bytes → Reading ε α

namespace Reader

variable {ε α β : Type}

protected def pure (a : α) : Reader ε α := fun s => ⟨.ok (a, s), 0⟩

protected def bind (r : Reader ε α) (f : α → Reader ε β) : Reader ε β := fun s =>
  match r s with
  | ⟨.error h, k⟩ => ⟨.error h, k⟩
  | ⟨.ok (a, rest), k⟩ => ⟨(f a rest).result, k + (f a rest).reserved⟩

instance : Monad (Reader ε) where
  pure := Reader.pure
  bind := Reader.bind

def fail (e : ε) : Reader ε α := fun _ => ⟨.error (.error e), 0⟩

/-- Stop with an error when something is wrong. -/
def rejectIf (bad : Prop) [Decidable bad] (e : ε) : Reader ε Unit :=
  if bad then fail e else pure ()

/-- No allocation may be larger than this. -/
def isizeMax : Nat := 2 ^ 63 - 1

/-- Room for a vector. A capacity that overflows is a panic. -/
def reserve (count size : Nat) : Reader ε Unit := fun s =>
  if isizeMax < count * size then ⟨.error .panic, 0⟩ else ⟨.ok ((), s), count * size⟩

def take (n : Nat) (e : ε) : Reader ε Bytes := fun s =>
  if n ≤ s.length then ⟨.ok (s.take n, s.drop n), n⟩ else ⟨.error (.error e), 0⟩

/-- The next bytes, in an array on the stack. -/
def takeArr (n : Nat) (e : ε) : Reader ε Bytes := fun s =>
  if n ≤ s.length then ⟨.ok (s.take n, s.drop n), 0⟩ else ⟨.error (.error e), 0⟩

/-- A copy of something that is in memory. -/
def copied (size : Nat) : Reader ε Unit := fun s => ⟨.ok ((), s), size⟩

/-- There are at least so many bytes. -/
def atLeast (n : Nat) (e : ε) : Reader ε Unit := fun s =>
  if s.length < n then ⟨.error (.error e), 0⟩ else ⟨.ok ((), s), 0⟩

def atEnd (e : ε) : Reader ε Unit := fun s =>
  if s ≠ [] then ⟨.error (.error e), 0⟩ else ⟨.ok ((), s), 0⟩

/-- A function that says how many bytes it has used. -/
def ofUsed (f : Bytes → Except ε (α × Nat)) : Reader ε α := fun s =>
  match f s with
  | .error e => ⟨.error (.error e), 0⟩
  | .ok (a, n) => ⟨.ok (a, s.drop n), 0⟩

/-- One value after another. -/
def times (r : Reader ε α) : Nat → Reader ε (List α)
  | 0 => pure []
  | n + 1 => do
    let a ← r
    let rest ← times r n
    pure (a :: rest)

/-! ### Reading back -/

/-- The reader takes exactly these bytes off any input and gives the value. -/
def Inverts (r : Reader ε α) (enc : Bytes) (a : α) : Prop :=
  ∀ rest, (r (enc ++ rest)).result = .ok (a, rest)

/-- The reader stops with the error on any input that starts with these bytes. -/
def Refuses (r : Reader ε α) (enc : Bytes) (e : ε) : Prop :=
  ∀ rest, (r (enc ++ rest)).result = .error (.error e)

variable {a : α} {f : α → Reader ε β} {r : Reader ε α} {s enc : Bytes} {b : β} {e : ε} {n : Nat}

variable {rest : Bytes} {k : Nat}

theorem bind_of_ok (same : r s = ⟨.ok (a, rest), k⟩) :
    (r >>= f) s = ⟨(f a rest).result, k + (f a rest).reserved⟩ := by
  change Reader.bind r f s = _
  rw [Reader.bind, same]

theorem bind_of_error {h : Halt ε} (same : r s = ⟨.error h, k⟩) : (r >>= f) s = ⟨.error h, k⟩ := by
  change Reader.bind r f s = _
  rw [Reader.bind, same]

theorem bind_result_ok (ok : (r s).result = .ok (a, rest)) :
    ((r >>= f) s).result = (f a rest).result := by
  have same : r s = ⟨.ok (a, rest), (r s).reserved⟩ := by rw [← ok]
  rw [bind_of_ok same]

theorem bind_result_error {h : Halt ε} (stops : (r s).result = .error h) :
    ((r >>= f) s).result = .error h := by
  have same : r s = ⟨.error h, (r s).reserved⟩ := by rw [← stops]
  rw [bind_of_error same]

theorem inverts_pure (a : α) : Inverts (pure a : Reader ε α) [] a := fun _ => rfl

theorem Inverts.bind {enc' : Bytes} (first : Inverts r enc a) (second : Inverts (f a) enc' b) :
    Inverts (r >>= f) (enc ++ enc') b := by
  intro rest
  rw [append_assoc, bind_result_ok (first _)]
  exact second rest

theorem Inverts.then (first : Inverts r [] a) (second : Inverts (f a) enc b) :
    Inverts (r >>= f) enc b :=
  first.bind second

theorem Inverts.last (first : Inverts r enc a) (second : Inverts (f a) [] b) :
    Inverts (r >>= f) enc b := by
  have whole := first.bind second
  rwa [append_nil] at whole

theorem Inverts.map (f : α → β) (first : Inverts r enc a) : Inverts (f <$> r) enc (f a) :=
  first.last (inverts_pure (f a))

theorem Inverts.refuses {enc' : Bytes} (first : Inverts r enc a) (second : Refuses (f a) enc' e) :
    Refuses (r >>= f) (enc ++ enc') e := by
  intro rest
  rw [append_assoc, bind_result_ok (first _)]
  exact second rest

theorem Refuses.bind (first : Refuses r enc e) (enc' : Bytes) :
    Refuses (r >>= f) (enc ++ enc') e := by
  intro rest
  rw [append_assoc]
  exact bind_result_error (first _)

variable {bad : Prop}

theorem inverts_rejectIf [Decidable bad] (good : ¬bad) (e : ε) :
    Inverts (rejectIf bad e) [] () := by
  rw [rejectIf, if_neg good]
  exact inverts_pure ()

theorem inverts_reserve {count size : Nat} (fits : count * size ≤ isizeMax) :
    Inverts (reserve count size : Reader ε Unit) [] () := by
  intro rest
  rw [nil_append, reserve, if_neg (not_lt.mpr fits)]

theorem inverts_copied (size : Nat) : Inverts (copied size : Reader ε Unit) [] () := fun _ => rfl

theorem inverts_take (length : enc.length = n) (e : ε) : Inverts (take n e) enc enc := by
  intro rest
  rw [take, ← length]
  simp

theorem inverts_takeArr (length : enc.length = n) (e : ε) : Inverts (takeArr n e) enc enc := by
  intro rest
  rw [takeArr, ← length]
  simp

theorem Inverts.atLeast {f : Unit → Reader ε β} (second : Inverts (f ()) enc b)
    (long : n ≤ enc.length) : Inverts (Reader.atLeast n e >>= f) enc b := by
  intro rest
  have enough : ¬(enc ++ rest).length < n := by
    rw [length_append]
    omega
  have read : (Reader.atLeast n e (enc ++ rest)).result = .ok ((), enc ++ rest) := by
    rw [Reader.atLeast, if_neg enough]
  rw [bind_result_ok read]
  exact second rest

theorem inverts_ofUsed {f : Bytes → Except ε (α × Nat)}
    (reads : ∀ rest, f (enc ++ rest) = .ok (a, enc.length)) : Inverts (ofUsed f) enc a := by
  intro rest
  rw [ofUsed, reads]
  simp

/-- Reading as often as was written inverts the writing of a list. -/
theorem inverts_times {enc : α → Bytes} {l : List α} (each : ∀ a ∈ l, Inverts r (enc a) a) :
    Inverts (times r l.length) (l.flatMap enc) l := by
  induction l with
  | nil => exact inverts_pure []
  | cons a l ih =>
    have rest : Inverts (times r l.length >>= fun rest => pure (a :: rest)) (l.flatMap enc ++ [])
        (a :: l) :=
      (ih (forall_mem_cons.mp each).2).bind (inverts_pure (a :: l))
    rw [append_nil] at rest
    have whole : Inverts (times r (l.length + 1)) (enc a ++ l.flatMap enc) (a :: l) :=
      (each a mem_cons_self).bind rest
    rwa [← flatMap_cons] at whole

/-! ### Paying for what is reserved

`Pays c r s credit d e`: at a price of `c` for each byte of the input and with some credit, the
reader pays for what it reserves from `s` and has `d a` left with the value `a`. When it stops it
may owe `e` more, and it panics for a debt only that no allocation can have. -/

def Reading.Pays (c length credit : Nat) (d : α → Nat) (e : Nat) : Reading ε α → Prop
  | ⟨.ok (a, rest), k⟩ => k + d a + c * rest.length ≤ c * length + credit
  | ⟨.error h, k⟩ => k ≤ c * length + credit + e ∧ (h = .panic → isizeMax < e)

def Pays (c : Nat) (r : Reader ε α) (s : Bytes) (credit : Nat) (d : α → Nat) (e : Nat) : Prop :=
  Reading.Pays c s.length credit d e (r s)

section Paying

variable {c credit e : Nat} {s : Bytes} {d : α → Nat} {d' : β → Nat} {r : Reader ε α}

theorem Pays.mono {g : α → Nat} {e' : Nat} (pays : Pays c r s credit d e) (less : ∀ a, g a ≤ d a)
    (more : e ≤ e') (extra : Nat) :
    Pays c r s (credit + extra) (fun a => g a + extra) e' := by
  unfold Pays at pays ⊢
  generalize r s = x at pays ⊢
  rcases x with ⟨⟨h⟩ | ⟨a, rest⟩, k⟩
  · exact ⟨le_trans pays.1 (by omega), fun panic => lt_of_lt_of_le (pays.2 panic) more⟩
  · have := less a
    simp only [Reading.Pays] at pays ⊢
    omega

theorem Pays.bind (first : Pays c r s credit d e)
    (second : ∀ a rest k, r s = ⟨.ok (a, rest), k⟩ → Pays c (f a) rest (d a) d' e) :
    Pays c (r >>= f) s credit d' e := by
  unfold Pays at first second ⊢
  rcases same : r s with ⟨⟨h⟩ | ⟨a, rest⟩, k⟩
  · rw [same] at first
    rw [bind_of_error same]
    exact first
  · have later := second a rest k same
    rw [same] at first
    rw [bind_of_ok same]
    generalize f a rest = x at later ⊢
    rcases x with ⟨⟨h⟩ | ⟨b, rest'⟩, k'⟩
    · refine ⟨?_, later.2⟩
      have owed := later.1
      simp only [Reading.Pays] at first ⊢
      omega
    · simp only [Reading.Pays] at first later ⊢
      omega

theorem Pays.keep (first : Pays c r s credit (fun _ => credit) e)
    (second : ∀ a rest, Pays c (f a) rest credit d' e) : Pays c (r >>= f) s credit d' e :=
  first.bind fun a rest _ _ => second a rest

theorem pays_pure (enough : d a ≤ credit) : Pays c (pure a : Reader ε α) s credit d e := by
  change 0 + d a + c * s.length ≤ c * s.length + credit
  omega

theorem pays_fail (x : ε) : Pays c (fail x : Reader ε α) s credit d e :=
  ⟨Nat.zero_le _, nofun⟩

variable {x : ε} {n size : Nat}

theorem pays_rejectIf [Decidable bad] {d : Unit → Nat} (enough : d () ≤ credit) :
    Pays c (rejectIf bad x) s credit d e := by
  unfold rejectIf
  split
  · exact pays_fail x
  · exact pays_pure enough

theorem mul_length_drop (c : Nat) (inside : n ≤ s.length) :
    c * (s.drop n).length + c * n = c * s.length := by
  rw [← Nat.mul_add, length_drop, Nat.sub_add_cancel inside]

theorem pays_front {d : Bytes → Nat} (k : Nat)
    (enough : ∀ a, a.length = n → k + d a ≤ credit + c * n) :
    Reading.Pays c s.length credit d e
      (if n ≤ s.length then ⟨.ok (s.take n, s.drop n), k⟩ else ⟨.error (.error x), 0⟩) := by
  split_ifs with inside
  · have now := enough (s.take n) (by simp [inside])
    have paid := mul_length_drop c inside
    simp only [Reading.Pays]
    omega
  · exact ⟨Nat.zero_le _, nofun⟩

theorem pays_takeArr {d : Bytes → Nat} (enough : ∀ a, a.length = n → d a ≤ credit + c * n) :
    Pays c (takeArr n x) s credit d e :=
  pays_front 0 fun a length => (Nat.zero_add _).trans_le (enough a length)

theorem pays_take {d : Bytes → Nat} (enough : ∀ a, a.length = n → n + d a ≤ credit + c * n) :
    Pays c (take n x) s credit d e :=
  pays_front n enough

theorem pays_ofUsed {f : Bytes → Except ε (α × Nat)}
    (enough : ∀ a n, f s = .ok (a, n) → n ≤ s.length ∧ d a ≤ credit + c * n) :
    Pays c (ofUsed f) s credit d e := by
  unfold Pays ofUsed
  cases read : f s with
  | error x => exact ⟨Nat.zero_le _, nofun⟩
  | ok an =>
    obtain ⟨a, n⟩ := an
    obtain ⟨inside, now⟩ := enough a n read
    have paid := mul_length_drop c inside
    simp only [Reading.Pays]
    omega

theorem pays_copied {d : Unit → Nat} (enough : size + d () ≤ credit) :
    Pays c (copied size : Reader ε Unit) s credit d e := by
  change size + d () + c * s.length ≤ c * s.length + credit
  omega

theorem pays_atLeast {d : Unit → Nat} (enough : d () ≤ credit) :
    Pays c (atLeast n x) s credit d e := by
  unfold Pays atLeast
  split
  · exact ⟨Nat.zero_le _, nofun⟩
  · change 0 + d () + c * s.length ≤ c * s.length + credit
    omega

theorem pays_atEnd {d : Unit → Nat} (enough : d () ≤ credit) : Pays c (atEnd x) s credit d e := by
  unfold Pays atEnd
  split
  · exact ⟨Nat.zero_le _, nofun⟩
  · change 0 + d () + c * s.length ≤ c * s.length + credit
    omega

theorem pays_reserve_credit {count : Nat} {f : Unit → Reader ε β} (left : Nat)
    (fits : count * size ≤ isizeMax) (enough : count * size + left ≤ credit)
    (later : Pays c (f ()) s left d' e) : Pays c (reserve count size >>= f) s credit d' e := by
  have reserves : (reserve count size : Reader ε Unit) s = ⟨.ok ((), s), count * size⟩ :=
    if_neg (not_lt.mpr fits)
  have now : Pays c (reserve count size : Reader ε Unit) s credit (fun _ => left) e := by
    rw [Pays, reserves, Reading.Pays]
    omega
  refine now.bind fun _ rest k same => ?_
  rw [reserves] at same
  cases same
  exact later

theorem pays_reserve {count : Nat} {f : Unit → Reader ε β} {g : β → Nat}
    (later : Pays c (f ()) s credit g 0)
    (repays : ∀ b rest k, f () s = ⟨.ok (b, rest), k⟩ → count * size + d' b ≤ g b)
    (owes : count * size ≤ e) : Pays c (reserve count size >>= f) s credit d' e := by
  unfold Pays at later ⊢
  by_cases overflow : isizeMax < count * size
  · have panics : (reserve count size : Reader ε Unit) s = ⟨.error .panic, 0⟩ := if_pos overflow
    rw [bind_of_error panics]
    exact ⟨Nat.zero_le _, fun _ => Nat.lt_of_lt_of_le overflow owes⟩
  · have reserves : (reserve count size : Reader ε Unit) s = ⟨.ok ((), s), count * size⟩ :=
      if_neg overflow
    rw [bind_of_ok reserves]
    rcases same : f () s with ⟨⟨h⟩ | ⟨b, rest⟩, k⟩
    · rw [same] at later
      have owed := later.1
      refine ⟨?_, fun panic => absurd (later.2 panic) (Nat.not_lt_zero _)⟩
      change count * size + k ≤ c * s.length + credit + e
      omega
    · rw [same] at later
      have now := repays b rest k same
      simp only [Reading.Pays] at later ⊢
      omega

theorem pays_times (each : ∀ s, Pays c r s 0 d 0) (n : Nat) (s : Bytes) (credit : Nat) :
    Pays c (times r n) s credit (fun l => (l.map d).sum + credit) 0 := by
  induction n generalizing s credit with
  | zero => exact pays_pure (by simp)
  | succ n ih =>
    have first : Pays c r s (0 + credit) (fun a => d a + credit) 0 :=
      (each s).mono (fun _ => le_rfl) le_rfl credit
    rw [zero_add] at first
    refine first.bind fun a rest k _ => ?_
    refine (ih rest (d a + credit)).bind fun l rest k _ => pays_pure ?_
    simp only [map_cons, sum_cons]
    omega

theorem bind_eq_ok (ok : (r >>= f) s = ⟨.ok (b, rest), k⟩) :
    ∃ a mid k₁ k₂, r s = ⟨.ok (a, mid), k₁⟩ ∧ f a mid = ⟨.ok (b, rest), k₂⟩ ∧ k = k₁ + k₂ := by
  rcases same : r s with ⟨⟨h⟩ | ⟨a, mid⟩, k₁⟩
  · rw [bind_of_error same] at ok
    cases ok
  · rw [bind_of_ok same] at ok
    rcases same' : f a mid with ⟨x, k₂⟩
    rw [same'] at ok
    cases ok
    exact ⟨a, mid, k₁, k₂, rfl, same', rfl⟩

theorem length_times {l : List α} (ok : times r n s = ⟨.ok (l, rest), k⟩) : l.length = n := by
  induction n generalizing s l rest k with
  | zero =>
    cases ok
    rfl
  | succ n ih =>
    obtain ⟨a, mid, k₁, k₂, -, later, -⟩ := bind_eq_ok ok
    obtain ⟨l', mid', k₃, k₄, tail, last, -⟩ := bind_eq_ok later
    cases last
    rw [length_cons, ih tail]

end Paying

def Ensures (r : Reader ε α) (P : α → Prop) : Prop :=
  ∀ s a rest k, r s = ⟨.ok (a, rest), k⟩ → P a

theorem ensures_bind {P : β → Prop} (later : ∀ a, Ensures (f a) P) : Ensures (r >>= f) P := by
  intro s b rest k ok
  obtain ⟨a, mid, k₁, k₂, -, last, -⟩ := bind_eq_ok ok
  exact later a mid b rest k₂ last

theorem ensures_rejectIf [Decidable bad] {f : Unit → Reader ε β} {P : β → Prop}
    (later : ¬bad → Ensures (f ()) P) : Ensures (rejectIf bad e >>= f) P := by
  intro s b rest k ok
  obtain ⟨a, mid, k₁, k₂, first, last, -⟩ := bind_eq_ok ok
  by_cases is_bad : bad
  · rw [rejectIf, if_pos is_bad] at first
    cases first
  · exact later is_bad mid b rest k₂ last

theorem ensures_pure {P : α → Prop} (holds : P a) : Ensures (pure a : Reader ε α) P := by
  intro s b rest k ok
  cases ok
  exact holds

/-- The reader panics or reserves so much, which an allocation can have. -/
def Needs (r : Reader ε α) (s : Bytes) (amount : Nat) : Prop :=
  (r s).result ≠ .error .panic → amount ≤ (r s).reserved ∧ amount ≤ isizeMax

section Needing

variable {r : Reader ε α} {f : α → Reader ε β} {s rest : Bytes} {amount : Nat}

theorem Needs.bind (first : Needs r s amount) (f : α → Reader ε β) : Needs (r >>= f) s amount := by
  intro calm
  rcases same : r s with ⟨⟨h⟩ | ⟨a, rest⟩, k⟩
  · rw [bind_of_error same] at calm ⊢
    have now := first fun panic => by
      rw [same] at panic
      cases panic
      exact calm rfl
    rwa [same] at now
  · have now := first (by rw [same]; exact nofun)
    rw [same] at now
    rw [bind_of_ok same]
    exact ⟨le_trans now.1 (Nat.le_add_right _ _), now.2⟩

theorem Needs.after (ok : (r s).result = .ok (a, rest)) (later : Needs (f a) rest amount) :
    Needs (r >>= f) s amount := by
  intro calm
  have same : r s = ⟨.ok (a, rest), (r s).reserved⟩ := by rw [← ok]
  rw [bind_of_ok same] at calm ⊢
  have now := later calm
  exact ⟨le_trans now.1 (Nat.le_add_left _ _), now.2⟩

theorem needs_reserve (count size : Nat) (s : Bytes) :
    Needs (reserve count size : Reader ε Unit) s (count * size) := by
  intro calm
  unfold reserve at calm ⊢
  by_cases overflow : isizeMax < count * size
  · rw [if_pos overflow] at calm
    exact absurd rfl calm
  · rw [if_neg overflow]
    exact ⟨le_rfl, not_lt.mp overflow⟩

theorem Needs.afterReserve {count size : Nat} {f : Unit → Reader ε β}
    (later : Needs (f ()) s amount) : Needs (reserve count size >>= f) s amount := by
  by_cases overflow : isizeMax < count * size
  · intro calm
    have panics : (reserve count size : Reader ε Unit) s = ⟨.error .panic, 0⟩ := if_pos overflow
    rw [bind_of_error panics] at calm
    exact absurd rfl calm
  · have reserves : (reserve count size : Reader ε Unit) s = ⟨.ok ((), s), count * size⟩ :=
      if_neg overflow
    exact Needs.after (congrArg Reading.result reserves) later

end Needing

end Reader

end Rbitcoin
