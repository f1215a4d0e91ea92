import Rbitcoin.Net.AsMap

/-! A map that passes the check never aborts. The walk of the check goes over the instructions in
order; a state of it that goes on to accept stands for every state of the interpreter at the same
position with as many bits of the address left. The interpreter leaves the order at a jump only, and
then the walk comes to the target too: the jump is on its stack until it stands there. -/

namespace Rbitcoin.Net.AsMap

open Bytes List

section Walk

variable {data : Bytes} {s t : Sanity}

/-- The walk goes on from the state and accepts. -/
def Sound (data : Bytes) (s : Sanity) : Prop := Loop.Ends (sanityTurn data) s true

theorem Sound.turn_ne (sound : Sound data s) : sanityTurn data s ≠ .inl false := by
  intro refused
  exact absurd (sound.last refused) (by decide)

theorem Sound.next (sound : Sound data s) (goes_on : sanityTurn data s = .inr t) :
    Sound data t := Loop.Ends.next sound goes_on

theorem turn_of_ne (ok : sanityTurn data s ≠ .inl false) :
    ∃ op, Opcode.decode (decodeType data s.pos).1 = some op ∧
      sanityTurn data s = (match op with
        | .returnAsn => sanityReturn data s (decodeType data s.pos).2
        | .jump => sanityJump data s (decodeType data s.pos).2
        | .matchBits => sanityMatch data s (decodeType data s.pos).2
        | .defaultAsn => sanityDefault data s (decodeType data s.pos).2) := by
  unfold sanityTurn at ok ⊢
  split_ifs at ok ⊢ with at_end passed
  · exact absurd rfl ok
  · exact absurd rfl ok
  · dsimp only at ok ⊢
    cases read : Opcode.decode (decodeType data s.pos).1 with
    | none =>
      rw [read] at ok
      exact absurd rfl ok
    | some op =>
      refine ⟨op, rfl, ?_⟩
      cases op <;> rfl

variable {pos : Nat}

theorem sanityReturn_of_ne (ok : sanityReturn data s pos ≠ .inl false) :
    (decodeAsn data pos).1 ≠ invalid ∧
      (s.jumps = [] ∧ sanityReturn data s pos = .inl true ∨
        ∃ restore jumps, s.jumps = ((decodeAsn data pos).2, restore) :: jumps ∧
          sanityReturn data s pos = .inr { s with
            pos := (decodeAsn data pos).2, jumps := jumps, bits := restore,
            prevopcode := .jump }) := by
  unfold sanityReturn at ok ⊢
  dsimp only at ok ⊢
  by_cases after : s.prevopcode = .defaultAsn
  · rw [if_pos after] at ok
    exact absurd rfl ok
  by_cases bad : (decodeAsn data pos).1 = invalid
  · rw [if_neg after, if_pos bad] at ok
    exact absurd rfl ok
  rw [if_neg after, if_neg bad] at ok ⊢
  refine ⟨bad, ?_⟩
  cases stack : s.jumps with
  | nil =>
    rw [stack] at ok
    refine Or.inl ⟨rfl, ?_⟩
    cases zeros : sanityEnd data (decodeAsn data pos).2 with
    | false =>
      rw [zeros] at ok
      exact absurd rfl ok
    | true => rfl
  | cons top jumps =>
    obtain ⟨target, restore⟩ := top
    rw [stack] at ok
    dsimp only at ok ⊢
    split_ifs at ok ⊢ with other
    · exact absurd rfl ok
    · refine Or.inr ⟨restore, jumps, ?_, rfl⟩
      rw [not_not.mp other]

theorem sanityJump_of_ne (ok : sanityJump data s pos ≠ .inl false) :
    (decodeJump data pos).1 ≠ invalid ∧ s.bits ≠ 0 ∧
      sanityJump data s pos = .inr { s with
        pos := (decodeJump data pos).2
        jumps := ((decodeJump data pos).2 + (decodeJump data pos).1, s.bits - 1) :: s.jumps
        bits := s.bits - 1
        prevopcode := .jump } := by
  unfold sanityJump at ok ⊢
  dsimp only at ok ⊢
  split_ifs at ok ⊢ with bad none_left crossed
  · exact absurd rfl ok
  · exact absurd rfl ok
  · exact absurd rfl ok
  · exact ⟨bad, none_left, rfl⟩

theorem sanityMatch_of_ne (ok : sanityMatch data s pos ≠ .inl false) :
    (decodeMatch data pos).1 ≠ invalid ∧ matchLen (decodeMatch data pos).1 ≤ s.bits ∧
      sanityMatch data s pos = .inr { s with
        pos := (decodeMatch data pos).2
        bits := s.bits - matchLen (decodeMatch data pos).1
        prevopcode := .matchBits
        hadIncompleteMatch := matchLen (decodeMatch data pos).1 < 8 } := by
  unfold sanityMatch at ok ⊢
  dsimp only at ok ⊢
  split_ifs at ok ⊢ with bad again few
  · exact absurd rfl ok
  · exact absurd rfl ok
  · exact absurd rfl ok
  · exact ⟨bad, Int.not_lt.mp few, rfl⟩

theorem sanityDefault_of_ne (ok : sanityDefault data s pos ≠ .inl false) :
    (decodeAsn data pos).1 ≠ invalid ∧
      sanityDefault data s pos = .inr { s with
        pos := (decodeAsn data pos).2, prevopcode := .defaultAsn } := by
  unfold sanityDefault at ok ⊢
  dsimp only at ok ⊢
  split_ifs at ok ⊢ with again bad
  · exact absurd rfl ok
  · exact absurd rfl ok
  · exact ⟨bad, rfl⟩

theorem jumps_of_accepts (accepts : sanityTurn data s = .inl true) : s.jumps = [] := by
  have ok : sanityTurn data s ≠ .inl false := by simp [accepts]
  obtain ⟨op, -, turn⟩ := turn_of_ne ok
  rw [turn] at ok accepts
  cases op with
  | returnAsn =>
    rcases (sanityReturn_of_ne ok).2 with ⟨empty, -⟩ | ⟨restore, jumps, -, goes_on⟩
    · exact empty
    · simp [goes_on] at accepts
  | jump => simp [(sanityJump_of_ne ok).2.2] at accepts
  | matchBits => simp [(sanityMatch_of_ne ok).2.2] at accepts
  | defaultAsn => simp [(sanityDefault_of_ne ok).2] at accepts

theorem jumps_of_turn (goes_on : sanityTurn data s = .inr t) : t.jumps = s.jumps ∨
    (∃ top, t.jumps = top :: s.jumps) ∨ s.jumps = (t.pos, t.bits) :: t.jumps := by
  have ok : sanityTurn data s ≠ .inl false := by simp [goes_on]
  obtain ⟨op, -, turn⟩ := turn_of_ne ok
  rw [turn] at ok goes_on
  cases op with
  | returnAsn =>
    rcases (sanityReturn_of_ne ok).2 with ⟨-, accepts⟩ | ⟨restore, jumps, stack, next⟩
    · simp [accepts] at goes_on
    · rw [next, Sum.inr.injEq] at goes_on
      rw [← goes_on]
      exact Or.inr (Or.inr stack)
  | jump =>
    rw [(sanityJump_of_ne ok).2.2, Sum.inr.injEq] at goes_on
    rw [← goes_on]
    exact Or.inr (Or.inl ⟨_, rfl⟩)
  | matchBits =>
    rw [(sanityMatch_of_ne ok).2.2, Sum.inr.injEq] at goes_on
    rw [← goes_on]
    exact Or.inl rfl
  | defaultAsn =>
    rw [(sanityDefault_of_ne ok).2, Sum.inr.injEq] at goes_on
    rw [← goes_on]
    exact Or.inl rfl

theorem Sound.target (sound : Sound data s) {above below : List (Nat × Int)} {target : Nat}
    {restore : Int} (stack : s.jumps = above ++ (target, restore) :: below) :
    ∃ t, Sound data t ∧ t.pos = target ∧ t.bits = restore := by
  obtain ⟨n, ends⟩ := sound
  induction n generalizing s above with
  | zero => cases ends
  | succ n ih =>
    cases turn : sanityTurn data s with
    | inl result =>
      rw [Loop.run_of_inl turn, Option.some.injEq] at ends
      rw [ends] at turn
      rw [jumps_of_accepts turn] at stack
      exact absurd stack.symm (by simp)
    | inr t =>
      rw [Loop.run_of_inr turn] at ends
      rcases jumps_of_turn turn with same | ⟨top, pushed⟩ | popped
      · exact ih (same.trans stack) ends
      · have deeper : t.jumps = (top :: above) ++ (target, restore) :: below := by
          rw [pushed, stack, cons_append]
        exact ih deeper ends
      · rw [popped] at stack
        cases above with
        | nil =>
          rw [nil_append, cons.injEq, Prod.mk.injEq] at stack
          exact ⟨t, ⟨n, ends⟩, stack.1.1, stack.1.2⟩
        | cons top above =>
          rw [cons_append, cons.injEq] at stack
          exact ih stack.2 ends

end Walk

theorem consumeBitBe_eq_some {ip : Bytes} (length : ip.length = 16) {ipBit : Nat}
    (left : ipBit < 128) : ∃ bit, consumeBitBe ipBit ip = some (bit, ipBit + 1) := by
  refine ⟨_, if_neg ?_⟩
  omega

theorem matchBits_ne_short {ip : Bytes} (length : ip.length = 16) (matchv : Nat) {n ipBit : Nat}
    (left : ipBit + n ≤ 128) : matchBits ip matchv n ipBit = .differs ∨
      matchBits ip matchv n ipBit = .all (ipBit + n) := by
  induction n generalizing ipBit with
  | zero => exact Or.inr rfl
  | succ n ih =>
    obtain ⟨bit, read⟩ := consumeBitBe_eq_some length (show ipBit < 128 by omega)
    rw [matchBits, read]
    dsimp only
    split_ifs with other
    · exact Or.inl rfl
    · rw [show ipBit + (n + 1) = ipBit + 1 + n by omega]
      exact ih (by omega)

/-- The exits of a loop that does not abort. -/
def Exit.Proper : Exit → Prop
  | .returned asn => asn ≠ invalid
  | .unmatched _ => True
  | .aborted => False

/-- A state of a walk that accepts stands for the state of the machine. -/
structure Tracks (data : Bytes) (s : Sanity) (m : Machine) : Prop where
  sound : Sound data s
  pos : m.pos = s.pos
  bits : s.bits = 128 - m.ipBit
  inside : m.ipBit ≤ 128

def Tracked (data : Bytes) (m : Machine) : Prop := ∃ s, Tracks data s m

theorem pos_of_turn {data : Bytes} {s t : Sanity} (goes_on : sanityTurn data s = .inr t) :
    s.pos < t.pos ∧ s.pos < data.length * 8 := by
  have ok : sanityTurn data s ≠ .inl false := by simp [goes_on]
  obtain ⟨op, read, turn⟩ := turn_of_ne ok
  have forward := decodeType_lt read
  have later {val : Nat} (small : val ≤ invalid) (sizes : List Nat) :=
    forward.1.trans_le (decodeBits_bounds data small (decodeType data s.pos).2 sizes).1
  rw [turn] at ok goes_on
  refine ⟨?_, forward.2⟩
  cases op with
  | returnAsn =>
    rcases (sanityReturn_of_ne ok).2 with ⟨-, accepts⟩ | ⟨restore, jumps, -, next⟩
    · simp [accepts] at goes_on
    · rw [next, Sum.inr.injEq] at goes_on
      exact goes_on ▸ later (by decide) asnBitSizes
  | jump =>
    rw [(sanityJump_of_ne ok).2.2, Sum.inr.injEq] at goes_on
    exact goes_on ▸ later (by decide) jumpBitSizes
  | matchBits =>
    rw [(sanityMatch_of_ne ok).2.2, Sum.inr.injEq] at goes_on
    exact goes_on ▸ later (by decide) matchBitSizes
  | defaultAsn =>
    rw [(sanityDefault_of_ne ok).2, Sum.inr.injEq] at goes_on
    exact goes_on ▸ later (by decide) asnBitSizes

section Turn

variable {data ip : Bytes} {m : Machine}

/-- **One turn.** The machine leaves its loop as it should, or goes on to a state that the walk has
too, further on. -/
theorem Tracked.turn (tracked : Tracked data m) (length : ip.length = 16) :
    match interpretTurn data ip m with
    | .inl exit => exit.Proper
    | .inr m' => Tracked data m' ∧ m.pos < m'.pos ∧ m.pos < data.length * 8 := by
  obtain ⟨s, tracks⟩ := tracked
  have ok := tracks.sound.turn_ne
  obtain ⟨op, read, turn⟩ := turn_of_ne ok
  rw [turn] at ok
  have forward := decodeType_lt read
  have bits := tracks.bits
  have inside := tracks.inside
  rw [← tracks.pos] at read ok turn forward
  have onward {t : Sanity} (next : sanityTurn data s = .inr t) : m.pos < t.pos :=
    tracks.pos ▸ (pos_of_turn next).1
  rw [interpretTurn]
  dsimp only
  rw [read]
  cases op with
  | returnAsn =>
    rw [if_neg (sanityReturn_of_ne ok).1]
    exact (sanityReturn_of_ne ok).1
  | jump =>
    obtain ⟨valid, some_left, next⟩ := sanityJump_of_ne ok
    obtain ⟨bit, consumed⟩ := consumeBitBe_eq_some length (show m.ipBit < 128 by omega)
    have sound := tracks.sound.next (turn.trans next)
    have later := onward (turn.trans next)
    dsimp only
    rw [if_neg valid, if_neg (by rw [ipBitsEnd]; omega), consumed]
    dsimp only
    refine ⟨?_, ?_, forward.2⟩
    · cases bit with
      | false => exact ⟨_, sound, rfl, by dsimp only; omega, by dsimp only; omega⟩
      | true =>
        obtain ⟨t, sound, pos, rest⟩ := sound.target (nil_append _).symm
        exact ⟨t, sound, pos.symm, by dsimp only; omega, by dsimp only; omega⟩
    · dsimp only at later
      split_ifs <;> omega
  | matchBits =>
    obtain ⟨valid, enough, next⟩ := sanityMatch_of_ne ok
    have positive := matchLen_pos data (decodeType data m.pos).2
    have sound := tracks.sound.next (turn.trans next)
    have later := onward (turn.trans next)
    generalize (decodeMatch data (decodeType data m.pos).2).1 = matchv at *
    dsimp only
    rw [if_neg valid, if_neg (by omega), if_neg (by rw [ipBitsEnd]; omega)]
    rcases matchBits_ne_short length matchv (show m.ipBit + (matchLen matchv).toNat ≤ 128 by omega)
      with differs | all
    · rw [differs]
      trivial
    · rw [all]
      exact ⟨⟨_, sound, rfl, by dsimp only; omega, by dsimp only; omega⟩, later, forward.2⟩
  | defaultAsn =>
    obtain ⟨valid, next⟩ := sanityDefault_of_ne ok
    have sound := tracks.sound.next (turn.trans next)
    dsimp only
    rw [if_neg valid]
    exact ⟨⟨_, sound, rfl, bits, inside⟩, onward (turn.trans next), forward.2⟩

end Turn

/-- The walk of the check ends within a turn for each bit and one more, so that the check is what it
ends with. -/
theorem sanityRun_eq (data : Bytes) (bits : Int) :
    sanityRun data bits (data.length * 8 + 1) = some (sanityCheckBits data bits) := by
  have ends : ∃ b, sanityRun data bits (data.length * 8 + 1) = some b := by
    have turns (s t : Sanity) (_ : True) (goes_on : sanityTurn data s = .inr t) :
        True ∧ data.length * 8 - t.pos < data.length * 8 - s.pos := by
      have forward := pos_of_turn goes_on
      exact ⟨trivial, by omega⟩
    exact Loop.run_ends turns trivial (Nat.lt_succ_of_le (Nat.sub_le ..))
  obtain ⟨b, ends⟩ := ends
  rw [sanityCheckBits, ends, Option.getD_some]

/-- **Safety of maps.** A map that passes the check is interpreted without an abort, whatever the
address: the loop ends, with a valid operand of a `RETURN` or with the default after a `MATCH` that
failed. -/
theorem interpret_proper (data : Bytes) (sane : sanityCheck data = true) (ip : Bytes)
    (length : ip.length = 16) :
    ∃ exit, interpretExit data ip (data.length * 8 + 1) = some exit ∧ exit.Proper := by
  have sound : Sound data ⟨0, [], 128, .jump, false⟩ := by
    refine ⟨data.length * 8 + 1, ?_⟩
    have run := sanityRun_eq data 128
    rw [show sanityCheckBits data 128 = true from sane] at run
    exact run
  have start : Tracked data ⟨0, 0, 0⟩ := ⟨_, sound, rfl, rfl, by decide⟩
  have last (m : Machine) (exit : Exit) (tracked : Tracked data m)
      (ends : interpretTurn data ip m = .inl exit) : exit.Proper := by
    have one := tracked.turn length
    rwa [ends] at one
  have turns (m m' : Machine) (tracked : Tracked data m)
      (goes_on : interpretTurn data ip m = .inr m') :
      Tracked data m' ∧ data.length * 8 - m'.pos < data.length * 8 - m.pos := by
    have one := tracked.turn length
    rw [goes_on] at one
    exact ⟨one.1, by omega⟩
  have ends : ∃ exit, interpretExit data ip (data.length * 8 + 1) = some exit :=
    Loop.run_ends turns start (Nat.lt_succ_of_le (Nat.sub_le ..))
  obtain ⟨exit, ends⟩ := ends
  have proper := Loop.run_good last (fun m m' tracked goes_on => (turns m m' tracked goes_on).1)
    start ends
  exact ⟨exit, ends, proper⟩

/-- `LOOPBACK_ASMAP`: a default of 9, three matches up to the last two bits of `127.0.0.0/120` and a
jump on the first of them. -/
def loopbackAsmap : Bytes :=
  [0x07, 0x80, 0x18, 0xfb, 0x03, 0xec, 0x0f, 0xb0, 0x3f, 0xc0, 0xfe, 0x00, 0xfb, 0x03, 0xec, 0x0f,
    0xb0, 0x3f, 0xc0, 0xfe, 0x00, 0xfb, 0x03, 0xec, 0x07, 0xd8, 0xff, 0x7f, 0xff, 0xff, 0xfd, 0xfd,
    0xf7, 0x07, 0xd8, 0x1f, 0x60, 0x1f, 0x10, 0x3a, 0x01, 0x00, 0x0c, 0x00, 0x80]

/-- The address `::ffff:127.0.0.last`. -/
def loopback (last : UInt8) : Bytes :=
  replicate 10 0 ++ [0xff, 0xff, 127, 0, 0, last]

theorem interpret_proper_loopback : sanityCheck loopbackAsmap = true ∧
    (∃ exit, interpretExit loopbackAsmap (loopback 1) 361 = some exit ∧ exit.Proper) ∧
    interpretExit loopbackAsmap (loopback 1) 361 = some (.returned 1) ∧
    interpretExit loopbackAsmap (loopback 2) 361 = some (.returned 2) ∧
    interpretExit loopbackAsmap (loopback 3) 361 = some (.unmatched 9) :=
  have sane : sanityCheck loopbackAsmap = true := by decide +kernel
  ⟨sane, interpret_proper loopbackAsmap sane (loopback 1) rfl, by decide +kernel,
    by decide +kernel, by decide +kernel⟩

end Rbitcoin.Net.AsMap
