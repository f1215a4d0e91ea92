import Rbitcoin.Tx.Transaction

/-! The two number formats of the records: the compact size of the wire format, and unsigned
LEB128. -/

namespace Rbitcoin.Tx

open Bytes List UInt8

structure PackError where
  text : String
  deriving DecidableEq, Repr

/-- The number and the bytes that it takes. Longer forms than needed are read too. -/
def readCompactSize : Bytes → Except PackError (Nat × Nat)
  | [] => .error ⟨"compact size empty"⟩
  | first :: buf =>
    if first ≤ 252 then .ok (first.toNat, 1)
    else if first = 253 then
      if buf.length < 2 then .error ⟨"compact size u16 truncated"⟩
      else .ok (ofLe (buf.take 2), 3)
    else if first = 254 then
      if buf.length < 4 then .error ⟨"compact size u32 truncated"⟩
      else .ok (ofLe (buf.take 4), 5)
    else
      if buf.length < 8 then .error ⟨"compact size u64 truncated"⟩
      else .ok (ofLe (buf.take 8), 9)

variable {n v : Nat} {s : Bytes}

theorem ofLe_take {k : Nat} (h : n < 256 ^ k) (rest : Bytes) :
    ofLe ((toLe k n ++ rest).take k) = n := by
  rw [take_left' (toLe_length k n), ofLe_toLe_of_lt h]

theorem readCompactSize_compactSize (h : n < 2 ^ 64) (rest : Bytes) :
    readCompactSize (compactSize n ++ rest) = .ok (n, (compactSize n).length) := by
  have inside (width : Nat) : ¬(toLe width n ++ rest).length < width := by
    rw [length_append, toLe_length]
    omega
  unfold compactSize
  split_ifs
  · have first : ofNat n ≤ 252 := by
      rw [le_iff_toNat_le]
      simp
      omega
    have value : (ofNat n).toNat = n := by
      simp
      omega
    simp only [toLe, cons_append, readCompactSize, if_pos first, value]
    rfl
  · simp only [cons_append, readCompactSize]
    rw [if_neg (by decide), if_pos trivial, if_neg (inside _), ofLe_take (by omega)]
    simp
  · simp only [cons_append, readCompactSize]
    rw [if_neg (by decide), if_neg (by decide), if_pos trivial, if_neg (inside _),
      ofLe_take (by omega)]
    simp
  · simp only [cons_append, readCompactSize]
    rw [if_neg (by decide), if_neg (by decide), if_neg (by decide), if_neg (inside _),
      ofLe_take (by omega)]
    simp

theorem readCompactSize_used (ok : readCompactSize s = .ok (v, n)) : 1 ≤ n ∧ n ≤ s.length := by
  cases s with
  | nil => cases ok
  | cons first buf =>
    rw [readCompactSize] at ok
    rw [length_cons]
    split_ifs at ok <;> cases ok <;> omega

theorem readCompactSize_take (ok : readCompactSize s = .ok (v, n)) (rest : Bytes) :
    readCompactSize (s.take n ++ rest) = .ok (v, n) := by
  cases s with
  | nil => cases ok
  | cons first buf =>
    have enough {width : Nat} (fits : ¬buf.length < width) :
        ¬(buf.take width ++ rest).length < width := by
      rw [length_append, length_take]
      omega
    have front {width : Nat} (fits : ¬buf.length < width) :
        (buf.take width ++ rest).take width = buf.take width :=
      take_left' (length_take_of_le (Nat.le_of_not_lt fits))
    rw [readCompactSize] at ok
    split_ifs at ok with small two fits four fits fits <;> cases ok <;>
      simp only [take_succ_cons, cons_append, readCompactSize]
    · rw [if_pos small]
    · rw [if_neg small, if_pos two, if_neg (enough fits), front fits]
    · rw [if_neg small, if_neg two, if_pos four, if_neg (enough fits), front fits]
    · rw [if_neg small, if_neg two, if_neg four, if_neg (enough fits), front fits]

theorem compactSize_length_pos (n : Nat) : 0 < (compactSize n).length := by
  unfold compactSize
  split_ifs <;> simp

theorem compactSize_length_le (n : Nat) : (compactSize n).length ≤ 9 := by
  unfold compactSize
  split_ifs <;> simp

/-- Seven bits a byte, the low ones first, into a buffer of some room. -/
def writeUleb128Into : Nat → Nat → Except PackError Bytes
  | 0, _ => .error ⟨"uleb128 dest short"⟩
  | room + 1, n =>
    if n / 128 = 0 then .ok [ofNat (n % 128)]
    else do
      let rest ← writeUleb128Into room (n / 128)
      .ok (ofNat (n % 128 + 128) :: rest)

/-- Ten bytes hold every `u64`. -/
def writeUleb128 (n : Nat) : Bytes := (writeUleb128Into 10 n).toOption.getD []

def readUleb128From (result shift used : Nat) : Bytes → Except PackError (Nat × Nat)
  | [] => .error ⟨"uleb128 truncated"⟩
  | b :: buf =>
    if 64 ≤ shift then .error ⟨"uleb128 overflow"⟩
    else
      let piece := b.toNat % 128
      -- one bit is left at 63
      if shift = 63 ∧ 1 < piece then .error ⟨"uleb128 overflow"⟩
      else if b.toNat < 128 then .ok (result ||| piece <<< shift, used + 1)
      else readUleb128From (result ||| piece <<< shift) (shift + 7) (used + 1) buf

def readUleb128 (buf : Bytes) : Except PackError (Nat × Nat) := readUleb128From 0 0 0 buf

theorem readUleb128From_write {room : Nat} (result shift used : Nat) (rest : Bytes)
    (fits : n * 2 ^ shift < 2 ^ 64) (below : result < 2 ^ shift) (more : shift = 0 ∨ 1 ≤ n)
    (enough : n < 128 ^ room) (enc : Bytes) (written : writeUleb128Into room n = .ok enc) :
    readUleb128From result shift used (enc ++ rest) =
      .ok (result + n * 2 ^ shift, used + enc.length) := by
  induction room generalizing n result shift used enc with
  | zero => cases written
  | succ room ih =>
    have early : ¬64 ≤ shift := by
      intro late
      obtain rfl | some := more
      · omega
      · have : 2 ^ 64 ≤ 2 ^ shift := Nat.pow_le_pow_right (by decide) late
        have := Nat.le_mul_of_pos_left (2 ^ shift) some
        omega
    have bit (piece : Nat) (le : piece ≤ n) : ¬(shift = 63 ∧ 1 < piece) := by
      rintro ⟨rfl, big⟩
      omega
    have joined (piece : Nat) : result ||| piece <<< shift = result + piece * 2 ^ shift := by
      rw [Nat.or_comm, ← Nat.shiftLeft_add_eq_or_of_lt below, Nat.shiftLeft_eq, Nat.add_comm]
    unfold writeUleb128Into at written
    split at written
    · next last =>
      cases written
      have piece : n % 128 = n := by omega
      have value : (ofNat n).toNat = n := by
        simp
        omega
      simp only [piece, cons_append, readUleb128From, value]
      rw [if_neg early, if_neg (bit n (Nat.le_refl n)), if_pos (by omega), joined]
      rfl
    · next later =>
      cases tail : writeUleb128Into room (n / 128) with
      | error e =>
        rw [tail] at written
        cases written
      | ok enc' =>
        rw [tail] at written
        cases written
        have value : (ofNat (n % 128 + 128)).toNat = n % 128 + 128 := by
          simp
          omega
        have piece : (n % 128 + 128) % 128 = n % 128 := by omega
        have whole : n / 128 * 2 ^ (shift + 7) + n % 128 * 2 ^ shift = n * 2 ^ shift := by
          rw [Nat.pow_add, Nat.mul_comm (2 ^ shift), ← Nat.mul_assoc, ← Nat.add_mul]
          congr 1
          omega
        simp only [cons_append, readUleb128From, value, piece]
        rw [if_neg early, if_neg (bit _ (Nat.mod_le _ _)), if_neg (by omega), joined,
          ih _ _ _ (by omega) ?_ (.inr (by omega)) ?_ enc' tail]
        · simp only [length_cons]
          congr 2
          · omega
          · omega
        · have : n % 128 * 2 ^ shift ≤ 127 * 2 ^ shift := Nat.mul_le_mul_right _ (by omega)
          rw [Nat.pow_add]
          omega
        · omega

theorem writeUleb128Into_ok {room : Nat} (some_room : 0 < room) (enough : n < 128 ^ room) :
    ∃ enc, writeUleb128Into room n = .ok enc ∧ 0 < enc.length := by
  induction room generalizing n with
  | zero => exact absurd some_room (Nat.lt_irrefl 0)
  | succ room ih =>
    unfold writeUleb128Into
    split
    · exact ⟨_, rfl, by simp⟩
    · next later =>
      have rest : n / 128 < 128 ^ room := by omega
      cases room with
      | zero => omega
      | succ room =>
        obtain ⟨enc, written, -⟩ := ih (by omega) rest
        rw [written]
        exact ⟨_, rfl, by simp⟩

/-- A LEB128 number comes back with its length. -/
theorem readUleb128_writeUleb128 (h : n < 2 ^ 64) (rest : Bytes) :
    readUleb128 (writeUleb128 n ++ rest) = .ok (n, (writeUleb128 n).length) := by
  have enough : n < 128 ^ 10 := by omega
  obtain ⟨enc, written, -⟩ := writeUleb128Into_ok (by decide) enough
  have same : writeUleb128 n = enc := by
    rw [writeUleb128, written]
    rfl
  rw [same, readUleb128, readUleb128From_write 0 0 0 rest (by omega) (by decide) (.inl rfl) enough
    enc written]
  simp

theorem readUleb128From_used {result shift used : Nat}
    (ok : readUleb128From result shift used s = .ok (v, n)) :
    used + 1 ≤ n ∧ n ≤ used + s.length := by
  induction s generalizing result shift used with
  | nil => cases ok
  | cons b buf ih =>
    rw [length_cons]
    simp only [readUleb128From] at ok
    split_ifs at ok
    · cases ok
      omega
    · have := ih ok
      omega

theorem readUleb128_used (ok : readUleb128 s = .ok (v, n)) : 1 ≤ n ∧ n ≤ s.length := by
  have := readUleb128From_used ok
  omega

end Rbitcoin.Tx
