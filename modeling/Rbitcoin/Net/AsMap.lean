import Mathlib.Data.Nat.Size
import Rbitcoin.Lib.Bytes
import Rbitcoin.Lib.Loop

/-! Maps from addresses to autonomous systems. A map is a program of jumps and matches on the bits
of an address, packed bit by bit, and a check is made of it once: a walk over its instructions in
order, which keeps what is left of the address at each place that a jump may go to. A program that
passes the check never aborts, whatever the address. -/

namespace Rbitcoin.Net

open Bytes

namespace AsMap

/-- The value of an operand or an opcode that could not be read. -/
def invalid : Nat := 0xFFFFFFFF

def typeBitSizes : List Nat := [0, 0, 1]

def asnBitSizes : List Nat := [15, 16, 17, 18, 19, 20, 21, 22, 23, 24]

def matchBitSizes : List Nat := [1, 2, 3, 4, 5, 6, 7, 8]

def jumpBitSizes : List Nat :=
  [5, 6, 7, 8, 9, 10, 11, 12, 13, 14, 15, 16, 17, 18, 19, 20, 21, 22, 23, 24, 25, 26, 27, 28, 29,
    30]

def consumeBitLe (bitpos : Nat) (data : Bytes) : Option (Bool × Nat) :=
  if data.length * 8 ≤ bitpos then none
  else some ((data.byteAt (bitpos / 8)).toNat.testBit (bitpos % 8), bitpos + 1)

def consumeBitBe (bitpos : Nat) (data : Bytes) : Option (Bool × Nat) :=
  if data.length * 8 ≤ bitpos then none
  else some ((data.byteAt (bitpos / 8)).toNat.testBit (7 - bitpos % 8), bitpos + 1)

/-- The inner loop of `decode_bits`: `sz` bits, the highest one first. -/
def decodeMantissa (data : Bytes) (val : Nat) : Nat → Nat → Nat × Nat
  | bitpos, 0 => (val, bitpos)
  | bitpos, sz + 1 =>
    match consumeBitLe bitpos data with
    | none => (invalid, bitpos)
    | some (bit, next) =>
      if bit then decodeMantissa data (saturatingAdd 32 val (2 ^ sz)) next sz
      else decodeMantissa data val next sz

/-- The value and the position after it. -/
def decodeBits (data : Bytes) : Nat → Nat → List Nat → Nat × Nat
  | bitpos, _, [] => (invalid, bitpos)
  | bitpos, val, [sz] => decodeMantissa data val bitpos sz
  | bitpos, val, sz :: sizes =>
    match consumeBitLe bitpos data with
    | none => (invalid, bitpos)
    | some (true, next) => decodeBits data next (saturatingAdd 32 val (2 ^ sz)) sizes
    | some (false, next) => decodeMantissa data val next sz

variable (data : Bytes)

section

variable (bitpos : Nat)

def decodeType : Nat × Nat := decodeBits data bitpos 0 typeBitSizes

def decodeAsn : Nat × Nat := decodeBits data bitpos 1 asnBitSizes

def decodeMatch : Nat × Nat := decodeBits data bitpos 2 matchBitSizes

def decodeJump : Nat × Nat := decodeBits data bitpos 17 jumpBitSizes

end

/-- `bit_width`, the number of bits up to the highest one that is set. -/
def bitWidth (x : Nat) : Nat := Nat.size x

def matchLen (matchv : Nat) : Int := (bitWidth matchv : Int) - 1

inductive Opcode
  | returnAsn
  | jump
  | matchBits
  | defaultAsn
  deriving DecidableEq, Repr

/-- The opcode of a number; there are four of them. -/
def Opcode.decode : Nat → Option Opcode
  | 0 => some .returnAsn
  | 1 => some .jump
  | 2 => some .matchBits
  | 3 => some .defaultAsn
  | _ => none

/-- The state of `interpret` at the start of a turn. -/
structure Machine where
  pos : Nat
  ipBit : Nat
  defaultAsn : Nat
  deriving DecidableEq, Repr

/-- How `interpret` leaves its loop: with the operand of a `RETURN`, with the default after a
`MATCH` that failed, or through a `break`. -/
inductive Exit
  | returned (asn : Nat)
  | unmatched (asn : Nat)
  | aborted
  deriving DecidableEq, Repr

def Exit.value : Exit → Nat
  | .returned asn => asn
  | .unmatched asn => asn
  | .aborted => 0

/-- How the bits of a match instruction compare. -/
inductive Matched
  | all (ipBit : Nat)
  | differs
  | short
  deriving DecidableEq, Repr

def matchBits (ip : Bytes) (matchv : Nat) : Nat → Nat → Matched
  | 0, ipBit => .all ipBit
  | n + 1, ipBit =>
    match consumeBitBe ipBit ip with
    | none => .short
    | some (got, next) => if got ≠ matchv.testBit n then .differs else matchBits ip matchv n next

def ipBitsEnd : Nat := 128

def interpretTurn (data ip : Bytes) (m : Machine) : Exit ⊕ Machine :=
  let (opcode, pos) := decodeType data m.pos
  match Opcode.decode opcode with
  | some .returnAsn =>
    let (asn, _) := decodeAsn data pos
    if asn = invalid then .inl .aborted else .inl (.returned asn)
  | some .jump =>
    let (jump, pos) := decodeJump data pos
    if jump = invalid then .inl .aborted
    else if m.ipBit = ipBitsEnd then .inl .aborted
    else
      match consumeBitBe m.ipBit ip with
      | none => .inl .aborted
      | some (bit, ipBit) =>
        .inr { m with pos := if bit then pos + jump else pos, ipBit := ipBit }
  | some .matchBits =>
    let (matchv, pos) := decodeMatch data pos
    if matchv = invalid then .inl .aborted
    else if matchLen matchv ≤ 0 then .inl .aborted
    else if ipBitsEnd - m.ipBit < (matchLen matchv).toNat then .inl .aborted
    else
      match matchBits ip matchv (matchLen matchv).toNat m.ipBit with
      | .differs => .inl (.unmatched m.defaultAsn)
      | .short => .inl .aborted
      | .all ipBit => .inr { m with pos := pos, ipBit := ipBit }
  | some .defaultAsn =>
    let (asn, pos) := decodeAsn data pos
    if asn = invalid then .inl .aborted else .inr { m with pos := pos, defaultAsn := asn }
  | none => .inl .aborted

/-- The exit of `interpret`, if it leaves its loop within some turns. -/
def interpretExit (data ip : Bytes) (turns : Nat) : Option Exit :=
  Loop.run (interpretTurn data ip) turns ⟨0, 0, 0⟩

/-- The state of `sanity_check_bits` at the start of a turn. The top of the stack of jumps comes
first. -/
structure Sanity where
  pos : Nat
  jumps : List (Nat × Int)
  bits : Int
  prevopcode : Opcode
  hadIncompleteMatch : Bool
  deriving DecidableEq, Repr

def zerosFrom (pos : Nat) : Bool :=
  (List.range' pos (data.length * 8 - pos)).all fun i =>
    !(data.byteAt (i / 8)).toNat.testBit (i % 8)

/-- What may come after the last `RETURN`: up to seven zeros. -/
def sanityEnd (pos : Nat) : Bool :=
  if 7 < data.length * 8 - pos then false else zerosFrom data pos

variable (s : Sanity)

def sanityReturn (pos : Nat) : Bool ⊕ Sanity :=
  if s.prevopcode = .defaultAsn then .inl false
  else
    let (asn, pos) := decodeAsn data pos
    if asn = invalid then .inl false
    else
      match s.jumps with
      | [] => .inl (sanityEnd data pos)
      | (target, restore) :: jumps =>
        if pos ≠ target then .inl false
        else .inr { s with pos := pos, jumps := jumps, bits := restore, prevopcode := .jump }

def sanityJump (pos : Nat) : Bool ⊕ Sanity :=
  let (jump, pos) := decodeJump data pos
  if jump = invalid then .inl false
  else if s.bits = 0 then .inl false
  else if ∃ top ∈ s.jumps.head?, top.1 ≤ pos + jump then .inl false
  else .inr { s with
    pos := pos
    jumps := (pos + jump, s.bits - 1) :: s.jumps
    bits := s.bits - 1
    prevopcode := .jump }

def sanityMatch (pos : Nat) : Bool ⊕ Sanity :=
  let (matchv, pos) := decodeMatch data pos
  if matchv = invalid then .inl false
  else
    let hadIncompleteMatch := s.prevopcode = .matchBits ∧ s.hadIncompleteMatch
    if matchLen matchv < 8 ∧ hadIncompleteMatch then .inl false
    else if s.bits < matchLen matchv then .inl false
    else .inr { s with
      pos := pos
      bits := s.bits - matchLen matchv
      prevopcode := .matchBits
      hadIncompleteMatch := matchLen matchv < 8 }

/-- The branch of `sanity_check_bits` for a `DEFAULT`. -/
def sanityDefault (pos : Nat) : Bool ⊕ Sanity :=
  if s.prevopcode = .defaultAsn then .inl false
  else
    let (asn, pos) := decodeAsn data pos
    if asn = invalid then .inl false
    else .inr { s with pos := pos, prevopcode := .defaultAsn }

/-- One turn of the loop of `sanity_check_bits`, or the end of it. -/
def sanityTurn : Bool ⊕ Sanity :=
  if s.pos = data.length * 8 then .inl false
  else if ∃ top ∈ s.jumps.head?, top.1 ≤ s.pos then .inl false
  else
    let (opcode, pos) := decodeType data s.pos
    match Opcode.decode opcode with
    | some .returnAsn => sanityReturn data s pos
    | some .jump => sanityJump data s pos
    | some .matchBits => sanityMatch data s pos
    | some .defaultAsn => sanityDefault data s pos
    | none => .inl false

/-- The walk of `sanity_check_bits` from its start, of some turns. -/
def sanityRun (bits : Int) (turns : Nat) : Option Bool :=
  Loop.run (sanityTurn data) turns ⟨0, [], bits, .jump, false⟩

/-- `sanity_check_bits`. Each turn reads a bit or more, so that there are not more turns than bits
and one. -/
def sanityCheckBits (bits : Int) : Bool :=
  (sanityRun data bits (data.length * 8 + 1)).getD false

def sanityCheck : Bool := sanityCheckBits data 128

section Decode

variable {data : Bytes}

theorem consumeBitLe_eq_some {bitpos next : Nat} {bit : Bool}
    (read : consumeBitLe bitpos data = some (bit, next)) :
    next = bitpos + 1 ∧ bitpos < data.length * 8 := by
  rw [consumeBitLe] at read
  split_ifs at read with past
  rw [Option.some.injEq, Prod.mk.injEq] at read
  exact ⟨read.2.symm, not_le.mp past⟩

variable (data) {val : Nat}

theorem le_saturatingAdd (small : val ≤ invalid) (more : Nat) :
    val ≤ saturatingAdd 32 val more ∧ saturatingAdd 32 val more ≤ invalid :=
  ⟨Nat.le_min.mpr ⟨Nat.le_add_right .., small⟩, Nat.min_le_right ..⟩

theorem decodeMantissa_bounds (small : val ≤ invalid) (bitpos sz : Nat) :
    bitpos ≤ (decodeMantissa data val bitpos sz).2 ∧
      val ≤ (decodeMantissa data val bitpos sz).1 := by
  induction sz generalizing val bitpos with
  | zero => exact ⟨le_rfl, le_rfl⟩
  | succ sz ih =>
    rw [decodeMantissa]
    cases read : consumeBitLe bitpos data with
    | none => exact ⟨le_rfl, small⟩
    | some bit =>
      obtain ⟨bit, next⟩ := bit
      obtain ⟨rfl, -⟩ := consumeBitLe_eq_some read
      have grown := le_saturatingAdd small (2 ^ sz)
      dsimp only
      split_ifs
      · have rest := ih grown.2 (bitpos + 1)
        exact ⟨(Nat.le_succ _).trans rest.1, grown.1.trans rest.2⟩
      · have rest := ih small (bitpos + 1)
        exact ⟨(Nat.le_succ _).trans rest.1, rest.2⟩

theorem decodeBits_bounds (small : val ≤ invalid) (bitpos : Nat) (sizes : List Nat) :
    bitpos ≤ (decodeBits data bitpos val sizes).2 ∧ val ≤ (decodeBits data bitpos val sizes).1 := by
  fun_induction decodeBits data bitpos val sizes with
  | case1 => exact ⟨le_rfl, small⟩
  | case2 => exact decodeMantissa_bounds data small ..
  | case3 => exact ⟨le_rfl, small⟩
  | case4 bitpos val sz sizes _ next read ih =>
    obtain ⟨rfl, -⟩ := consumeBitLe_eq_some read
    have grown := le_saturatingAdd small (2 ^ sz)
    have rest := ih grown.2
    exact ⟨(Nat.le_succ _).trans rest.1, grown.1.trans rest.2⟩
  | case5 bitpos val sz sizes _ next read =>
    obtain ⟨rfl, -⟩ := consumeBitLe_eq_some read
    have rest := decodeMantissa_bounds data small (bitpos + 1) sz
    exact ⟨(Nat.le_succ _).trans rest.1, rest.2⟩

variable {data} {bitpos : Nat} {op : Opcode}

theorem decodeType_lt (read : Opcode.decode (decodeType data bitpos).1 = some op) :
    bitpos < (decodeType data bitpos).2 ∧ bitpos < data.length * 8 := by
  rw [decodeType, typeBitSizes, decodeBits] at read ⊢
  · cases first : consumeBitLe bitpos data with
    | none =>
      rw [first] at read
      cases read
    | some bit =>
      obtain ⟨bit, next⟩ := bit
      obtain ⟨rfl, inside⟩ := consumeBitLe_eq_some first
      refine ⟨?_, inside⟩
      cases bit
      · exact (decodeMantissa_bounds data (by decide) (bitpos + 1) 0).1
      · exact (decodeBits_bounds data (by decide) (bitpos + 1) [0, 1]).1
  · simp
  · simp

theorem matchLen_pos (data : Bytes) (bitpos : Nat) : 0 < matchLen (decodeMatch data bitpos).1 := by
  have two : 2 ≤ (decodeMatch data bitpos).1 := (decodeBits_bounds data (by decide) ..).2
  have size : 1 < Nat.size (decodeMatch data bitpos).1 := Nat.lt_size.mpr two
  rw [matchLen, bitWidth]
  omega

end Decode

end AsMap

end Rbitcoin.Net
