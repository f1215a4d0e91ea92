import Rbitcoin.Store.Fuse8
import Rbitcoin.Store.BdzIndex

/-! The construction of a filter. The hashes of the keys are sorted roughly by their high bits,
every place counts the hashes that touch it, and the hashes are peeled: a place that one hash
touches names that hash. The fingerprints are then filled in from the last hash to the first.

The sizes come from floating-point logarithms, which stand here as parameters. A panic is `none`. -/

namespace Rbitcoin.Store

open BinaryFuse8 Bytes List Option Function

/-- What the geometry takes from floating-point arithmetic, for a number of keys. -/
structure FuseFloats where
  /-- `(ln size / ln 3.33 + 2.25).floor()`, for a size of 32 bits that is not zero. -/
  lengthLog : Nat → Nat
  /-- `(size * size_factor).round() as u32`. -/
  rounded : Nat → Nat
  two_le_lengthLog : ∀ n, 2 ≤ lengthLog n
  lengthLog_lt : ∀ n, lengthLog n < 32
  rounded_lt : ∀ n, rounded n < 2 ^ 32

/-- The results for 2 and for 7 keys, and for all other numbers those for 65 keys. -/
def sampleFloats : FuseFloats where
  lengthLog n := if n = 2 then 2 else if n = 7 then 3 else 5
  rounded n := if n = 2 then 12 else if n = 7 then 19 else 111
  two_le_lengthLog n := by split_ifs <;> decide
  lengthLog_lt n := by split_ifs <;> decide
  rounded_lt n := by split_ifs <;> decide

/-- The sizes of a filter. -/
structure Fuse8Geom where
  segmentLength : Nat
  segmentLengthMask : Nat
  segmentCountLength : Nat
  fpArrayLen : Nat
  blockBits : Nat
  deriving DecidableEq, Repr

def mul32? (a b : Nat) : Option Nat := if a * b < 2 ^ 32 then some (a * b) else none

def segmentLength (F : FuseFloats) (size : Nat) : Nat :=
  if size = 0 then 4 else 2 ^ F.lengthLog size

/-- The loop for the number of block bits. -/
def growBits (segmentCount : Nat) : Nat → Nat → Option Nat
  | 0, _ => none
  | fuel + 1, bits =>
    if 32 ≤ bits then none
    else if 2 ^ bits < segmentCount then growBits segmentCount fuel (bits + 1)
    else some bits

def fuse8Geom (F : FuseFloats) (size : Nat) : Option Fuse8Geom := do
  let segmentLength := min (segmentLength F (size % 2 ^ 32)) 262144
  let capacity := if 1 < size then F.rounded size else 0
  let initSegmentCount := saturatingAdd 32 capacity (segmentLength - 1) / segmentLength
  let arrayLen ← mul32? initSegmentCount segmentLength
  let proposed := saturatingAdd 32 arrayLen (segmentLength - 1) / segmentLength
  let segmentCount := if proposed < 3 then 1 else proposed - 2
  let fpArrayLen ← mul32? (segmentCount + 2) segmentLength
  let segmentCountLength ← mul32? segmentCount segmentLength
  let blockBits ← growBits segmentCount 33 1
  return { segmentLength, segmentLengthMask := segmentLength - 1, segmentCountLength, fpArrayLen,
           blockBits }

namespace Fuse8Geom

def places (g : Fuse8Geom) (hash : UInt64) : Nat × Nat × Nat :=
  BinaryFuse8.hashOfHash hash g.segmentLength g.segmentLengthMask g.segmentCountLength

/-- The first segment from `segment` on, in a circle, whose position is free. -/
def freeSegment (blockBits : Nat) (order : List UInt64) (startPos : List Nat) :
    Nat → Nat → Option (Nat × Nat)
  | 0, _ => none
  | fuel + 1, segment => do
    let at_ ← startPos[segment]?
    let hash ← order[at_]?
    if hash ≠ 0 then freeSegment blockBits order startPos fuel ((segment + 1) % 2 ^ blockBits)
    else return (segment, at_)

def placeHash (blockBits : Nat) (st : List UInt64 × List Nat) (hash : UInt64) :
    Option (List UInt64 × List Nat) := do
  let (segment, at_) ←
    freeSegment blockBits st.1 st.2 (2 ^ blockBits) (hash.toNat / 2 ^ (64 - blockBits))
  return (st.1.set at_ hash, st.2.set segment (at_ + 1))

/-- The hashes in the order in which they are counted. Behind them stands a one, where every segment
ends. -/
def sortHashes (blockBits : Nat) (hashes : List UInt64) : Option (List UInt64) := do
  let size := hashes.length
  let startPos := (List.range (2 ^ blockBits)).map fun i => i * size % 2 ^ 64 / 2 ^ blockBits
  let st ← hashes.foldlM (placeHash blockBits) (List.replicate size 0 ++ [1], startPos)
  return st.1.take size

/-- What every place knows of the hashes that touch it: their number in the six high bits of a byte,
the exclusive or of the positions where they touch it in the two low ones, and the exclusive or of
the hashes. -/
structure Tally where
  t2count : Nat → Nat
  t2hash : Nat → UInt64

namespace Tally

def empty : Tally := ⟨fun _ => 0, fun _ => 0⟩

def add (t : Tally) (hash : UInt64) (place position : Nat) : Tally where
  t2count := update t.t2count place ((t.t2count place + 4) % 256 ^^^ position)
  t2hash := update t.t2hash place (t.t2hash place ^^^ hash)

def remove (t : Tally) (hash : UInt64) (place position : Nat) : Tally where
  t2count := update t.t2count place ((t.t2count place + 252) % 256 ^^^ position)
  t2hash := update t.t2hash place (t.t2hash place ^^^ hash)

def cancelled (t : Tally) (place : Nat) : Bool := t.t2hash place = 0 ∧ t.t2count place = 8

end Tally

/-- The tally, the number of duplicates, and whether the last hash overflowed a counter. -/
structure Counting where
  tally : Tally
  duplicates : Nat
  error : Bool

def countHash (g : Fuse8Geom) (st : Counting) (hash : UInt64) : Option Counting :=
  let (index1, index2, index3) := g.places hash
  if index1 < g.fpArrayLen ∧ index2 < g.fpArrayLen ∧ index3 < g.fpArrayLen then
    let t := ((st.tally.add hash index1 0).add hash index2 1).add hash index3 2
    let duplicate : Bool := t.t2hash index1 &&& t.t2hash index2 &&& t.t2hash index3 = 0 ∧
      (t.cancelled index1 ∨ t.cancelled index2 ∨ t.cancelled index3)
    let t := if duplicate then
        ((t.remove hash index1 0).remove hash index2 1).remove hash index3 2
      else t
    some {
      tally := t
      duplicates := if duplicate then st.duplicates + 1 else st.duplicates
      error := t.t2count index1 < 4 ∨ t.t2count index2 < 4 ∨ t.t2count index3 < 4 }
  else none

/-- The places to look at and the hashes taken so far with the position of the place that named
them, both with the last one first. -/
structure Fuse8Peel where
  tally : Tally
  alone : List Nat
  stack : List (UInt64 × Nat)

def mod3 (x : Nat) : Nat := if 2 < x then x - 3 else x

/-- The table `h012` of the peeling; its last entry is never written. -/
def h012 (places : Nat × Nat × Nat) : Nat → Nat
  | 0 | 3 => places.1
  | 1 | 4 => places.2.1
  | 2 => places.2.2
  | _ => 0

/-- Take a hash away from another one of its places. -/
def releasePlace (g : Fuse8Geom) (hash : UInt64) (position : Nat) (st : Fuse8Peel) :
    Option Fuse8Peel :=
  let other := h012 (g.places hash) position
  if st.alone.length < g.fpArrayLen ∧ other < g.fpArrayLen then
    some { st with
      tally := st.tally.remove hash other (mod3 position)
      alone := if st.tally.t2count other / 4 = 2 then other :: st.alone else st.alone }
  else none

/-- Work off the places that one hash touches. At most `size` hashes fit on the stack. -/
def peelStack (g : Fuse8Geom) (size : Nat) : Nat → Fuse8Peel → Option (List (UInt64 × Nat))
  | 0, _ => none
  | fuel + 1, st =>
    match st.alone with
    | [] => some st.stack
    | index :: alone =>
      if st.tally.t2count index / 4 ≠ 1 then peelStack g size fuel { st with alone }
      else if size ≤ st.stack.length then none
      else do
        let hash := st.tally.t2hash index
        let found := st.tally.t2count index % 4
        let st := { st with alone, stack := (hash, found) :: st.stack }
        let st ← releasePlace g hash (found + 1) st
        let st ← releasePlace g hash (found + 2) st
        peelStack g size fuel st

/-- Peel the hashes with their places counted. A hash leads to at most two more places, which bounds
the fuel. -/
def fuse8PeelStack (g : Fuse8Geom) (size : Nat) (tally : Tally) : Option (List (UInt64 × Nat)) :=
  let alone := (List.range g.fpArrayLen).filter (tally.t2count · / 4 = 1)
  peelStack g size (g.fpArrayLen + 3 * size + 4) { tally, alone := alone.reverse, stack := [] }

/-- One seed: the stack of a graph that peeled, or nothing. -/
def attempt (g : Fuse8Geom) (keys : List UInt64) (seed : UInt64) :
    Option (Option (List (UInt64 × Nat))) := do
  let order ← sortHashes g.blockBits (keys.map (BinaryFuse8.mix · seed))
  let counting ← order.foldlM g.countHash { tally := .empty, duplicates := 0, error := false }
  if counting.error then return none
  else
    let stack ← g.fuse8PeelStack keys.length counting.tally
    if stack.length + counting.duplicates = keys.length then return some stack else return none

def attempts (g : Fuse8Geom) (keys : List UInt64) :
    List UInt64 → Option (Option (UInt64 × List (UInt64 × Nat)))
  | [] => some none
  | seed :: seeds => do
    match ← g.attempt keys seed with
    | some stack => return some (seed, stack)
    | none => g.attempts keys seeds

/-- The fingerprint of a hash, from its other two places. -/
def assign (g : Fuse8Geom) (fingerprints : Bytes) (x : UInt64 × Nat) : Bytes :=
  let at_ := h012 (g.places x.1)
  fingerprints.set (at_ x.2) ((BinaryFuse8.fingerprint x.1).toUInt8 ^^^
    fingerprints.byteAt (at_ (x.2 + 1)) ^^^ fingerprints.byteAt (at_ (x.2 + 2)))

end Fuse8Geom

namespace BinaryFuse8

def maxIter : Nat := 1000

def seeds : List UInt64 := triedSeeds maxIter 1

def tryFromKeys (F : FuseFloats) (keys : List UInt64) : Option (Except String BinaryFuse8) := do
  let g ← fuse8Geom F keys.length
  match ← g.attempts keys seeds with
  | none => return .error "Failed to construct binary fuse filter."
  | some (seed, stack) =>
    return .ok {
      seed
      segmentLength := g.segmentLength
      segmentLengthMask := g.segmentLengthMask
      segmentCountLength := g.segmentCountLength
      fingerprints := stack.foldl g.assign (List.replicate g.fpArrayLen 0) }

end BinaryFuse8

end Rbitcoin.Store
