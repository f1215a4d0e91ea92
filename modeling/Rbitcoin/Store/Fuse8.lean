import Rbitcoin.Store.Bdz

/-! The filters beside sealed heads: a fingerprint of eight bits for three places of each key. A
filter may take a key that it was not built of. -/

namespace Rbitcoin.Store

open Bytes Outcome

/-- A filter of one-byte fingerprints. -/
structure BinaryFuse8 where
  seed : UInt64
  segmentLength : Nat
  segmentLengthMask : Nat
  segmentCountLength : Nat
  fingerprints : Bytes
  deriving DecidableEq, Repr

namespace BinaryFuse8

def mix (key seed : UInt64) : UInt64 := mix64 (key + seed)

def fingerprint (hash : UInt64) : UInt64 := hash ^^^ (hash >>> 32)

def hashOfHash (hash : UInt64) (segmentLength segmentLengthMask segmentCountLength : Nat) :
    Nat × Nat × Nat :=
  let h0 := mulHigh hash segmentCountLength
  let h1 := h0 + segmentLength
  let h2 := h1 + segmentLength
  (h0, h1 ^^^ ((hash >>> 18).toNat % 2 ^ 32 &&& segmentLengthMask),
    h2 ^^^ (hash.toNat % 2 ^ 32 &&& segmentLengthMask))

def contains (f : BinaryFuse8) (key : UInt64) : Bool :=
  let hash := mix key f.seed
  let (h0, h1, h2) := hashOfHash hash f.segmentLength f.segmentLengthMask f.segmentCountLength
  let byte := (fingerprint hash).toUInt8 ^^^
    (f.fingerprints.byteAt h0 ^^^ f.fingerprints.byteAt h1 ^^^ f.fingerprints.byteAt h2)
  byte = 0

/-- The checks that a filter passes when its file is opened. -/
def geometry (f : BinaryFuse8) : Bool :=
  f.fingerprints.length ≤ 512 * 1024 * 1024 ∧
  f.segmentLength ≠ 0 ∧ f.segmentLengthMask = f.segmentLength - 1 ∧
  f.segmentLength &&& (f.segmentLength - 1) = 0 ∧
  f.segmentLength ≤ f.segmentCountLength ∧ f.segmentCountLength % f.segmentLength = 0 ∧
  f.segmentCountLength + 2 * f.segmentLength ≤ f.fingerprints.length

end BinaryFuse8

end Rbitcoin.Store
