import Rbitcoin.Lib.Bytes

/-! Script integers: sign and magnitude, little-endian, shortest form when minimality is asked
for. -/

namespace Rbitcoin.Script

open Bytes

inductive ScriptNumError
  | overflow
  | nonMinimal
  deriving DecidableEq, Repr

def ScriptNumError.display : ScriptNumError → String
  | .overflow => "scriptnum overflow"
  | .nonMinimal => "SCRIPTNUM"

/-- The bytes of a magnitude without leading zeros, at most `fuel` of them. -/
def magnitudeBytes : Nat → Nat → Bytes
  | 0, _ => []
  | fuel + 1, n => if n = 0 then [] else UInt8.ofNat n :: magnitudeBytes fuel (n / 256)

/-- `scriptnum_encode` on an `i64`, whose magnitude has at most eight bytes. -/
def scriptnumEncode (n : Int) : Bytes :=
  let neg := n < 0
  let out := magnitudeBytes 8 n.natAbs
  match out.getLast? with
  | none => []
  | some last =>
    if last &&& 0x80 ≠ 0 then out ++ [if neg then 0x80 else 0x00]
    else if neg then out.dropLast ++ [last ||| 0x80]
    else out

def scriptnumIsMinimal (vch : Bytes) : Bool :=
  match vch.reverse with
  | [] => true
  | [last] => last &&& 0x7f ≠ 0
  | last :: before :: _ => last &&& 0x7f ≠ 0 || before &&& 0x80 ≠ 0

/-- `scriptnum_decode_width`: arithmetic reads at most 4 bytes, the lock opcodes 5. -/
def scriptnumDecodeWidth (v : Bytes) (maxLen : Nat) (requireMinimal : Bool) :
    Except ScriptNumError Int :=
  if maxLen < v.length then .error .overflow
  else if requireMinimal && !scriptnumIsMinimal v then .error .nonMinimal
  else
    match v.getLast? with
    | none => .ok 0
    | some last =>
      if last &&& 0x80 ≠ 0 then .ok (-((ofLe v : Int) - 0x80 * 256 ^ (v.length - 1)))
      else .ok (ofLe v)

def scriptnumDecode (v : Bytes) (requireMinimal : Bool) : Except ScriptNumError Int :=
  scriptnumDecodeWidth v 4 requireMinimal

example : (scriptnumEncode (-255), scriptnumDecodeWidth [0xff, 0x80] 4 true) =
    ([0xff, 0x80], .ok (-255)) := by decide

end Rbitcoin.Script
