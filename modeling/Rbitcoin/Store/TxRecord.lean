import Rbitcoin.Store.OutputRecord

/-! What the packed rows of a transaction share: the secret that hides scripts at rest, the head of
a `txout` row, and the zeros that fill a row up. -/

namespace Rbitcoin.Store

open Bytes Tx List

structure StoreSecret where
  bytes : Bytes
  length_eq : bytes.length = 32

namespace StoreSecret

def golden : UInt64 := 0x9E3779B97F4A7C15

variable (secret : StoreSecret)

/-- The byte of the stream at an offset of the payload. -/
def xorKeyByte (off : UInt64) : UInt8 :=
  secret.bytes.byteAt (off.toNat % 32) ^^^ ((off * golden) >>> 56).toUInt8

def xorBytes (startOff : UInt64) (buf : Bytes) : Bytes :=
  buf.mapIdx fun j b => b ^^^ secret.xorKeyByte (startOff + UInt64.ofNat j)

@[simp] theorem length_xorBytes (off : UInt64) (buf : Bytes) :
    (secret.xorBytes off buf).length = buf.length := length_mapIdx

@[simp] theorem xorBytes_xorBytes (off : UInt64) (buf : Bytes) :
    secret.xorBytes off (secret.xorBytes off buf) = buf := by
  refine ext_getElem (by simp) fun i _ _ => ?_
  simp only [xorBytes, getElem_mapIdx]
  rw [UInt8.xor_assoc, UInt8.xor_self, UInt8.xor_zero]

end StoreSecret

variable (secret : Option StoreSecret)

/-- The bytes of a script as they are stored: under the secret, if there is one. -/
def hide (off : UInt64) (buf : Bytes) : Bytes :=
  match secret with
  | none => buf
  | some secret => secret.xorBytes off buf

@[simp] theorem length_hide (off : UInt64) (buf : Bytes) :
    (hide secret off buf).length = buf.length := by
  cases secret with
  | none => rfl
  | some secret => exact secret.length_xorBytes off buf

@[simp] theorem hide_hide (off : UInt64) (buf : Bytes) :
    hide secret off (hide secret off buf) = buf := by
  cases secret with
  | none => rfl
  | some secret => exact secret.xorBytes_xorBytes off buf

structure TxRecord where
  txid : Bytes
  /-- The bits of the signed 32-bit version. -/
  version : UInt32
  locktime : UInt32
  inputCount : Nat
  outputCount : Nat
  deriving DecidableEq, Repr

namespace TxRecord

def zeroTxid : Bytes := List.replicate 32 0

def layout17 : UInt8 := 0x80
def ver1 : UInt8 := 0x01
def ver2 : UInt8 := 0x02
def ver3 : UInt8 := 0x04
def locktimeZero : UInt8 := 0x08
/-- The number of inputs is on `txstat.body`. -/
def nInTxstat : UInt8 := 0x10
def reserved : UInt8 := 0x60
def verMask : UInt8 := ver1 ||| ver2 ||| ver3

variable (version : UInt32)

def versionFlag : UInt8 :=
  if version = 1 then ver1 else if version = 2 then ver2 else if version = 3 then ver3 else 0

variable (rec : TxRecord)

def metaFlags : UInt8 :=
  layout17 ||| nInTxstat ||| versionFlag rec.version |||
    (if rec.locktime = 0 then locktimeZero else 0)

def encodeBodyMetaV17 : Bytes :=
  [rec.metaFlags] ++
    ((if rec.metaFlags &&& verMask = 0 then toLe 4 rec.version.toNat else []) ++
      if rec.locktime ≠ 0 then writeUleb128 rec.locktime.toNat else [])

/-- A number of 32 bits that may be left out, and the bytes that it takes. -/
def readU32 (absent : Prop) [Decidable absent] (buf : Bytes) (overflow : String) :
    Result (Nat × Nat) := do
  if absent then return (0, 0)
  let (v, n) ← liftPack (readUleb128 buf)
  if 2 ^ 32 ≤ v then corrupt overflow else return (v, n)

/-- The version and the bytes that it takes, if no flag gives it. -/
def readVersion (verBits : UInt8) (buf : Bytes) : Result (UInt32 × Nat) :=
  if verBits = 0 then
    if buf.length < 4 then corrupt "short v17 txout version"
    else .ok (UInt32.ofNat (ofLe (buf.take 4)), 4)
  else if verBits = ver1 then .ok (1, 0)
  else if verBits = ver2 then .ok (2, 0)
  else .ok (3, 0)

/-- The record and the bytes that it takes. The txid and the number of outputs are not stored. -/
def decodeBodyMetaV17 : Bytes → Result (TxRecord × Nat)
  | [] => corrupt "short v17 txout meta"
  | flags :: buf => do
    let verBits := flags &&& verMask
    if flags &&& layout17 = 0 then corrupt "legacy txout meta missing LAYOUT17 bit"
    else if flags &&& reserved ≠ 0 then corrupt "v17 txout meta reserved flags"
    -- more than one of the three bits
    else if verBits ≠ 0 ∧ verBits ≠ ver1 ∧ verBits ≠ ver2 ∧ verBits ≠ ver3 then
      corrupt "v17 txout meta multiple VER bits"
    else
      let (version, n) ← readVersion verBits buf
      let (locktime, m) ←
        readU32 (flags &&& locktimeZero ≠ 0) (buf.drop n) "v17 locktime overflow"
      let (inputCount, k) ←
        readU32 (flags &&& nInTxstat ≠ 0) (buf.drop (n + m)) "v17 input_count overflow"
      return (⟨zeroTxid, version, UInt32.ofNat locktime, inputCount, 0⟩, 1 + n + m + k)

theorem readVersion_written (rest : Bytes) : readVersion (versionFlag version)
        ((if versionFlag version = 0 then toLe 4 version.toNat else []) ++ rest) =
      .ok (version, (if versionFlag version = 0 then toLe 4 version.toNat else []).length) := by
  by_cases one : version = 1
  · rw [one]
    rfl
  by_cases two : version = 2
  · rw [two]
    rfl
  by_cases three : version = 3
  · rw [three]
    rfl
  have plain : versionFlag version = 0 := by
    rw [versionFlag, if_neg one, if_neg two, if_neg three]
  have fits : version.toNat < 256 ^ 4 := version.toNat_lt
  rw [plain, if_pos rfl, readVersion, if_pos rfl, ofLe_take fits]
  simp

theorem readU32_written {absent : Prop} [Decidable absent] (n : UInt32)
    (flag : absent ↔ n = 0) (rest : Bytes) (overflow : String) :
    readU32 absent ((if n ≠ 0 then writeUleb128 n.toNat else []) ++ rest) overflow =
      .ok (n.toNat, (if n ≠ 0 then writeUleb128 n.toNat else []).length) := by
  have fits : n.toNat < 2 ^ 32 := n.toNat_lt
  unfold readU32
  by_cases zero : n = 0
  · rw [if_pos (flag.mpr zero), zero]
    rfl
  · rw [if_neg fun set => zero (flag.mp set), if_pos zero]
    simp only [readUleb128_writeUleb128 (show n.toNat < 2 ^ 64 by omega), liftPack,
      Outcome.ok_bind, if_neg (not_le.mpr fits)]
    rfl

theorem versionFlag_mem : versionFlag version ∈ [0, ver1, ver2, ver3] := by
  unfold versionFlag
  split_ifs <;> decide

theorem metaFlags_spec : rec.metaFlags &&& layout17 ≠ 0 ∧ rec.metaFlags &&& reserved = 0 ∧
      rec.metaFlags &&& verMask = versionFlag rec.version ∧
      (rec.metaFlags &&& locktimeZero ≠ 0 ↔ rec.locktime = 0) ∧
      rec.metaFlags &&& nInTxstat ≠ 0 := by
  have version := versionFlag_mem rec.version
  unfold metaFlags
  generalize versionFlag rec.version = bits at version
  simp only [mem_cons, not_mem_nil, or_false] at version
  by_cases zero : rec.locktime = 0
  · simp only [zero]
    rcases version with rfl | rfl | rfl | rfl <;> decide
  · simp only [zero]
    rcases version with rfl | rfl | rfl | rfl <;> decide

/-- The head of a row comes back without what is stored elsewhere. -/
theorem decodeBodyMetaV17_encode (rest : Bytes) :
    decodeBodyMetaV17 (rec.encodeBodyMetaV17 ++ rest) =
      .ok ({ rec with txid := zeroTxid, inputCount := 0, outputCount := 0 },
        rec.encodeBodyMetaV17.length) := by
  obtain ⟨layout, free, version, locktime, counted⟩ := metaFlags_spec rec
  have one_bit := versionFlag_mem rec.version
  have no_clash : ¬(versionFlag rec.version ≠ 0 ∧ versionFlag rec.version ≠ ver1 ∧
      versionFlag rec.version ≠ ver2 ∧ versionFlag rec.version ≠ ver3) := by
    simp only [mem_cons] at one_bit
    tauto
  simp only [encodeBodyMetaV17, cons_append, nil_append, append_assoc,
    decodeBodyMetaV17, version, if_neg layout, if_neg (not_not.mpr free), if_neg no_clash,
    readVersion_written, Outcome.ok_bind, drop_left, readU32_written rec.locktime locktime]
  rw [readU32, if_pos counted]
  simp [pure, Except.pure]
  omega

end TxRecord

/-- A row may be longer than what is in it, by zeros. -/
def checkTrailingZeroPad (raw : Bytes) (logicalEnd : Nat) : Result Unit :=
  if raw.length < logicalEnd then corrupt "packed Class A short payload"
  else if ∃ b ∈ raw.drop logicalEnd, b ≠ 0 then corrupt "packed Class A trailing non-zero"
  else .ok ()

theorem checkTrailingZeroPad_replicate (row : Bytes) (pad : Nat) :
    checkTrailingZeroPad (row ++ replicate pad 0) row.length = .ok () := by
  have zeros : ¬∃ b ∈ (row ++ replicate pad (0 : UInt8)).drop row.length, b ≠ 0 := by
    rw [drop_left]
    rintro ⟨b, mem, nonzero⟩
    exact nonzero (eq_of_mem_replicate mem)
  rw [checkTrailingZeroPad, if_neg (by simp), if_neg zeros]

end Rbitcoin.Store
