import Rbitcoin.Lib.Bits
import Rbitcoin.Lib.Image
import Rbitcoin.Lib.Outcome

/-! Script-hash heads: 16-byte keys and the value of a key, packed into a word whose two top bits
are its mode. -/

namespace Rbitcoin.Store

open Bytes Outcome

/-- The errors of the store. Input and output do not fail here, so data that is not as it should
be is the only error left; a panic ends the call as well. -/
inductive StoreError
  | corrupt (msg : String)
  | panic
  | notFound
  | invalidFk
  deriving DecidableEq, Repr

abbrev Result (α : Type) := Except StoreError α

abbrev corrupt {α : Type} (msg : String) : Result α := .error (.corrupt msg)

def pread (file : Bytes) (off n : Nat) : Result Bytes :=
  match file.slice? off (off + n) with
  | none => corrupt "short pread"
  | some b => .ok b

theorem pread_eq_ok {file : Bytes} {off n : Nat} (inside : off + n ≤ file.length) :
    pread file off n = .ok (file.slice off (off + n)) := by
  rw [pread, slice?_eq_some (by omega) inside]

/-- Prefix of a script hash. -/
structure ShHeadKey where
  bytes : Bytes
  length_eq : bytes.length = 16
  deriving DecidableEq, Repr

theorem ShHeadKey.ext {k l : ShHeadKey} (h : k.bytes = l.bytes) : k = l := by
  cases k
  cases l
  simpa using h

/-- The fold of a key: its two halves, combined. -/
def mixKey16 (key : ShHeadKey) : UInt64 :=
  UInt64.ofNat (ofLe (key.bytes.slice 0 8)) ^^^ UInt64.ofNat (ofLe (key.bytes.slice 8 16))

/-- Byte strings of one length are ordered as the numbers that they spell. -/
def ShHeadKey.rank (key : ShHeadKey) : Nat := ofLe key.bytes.reverse

theorem ShHeadKey.rank_inj {k l : ShHeadKey} (h : k.rank = l.rank) : k = l := by
  have bytes : k.bytes.reverse = l.bytes.reverse := by
    rw [rank, rank, ofLe_eq_ofDigits, ofLe_eq_ofDigits] at h
    have lengths : (k.bytes.reverse.map UInt8.toNat).length =
        (l.bytes.reverse.map UInt8.toNat).length := by simp [k.length_eq, l.length_eq]
    have small (s : Bytes) : ∀ d ∈ s.map UInt8.toNat, d < 256 := by
      intro d hd
      obtain ⟨b, -, rfl⟩ := List.mem_map.mp hd
      exact b.toNat_lt
    have digits := Nat.ofDigits_inj_of_len_eq (by decide) lengths (small _) (small _) h
    exact List.map_injective_iff.mpr (fun a b => UInt8.toNat_inj.mp) digits
  exact ShHeadKey.ext (List.reverse_injective bytes)

/-- Where the entries of a script hash are. -/
inductive ShHeadValue
  | empty
  /-- One entry in the head itself; the format has room for `used = 1` only. -/
  | inline (fk : Nat) (used : Nat)
  /-- `used` entries in a slab of size class `cls` at `off`. -/
  | slab (cls used off : Nat)
  /-- Pages, of which this is the last. -/
  | extent (lastPage : Nat)
  deriving DecidableEq, Repr

namespace ShHeadValue

def isEmpty : ShHeadValue → Bool
  | .empty => true
  | _ => false

def inlineOne (fk : Nat) : ShHeadValue := .inline fk 1

theorem isEmpty_iff {v : ShHeadValue} : v.isEmpty = true ↔ v = .empty := by
  cases v <;> simp [isEmpty]

end ShHeadValue

def payload62 : Nat := 2 ^ 62 - 1
def offMask : Nat := 2 ^ 40 - 1
def classMask : Nat := 0x3f

/-- The word of a value. The fields do not overlap, so their sum is their union. -/
def pack8 : ShHeadValue → Result Nat
  | .empty => .ok 0
  | .inline fk used =>
    if used = 1 then
      if payload62 < fk then corrupt "sh pack8: fk overflow" else .ok fk
    else corrupt "sh pack8: inline cap 1"
  | .slab cls used off =>
    if offMask < off ∨ classMask < cls then corrupt "sh pack8: slab field overflow"
    else .ok (2 ^ 62 + off + used % 2 ^ 16 * 2 ^ 40 + cls * 2 ^ 56)
  | .extent lastPage =>
    if payload62 < lastPage ∨ lastPage = 0 then corrupt "sh pack8: last_page overflow"
    else .ok (3 * 2 ^ 62 + lastPage)

def refusePagedSh : String :=
  "index refuses pack8 Paged (mode 10) scripthash heads; wipe store/scripthash* then restart " ++
    "(Class A kept; SH rematerializes with --sh-index)"

def unpack8 (w : Nat) : Result ShHeadValue :=
  if w = 0 then .ok .empty
  else
    match w / 2 ^ 62 with
    | 0 => .ok (.inlineOne (w % 2 ^ 62))
    | 1 =>
      let used := w / 2 ^ 40 % 2 ^ 16
      if used ≤ 1 then corrupt "sh unpack8: slab used inline"
      else .ok (.slab (w / 2 ^ 56 % 2 ^ 6) used (w % 2 ^ 40))
    | 2 => corrupt refusePagedSh
    | 3 =>
      if w % 2 ^ 62 = 0 then corrupt "sh unpack8: null last_page" else .ok (.extent (w % 2 ^ 62))
    | _ => corrupt "sh unpack8: bad mode"

def pack8Bytes (v : ShHeadValue) : Result UInt64 := do return UInt64.ofNat (← pack8 v)

def unpack8Bytes (w : UInt64) : Result ShHeadValue := unpack8 w.toNat

/-- Values that the packed form keeps. -/
def ShHeadValue.Storable : ShHeadValue → Prop
  | .empty => True
  | .inline fk used => used = 1 ∧ 0 < fk ∧ fk < 2 ^ 62
  | .slab cls used off => cls < 2 ^ 6 ∧ 1 < used ∧ used < 2 ^ 16 ∧ off < 2 ^ 40
  | .extent lastPage => 0 < lastPage ∧ lastPage < 2 ^ 62

instance (v : ShHeadValue) : Decidable v.Storable := by
  cases v <;> unfold ShHeadValue.Storable <;> infer_instance

variable {v : ShHeadValue}

theorem pack8_lt {w : Nat} (h : pack8 v = .ok w) : w < 2 ^ 64 := by
  cases v with
  | empty =>
    cases h
    decide
  | inline fk used =>
    rw [pack8] at h
    split_ifs at h with _ large
    cases h
    rw [payload62] at large
    omega
  | slab cls used off =>
    rw [pack8] at h
    split_ifs at h with large
    cases h
    rw [offMask, classMask] at large
    omega
  | extent lastPage =>
    rw [pack8] at h
    split_ifs at h with large
    cases h
    rw [payload62] at large
    omega

/-- A value that can be stored comes back from its word. -/
theorem unpack8_pack8 (storable : v.Storable) : ∃ w, pack8 v = .ok w ∧ unpack8 w = .ok v := by
  cases v with
  | empty => exact ⟨0, rfl, rfl⟩
  | inline fk used =>
    obtain ⟨rfl, pos, small⟩ := storable
    refine ⟨fk, ?_, ?_⟩
    · rw [pack8, if_pos rfl, if_neg (by rw [payload62]; omega)]
    · have mode : fk / 2 ^ 62 = 0 := Nat.div_eq_of_lt small
      have payload : fk % 2 ^ 62 = fk := Nat.mod_eq_of_lt small
      simp only [unpack8, mode, payload]
      exact if_neg (by omega)
  | slab cls used off =>
    obtain ⟨hcls, two, hused, hoff⟩ := storable
    rw [pack8, if_neg (by rw [offMask, classMask]; omega)]
    generalize packed : 2 ^ 62 + off + used % 2 ^ 16 * 2 ^ 40 + cls * 2 ^ 56 = w
    have mode : w / 2 ^ 62 = 1 := by omega
    have field : w / 2 ^ 40 % 2 ^ 16 = used := by omega
    have size : w / 2 ^ 56 % 2 ^ 6 = cls := by omega
    have low : w % 2 ^ 40 = off := by omega
    refine ⟨w, rfl, ?_⟩
    simp only [unpack8, mode, field, size, low, not_le.mpr two]
    exact if_neg (by omega)
  | extent lastPage =>
    obtain ⟨pos, small⟩ := storable
    refine ⟨3 * 2 ^ 62 + lastPage, ?_, ?_⟩
    · rw [pack8, if_neg (by rw [payload62]; omega)]
    · have mode : (3 * 2 ^ 62 + lastPage) / 2 ^ 62 = 3 := by omega
      have payload : (3 * 2 ^ 62 + lastPage) % 2 ^ 62 = lastPage := by omega
      simp only [unpack8, mode, payload, show lastPage ≠ 0 by omega]
      exact if_neg (by omega)

theorem pack8Bytes_storable (storable : v.Storable) :
    ∃ w, pack8Bytes v = .ok w ∧ unpack8Bytes w = .ok v ∧ (w = 0 ↔ v = .empty) := by
  obtain ⟨w, packed, unpacked⟩ := unpack8_pack8 storable
  have word : (UInt64.ofNat w).toNat = w := UInt64.toNat_ofNat_of_lt (pack8_lt packed)
  refine ⟨UInt64.ofNat w, ?_, ?_, ?_⟩
  · rw [pack8Bytes, packed]
    rfl
  · rw [unpack8Bytes, word, unpacked]
  · constructor
    · intro zero
      have : w = 0 := by rw [← word, zero]; rfl
      subst this
      cases unpacked
      rfl
    · rintro rfl
      cases packed
      rfl

end Rbitcoin.Store
