import Rbitcoin.Lib.Reader
import Rbitcoin.Script.Opcode
import Rbitcoin.Store.Layout
import Rbitcoin.Tx.Compact

/-! Transaction outputs on disk: a byte with the script kind and the power of ten of the amount, the
mantissa of the amount, and what the kind does not say of the script. -/

namespace Rbitcoin.Store

open Bytes Outcome Script Tx List

def liftPack {α : Type} : Except PackError α → Result α
  | .ok a => .ok a
  | .error e => .error (.corrupt e.text)

def amountExpMax : Nat := 9
def i64Max : Nat := 2 ^ 63 - 1

/-- Strip trailing zeros, at most so many. -/
def stripZeros : Nat → Nat → Nat → Nat × Nat
  | 0, e, n => (e, n)
  | more + 1, e, n => if n % 10 = 0 then stripZeros more (e + 1) (n / 10) else (e, n)

def amountExpMantissa (sats : Nat) : Nat × Nat :=
  if sats = 0 then (0, 0) else stripZeros amountExpMax 0 sats

def splitOutputFlags (flags : UInt8) : Result (Nat × Nat) :=
  if amountExpMax < flags.toNat / 16 then .error (.corrupt "txout amount exp")
  else .ok (flags.toNat % 16, flags.toNat / 16)

def scaleAmountExp (exp mantissa : Nat) : Result Nat :=
  if amountExpMax < exp then .error (.corrupt "txout amount exp")
  else if mantissa = 0 then if exp ≠ 0 then .error (.corrupt "txout amount exp") else .ok 0
  else if exp < amountExpMax ∧ mantissa % 10 = 0 then .error (.corrupt "txout amount exp")
  else if 2 ^ 64 ≤ mantissa * 10 ^ exp then .error (.corrupt "output value too large")
  else .ok (mantissa * 10 ^ exp)

def decodeOutputAmount (exp : Nat) (buf : Bytes) : Result (Nat × Nat) := do
  let (mantissa, n) ← liftPack (readUleb128 buf)
  let v ← scaleAmountExp exp mantissa
  if i64Max < v then .error (.corrupt "output value too large") else .ok (v, n)

theorem stripZeros_spec (more e n : Nat) (positive : 0 < n) :
    ∃ k m, stripZeros more e n = (e + k, m) ∧ k ≤ more ∧ m * 10 ^ k = n ∧ 0 < m ∧
      (k < more → m % 10 ≠ 0) := by
  induction more generalizing e n with
  | zero => exact ⟨0, n, rfl, le_refl 0, by simp, positive, nofun⟩
  | succ more ih =>
    unfold stripZeros
    split
    · next round =>
      obtain ⟨k, m, same, le, value, pos, rest⟩ := ih (e + 1) (n / 10) (by omega)
      refine ⟨k + 1, m, ?_, by omega, ?_, pos, fun lt => rest (by omega)⟩
      · rw [same]
        congr 1
        omega
      · rw [pow_succ, ← mul_assoc, value]
        omega
    · next other => exact ⟨0, n, rfl, Nat.zero_le _, by simp, positive, fun _ => other⟩

variable {value exp used n : Nat} {data script payload out buf : Bytes}

theorem scaleAmountExp_amountExpMantissa (h : value < 2 ^ 64) :
    ∃ exp mantissa, amountExpMantissa value = (exp, mantissa) ∧ exp ≤ amountExpMax ∧
      mantissa < 2 ^ 64 ∧ scaleAmountExp exp mantissa = .ok value := by
  unfold amountExpMantissa
  split
  · next zero => exact ⟨0, 0, rfl, by decide, by decide, by rw [zero]; rfl⟩
  · next some =>
    obtain ⟨k, m, same, le, whole, pos, rest⟩ := stripZeros_spec amountExpMax 0 value (by omega)
    have small : m ≤ value := by
      rw [← whole]
      exact Nat.le_mul_of_pos_right m (by positivity)
    refine ⟨k, m, by rw [same, zero_add], le, by omega, ?_⟩
    unfold scaleAmountExp
    rw [if_neg (by omega), if_neg (by omega), if_neg fun bad => rest bad.1 bad.2, whole,
      if_neg (by omega)]

theorem stripZeros_mul_pow {more k : Nat} (e m : Nat) (le : k ≤ more)
    (whole : k < more → m % 10 ≠ 0) : stripZeros more e (m * 10 ^ k) = (e + k, m) := by
  induction k generalizing more e with
  | zero =>
    rw [pow_zero, mul_one]
    cases more with
    | zero => rfl
    | succ more =>
      unfold stripZeros
      rw [if_neg (whole (Nat.succ_pos more))]
      rfl
  | succ k ih =>
    obtain ⟨more, rfl⟩ : ∃ more', more = more' + 1 := ⟨more - 1, by omega⟩
    have round : m * 10 ^ (k + 1) = m * 10 ^ k * 10 := by rw [pow_succ, mul_assoc]
    unfold stripZeros
    rw [round, if_pos (Nat.mul_mod_left _ _), Nat.mul_div_cancel _ (by decide),
      ih (e + 1) (by omega) fun lt => whole (by omega)]
    congr 1
    omega

theorem amountExpMantissa_of_scale {mantissa : Nat} (ok : scaleAmountExp exp mantissa = .ok value) :
    amountExpMantissa value = (exp, mantissa) := by
  unfold scaleAmountExp at ok
  split_ifs at ok with high zero plain stripped large
  · cases ok
    rw [zero, not_not.mp plain]
    rfl
  · cases ok
    have positive : mantissa * 10 ^ exp ≠ 0 := Nat.mul_ne_zero zero (by positivity)
    rw [amountExpMantissa, if_neg positive, stripZeros_mul_pow 0 mantissa (by omega)
      fun lt round => stripped ⟨lt, round⟩, zero_add]

theorem decodeOutputAmount_written {mantissa : Nat} (h : value < 2 ^ 64)
    (split : amountExpMantissa value = (exp, mantissa)) (rest : Bytes) :
    decodeOutputAmount exp (writeUleb128 mantissa ++ rest) =
      if i64Max < value then .error (.corrupt "output value too large")
      else .ok (value, (writeUleb128 mantissa).length) := by
  obtain ⟨exp', mantissa', same, -, small, scaled⟩ := scaleAmountExp_amountExpMantissa h
  rw [split] at same
  cases same
  simp only [decodeOutputAmount, readUleb128_writeUleb128 small, liftPack, scaled, ok_bind]

def opPushbytes2 : UInt8 := 0x02
def opReturn : UInt8 := 0x6a
def p2aScript : Bytes := [opTrue, opPushbytes2] ++ p2aProgram
def p2wpkhPrefix : Bytes := [op0, opPushbytes20]
def p2wshPrefix : Bytes := [op0, opPushbytes32]
def p2trPrefix : Bytes := [opTrue, opPushbytes32]

/-- The script templates that are stored without their constant bytes. -/
inductive ScriptKind
  | raw | empty | opTrue | p2pkh | p2sh | p2wpkh | p2wsh | p2tr | opReturnPush | p2a
  deriving DecidableEq, Repr

def ScriptKind.nibble : ScriptKind → Nat
  | .raw => 0 | .empty => 1 | .opTrue => 2 | .p2pkh => 3 | .p2sh => 4 | .p2wpkh => 5
  | .p2wsh => 6 | .p2tr => 7 | .opReturnPush => 8 | .p2a => 9

def ScriptKind.ofNibble : Nat → Option ScriptKind
  | 0 => some .raw | 1 => some .empty | 2 => some .opTrue | 3 => some .p2pkh | 4 => some .p2sh
  | 5 => some .p2wpkh | 6 => some .p2wsh | 7 => some .p2tr | 8 => some .opReturnPush
  | 9 => some .p2a | _ => none

/-- The data of a script that returns after one push of the shortest form. -/
def canonicalOpReturnPush : Bytes → Option Bytes
  | op :: n0 :: data =>
    if op ≠ opReturn then none
    else if 1 ≤ n0 ∧ n0 ≤ opPushbytes75 then if data.length = n0.toNat then some data else none
    else if n0 = opPushdata1 then
      match data with
      | n :: data => if 76 ≤ n ∧ data.length = n.toNat then some data else none
      | [] => none
    else none
  | _ => none

def classifyScript (script : Bytes) : ScriptKind × Bytes :=
  if script = [] then (.empty, [])
  else if script = [opTrue] then (.opTrue, [])
  else if script = p2aScript then (.p2a, [])
  else if script.length = 25 ∧ script.take 3 = p2pkhPrefix ∧ script.drop 23 = p2pkhSuffix then
    (.p2pkh, script.slice 3 23)
  else if script.length = 23 ∧ script.take 2 = p2shPrefix ∧ script.byteAt 22 = opEqual then
    (.p2sh, script.slice 2 22)
  else if script.length = 22 ∧ script.take 2 = p2wpkhPrefix then (.p2wpkh, script.drop 2)
  else if script.length = 34 ∧ script.take 2 = p2wshPrefix then (.p2wsh, script.drop 2)
  else if script.length = 34 ∧ script.take 2 = p2trPrefix then (.p2tr, script.drop 2)
  else
    match canonicalOpReturnPush script with
    | some data => (.opReturnPush, data)
    | none => (.raw, script)

def encodeOpReturnPush (data : Bytes) : Result Bytes :=
  if data = [] ∨ 255 < data.length then .error (.corrupt "v17 OP_RETURN push length")
  else if data.length ≤ opPushbytes75.toNat then
    .ok ([opReturn, UInt8.ofNat data.length] ++ data)
  else .ok ([opReturn, opPushdata1, UInt8.ofNat data.length] ++ data)

def hash160Payload (payload : Bytes) : Result Bytes :=
  if payload.length ≠ 20 then .error (.corrupt "v17 script kind expects 20-byte hash")
  else .ok payload

def hash256Payload (payload : Bytes) : Result Bytes :=
  if payload.length ≠ 32 then .error (.corrupt "v17 script kind expects 32-byte hash")
  else .ok payload

def noPayload (payload script : Bytes) (text : String) : Result Bytes :=
  if payload ≠ [] then .error (.corrupt text) else .ok script

variable (kind : ScriptKind)

def expandScriptKind (payload : Bytes) : Result Bytes :=
  match kind with
  | .raw => .ok payload
  | .empty => noPayload payload [] "v17 empty script kind has payload"
  | .opTrue => noPayload payload [Script.opTrue] "v17 OP_TRUE kind has payload"
  | .p2pkh => do return p2pkhPrefix ++ (← hash160Payload payload) ++ p2pkhSuffix
  | .p2sh => do return p2shPrefix ++ (← hash160Payload payload) ++ [opEqual]
  | .p2wpkh => do return p2wpkhPrefix ++ (← hash160Payload payload)
  | .p2wsh => do return p2wshPrefix ++ (← hash256Payload payload)
  | .p2tr => do return p2trPrefix ++ (← hash256Payload payload)
  | .opReturnPush => encodeOpReturnPush payload
  | .p2a => noPayload payload p2aScript "v17 P2A kind has payload"

/-- The payload after the amount. The kinds of any length write it down. -/
def encodeScriptKindV17 (script : Bytes) : ScriptKind × Bytes :=
  let (kind, payload) := classifyScript script
  match kind with
  | .raw | .opReturnPush => (kind, compactSize payload.length ++ payload)
  | _ => (kind, payload)

def fixedPayload (length : Nat) (text : String) (buf : Bytes) : Result Nat :=
  if buf.length < length then .error (.corrupt text) else .ok length

def scriptKindV17DiskUsed (buf : Bytes) : Result Nat :=
  match kind with
  | .empty | .opTrue | .p2a => .ok 0
  | .p2pkh | .p2sh | .p2wpkh => fixedPayload 20 "short v17 hash160 script payload" buf
  | .p2wsh | .p2tr => fixedPayload 32 "short v17 hash256 script payload" buf
  | .raw | .opReturnPush => do
    let (slen, n) ← liftPack (readCompactSize buf)
    if kind = .opReturnPush ∧ ¬(1 ≤ slen ∧ slen ≤ 255) then
      .error (.corrupt "v17 OP_RETURN push length")
    else if buf.length - n < slen then .error (.corrupt "v17 script payload truncated")
    else .ok (n + slen)

def decodeScriptKindV17 (buf : Bytes) : Result (Bytes × Nat) :=
  match kind with
  | .empty | .opTrue | .p2a => do return (← expandScriptKind kind [], 0)
  | .p2pkh | .p2sh | .p2wpkh => do
    let used ← fixedPayload 20 "short v17 hash160 script payload" buf
    return (← expandScriptKind kind (buf.take used), used)
  | .p2wsh | .p2tr => do
    let used ← fixedPayload 32 "short v17 hash256 script payload" buf
    return (← expandScriptKind kind (buf.take used), used)
  | .raw | .opReturnPush => do
    let (slen, n) ← liftPack (readCompactSize buf)
    if buf.length - n < slen then .error (.corrupt "v17 script payload truncated")
    else return (← expandScriptKind kind (buf.slice n (n + slen)), n + slen)

structure OutputRecord where
  value : Nat
  script : Bytes
  deriving DecidableEq, Repr

namespace OutputRecord

def encodeUnspentInto (value : Nat) (script : Bytes) : Bytes :=
  let (exp, mantissa) := amountExpMantissa value
  let (kind, payload) := encodeScriptKindV17 script
  UInt8.ofNat (kind.nibble + exp * 16) :: (writeUleb128 mantissa ++ payload)

def decodeAt : Bytes → Result (OutputRecord × Nat)
  | [] => .error (.corrupt "short output record")
  | flags :: buf => do
    let (nibble, exp) ← splitOutputFlags flags
    let (value, n) ← decodeOutputAmount exp buf
    match ScriptKind.ofNibble nibble with
    | none => .error (.corrupt "v17 reserved script kind")
    | some kind =>
      let used ← scriptKindV17DiskUsed kind (buf.drop n)
      let (script, _) ← decodeScriptKindV17 kind (buf.drop n)
      return (⟨value, script⟩, 1 + n + used)

end OutputRecord

/-! ### Records are read back -/

open ScriptKind

variable (kind : ScriptKind)

theorem ofNibble_nibble : ofNibble kind.nibble = some kind := by
  cases kind <;> rfl

theorem nibble_lt : kind.nibble < 16 := by
  cases kind <;> decide

theorem toNat_flags (h : exp ≤ amountExpMax) :
    (UInt8.ofNat (kind.nibble + exp * 16)).toNat = kind.nibble + exp * 16 := by
  have low := nibble_lt kind
  simp only [amountExpMax] at h
  simp
  omega

theorem splitOutputFlags_ofNat (h : exp ≤ amountExpMax) :
    splitOutputFlags (UInt8.ofNat (kind.nibble + exp * 16)) = .ok (kind.nibble, exp) := by
  have low := nibble_lt kind
  unfold splitOutputFlags
  rw [toNat_flags kind h, show (kind.nibble + exp * 16) / 16 = exp by omega,
    show (kind.nibble + exp * 16) % 16 = kind.nibble by omega, if_neg (by omega)]

theorem encodeOpReturnPush_eq (some_data : 1 ≤ data.length) (short : data.length ≤ 255) :
    encodeOpReturnPush data = .ok (if data.length ≤ 75 then
      [opReturn, UInt8.ofNat data.length] ++ data
      else [opReturn, opPushdata1, UInt8.ofNat data.length] ++ data) := by
  have fits : ¬(data = [] ∨ 255 < data.length) := by
    rintro (rfl | long)
    · cases some_data
    · omega
  rw [encodeOpReturnPush, if_neg fits, apply_ite Except.ok]
  rfl

theorem encodeOpReturnPush_canonical (canonical : canonicalOpReturnPush script = some data) :
    encodeOpReturnPush data = .ok script ∧ 1 ≤ data.length ∧ data.length ≤ 255 := by
  revert canonical
  fun_cases canonicalOpReturnPush script with
  | case2 op n0 rest isReturn direct length =>
    rintro ⟨⟩
    have low : 1 ≤ n0.toNat := UInt8.le_iff_toNat_le.mp direct.1
    have high : n0.toNat ≤ 75 := UInt8.le_iff_toNat_le.mp direct.2
    rw [encodeOpReturnPush_eq (by omega) (by omega), if_pos (by omega), length, not_not.mp isReturn]
    exact ⟨by simp, low, by omega⟩
  | case4 op isReturn n rest long direct =>
    rintro ⟨⟩
    have low : 76 ≤ n.toNat := UInt8.le_iff_toNat_le.mp long.1
    have high := n.toNat_lt
    rw [encodeOpReturnPush_eq (by omega) (by omega), if_neg (by omega), long.2, not_not.mp isReturn]
    exact ⟨by simp, by omega, by omega⟩
  | _ => nofun

theorem length_encodeOpReturnPush (ok : encodeOpReturnPush data = .ok script) :
    data.length + 2 ≤ script.length ∧ script.length ≤ data.length + 3 := by
  unfold encodeOpReturnPush at ok
  split_ifs at ok <;> cases ok <;> simp

def ScriptKind.Takes : ScriptKind → Bytes → Prop
  | .raw, _ => True
  | .empty, payload | .opTrue, payload | .p2a, payload => payload = []
  | .p2pkh, payload | .p2sh, payload | .p2wpkh, payload => payload.length = 20
  | .p2wsh, payload | .p2tr, payload => payload.length = 32
  | .opReturnPush, payload => 1 ≤ payload.length ∧ payload.length ≤ 255

theorem hash256Payload_ok (length : payload.length = 32) :
    hash256Payload payload = .ok payload := if_neg (not_not.mpr length)

/-- What a template has before its payload and after it. -/
def ScriptKind.around : ScriptKind → Bytes × Bytes
  | .raw | .empty | .opReturnPush => ([], [])
  | .opTrue => ([Script.opTrue], [])
  | .p2pkh => (p2pkhPrefix, p2pkhSuffix)
  | .p2sh => (p2shPrefix, [opEqual])
  | .p2wpkh => (p2wpkhPrefix, [])
  | .p2wsh => (p2wshPrefix, [])
  | .p2tr => (p2trPrefix, [])
  | .p2a => (p2aScript, [])

theorem expandScriptKind_eq_ok {kind : ScriptKind} (template : kind ≠ .opReturnPush) :
    expandScriptKind kind payload = .ok script ↔
      kind.Takes payload ∧ script = kind.around.1 ++ payload ++ kind.around.2 := by
  cases kind with
  | opReturnPush => exact absurd rfl template
  | raw => simp [expandScriptKind, ScriptKind.Takes, around, eq_comm]
  | empty | opTrue | p2a =>
    by_cases none : payload = []
    · simp [expandScriptKind, noPayload, ScriptKind.Takes, around, none, eq_comm]
    · simp [expandScriptKind, noPayload, ScriptKind.Takes, none]
  | p2pkh | p2sh | p2wpkh =>
    by_cases length : payload.length = 20
    · simp [expandScriptKind, hash160Payload, ScriptKind.Takes, around, length, eq_comm]
    · simp [expandScriptKind, hash160Payload, ScriptKind.Takes, length]
  | p2wsh | p2tr =>
    by_cases length : payload.length = 32
    · simp [expandScriptKind, hash256Payload, ScriptKind.Takes, around, length, eq_comm]
    · simp [expandScriptKind, hash256Payload, ScriptKind.Takes, length]

theorem classify_template {kind : ScriptKind} (template : kind ≠ .opReturnPush)
    (takes : kind.Takes payload) (whole : kind.around.1 ++ payload ++ kind.around.2 = script) :
    ∃ kind' payload', (kind, payload) = (kind', payload') ∧ kind'.Takes payload' ∧
      expandScriptKind kind' payload' = .ok script ∧ payload'.length ≤ script.length := by
  refine ⟨kind, payload, rfl, takes, ?_, ?_⟩
  · exact (expandScriptKind_eq_ok template).mpr ⟨takes, whole.symm⟩
  · rw [← whole, length_append, length_append]
    omega

theorem classifyScript_spec (script : Bytes) :
    ∃ kind payload, classifyScript script = (kind, payload) ∧ kind.Takes payload ∧
      expandScriptKind kind payload = .ok script ∧ payload.length ≤ script.length := by
  have program {pre : Bytes} (first : script.take 2 = pre) :
      pre ++ script.drop 2 ++ [] = script := by
    rw [append_nil, ← first, take_append_drop]
  unfold classifyScript
  split
  · next same => exact classify_template (by decide) rfl same.symm
  split
  · next same => exact classify_template (by decide) rfl same.symm
  split
  · next same => exact classify_template (by decide) rfl same.symm
  split
  · next pkh =>
    obtain ⟨length, first, last⟩ := pkh
    have whole := take_slice_drop script (show 3 ≤ 23 by decide)
    rw [first, last] at whole
    exact classify_template (by decide) (slice_length (by omega)) whole
  split
  · next sh =>
    obtain ⟨length, first, last⟩ := sh
    have whole := take_slice_drop script (show 2 ≤ 22 by decide)
    have ending : script.drop 22 = [opEqual] := by
      have final := slice_cons (s := script) (a := 22) (b := 23) (by decide) (by omega)
      rw [slice_self, last] at final
      rw [← final, slice, take_of_length_le (by simp [length])]
    rw [first, ending] at whole
    exact classify_template (by decide) (slice_length (by omega)) whole
  split
  · next wpkh => exact classify_template (by decide) (by simp [Takes, wpkh.1]) (program wpkh.2)
  split
  · next wsh => exact classify_template (by decide) (by simp [Takes, wsh.1]) (program wsh.2)
  split
  · next tr => exact classify_template (by decide) (by simp [Takes, tr.1]) (program tr.2)
  split
  · next data canonical =>
    obtain ⟨back, some_data, short⟩ := encodeOpReturnPush_canonical canonical
    exact ⟨.opReturnPush, data, rfl, ⟨some_data, short⟩, back,
      Nat.le_of_add_right_le (length_encodeOpReturnPush back).1⟩
  · exact ⟨.raw, script, rfl, trivial, rfl, le_rfl⟩

theorem canonicalOpReturnPush_encode (ok : encodeOpReturnPush data = .ok script) :
    canonicalOpReturnPush script = some data ∧ script.head? = some opReturn := by
  unfold encodeOpReturnPush at ok
  split at ok
  · cases ok
  · next fits =>
    obtain ⟨some_data, short⟩ := not_or.mp fits
    have positive : 0 < data.length := length_pos_iff.mpr some_data
    have value : (UInt8.ofNat data.length).toNat = data.length := by
      simp
      omega
    split at ok
    · next direct =>
      cases ok
      have range : 1 ≤ UInt8.ofNat data.length ∧ UInt8.ofNat data.length ≤ opPushbytes75 := by
        rw [UInt8.le_iff_toNat_le, UInt8.le_iff_toNat_le, value]
        exact ⟨positive, direct⟩
      refine ⟨?_, rfl⟩
      simp only [cons_append, nil_append, canonicalOpReturnPush]
      rw [if_neg (not_not.mpr rfl), if_pos range, if_pos value.symm]
    · next long =>
      cases ok
      have direct : ¬(1 ≤ opPushdata1 ∧ opPushdata1 ≤ opPushbytes75) := by decide
      have range :
          76 ≤ UInt8.ofNat data.length ∧ data.length = (UInt8.ofNat data.length).toNat := by
        rw [UInt8.le_iff_toNat_le, value]
        exact ⟨not_le.mp long, rfl⟩
      refine ⟨?_, rfl⟩
      simp only [cons_append, nil_append, canonicalOpReturnPush]
      rw [if_neg (not_not.mpr rfl), if_neg direct, if_pos trivial, if_pos range]

def ScriptKind.write : ScriptKind → Bytes → Bytes
  | .raw, payload | .opReturnPush, payload => compactSize payload.length ++ payload
  | _, payload => payload

variable {kind : ScriptKind}

theorem encodeScriptKindV17_eq (same : classifyScript script = (kind, payload)) :
    encodeScriptKindV17 script = (kind, kind.write payload) := by
  unfold encodeScriptKindV17
  rw [same]
  cases kind <;> rfl

def ScriptKind.Counted (kind : ScriptKind) : Prop := kind = .raw ∨ kind = .opReturnPush

/-- A payload on disk, and what comes before it: any form of its length, or nothing. -/
structure ScriptKind.OnDisk (kind : ScriptKind) (head payload : Bytes) : Prop where
  takes : kind.Takes payload
  counted : kind.Counted →
    ∀ rest, readCompactSize (head ++ rest) = .ok (payload.length, head.length)
  plain : ¬kind.Counted → head = []

theorem ScriptKind.onDisk_write (takes : kind.Takes payload) (small : payload.length < 2 ^ 64) :
    ∃ head, kind.write payload = head ++ payload ∧ kind.OnDisk head payload := by
  cases kind with
  | raw | opReturnPush =>
    exact ⟨_, rfl, takes, fun _ => readCompactSize_compactSize small,
      fun plain => absurd (by simp [Counted]) plain⟩
  | _ => exact ⟨[], rfl, takes, fun counted => by simp [Counted] at counted, fun _ => rfl⟩

namespace ScriptKind.OnDisk

variable {kind : ScriptKind} {head payload : Bytes} (disk : kind.OnDisk head payload)
  (rest : Bytes)
include disk

theorem liftPack_length (counted : kind.Counted) :
    liftPack (readCompactSize (head ++ (payload ++ rest))) = .ok (payload.length, head.length) := by
  rw [disk.counted counted]
  rfl

theorem fixedPayload (plain : ¬kind.Counted) (text : String) :
    fixedPayload payload.length text (head ++ (payload ++ rest)) =
      .ok (head ++ payload).length := by
  rw [disk.plain plain, Store.fixedPayload, if_neg (by simp)]
  rfl

theorem diskUsed :
    scriptKindV17DiskUsed kind (head ++ (payload ++ rest)) = .ok (head ++ payload).length := by
  have length := disk.takes
  cases kind with
  | empty | opTrue | p2a =>
    rw [disk.plain (by simp [Counted]), show payload = [] from length]
    rfl
  | p2pkh | p2sh | p2wpkh | p2wsh | p2tr =>
    have fixed := disk.fixedPayload rest (by simp [Counted])
    rw [show payload.length = _ from length] at fixed
    exact fixed _
  | raw =>
    simp only [scriptKindV17DiskUsed, disk.liftPack_length rest (.inl rfl)]
    simp
  | opReturnPush =>
    simp only [scriptKindV17DiskUsed, disk.liftPack_length rest (.inr rfl)]
    simp
    exact length

theorem decode (expands : expandScriptKind kind payload = .ok script) :
    decodeScriptKindV17 kind (head ++ (payload ++ rest)) =
      .ok (script, (head ++ payload).length) := by
  have length := disk.takes
  have middle : (head ++ (payload ++ rest)).slice head.length (head.length + payload.length) =
      payload := by
    simp [slice]
  cases kind with
  | empty | opTrue | p2a =>
    rw [show payload = [] from length] at expands ⊢
    rw [disk.plain (by simp [Counted])]
    simp only [decodeScriptKindV17, expands]
    rfl
  | p2pkh | p2sh | p2wpkh | p2wsh | p2tr =>
    have fixed := disk.fixedPayload rest (by simp [Counted])
    have first : (head ++ (payload ++ rest)).take (head ++ payload).length = payload := by
      rw [disk.plain (by simp [Counted])]
      exact take_left
    rw [show payload.length = _ from length] at fixed
    simp only [decodeScriptKindV17, fixed, ok_bind, first, expands]
    rfl
  | raw | opReturnPush =>
    simp only [decodeScriptKindV17, disk.liftPack_length rest (by simp [Counted]), ok_bind,
      middle, expands]
    simp [pure, Except.pure]

end ScriptKind.OnDisk

namespace OutputRecord

theorem decodeAt_encodeUnspentInto (amount : value < 2 ^ 64)
    (small : script.length < 2 ^ 64) (rest : Bytes) :
    decodeAt (encodeUnspentInto value script ++ rest) =
      if i64Max < value then .error (.corrupt "output value too large")
      else .ok (⟨value, script⟩, (encodeUnspentInto value script).length) := by
  obtain ⟨exp, mantissa, split, le, -, -⟩ := scaleAmountExp_amountExpMantissa amount
  obtain ⟨kind, payload, same, takes, expands, shorter⟩ := classifyScript_spec script
  obtain ⟨head, joined, disk⟩ := onDisk_write takes (by omega)
  have written := decodeOutputAmount_written amount split (head ++ (payload ++ rest))
  simp only [encodeUnspentInto, split, encodeScriptKindV17_eq same, joined, cons_append,
    append_assoc, decodeAt, splitOutputFlags_ofNat kind le, ok_bind, written]
  by_cases large : i64Max < value
  · rw [if_pos large, if_pos large]
    rfl
  · rw [if_neg large, if_neg large]
    simp only [ok_bind, ofNibble_nibble, drop_left, disk.diskUsed rest, disk.decode rest expands]
    simp [pure, Except.pure]
    omega

end OutputRecord

/-! ### What is decoded is inside the input -/

theorem liftPack_eq_ok {α : Type} {x : Except PackError α} {a : α} (ok : liftPack x = .ok a) :
    x = .ok a := by
  cases x with
  | error e => cases ok
  | ok b =>
    cases ok
    rfl

theorem length_expandScriptKind (ok : expandScriptKind kind payload = .ok script) :
    script.length ≤ payload.length + 5 := by
  by_cases push : kind = .opReturnPush
  · subst push
    exact (length_encodeOpReturnPush ok).2.trans (by omega)
  · have added : kind.around.1.length + kind.around.2.length ≤ 5 := by cases kind <;> decide
    rw [((expandScriptKind_eq_ok push).mp ok).2, length_append, length_append]
    omega

/-- A template is recognised by what it expands to. -/
theorem classifyScript_of_expand (template : kind ≠ .raw)
    (ok : expandScriptKind kind payload = .ok script) :
    classifyScript script = (kind, payload) := by
  by_cases push : kind = .opReturnPush
  · subst push
    obtain ⟨canonical, first⟩ := canonicalOpReturnPush_encode ok
    cases script with
    | nil => cases first
    | cons op rest =>
      cases first
      have canonical : canonicalOpReturnPush (0x6a :: rest) = some payload := canonical
      -- no other template starts with OP_RETURN
      simp [classifyScript, canonical, opReturn, p2aScript, p2pkhPrefix, p2shPrefix,
        p2wpkhPrefix, p2wshPrefix, p2trPrefix]
  obtain ⟨takes, rfl⟩ := (expandScriptKind_eq_ok push).mp ok
  cases kind with
  | raw => exact absurd rfl template
  | opReturnPush => exact absurd rfl push
  | empty | opTrue | p2a =>
    obtain rfl := takes
    rfl
  | p2pkh | p2sh | p2wpkh =>
    have length : payload.length = 20 := takes
    simp [classifyScript, around, p2pkhPrefix, p2pkhSuffix, p2shPrefix, p2wpkhPrefix, length, slice,
      byteAt, p2aScript]
  | p2wsh | p2tr =>
    have length : payload.length = 32 := takes
    simp [classifyScript, around, p2trPrefix, p2wshPrefix, length, p2aScript, opPushbytes2]

theorem fixedPayload_eq {length : Nat} {text : String}
    (ok : fixedPayload length text buf = .ok used) : used = length ∧ length ≤ buf.length := by
  unfold fixedPayload at ok
  split_ifs at ok
  cases ok
  exact ⟨rfl, by omega⟩

theorem ScriptKind.Takes.expands (takes : kind.Takes payload) :
    ∃ script, expandScriptKind kind payload = .ok script := by
  by_cases push : kind = .opReturnPush
  · subst push
    exact ⟨_, encodeOpReturnPush_eq takes.1 takes.2⟩
  · exact ⟨_, (expandScriptKind_eq_ok push).mpr ⟨takes, rfl⟩⟩

theorem scriptKindV17DiskUsed_counted (counted : kind.Counted)
    (ok : scriptKindV17DiskUsed kind buf = .ok used) :
    ∃ slen n, readCompactSize buf = .ok (slen, n) ∧ used = n + slen ∧ n + slen ≤ buf.length ∧
      ∀ payload : Bytes, payload.length = slen → kind.Takes payload := by
  have takes {slen : Nat} (push : ¬(kind = .opReturnPush ∧ ¬(1 ≤ slen ∧ slen ≤ 255)))
      (payload : Bytes) (length : payload.length = slen) : kind.Takes payload := by
    obtain rfl | rfl := counted
    · trivial
    · rw [← length] at push
      exact not_not.mp fun bad => push ⟨rfl, bad⟩
  obtain rfl | rfl := counted <;>
  · obtain ⟨⟨slen, n⟩, read, rest⟩ := bind_eq_ok.mp ok
    have read := liftPack_eq_ok read
    have width := (readCompactSize_used read).2
    refine ⟨slen, n, read, ?_⟩
    dsimp only at rest
    split at rest
    · cases rest
    · next push =>
      split_ifs at rest
      cases rest
      exact ⟨rfl, by omega, takes push⟩

section

variable (ok : scriptKindV17DiskUsed kind buf = .ok used)
include ok

theorem onDisk_of_diskUsed :
    ∃ head payload, kind.OnDisk head payload ∧ buf = head ++ (payload ++ buf.drop used) ∧
      used = (head ++ payload).length := by
  cases kind with
  | empty | opTrue | p2a =>
    cases ok
    exact ⟨[], [], ⟨rfl, by simp [ScriptKind.Counted], fun _ => rfl⟩, rfl, rfl⟩
  | p2pkh | p2sh | p2wpkh | p2wsh | p2tr =>
    obtain ⟨rfl, inside⟩ := fixedPayload_eq ok
    have length := length_take_of_le inside
    exact ⟨[], buf.take _, ⟨length, by simp [ScriptKind.Counted], fun _ => rfl⟩,
      (take_append_drop _ buf).symm, length.symm⟩
  | raw | opReturnPush =>
    obtain ⟨slen, n, read, rfl, inside, takes⟩ :=
      scriptKindV17DiskUsed_counted (by simp [ScriptKind.Counted]) ok
    have head : (buf.take n).length = n := length_take_of_le (by omega)
    have payload : (buf.slice n (n + slen)).length = slen := by
      rw [slice_length inside]
      omega
    refine ⟨buf.take n, buf.slice n (n + slen), ⟨?_, fun _ rest => ?_, ?_⟩, ?_, ?_⟩
    · exact takes _ payload
    · rw [payload, head]
      exact readCompactSize_take read rest
    · exact fun plain => absurd (by simp [ScriptKind.Counted]) plain
    · rw [← append_assoc]
      exact (take_slice_drop buf (by omega)).symm
    · rw [length_append, head, payload]

theorem scriptKindV17DiskUsed_le : used ≤ buf.length := by
  obtain ⟨head, payload, -, whole, rfl⟩ := onDisk_of_diskUsed ok
  rw [whole]
  simp only [length_append]
  omega

theorem length_decodeScriptKindV17
    (decoded : decodeScriptKindV17 kind buf = .ok (script, n)) : script.length ≤ used + 5 := by
  obtain ⟨head, payload, disk, whole, rfl⟩ := onDisk_of_diskUsed ok
  obtain ⟨script', expands⟩ := disk.takes.expands
  rw [whole, disk.decode _ expands] at decoded
  cases decoded
  refine (length_expandScriptKind expands).trans ?_
  simp

end

theorem decodeOutputAmount_used (ok : decodeOutputAmount exp buf = .ok (value, n)) :
    1 ≤ n ∧ n ≤ buf.length := by
  obtain ⟨⟨mantissa, m⟩, read, ok⟩ := bind_eq_ok.mp ok
  obtain ⟨v, -, ok⟩ := bind_eq_ok.mp ok
  split_ifs at ok
  cases ok
  exact readUleb128_used (liftPack_eq_ok read)

theorem OutputRecord.decodeAt_used {s : Bytes} {out : OutputRecord}
    (ok : decodeAt s = .ok (out, n)) : 2 ≤ n ∧ n ≤ s.length ∧ out.script.length ≤ n + 3 := by
  cases s with
  | nil => cases ok
  | cons flags buf =>
    obtain ⟨⟨nibble, exp⟩, -, ok⟩ := bind_eq_ok.mp ok
    obtain ⟨⟨value, m⟩, amount, ok⟩ := bind_eq_ok.mp ok
    have width := decodeOutputAmount_used amount
    dsimp only at ok
    split at ok
    · cases ok
    · obtain ⟨used, disk, ok⟩ := bind_eq_ok.mp ok
      obtain ⟨⟨script, k⟩, decoded, ok⟩ := bind_eq_ok.mp ok
      cases ok
      have inside := scriptKindV17DiskUsed_le disk
      have short := length_decodeScriptKindV17 disk decoded
      rw [length_drop] at inside
      rw [length_cons]
      dsimp only
      omega

end Rbitcoin.Store
