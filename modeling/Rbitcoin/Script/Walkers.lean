import Rbitcoin.Lib.Walk
import Rbitcoin.Script.Opcode

/-! The hand-written walks over script bytes: the `OP_SUCCESSx` scan of tapscript, the instruction
ends used by `FindAndDelete`, the legacy sigop count and the signet commitment walk. Each is a
loop of its own with its own bound checks. They all step from opcode to opcode as `opcodeEnd`
says. -/

namespace Rbitcoin.Script

open Bytes Walk Option

def tapscriptTurn (script : Bytes) (i : Nat) : Turn Nat Bool :=
  if i < script.length then
    let op := script.byteAt i
    if 1 ≤ op ∧ op ≤ opPushbytes75 then
      .next (i + 1 + op.toNat)
    else if op = opPushdata1 then
      if script.length ≤ i + 1 then .stop false
      else .next (i + 2 + (script.byteAt (i + 1)).toNat)
    else if op = opPushdata2 then
      if script.length ≤ i + 2 then .stop false
      else .next (i + 3 + ofLe [script.byteAt (i + 1), script.byteAt (i + 2)])
    else if op = opPushdata4 then
      if script.length ≤ i + 4 then .stop false
      else .next (i + 5 + ofLe [script.byteAt (i + 1), script.byteAt (i + 2),
        script.byteAt (i + 3), script.byteAt (i + 4)])
    else if isOpSuccess op then .stop true
    else .next (i + 1)
  else .stop false

/-- BIP342: whether an `OP_SUCCESSx` opcode makes the script valid before any limit. -/
def tapscriptHasOpSuccess (script : Bytes) : Bool :=
  (run (tapscriptTurn script) (script.length + 1) 0).getD false

/-- End of the instruction at `i`, or `none` when a push length is truncated. A short payload
still ends at the last available byte. -/
def instructionEnd (script : Bytes) (i : Nat) : Option Nat :=
  let op := script.byteAt i
  let j := i + 1
  let finish (j n : Nat) : Nat := if 0 < n then min (j + n) script.length else j
  if 1 ≤ op ∧ op ≤ opPushbytes75 then
    some (finish j op.toNat)
  else if op = opPushdata1 then
    if script.length ≤ j then none
    else some (finish (j + 1) (script.byteAt j).toNat)
  else if op = opPushdata2 then
    if script.length ≤ j + 1 then none
    else some (finish (j + 2) (ofLe [script.byteAt j, script.byteAt (j + 1)]))
  else if op = opPushdata4 then
    if script.length ≤ j + 3 then none
    else some (finish (j + 4) (ofLe [script.byteAt j, script.byteAt (j + 1),
      script.byteAt (j + 2), script.byteAt (j + 3)]))
  else some (finish j 0)

def instructionTurn (script : Bytes) (i : Nat) : Turn Nat Unit :=
  if i < script.length then
    match instructionEnd script i with
    | some e => .next e
    | none => .stop ()
  else .stop ()

/-- The locals of `script_sigop_count`. -/
structure SigopState where
  n : Nat
  i : Nat
  lastOpcode : UInt8

/-- What `opcode` adds to the count when it is not a push. -/
def sigopsOf (opcode lastOpcode : UInt8) (accurate : Bool) (n : Nat) : Nat :=
  if opcode = opChecksig ∨ opcode = opChecksigverify then satAdd n 1
  else if opcode = opCheckmultisig ∨ opcode = opCheckmultisigverify then
    if accurate ∧ opTrue ≤ lastOpcode ∧ lastOpcode ≤ opPushnum16 then
      satAdd n (lastOpcode - opReserved).toNat
    else satAdd n 20
  else n

def sigopTurn (script : Bytes) (accurate : Bool) (s : SigopState) : Turn SigopState Nat :=
  if s.i < script.length then
    let opcode := script.byteAt s.i
    let i := s.i + 1
    -- the payload must be inside the script for the walk to go on
    let push (i n : Nat) : Turn SigopState Nat :=
      if script.length < i + n then .stop s.n else .next ⟨s.n, i + n, opcode⟩
    if opcode ≤ opPushbytes75 then push i opcode.toNat
    else if opcode = opPushdata1 then
      if script.length ≤ i then .stop s.n
      else push (i + 1) (script.byteAt i).toNat
    else if opcode = opPushdata2 then
      if script.length ≤ i + 1 then .stop s.n
      else push (i + 2) (ofLe [script.byteAt i, script.byteAt (i + 1)])
    else if opcode = opPushdata4 then
      if script.length ≤ i + 3 then .stop s.n
      else push (i + 4) (ofLe (script.slice i (i + 4)))
    else .next ⟨sigopsOf opcode s.lastOpcode accurate s.n, i, opcode⟩
  else .stop s.n

def scriptSigopCount (script : Bytes) (accurate : Bool) : Nat :=
  (run (sigopTurn script accurate) (script.length + 1) ⟨0, 0, 0xff⟩).getD 0

variable (spk : Bytes)

/-- The opcode at `pc` and its payload, with the cursor after it. `none` at the end of the script
or on a truncated push. -/
def nextScriptOp (pc : Nat) : Option (UInt8 × Bytes × Nat) :=
  if pc < spk.length then
    let op := spk.byteAt pc
    let start := pc + 1
    let header : Option (Nat × Nat) :=
      if 1 ≤ op ∧ op ≤ opPushbytes75 then some (start, op.toNat)
      else if op = opPushdata1 then
        if start < spk.length then some (start + 1, (spk.byteAt start).toNat) else none
      else if op = opPushdata2 then
        (spk.slice? start (start + 2)).map fun n => (start + 2, ofLe n)
      else if op = opPushdata4 then
        (spk.slice? start (start + 4)).map fun n => (start + 4, ofLe n)
      else some (start, 0)
    header.bind fun (i, len) => (spk.slice? i (i + len)).map fun data => (op, data, i + len)
  else none

def signetTurn (pc : Nat) : Turn Nat Unit :=
  match nextScriptOp spk pc with
  | some (_, _, pc') => .next pc'
  | none => .stop ()

/-- Where the payload of the instruction at `i` starts and its length, or `none` when the length
bytes are cut off. -/
def pushHeader (script : Bytes) (i : Nat) : Option (Nat × Nat) :=
  let op := script.byteAt i
  if op ≤ opPushbytes75 then some (i + 1, op.toNat)
  else if op = opPushdata1 then
    if i + 2 ≤ script.length then some (i + 2, ofLe (script.slice (i + 1) (i + 2))) else none
  else if op = opPushdata2 then
    if i + 3 ≤ script.length then some (i + 3, ofLe (script.slice (i + 1) (i + 3))) else none
  else if op = opPushdata4 then
    if i + 5 ≤ script.length then some (i + 5, ofLe (script.slice (i + 1) (i + 5))) else none
  else some (i + 1, 0)

/-- End of the instruction at `i`, or `none` when its push is truncated. -/
def opcodeEnd (script : Bytes) (i : Nat) : Option Nat :=
  (pushHeader script i).bind fun (j, n) => if j + n ≤ script.length then some (j + n) else none

variable {i j a : Nat} {script : Bytes}

theorem pushHeader_bounds {n : Nat} (h : pushHeader script i = some (j, n)) :
    i < j ∧ (i < script.length → j ≤ script.length) := by
  simp only [pushHeader] at h
  split_ifs at h <;> simp only [some.injEq, Prod.mk.injEq] at h <;> omega

theorem opcodeEnd_lt (h : opcodeEnd script i = some j) : i < j := by
  obtain ⟨⟨k, n⟩, header, h⟩ := bind_eq_some_iff.mp h
  have := pushHeader_bounds header
  simp only at h
  split_ifs at h
  simp only [some.injEq] at h
  omega

variable {op : UInt8}

theorem isOpSuccess_push (h : op ≤ opPushdata4) : isOpSuccess op = false := by
  simp only [opPushdata4, UInt8.le_iff_toNat_le, UInt8.reduceToNat] at h
  simp only [isOpSuccess, List.mem_cons, List.not_mem_nil, or_false, ← UInt8.toNat_inj,
    UInt8.le_iff_toNat_le, UInt8.reduceToNat, Bool.or_eq_false_iff, decide_eq_false_iff_not]
  omega

theorem opcode_classes (op : UInt8) :
    op = 0 ∨ (1 ≤ op ∧ op ≤ opPushbytes75) ∨ op = opPushdata1 ∨ op = opPushdata2 ∨
      op = opPushdata4 ∨ opPushdata4 < op := by
  simp only [opPushbytes75, opPushdata1, opPushdata2, opPushdata4, ← UInt8.toNat_inj,
    UInt8.le_iff_toNat_le, UInt8.lt_iff_toNat_lt, UInt8.reduceToNat]
  omega

theorem opcode_past_pushes (h : opPushdata4 < op) :
    ¬op ≤ 0x4b ∧ op ≠ 0x4c ∧ op ≠ 0x4d ∧ op ≠ 0x4e := by
  simp only [opPushdata4, ne_eq, ← UInt8.toNat_inj, UInt8.le_iff_toNat_le, UInt8.lt_iff_toNat_lt,
    UInt8.reduceToNat] at h ⊢
  omega

theorem slice_one (s : Bytes) (h : a + 1 ≤ s.length) : s.slice a (a + 1) = [s.byteAt a] := by
  rw [slice_cons (by omega) h, slice_self]

theorem slice_two (s : Bytes) (h : a + 2 ≤ s.length) :
    s.slice a (a + 2) = [s.byteAt a, s.byteAt (a + 1)] := by
  rw [slice_cons (by omega) h, slice_cons (by omega) h, slice_self]

theorem slice_four (s : Bytes) (h : a + 4 ≤ s.length) : s.slice a (a + 4) =
      [s.byteAt a, s.byteAt (a + 1), s.byteAt (a + 2), s.byteAt (a + 3)] := by
  rw [slice_cons (by omega) h, slice_cons (by omega) h, slice_cons (by omega) h,
    slice_cons (by omega) h, slice_self]

section Boundary

variable {script : Bytes} {i : Nat} (inside : i < script.length)
include inside

theorem instructionEnd_eq : instructionEnd script i =
    (pushHeader script i).map fun (j, n) => min (j + n) script.length := by
  rcases opcode_classes (script.byteAt i) with h | h | h | h | h | h
  · simp [instructionEnd, pushHeader, h]
    omega
  · simp [instructionEnd, pushHeader, h]
    omega
  · by_cases hl : i + 2 ≤ script.length
    · simp [instructionEnd, pushHeader, h, hl, slice_one script hl, ofLe]
      omega
    · simp [instructionEnd, pushHeader, h, hl]
      omega
  · by_cases hl : i + 3 ≤ script.length
    · simp [instructionEnd, pushHeader, h, hl, slice_two script hl]
      omega
    · simp [instructionEnd, pushHeader, h, hl]
      omega
  · by_cases hl : i + 5 ≤ script.length
    · simp [instructionEnd, pushHeader, h, hl, slice_four script hl]
      omega
    · simp [instructionEnd, pushHeader, h, hl]
      omega
  · obtain ⟨h0, h1, h2, h4⟩ := opcode_past_pushes h
    simp [instructionEnd, pushHeader, h0, h1, h2, h4]
    omega

theorem tapscriptTurn_eq : tapscriptTurn script i =
    match pushHeader script i with
    | none => .stop false
    | some (j, n) => if isOpSuccess (script.byteAt i) then .stop true else .next (j + n) := by
  rcases opcode_classes (script.byteAt i) with h | h | h | h | h | h
  · simp [tapscriptTurn, pushHeader, inside, h]
  · have hs : isOpSuccess (script.byteAt i) = false :=
      isOpSuccess_push (UInt8.le_trans h.2 (by decide))
    simp [tapscriptTurn, pushHeader, inside, h, hs]
  · by_cases hl : i + 2 ≤ script.length
    · simp [tapscriptTurn, pushHeader, inside, h, hl, slice_one script hl, ofLe, isOpSuccess_push]
      omega
    · simp [tapscriptTurn, pushHeader, h, hl]
      omega
  · by_cases hl : i + 3 ≤ script.length
    · simp [tapscriptTurn, pushHeader, inside, h, hl, slice_two script hl, isOpSuccess_push]
      omega
    · simp [tapscriptTurn, pushHeader, h, hl]
      omega
  · by_cases hl : i + 5 ≤ script.length
    · simp [tapscriptTurn, pushHeader, inside, h, hl, slice_four script hl, isOpSuccess_push]
      omega
    · simp [tapscriptTurn, pushHeader, h, hl]
      omega
  · obtain ⟨h0, h1, h2, h4⟩ := opcode_past_pushes h
    simp [tapscriptTurn, pushHeader, inside, h0, h1, h2, h4]

theorem nextScriptOp_eq : nextScriptOp script i = (pushHeader script i).bind fun (j, n) =>
      if j + n ≤ script.length then some (script.byteAt i, script.slice j (j + n), j + n)
      else none := by
  have payload (j n : Nat) (op : UInt8) :
      (script.slice? j (j + n)).map (fun data => (op, data, j + n)) =
        if j + n ≤ script.length then some (op, script.slice j (j + n), j + n) else none := by
    by_cases h : j + n ≤ script.length <;> simp [slice?]
  rcases opcode_classes (script.byteAt i) with h | h | h | h | h | h
  · simp [nextScriptOp, pushHeader, inside, h, payload]
  · simp [nextScriptOp, pushHeader, inside, h, payload]
  · by_cases hl : i + 2 ≤ script.length
    · simp [nextScriptOp, pushHeader, inside, h, hl, slice_one script hl, ofLe, payload,
        show i + 1 < script.length from hl]
    · simp [nextScriptOp, pushHeader, h, hl, show ¬i + 1 < script.length from hl]
  · by_cases hl : i + 3 ≤ script.length
    · simp [nextScriptOp, pushHeader, inside, h, slice?]
    · simp [nextScriptOp, pushHeader, h, hl, slice?]
  · by_cases hl : i + 5 ≤ script.length
    · simp [nextScriptOp, pushHeader, inside, h, slice?]
    · simp [nextScriptOp, pushHeader, h, hl, slice?]
  · obtain ⟨h0, h1, h2, h4⟩ := opcode_past_pushes h
    simp [nextScriptOp, pushHeader, inside, h0, h1, h2, h4, payload]

omit inside in
theorem sigopsOf_push (h : op ≤ opPushdata4) (last : UInt8) (accurate : Bool)
    (n : Nat) : sigopsOf op last accurate n = n := by
  simp only [opPushdata4, UInt8.le_iff_toNat_le, UInt8.reduceToNat] at h
  simp only [sigopsOf, opChecksig, opChecksigverify, opCheckmultisig, opCheckmultisigverify,
    ← UInt8.toNat_inj, UInt8.reduceToNat]
  rw [if_neg (by omega), if_neg (by omega)]

omit inside in
theorem sigopTurn_eq {s : SigopState} (inside : s.i < script.length) (accurate : Bool) :
    sigopTurn script accurate s =
      match pushHeader script s.i with
      | none => .stop s.n
      | some (j, n) =>
        if j + n ≤ script.length then
          .next ⟨sigopsOf (script.byteAt s.i) s.lastOpcode accurate s.n, j + n, script.byteAt s.i⟩
        else .stop s.n := by
  have push (j n k : Nat) (op : UInt8) :
      (if script.length < j + n then .stop k else .next ⟨k, j + n, op⟩ : Turn SigopState Nat) =
        if j + n ≤ script.length then .next ⟨k, j + n, op⟩ else .stop k := by
    by_cases h : j + n ≤ script.length
    · rw [if_pos h, if_neg (by omega)]
    · rw [if_neg h, if_pos (by omega)]
  by_cases low : script.byteAt s.i ≤ opPushbytes75
  · have hs := sigopsOf_push (UInt8.le_trans low (by decide)) s.lastOpcode accurate s.n
    simp [sigopTurn, pushHeader, inside, low, hs, push]
  rcases opcode_classes (script.byteAt s.i) with h | h | h | h | h | h
  · exact absurd (h ▸ by decide) low
  · exact absurd h.2 low
  · by_cases hl : s.i + 2 ≤ script.length
    · simp [sigopTurn, pushHeader, inside, h, hl, slice_one script hl, ofLe, sigopsOf_push, push]
      omega
    · simp [sigopTurn, pushHeader, inside, h, hl]
      omega
  · by_cases hl : s.i + 3 ≤ script.length
    · simp [sigopTurn, pushHeader, inside, h, hl, slice_two script hl, ofLe, sigopsOf_push, push]
      omega
    · simp [sigopTurn, pushHeader, inside, h, hl]
      omega
  · by_cases hl : s.i + 5 ≤ script.length
    · simp [sigopTurn, pushHeader, inside, h, hl, sigopsOf_push, push]
      omega
    · simp [sigopTurn, pushHeader, inside, h, hl]
      omega
  · obtain ⟨h0, h1, h2, h4⟩ := opcode_past_pushes h
    have next : s.i + 1 + 0 ≤ script.length := inside
    simp only [sigopTurn, pushHeader, inside, h0, h1, h2, h4, next, if_true, if_false]

end Boundary

variable (script)

/-- The bytes `tapscript_has_op_success` tests as opcodes. -/
def tapscriptPositions : List Nat :=
  visited (tapscriptTurn script) id script.length (script.length + 1) 0

/-- The bytes a walk by `instruction_end` takes as opcodes. -/
def instructionPositions : List Nat :=
  visited (instructionTurn script) id script.length (script.length + 1) 0

/-- The bytes `script_sigop_count` counts as opcodes. -/
def sigopPositions (accurate : Bool) : List Nat :=
  visited (sigopTurn script accurate) SigopState.i script.length (script.length + 1) ⟨0, 0, 0xff⟩

/-- The bytes a walk by `next_script_op` takes as opcodes. -/
def signetPositions : List Nat :=
  visited (signetTurn spk) id spk.length (spk.length + 1) 0

theorem instructionPositions_path :
    Path (opcodeEnd script) script.length 0 (instructionPositions script) := by
  change Path _ _ (id (0 : Nat)) (visited (instructionTurn script) id _ _ 0)
  refine visited_path (fun _ _ => opcodeEnd_lt) (fun i inside => ?_) _ _ (Nat.lt_succ_self _)
  rw [id_eq] at inside
  rw [instructionTurn, if_pos inside, instructionEnd_eq inside]
  cases header : pushHeader script i with
  | none => simp [Follows, opcodeEnd, header]
  | some jn =>
    simp only [Follows, id_eq, opcodeEnd, header, map_some, bind_some]
    split <;> simp <;> omega

theorem sigopPositions_path (accurate : Bool) :
    Path (opcodeEnd script) script.length 0 (sigopPositions script accurate) := by
  change Path _ _ (SigopState.i ⟨0, 0, 0xff⟩) (visited (sigopTurn script accurate) _ _ _ _)
  refine visited_path (fun _ _ => opcodeEnd_lt) (fun s inside => ?_) _ _ (Nat.lt_succ_self _)
  rw [sigopTurn_eq inside]
  cases header : pushHeader script s.i with
  | none => simp [Follows, opcodeEnd, header]
  | some jn =>
    by_cases fits : jn.1 + jn.2 ≤ script.length <;> simp [Follows, opcodeEnd, header, fits]

theorem signetPositions_path : Path (opcodeEnd spk) spk.length 0 (signetPositions spk) := by
  change Path _ _ (id (0 : Nat)) (visited (signetTurn spk) id _ _ 0)
  refine visited_path (fun _ _ => opcodeEnd_lt) (fun i inside => ?_) _ _ (Nat.lt_succ_self _)
  rw [id_eq] at inside
  rw [signetTurn, nextScriptOp_eq inside]
  cases header : pushHeader spk i with
  | none => simp [Follows, opcodeEnd, header]
  | some jn =>
    by_cases fits : jn.1 + jn.2 ≤ spk.length <;> simp [Follows, opcodeEnd, header, fits]

theorem tapscriptPositions_eq {positions : List Nat}
    (path : Path (opcodeEnd script) script.length 0 positions) :
    tapscriptPositions script = upTo (fun i => isOpSuccess (script.byteAt i)) positions := by
  refine visited_upTo (fun _ _ => opcodeEnd_lt) (fun i inside => ?_) _ (0 : Nat)
    (Nat.lt_succ_self _) path
  rw [id_eq] at inside
  rw [tapscriptTurn_eq inside]
  cases header : pushHeader script i with
  | none => exact .inr (by simp [opcodeEnd, header])
  | some jn =>
    dsimp only
    split_ifs with success
    · exact .inl success
    · refine ⟨by simpa using success, ?_⟩
      simp only [id_eq, opcodeEnd, header, bind_some]
      split <;> simp
      omega

variable {script}

/-- The four walks visit the same opcode positions. The positions are the path of instruction
boundaries from the first byte: each one follows the end of the one before, and the path ends at
the end of the script or at its first truncated push. No position lies inside the push of another,
and none after a truncated one. The `OP_SUCCESSx` scan visits the path through its first
`OP_SUCCESSx` opcode. -/
theorem walkers_agree (script : Bytes) (accurate : Bool) :
    Path (opcodeEnd script) script.length 0 (instructionPositions script) ∧
    sigopPositions script accurate = instructionPositions script ∧
    signetPositions script = instructionPositions script ∧
    tapscriptPositions script =
      upTo (fun i => isOpSuccess (script.byteAt i)) (instructionPositions script) ∧
    ∀ p ∈ instructionPositions script, ∀ q ∈ instructionPositions script, p < q →
      ∃ e, opcodeEnd script p = some e ∧ e ≤ q := by
  have path := instructionPositions_path script
  exact ⟨path, (sigopPositions_path script accurate).unique path,
    (signetPositions_path script).unique path, tapscriptPositions_eq script path,
    fun p hp q hq lt => path.skips (fun _ _ => opcodeEnd_lt) hp hq lt⟩

/-- `OP_RESERVED OP_1`: the scan stops at the first byte, an `OP_SUCCESSx`, and the other walks
go on to the second. -/
theorem tapscriptPositions_short :
    tapscriptPositions [0x50, 0x51] = [0] ∧ instructionPositions [0x50, 0x51] = [0, 1] := by
  decide

end Rbitcoin.Script
