import Rbitcoin.Script.Signature

/-! The stack interpreter. One instruction is a step on `EvalState`: it first takes its operands
off the stacks (`operate`) and then pushes its results, which is where the source tests the stack
limit. The limit is a parameter of the evaluation, so that the same interpreter can be run with
the limit tested after every instruction instead. -/

namespace Rbitcoin.Script

open Bytes Tx Outcome

/-- IF nesting as its depth and the position of the first false entry. -/
structure ConditionStack where
  size : Nat
  firstFalse : Option Nat
  deriving DecidableEq, Repr

/-- What the interpreter asks of its condition stack: `IF` and `NOTIF` push, `ELSE` toggles the top
and `ENDIF` pops. -/
inductive CondOp
  | push (value : Bool)
  | toggleTop
  | pop

namespace ConditionStack

def empty : ConditionStack := ⟨0, none⟩

variable (c : ConditionStack)

def isEmpty : Bool := c.size == 0

def allTrue : Bool := c.firstFalse.isNone

def push (value : Bool) : ConditionStack where
  size := c.size + 1
  firstFalse := if c.firstFalse.isNone && !value then some c.size else c.firstFalse

/-- The caller has checked that an entry is there. -/
def pop : ConditionStack where
  size := c.size - 1
  firstFalse := if c.firstFalse = some (c.size - 1) then none else c.firstFalse

/-- The caller has checked that an entry is there. -/
def toggleTop : ConditionStack where
  size := c.size
  firstFalse :=
    match c.firstFalse with
    | none => some (c.size - 1)
    | some pos => if pos = c.size - 1 then none else some pos

/-- An operation as `eval_script` makes it, behind its test for an empty stack. -/
def issue : CondOp → Result ConditionStack
  | .push value => .ok (c.push value)
  | .toggleTop => if c.isEmpty then fail "OP_ELSE" else .ok c.toggleTop
  | .pop => if c.isEmpty then fail "OP_ENDIF" else .ok c.pop

/-- The operation on the reference's vector of booleans, whose head is the top. -/
def vectorIssue : List Bool → CondOp → Result (List Bool)
  | v, .push value => .ok (value :: v)
  | [], .toggleTop => fail "OP_ELSE"
  | top :: v, .toggleTop => .ok ((!top) :: v)
  | [], .pop => fail "OP_ENDIF"
  | _ :: v, .pop => .ok v

/-- What a vector is compressed to. -/
def ofVector : List Bool → ConditionStack
  | [] => .empty
  | top :: v => (ofVector v).push top

variable {v : List Bool} {c : ConditionStack} {top : Bool}

theorem toggleTop_push (below : c.firstFalse ≠ some c.size) :
    (c.push top).toggleTop = c.push !top := by
  obtain ⟨size, first⟩ := c
  cases first with
  | none => cases top <;> simp [push, toggleTop]
  | some pos =>
    have : pos ≠ size := fun h => below (congrArg some h)
    simp [push, toggleTop, this]

theorem pop_push (below : c.firstFalse ≠ some c.size) : (c.push top).pop = c := by
  obtain ⟨size, first⟩ := c
  cases first with
  | none => cases top <;> simp [push, pop]
  | some pos =>
    have : pos ≠ size := fun h => below (congrArg some h)
    simp [push, pop, this]

/-- The first false entry is inside. -/
theorem firstFalse_ofVector_lt {pos : Nat} (first : (ofVector v).firstFalse = some pos) :
    pos < (ofVector v).size := by
  induction v with
  | nil => cases first
  | cons top v ih =>
    simp only [ofVector, push] at first ⊢
    split_ifs at first
    · cases first
      exact Nat.lt_succ_self _
    · exact Nat.lt_succ_of_lt (ih first)

theorem allTrue_ofVector : (ofVector v).allTrue = v.all id := by
  induction v with
  | nil => rfl
  | cons top v ih =>
    rw [List.all_cons, ← ih, ofVector, allTrue, push, allTrue]
    cases top <;> cases (ofVector v).firstFalse <;> rfl

/-- What stands above the first false entry is popped before it could be seen. -/
theorem issue_ofVector (op : CondOp) : (ofVector v).issue op = (vectorIssue v op).map ofVector := by
  cases v with
  | nil => cases op <;> rfl
  | cons top v =>
    have below : (ofVector v).firstFalse ≠ some (ofVector v).size := fun first =>
      lt_irrefl _ (firstFalse_ofVector_lt first)
    cases op with
    | push value => rfl
    | toggleTop => exact congrArg Except.ok (toggleTop_push below)
    | pop => exact congrArg Except.ok (pop_push below)

theorem foldlM_issue (ops : List CondOp) :
    ops.foldlM issue (ofVector v) = (ops.foldlM vectorIssue v).map ofVector := by
  induction ops generalizing v with
  | nil => rfl
  | cons op ops ih =>
    rw [List.foldlM_cons, List.foldlM_cons, issue_ofVector]
    cases vectorIssue v op with
    | error e => rfl
    | ok w => exact ih

/-- **Conditions.** The counter of nested conditions answers as the stack of their values does. -/
theorem simulates_vector (ops : List CondOp) :
    (ops.foldlM issue .empty).map (fun c => (c.isEmpty, c.allTrue)) =
      (ops.foldlM vectorIssue []).map fun v => (v.isEmpty, v.all id) := by
  rw [show empty = ofVector [] from rfl, foldlM_issue]
  cases ops.foldlM vectorIssue [] with
  | error e => rfl
  | ok v =>
    have empty : (ofVector v).isEmpty = v.isEmpty := by cases v <;> rfl
    simp [Except.map, empty, allTrue_ofVector]

end ConditionStack

/-- The locals of `eval_script` and the cells of its context. The head of a stack is its top. -/
structure EvalState where
  stack : List Bytes
  altstack : List Bytes
  cond : ConditionStack
  opCount : Nat
  /-- Index of the next instruction. -/
  opcodePos : UInt32
  codeseparatorPos : UInt32
  codeseparatorScriptOff : Option Nat
  validationWeightLeft : Int

/-- Main and alt stack together. -/
def EvalState.depth (st : EvalState) : Nat := st.stack.length + st.altstack.length

/-- Where the limit of 1000 elements is tested. -/
inductive StackLimit
  /-- Before each push, as the source does. -/
  | onPush
  /-- After each instruction, as the reference implementation does. -/
  | afterInstruction
  deriving DecidableEq, Repr

def EvalState.push (lim : StackLimit) (st : EvalState) (v : Bytes) : Result EvalState := do
  rejectIf (lim = .onPush ∧ maxStackSize < st.stack.length + st.altstack.length + 1)
    (.script "stack size")
  return { st with stack := v :: st.stack }

def EvalState.pushAll (lim : StackLimit) : EvalState → List Bytes → Result EvalState
  | st, [] => .ok st
  | st, v :: vs => do
    let st ← st.push lim v
    pushAll lim st vs

def pop : List Bytes → Result (Bytes × List Bytes)
  | [] => fail "stack empty"
  | v :: rest => .ok (v, rest)

def decodeI64 (v : Bytes) (requireMinimal : Bool) : Result Int :=
  match scriptnumDecode v requireMinimal with
  | .error e => fail e.display
  | .ok n => .ok n

def popNum (requireMinimal : Bool) (stack : List Bytes) : Result (Int × List Bytes) := do
  let (v, rest) ← pop stack
  let n ← decodeI64 v requireMinimal
  return (n, rest)

/-- Pop `n` elements, the top first. -/
def popMany : Nat → List Bytes → Result (List Bytes × List Bytes)
  | 0, stack => .ok ([], stack)
  | n + 1, stack => do
    let (v, rest) ← pop stack
    let (vs, rest) ← popMany n rest
    return (v :: vs, rest)

theorem pop_eq_ok {s rest : List Bytes} {v : Bytes} : pop s = .ok (v, rest) ↔ s = v :: rest := by
  cases s <;> simp [pop]

theorem popNum_eq_ok {rm : Bool} {s rest : List Bytes} {n : Int} :
    popNum rm s = .ok (n, rest) ↔ ∃ v, s = v :: rest ∧ decodeI64 v rm = .ok n := by
  simp only [popNum, bind_eq_ok, Prod.exists, pop_eq_ok, pure, Except.pure, Except.ok.injEq,
    Prod.mk.injEq]
  constructor
  · rintro ⟨v, rest, rfl, n, decoded, rfl, rfl⟩
    exact ⟨v, rfl, decoded⟩
  · rintro ⟨v, rfl, decoded⟩
    exact ⟨v, rest, rfl, n, decoded, rfl, rfl⟩

theorem popMany_length {n : Nat} {s vs rest : List Bytes} (h : popMany n s = .ok (vs, rest)) :
    s.length = n + rest.length := by
  induction n generalizing s vs rest with
  | zero =>
    simp only [popMany, Except.ok.injEq, Prod.mk.injEq] at h
    simp [h]
  | succ n ih =>
    simp only [popMany, bind_eq_ok, Prod.exists, pop_eq_ok] at h
    obtain ⟨v, below, rfl, vs', rest', popped, -, rfl⟩ := h
    have := ih popped
    simp only [List.length_cons]
    omega

def boolEncode (b : Bool) : Bytes := if b then [1] else []

def isMinimalIfArg (v : Bytes) : Bool := v == [] || v == [0x01]

def checkMinimalPush (data : Bytes) (opcode : UInt8) : Bool :=
  if data = [] then opcode == op0
  else if data.length = 1 ∧ 1 ≤ data.byteAt 0 ∧ data.byteAt 0 ≤ 16 then
    opcode == opReserved + data.byteAt 0
  else if data.length = 1 ∧ data.byteAt 0 = 0x81 then opcode == op1negate
  else if data.length ≤ opPushbytes75.toNat then opcode.toNat == data.length
  else if data.length ≤ 255 then opcode == opPushdata1
  else opcode == opPushdata2

/-- Numeric opcodes of one operand. -/
inductive UnaryOp
  | add1 | sub1 | negate | abs | not | notEqual0
  deriving DecidableEq, Repr

/-- Operands have at most four bytes, so no result leaves the `i64` range. -/
def UnaryOp.apply : UnaryOp → Int → Bytes
  | .add1, v => scriptnumEncode (v + 1)
  | .sub1, v => scriptnumEncode (v - 1)
  | .negate, v => scriptnumEncode (-v)
  | .abs, v => scriptnumEncode |v|
  | .not, v => boolEncode (v = 0)
  | .notEqual0, v => boolEncode (v ≠ 0)

/-- Numeric opcodes of two operands. -/
inductive BinaryOp
  | add | sub | boolAnd | boolOr | numEqual | numNotEqual | lessThan | greaterThan
  | lessThanOrEqual | greaterThanOrEqual | min | max
  deriving DecidableEq, Repr

def BinaryOp.apply : BinaryOp → Int → Int → Bytes
  | .add, a, b => scriptnumEncode (a + b)
  | .sub, a, b => scriptnumEncode (a - b)
  | .boolAnd, a, b => boolEncode (a ≠ 0 ∧ b ≠ 0)
  | .boolOr, a, b => boolEncode (a ≠ 0 ∨ b ≠ 0)
  | .numEqual, a, b => boolEncode (a = b)
  | .numNotEqual, a, b => boolEncode (a ≠ b)
  | .lessThan, a, b => boolEncode (a < b)
  | .greaterThan, a, b => boolEncode (b < a)
  | .lessThanOrEqual, a, b => boolEncode (a ≤ b)
  | .greaterThanOrEqual, a, b => boolEncode (b ≤ a)
  | .min, a, b => scriptnumEncode (Min.min a b)
  | .max, a, b => scriptnumEncode (Max.max a b)

inductive HashOp
  | ripemd160 | sha1 | sha256 | hash160 | hash256
  deriving DecidableEq, Repr

def HashOp.apply (B : Bitcoin) : HashOp → Bytes → Bytes
  | .ripemd160 => B.ripemd160
  | .sha1 => B.sha1
  | .sha256 => B.sha256
  | .hash160 => B.hash160
  | .hash256 => B.sha256d

/-- Opcodes that run only in an executed branch. -/
inductive Op
  | negate1
  | pushnum (n : UInt8)
  | nop
  | verify
  | toAltstack | fromAltstack
  | drop2 | dup2 | dup3 | over2 | rot2 | swap2
  | ifdup | depth | drop | dup | nip | over | pick | roll | rot | swap | tuck
  | size
  | equal | equalverify
  | unary (op : UnaryOp)
  | binary (op : BinaryOp)
  | numequalverify
  | within
  | hash (op : HashOp)
  | codeseparator
  | checksig (verify : Bool)
  | checksigadd
  | checkmultisig (verify : Bool)
  | checklocktimeverify
  | checksequenceverify
  | unknown (code : UInt8)
  deriving DecidableEq, Repr

def Op.ofCode (code : UInt8) : Op :=
  if 0x51 ≤ code ∧ code ≤ 0x60 then .pushnum (code - 0x50)
  else
    match code with
    | 0x4f => .negate1
    | 0x61 => .nop
    | 0x69 => .verify
    | 0x6b => .toAltstack
    | 0x6c => .fromAltstack
    | 0x6d => .drop2
    | 0x6e => .dup2
    | 0x6f => .dup3
    | 0x70 => .over2
    | 0x71 => .rot2
    | 0x72 => .swap2
    | 0x73 => .ifdup
    | 0x74 => .depth
    | 0x75 => .drop
    | 0x76 => .dup
    | 0x77 => .nip
    | 0x78 => .over
    | 0x79 => .pick
    | 0x7a => .roll
    | 0x7b => .rot
    | 0x7c => .swap
    | 0x7d => .tuck
    | 0x82 => .size
    | 0x87 => .equal
    | 0x88 => .equalverify
    | 0x8b => .unary .add1
    | 0x8c => .unary .sub1
    | 0x8f => .unary .negate
    | 0x90 => .unary .abs
    | 0x91 => .unary .not
    | 0x92 => .unary .notEqual0
    | 0x93 => .binary .add
    | 0x94 => .binary .sub
    | 0x9a => .binary .boolAnd
    | 0x9b => .binary .boolOr
    | 0x9c => .binary .numEqual
    | 0x9d => .numequalverify
    | 0x9e => .binary .numNotEqual
    | 0x9f => .binary .lessThan
    | 0xa0 => .binary .greaterThan
    | 0xa1 => .binary .lessThanOrEqual
    | 0xa2 => .binary .greaterThanOrEqual
    | 0xa3 => .binary .min
    | 0xa4 => .binary .max
    | 0xa5 => .within
    | 0xa6 => .hash .ripemd160
    | 0xa7 => .hash .sha1
    | 0xa8 => .hash .sha256
    | 0xa9 => .hash .hash160
    | 0xaa => .hash .hash256
    | 0xab => .codeseparator
    | 0xac => .checksig false
    | 0xad => .checksig true
    | 0xae => .checkmultisig false
    | 0xaf => .checkmultisig true
    | 0xb1 => .checklocktimeverify
    | 0xb2 => .checksequenceverify
    | 0xba => .checksigadd
    | 0xb0 | 0xb3 | 0xb4 | 0xb5 | 0xb6 | 0xb7 | 0xb8 | 0xb9 => .nop
    | code => .unknown code

def hex2 (code : UInt8) : String :=
  String.ofList [Nat.digitChar (code.toNat / 16), Nat.digitChar (code.toNat % 16)]

/-! ### Operands and results of an executed opcode -/

/-- Outcome of a tapscript signature opcode that does not fail. -/
inductive TapSigResult
  | emptySig
  | valid
  deriving DecidableEq, Repr

variable (B : Bitcoin)

/-- The check shared by the tapscript signature opcodes, with the weight left after it. -/
def tapscriptSigResult (sig pubkey : Bytes) (ctx : EvalContext) (st : EvalState) :
    Result (TapSigResult × Int) := do
  let left := if sig = [] then st.validationWeightLeft else st.validationWeightLeft - 50
  rejectIf (sig ≠ [] ∧ left < 0) (.script "tapscript validation weight")
  rejectIf (pubkey = []) (.script "tapscript empty pubkey")
  if pubkey.length ≠ 32 then
    -- an unknown key type accepts any signature
    return (if sig = [] then .emptySig else .valid, left)
  else if sig = [] then return (.emptySig, left)
  else
    let ok ← checksigSchnorr B sig pubkey ctx st.codeseparatorPos
    rejectIf (ok = false) (.script "tapscript CHECKSIG failed")
    return (.valid, left)

variable (ctx : EvalContext)

def opChecksigOperate (verify : Bool) (st : EvalState) : Result (EvalState × List Bytes) := do
  let (pubkey, rest) ← pop st.stack
  let (sig, rest) ← pop rest
  match PreTapscript.fromSigVersion ctx.sigVersion with
  | none =>
    let (result, left) ← tapscriptSigResult B sig pubkey ctx st
    let st := { st with stack := rest, validationWeightLeft := left }
    match result with
    | .emptySig => if verify then fail "CHECKSIGVERIFY empty" else return (st, [[]])
    | .valid => return (st, if verify then [] else [[0x01]])
  | some pre =>
    let ok ← checksigLegacy B sig pubkey ctx st.codeseparatorScriptOff pre
    let st := { st with stack := rest }
    if verify then if ok then return (st, []) else fail "CHECKSIGVERIFY"
    else return (st, [boolEncode ok])

def opChecksigaddOperate (st : EvalState) : Result (EvalState × List Bytes) := do
  rejectIf (st.stack.length < 3) (.script "stack empty")
  let (pubkey, rest) ← pop st.stack
  let (nRaw, rest) ← pop rest
  let (sig, rest) ← pop rest
  let n ← decodeI64 nRaw ctx.flags.minimalData
  let (result, left) ← tapscriptSigResult B sig pubkey ctx st
  let st := { st with stack := rest, validationWeightLeft := left }
  match result with
  | .emptySig => return (st, [scriptnumEncode n])
  | .valid => return (st, [scriptnumEncode (n + 1)])

def opCheckmultisigOperate (verify : Bool) (ver : PreTapscript)
    (st : EvalState) : Result (EvalState × List Bytes) := do
  let (n, rest) ← popNum ctx.flags.minimalData st.stack
  rejectIf (¬(0 ≤ n ∧ n ≤ maxPubkeysPerMultisig)) (.script "multisig n")
  let opCount := st.opCount + n.toNat
  rejectIf (maxOpsLegacy < opCount) (.script "op count")
  let (pubkeys, rest) ← popMany n.toNat rest
  let (m, rest) ← popNum ctx.flags.minimalData rest
  rejectIf (m < 0 ∨ n < m) (.script "multisig m")
  let (sigs, rest) ← popMany m.toNat rest
  let (dummy, rest) ← pop rest
  rejectIf (dummy ≠ [] ∧ ctx.flags.nullDummy) (.script "NULLDUMMY")
  let scriptCode ← preparedScriptCode sigs ctx st.codeseparatorScriptOff ver
  let success ← checkmultisigPairs B ctx scriptCode ver sigs pubkeys
  rejectIf (success = false ∧ ctx.flags.nullfail ∧ sigs.any fun s => !s.isEmpty)
    (.script "NULLFAIL")
  let st := { st with stack := rest, opCount }
  if verify then if success then return (st, []) else fail "CHECKMULTISIGVERIFY"
  else return (st, [boolEncode success])

def sequenceCsvOk (seq csv : UInt32) : Bool :=
  let typeBit : UInt32 := 0x400000
  let mask := 0xffff ||| typeBit
  let seqMasked := seq &&& mask
  let csvMasked := csv &&& mask
  if seq &&& 0x80000000 ≠ 0 then false
  else if (seqMasked ^^^ csvMasked) &&& typeBit ≠ 0 then false
  else csvMasked &&& 0xffff ≤ seqMasked &&& 0xffff

/-- A five-byte lock operand, left on the stack. -/
def lockOperand (st : EvalState) : Result Int :=
  match st.stack with
  | [] => fail "stack empty"
  | v :: _ =>
    match scriptnumDecodeWidth v 5 ctx.flags.minimalData with
    | .error e => fail e.display
    | .ok n => .ok n

/-- `OP_CHECKLOCKTIMEVERIFY`, a no-op before BIP65. -/
def checkLocktime (st : EvalState) : Result Unit :=
  if ctx.flags.bip65Active = false then .ok ()
  else do
    let locktime ← lockOperand ctx st
    rejectIf (locktime < 0) (.script "CLTV negative")
    let txLock : Int := ctx.tx.lockTime.toNat
    rejectIf (decide (500000000 ≤ locktime) ≠ decide (500000000 ≤ txLock)) (.script "CLTV type")
    rejectIf (txLock < locktime) (.script "CLTV")
    rejectIf (ctx.txIn.sequence = 0xffffffff) (.script "CLTV final sequence")

/-- `OP_CHECKSEQUENCEVERIFY`, a no-op before BIP112 and for an operand with the disable bit. -/
def checkSequence (st : EvalState) : Result Unit :=
  if ctx.flags.bip112Active = false then .ok ()
  else do
    let csv ← lockOperand ctx st
    rejectIf (csv < 0) (.script "CSV negative")
    let csvBits := UInt32.ofNat csv.toNat
    if csvBits &&& 0x80000000 ≠ 0 then .ok ()
    else
      rejectIf (ctx.tx.version < 2) (.script "CSV version")
      rejectIf (sequenceCsvOk ctx.txIn.sequence csvBits = false) (.script "CSV")

/-- Run an opcode up to its pushes: the state without the operands, and what it pushes. -/
def operate (thisPos : UInt32) (byteIndex : Nat) (st : EvalState) :
    Op → Result (EvalState × List Bytes)
  | .negate1 => .ok (st, [[0x81]])
  | .pushnum n => .ok (st, [[n]])
  | .nop => .ok (st, [])
  | .verify => do
    let (v, rest) ← pop st.stack
    rejectIf (B.readScriptbool v = false) (.script "OP_VERIFY")
    return ({ st with stack := rest }, [])
  | .toAltstack => do
    let (v, rest) ← pop st.stack
    return ({ st with stack := rest, altstack := v :: st.altstack }, [])
  | .fromAltstack =>
    match st.altstack with
    | [] => fail "altstack empty"
    | v :: alt => .ok ({ st with altstack := alt }, [v])
  | .drop2 => do
    let (_, rest) ← pop st.stack
    let (_, rest) ← pop rest
    return ({ st with stack := rest }, [])
  | .dup2 =>
    match st.stack with
    | b :: a :: _ => .ok (st, [a, b])
    | _ => fail "stack empty"
  | .dup3 =>
    match st.stack with
    | c :: b :: a :: _ => .ok (st, [a, b, c])
    | _ => fail "stack empty"
  | .over2 =>
    match st.stack with
    | _ :: _ :: b :: a :: _ => .ok (st, [a, b])
    | _ => fail "stack empty"
  | .rot2 =>
    match st.stack with
    | x6 :: x5 :: x4 :: x3 :: x2 :: x1 :: rest =>
      .ok ({ st with stack := x2 :: x1 :: x6 :: x5 :: x4 :: x3 :: rest }, [])
    | _ => fail "stack empty"
  | .swap2 =>
    match st.stack with
    | d :: c :: b :: a :: rest => .ok ({ st with stack := b :: a :: d :: c :: rest }, [])
    | _ => fail "stack empty"
  | .ifdup =>
    match st.stack with
    | v :: _ => .ok (st, if B.readScriptbool v then [v] else [])
    | [] => fail "stack empty"
  | .depth => .ok (st, [scriptnumEncode st.stack.length])
  | .drop => do
    let (_, rest) ← pop st.stack
    return ({ st with stack := rest }, [])
  | .dup =>
    match st.stack with
    | v :: _ => .ok (st, [v])
    | [] => fail "stack empty"
  | .nip =>
    match st.stack with
    | top :: _ :: rest => .ok ({ st with stack := rest }, [top])
    | _ => fail "stack empty"
  | .over =>
    match st.stack with
    | _ :: v :: _ => .ok (st, [v])
    | _ => fail "stack empty"
  | .pick => do
    let (n, rest) ← popNum ctx.flags.minimalData st.stack
    rejectIf (n < 0 ∨ rest.length ≤ n.toNat) (.script "OP_PICK")
    return ({ st with stack := rest }, [rest.getD n.toNat []])
  | .roll => do
    let (n, rest) ← popNum ctx.flags.minimalData st.stack
    rejectIf (n < 0 ∨ rest.length ≤ n.toNat) (.script "OP_ROLL")
    return ({ st with stack := rest.eraseIdx n.toNat }, [rest.getD n.toNat []])
  | .rot =>
    match st.stack with
    | c :: b :: a :: rest => .ok ({ st with stack := a :: c :: b :: rest }, [])
    | _ => fail "stack empty"
  | .swap =>
    match st.stack with
    | b :: a :: rest => .ok ({ st with stack := a :: b :: rest }, [])
    | _ => fail "stack empty"
  | .tuck =>
    -- the source pushes the copy first and then swaps the two below it
    match st.stack with
    | b :: a :: rest => .ok ({ st with stack := a :: b :: rest }, [b])
    | _ => fail "stack empty"
  | .size =>
    match st.stack with
    | v :: _ => .ok (st, [scriptnumEncode v.length])
    | [] => fail "stack empty"
  | .equal => do
    let (a, rest) ← pop st.stack
    let (b, rest) ← pop rest
    return ({ st with stack := rest }, [boolEncode (a = b)])
  | .equalverify => do
    let (a, rest) ← pop st.stack
    let (b, rest) ← pop rest
    rejectIf (a ≠ b) (.script "OP_EQUALVERIFY")
    return ({ st with stack := rest }, [])
  | .unary op => do
    let (v, rest) ← popNum ctx.flags.minimalData st.stack
    return ({ st with stack := rest }, [op.apply v])
  | .binary op => do
    let (b, rest) ← popNum ctx.flags.minimalData st.stack
    let (a, rest) ← popNum ctx.flags.minimalData rest
    return ({ st with stack := rest }, [op.apply a b])
  | .numequalverify => do
    let (b, rest) ← popNum ctx.flags.minimalData st.stack
    let (a, rest) ← popNum ctx.flags.minimalData rest
    rejectIf (a ≠ b) (.script "OP_NUMEQUALVERIFY")
    return ({ st with stack := rest }, [])
  | .within => do
    let (max, rest) ← popNum ctx.flags.minimalData st.stack
    let (min, rest) ← popNum ctx.flags.minimalData rest
    let (x, rest) ← popNum ctx.flags.minimalData rest
    return ({ st with stack := rest }, [boolEncode (min ≤ x ∧ x < max)])
  | .hash op => do
    let (v, rest) ← pop st.stack
    return ({ st with stack := rest }, [op.apply B v])
  | .codeseparator =>
    .ok ({ st with codeseparatorPos := thisPos, codeseparatorScriptOff := some (byteIndex + 1) },
      [])
  | .checksig verify => opChecksigOperate B ctx verify st
  | .checksigadd =>
    if ctx.sigVersion = .tapScript then opChecksigaddOperate B ctx st
    else fail "unknown opcode 0xba"
  | .checkmultisig verify =>
    match PreTapscript.fromSigVersion ctx.sigVersion with
    | none =>
      if verify then fail "CHECKMULTISIGVERIFY disabled in tapscript"
      else fail "CHECKMULTISIG disabled in tapscript"
    | some pre => opCheckmultisigOperate B ctx verify pre st
  | .checklocktimeverify => do
    checkLocktime ctx st
    return (st, [])
  | .checksequenceverify => do
    checkSequence ctx st
    return (st, [])
  | .unknown code => fail ("unknown opcode 0x" ++ hex2 code)

/-- An `OP_IF` or `OP_NOTIF`: a skipped one still nests. -/
def opIf (negated executing : Bool) (st : EvalState) : Result EvalState :=
  if executing then do
    let (v, rest) ← pop st.stack
    let minimalIf := ctx.sigVersion = .tapScript ∨
      (ctx.flags.minimalIf ∧ ctx.sigVersion = .witnessV0)
    rejectIf (minimalIf ∧ isMinimalIfArg v = false) (.script "MINIMALIF")
    return { st with stack := rest, cond := st.cond.push (B.readScriptbool v != negated) }
  else .ok { st with cond := st.cond.push false }

/-- Opcodes past `OP_16` count towards the limit, executed or not. -/
def countOp (code : UInt8) (st : EvalState) : Result EvalState :=
  if ctx.sigVersion ≠ .tapScript ∧ 0x60 < code then do
    rejectIf (maxOpsLegacy < st.opCount + 1) (.script "op count")
    return { st with opCount := st.opCount + 1 }
  else .ok st

/-- Opcodes that fail the script even in a skipped branch. -/
def rejectForbidden (code : UInt8) : Result Unit := do
  rejectIf (code = opVerif ∨ code = opVernotif) (.script "OP_VERIF")
  rejectIf (ctx.sigVersion ≠ .tapScript ∧ isDisabledLegacy code)
    (.script ("disabled opcode 0x" ++ hex2 code))
  rejectIf (code = opCodeseparator ∧ ctx.flags.constScriptcode ∧ ctx.sigVersion = .base)
    (.script "OP_CODESEPARATOR")

/-- The arm of `eval_script` for an opcode, up to its pushes. -/
def stepOp (thisPos : UInt32) (byteIndex : Nat) (code : UInt8)
    (st : EvalState) : Result (EvalState × List Bytes) := do
  let executing := st.cond.allTrue
  let st ← countOp ctx code st
  if code = 0x63 then
    let st ← opIf B ctx false executing st
    return (st, [])
  else if code = 0x64 then
    let st ← opIf B ctx true executing st
    return (st, [])
  else if code = 0x67 then
    rejectIf (st.cond.isEmpty) (.script "OP_ELSE")
    return ({ st with cond := st.cond.toggleTop }, [])
  else if code = 0x68 then
    rejectIf (st.cond.isEmpty) (.script "OP_ENDIF")
    return ({ st with cond := st.cond.pop }, [])
  else
    rejectForbidden ctx code
    if executing then operate B ctx thisPos byteIndex st (Op.ofCode code) else return (st, [])

/-- The arm of `eval_script` for a push, up to the push itself. -/
def stepPush (opcode : UInt8) (data : Bytes) (st : EvalState) :
    Result (EvalState × List Bytes) := do
  let data ← scriptElem data
  if st.cond.allTrue then
    rejectIf (ctx.flags.minimalData ∧ checkMinimalPush data opcode = false) (.script "MINIMALDATA")
    return (st, [data])
  else return (st, [])

/-- The position of the next instruction, which saturates. -/
def EvalState.advance (st : EvalState) : EvalState :=
  { st with opcodePos := if st.opcodePos = 0xffffffff then st.opcodePos else st.opcodePos + 1 }

def consume (script : Bytes) (byteIndex : Nat) (ins : Instruction)
    (st : EvalState) : Result (EvalState × List Bytes) :=
  match ins with
  | .pushBytes data => stepPush ctx (script.byteAt byteIndex) data st.advance
  | .op code => stepOp B ctx st.opcodePos byteIndex code st.advance

def stepInstruction (lim : StackLimit) (ctx : EvalContext) (script : Bytes) (byteIndex : Nat)
    (ins : Instruction) (st : EvalState) : Result EvalState := do
  let (st, results) ← consume B ctx script byteIndex ins st
  st.pushAll lim results

/-- The reference's test, made after an instruction. -/
def checkDepth (lim : StackLimit) (st : EvalState) : Result EvalState := do
  rejectIf (lim = .afterInstruction ∧ maxStackSize < st.depth) (.script "stack size")
  return st

def evalItems (lim : StackLimit) (ctx : EvalContext) (script : Bytes) :
    List (Option (Nat × Instruction)) → EvalState → Result EvalState
  | [], st => .ok st
  | none :: _, _ => fail "script parse"
  | some (byteIndex, ins) :: items, st => do
    let st ← stepInstruction B lim ctx script byteIndex ins st
    let st ← checkDepth lim st
    evalItems lim ctx script items st

def tapscriptInitWeight : Int :=
  if ctx.sigVersion = .tapScript then 50 + (B.enc.witness ctx.txIn.witness).length else 0

variable (stack : List Bytes)

/-- The state in front of the first instruction. -/
def EvalState.init : EvalState where
  stack
  altstack := []
  cond := .empty
  opCount := 0
  opcodePos := 0
  codeseparatorPos := 0xffffffff
  codeseparatorScriptOff := none
  validationWeightLeft := tapscriptInitWeight B ctx

def checkInitial (script : Bytes) (stack : List Bytes) (ctx : EvalContext) : Result Unit := do
  rejectIf (ctx.sigVersion = .tapScript ∧ maxStackSize < stack.length) (.script "stack size")
  rejectIf (ctx.sigVersion = .tapScript ∧ stack.any fun item => maxScriptElementSize < item.length)
    (.script "PUSH_SIZE")
  rejectIf (ctx.sigVersion ≠ .tapScript ∧ maxScriptSizeLegacy < script.length)
    (.script "script too large")

/-- `eval_script` with the stack limit tested where `lim` says: whether the final stack is still to
be looked at, and that stack. An `OP_SUCCESSx` makes a tapscript valid as it stands. -/
def evalScriptWith (lim : StackLimit) (script : Bytes) (stack : List Bytes) (ctx : EvalContext) :
    Result (Bool × List Bytes) :=
  if ctx.sigVersion = .tapScript ∧ tapscriptHasOpSuccess script then .ok (false, stack)
  else do
    checkInitial script stack ctx
    let st ← evalItems B lim ctx script (B.instructionIndices script) (.init B ctx stack)
    rejectIf (st.cond.isEmpty = false) (.script "unbalanced IF")
    return (true, st.stack)

def requireCleanTrue : Result Unit :=
  match stack with
  | [v] => rejectIf (B.readScriptbool v = false) (.script "script false")
  | _ => fail "cleanstack"

def requireTrueTop : Result Unit :=
  match stack with
  | [] => fail "script false"
  | v :: _ => rejectIf (B.readScriptbool v = false) (.script "script false")

end Rbitcoin.Script
