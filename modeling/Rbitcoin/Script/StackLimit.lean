import Rbitcoin.Script.Spend

/-! The limit of 1000 stack elements, tested on push or after every instruction.

From a stack within the limit the two evaluations are equal: an opcode never grows the stacks
before its pushes, so the depth at its last push is the depth after it. A tapscript stack over the
limit fails in both before the loop. A witness v0 stack over the limit cannot become clean: every
counted opcode takes at most three elements off the main stack for each unit it adds to the
operation count, and the count stays within 201. -/

namespace Rbitcoin.Script

open Bytes Nested Outcome Tx List Option

variable (B : Bitcoin)

/-- `st'` is `st` without the operands of an opcode whose results are `results`. The opcode itself
has been counted, which pays for three elements; `CHECKMULTISIG` pays for its keys as well. -/
structure Consumed (st st' : EvalState) (results : List Bytes) : Prop where
  depth : st'.depth ≤ st.depth
  main : st.stack.length + 3 * st.opCount ≤
    st'.stack.length + results.length + 3 * st'.opCount + 3
  count : st.opCount ≤ maxOpsLegacy → st'.opCount ≤ maxOpsLegacy

section Operate

variable {ctx : EvalContext} {thisPos : UInt32} {byteIndex : Nat} {st st' : EvalState}
  {results : List Bytes}

theorem opChecksigOperate_consumed {verify : Bool}
    (h : opChecksigOperate B ctx verify st = .ok (st', results)) : Consumed st st' results := by
  simp only [opChecksigOperate, bind_eq_ok, Prod.exists, pop_eq_ok] at h
  obtain ⟨pubkey, _, hstack, sig, rest, rfl, h⟩ := h
  have after : st'.stack = rest ∧ st'.altstack = st.altstack ∧ st'.opCount = st.opCount := by
    cases hv : PreTapscript.fromSigVersion ctx.sigVersion with
    | none =>
      simp only [hv, bind_eq_ok, Prod.exists] at h
      obtain ⟨result, left, -, h⟩ := h
      cases result <;> cases verify <;> simp [pure, Except.pure] at h <;> simp [← h.1]
    | some pre =>
      simp only [hv, bind_eq_ok] at h
      obtain ⟨ok, -, h⟩ := h
      cases ok <;> cases verify <;> simp [pure, Except.pure] at h <;> simp [← h.1]
  obtain ⟨hrest, halt, hcount⟩ := after
  constructor <;> simp only [EvalState.depth, hstack, hrest, halt, hcount, length_cons] <;>
    omega

theorem opChecksigaddOperate_consumed
    (h : opChecksigaddOperate B ctx st = .ok (st', results)) : Consumed st st' results := by
  simp only [opChecksigaddOperate, bind_eq_ok, Prod.exists, pop_eq_ok] at h
  obtain ⟨-, -, pubkey, _, hstack, nRaw, _, rfl, sig, rest, rfl, n, -, result, left, -, h⟩ := h
  have after : st'.stack = rest ∧ st'.altstack = st.altstack ∧ st'.opCount = st.opCount := by
    cases result <;> simp [pure, Except.pure] at h <;> simp [← h.1]
  obtain ⟨hrest, halt, hcount⟩ := after
  constructor <;> simp only [EvalState.depth, hstack, hrest, halt, hcount, length_cons] <;>
    omega

theorem opCheckmultisigOperate_consumed {verify : Bool} {ver : PreTapscript}
    (h : opCheckmultisigOperate B ctx verify ver st = .ok (st', results)) :
    Consumed st st' results := by
  simp only [opCheckmultisigOperate, bind_eq_ok, Prod.exists, popNum_eq_ok, pop_eq_ok,
    rejectIf_eq_ok] at h
  obtain ⟨n, r1, ⟨_, hstack, -⟩, -, hn, -, hcount, keys, r2, hkeys, m, r3, ⟨_, rfl, -⟩, -, hm,
    sigs, r4, hsigs, dummy, rest, rfl, -, -, code, -, success, -, -, -, h⟩ := h
  have after : st'.stack = rest ∧ st'.altstack = st.altstack ∧
      st'.opCount = st.opCount + n.toNat := by
    cases success <;> cases verify <;> simp [pure, Except.pure] at h <;> simp [← h.1]
  obtain ⟨hrest, halt, hops⟩ := after
  have hk := popMany_length hkeys
  have hs := popMany_length hsigs
  simp only [length_cons] at hk hs
  constructor <;> simp only [EvalState.depth, hstack, hrest, halt, hops, length_cons] <;>
    omega

theorem operate_consumed {op : Op}
    (h : operate B ctx thisPos byteIndex st op = .ok (st', results)) :
    Consumed st st' results := by
  cases op with
  | checksig verify => exact opChecksigOperate_consumed B h
  | checksigadd =>
    simp only [operate] at h
    split_ifs at h
    exact opChecksigaddOperate_consumed B h
  | checkmultisig verify =>
    simp only [operate] at h
    split at h
    · split_ifs at h
    · exact opCheckmultisigOperate_consumed B h
  | rot2 =>
    simp only [operate] at h
    split at h
    · rename_i hstack
      obtain ⟨rfl, rfl⟩ := h
      constructor <;> simp [EvalState.depth, hstack]
    · cases h
  | _ =>
    simp only [operate, bind_eq_ok, Prod.exists, pop_eq_ok, popNum_eq_ok, pure, Except.pure] at h
    constructor <;> grind [EvalState.depth]

/-- Opcodes with no operand: constants, and the opcodes that always fail. -/
def Op.isNullary : Op → Bool
  | .negate1 | .pushnum _ | .unknown _ => true
  | _ => false

theorem isNullary_ofCode {code : UInt8} (low : code ≤ 0x60) : (Op.ofCode code).isNullary := by
  have all : ∀ n < 0x61, (Op.ofCode (UInt8.ofNat n)).isNullary = true := by decide
  have h := all code.toNat (by
    simp only [UInt8.le_iff_toNat_le, UInt8.reduceToNat] at low
    omega)
  simpa using h

theorem operate_nullary {op : Op} (nullary : op.isNullary)
    (h : operate B ctx thisPos byteIndex st op = .ok (st', results)) : st' = st := by
  cases op <;> simp [Op.isNullary] at nullary <;> simp [operate] at h
  · exact h.1.symm
  · exact h.1.symm

end Operate

theorem pushAll_afterInstruction (st : EvalState) (vs : List Bytes) :
    st.pushAll .afterInstruction vs = .ok { st with stack := vs.reverse ++ st.stack } := by
  induction vs generalizing st with
  | nil => rfl
  | cons v vs ih => simp [EvalState.pushAll, EvalState.push, rejectIf, ih]

variable {st : EvalState} {lim : StackLimit} {st' : EvalState}

theorem pushAll_eq_ok {vs : List Bytes}
    (h : st.pushAll lim vs = .ok st') : st' = { st with stack := vs.reverse ++ st.stack } := by
  induction vs generalizing st with
  | nil =>
    simp only [EvalState.pushAll, Except.ok.injEq] at h
    simp [← h]
  | cons v vs ih =>
    simp only [EvalState.pushAll, EvalState.push, bind_eq_ok, pure, Except.pure,
      Except.ok.injEq] at h
    obtain ⟨_, ⟨-, -, rfl⟩, h⟩ := h
    simpa using ih h

theorem pushAll_onPush (within : st.depth ≤ maxStackSize) (vs : List Bytes) :
    st.pushAll .onPush vs = st.pushAll .afterInstruction vs >>= checkDepth .afterInstruction := by
  induction vs generalizing st with
  | nil => simp [EvalState.pushAll, checkDepth, rejectIf, not_lt.mpr within]
  | cons v vs ih =>
    by_cases room : st.stack.length + st.altstack.length + 1 ≤ maxStackSize
    · have next := @ih { st with stack := v :: st.stack } (by
        simp only [EvalState.depth, length_cons]
        omega)
      simpa [EvalState.pushAll, EvalState.push, rejectIf, not_lt.mpr room] using next
    · have deep : maxStackSize < vs.length + (st.stack.length + 1) + st.altstack.length := by
        omega
      simp [pushAll_afterInstruction, EvalState.pushAll, EvalState.push, rejectIf, checkDepth,
        EvalState.depth, not_le.mp room, deep]

/-- What an instruction does to the stacks up to its pushes: nothing grows, and outside tapscript
the operation count pays for what leaves the main stack. -/
structure Paid (ctx : EvalContext) (st st' : EvalState) (results : List Bytes) : Prop where
  depth : st'.depth ≤ st.depth
  main : ctx.sigVersion ≠ .tapScript →
    st.stack.length + 3 * st.opCount ≤ st'.stack.length + results.length + 3 * st'.opCount
  count : st.opCount ≤ maxOpsLegacy → st'.opCount ≤ maxOpsLegacy

section Instruction

variable {ctx : EvalContext} {st st' : EvalState} {results : List Bytes}

theorem opIf_consumed {negated executing : Bool} (h : opIf B ctx negated executing st = .ok st') :
    Consumed st st' [] := by
  cases executing with
  | false =>
    simp only [opIf, Bool.false_eq_true, if_false, Except.ok.injEq] at h
    subst h
    constructor <;> simp [EvalState.depth]
  | true =>
    simp only [opIf, if_true, bind_eq_ok, Prod.exists, pop_eq_ok, pure, Except.pure,
      Except.ok.injEq] at h
    obtain ⟨v, rest, hstack, -, -, rfl⟩ := h
    constructor <;> simp only [EvalState.depth, hstack, length_cons] <;> omega

variable {code : UInt8} {byteIndex : Nat}

theorem countOp_eq_ok (h : countOp ctx code st = .ok st') :
    st'.stack = st.stack ∧ st'.altstack = st.altstack ∧
      (st.opCount ≤ maxOpsLegacy → st'.opCount ≤ maxOpsLegacy) ∧
      (ctx.sigVersion ≠ .tapScript → st'.opCount = st.opCount + if 0x60 < code then 1 else 0) := by
  by_cases counted : ctx.sigVersion ≠ .tapScript ∧ 0x60 < code
  · simp only [countOp, if_pos counted, bind_eq_ok, rejectIf_eq_ok, pure, Except.pure,
      Except.ok.injEq] at h
    obtain ⟨-, room, rfl⟩ := h
    simp [counted]
    omega
  · simp only [countOp, if_neg counted, Except.ok.injEq] at h
    subst h
    refine ⟨rfl, rfl, id, fun base => ?_⟩
    simp [not_and.mp counted base]

theorem Paid.of_counted {mid : EvalState} (counted : countOp ctx code st = .ok mid)
    (high : 0x60 < code) (consumed : Consumed mid st' results) : Paid ctx st st' results := by
  obtain ⟨hstack, halt, hcount, hpay⟩ := countOp_eq_ok counted
  refine ⟨?_, fun base => ?_, consumed.count ∘ hcount⟩
  · have := consumed.depth
    simp only [EvalState.depth, hstack, halt] at this ⊢
    exact this
  · have main := consumed.main
    have := hpay base
    rw [if_pos high] at this
    rw [hstack] at main
    omega

theorem Paid.of_unchanged {mid : EvalState} (counted : countOp ctx code st = .ok mid)
    (main : st'.stack = mid.stack) (alt : st'.altstack = mid.altstack)
    (ops : st'.opCount = mid.opCount) : Paid ctx st st' results := by
  obtain ⟨hstack, halt, hcount, hpay⟩ := countOp_eq_ok counted
  refine ⟨?_, fun base => ?_, fun room => ops ▸ hcount room⟩
  · simp only [EvalState.depth, main, alt, hstack, halt, le_refl]
  · have := hpay base
    rw [main, ops, hstack]
    omega

theorem stepOp_paid {thisPos : UInt32}
    (h : stepOp B ctx thisPos byteIndex code st = .ok (st', results)) :
    Paid ctx st st' results := by
  simp only [stepOp, bind_eq_ok] at h
  obtain ⟨mid, counted, h⟩ := h
  split_ifs at h with c1 c2 c3 c4 executing <;>
    simp only [bind_eq_ok] at h
  · obtain ⟨next, opened, rfl, rfl⟩ := h
    exact .of_counted counted (c1 ▸ by decide) (opIf_consumed B opened)
  · obtain ⟨next, opened, rfl, rfl⟩ := h
    exact .of_counted counted (c2 ▸ by decide) (opIf_consumed B opened)
  · obtain ⟨-, -, rfl, rfl⟩ := h
    exact .of_unchanged counted rfl rfl rfl
  · obtain ⟨-, -, rfl, rfl⟩ := h
    exact .of_unchanged counted rfl rfl rfl
  · obtain ⟨-, -, h⟩ := h
    by_cases high : 0x60 < code
    · exact .of_counted counted high (operate_consumed B h)
    · have nullary := isNullary_ofCode (UInt8.not_lt.mp high)
      obtain rfl := operate_nullary B nullary h
      exact .of_unchanged counted rfl rfl rfl
  · obtain ⟨-, -, rfl, rfl⟩ := h
    exact .of_unchanged counted rfl rfl rfl

theorem consume_paid {script : Bytes} {ins : Instruction}
    (h : consume B ctx script byteIndex ins st = .ok (st', results)) : Paid ctx st st' results := by
  cases ins with
  | op code =>
    have paid := stepOp_paid B h
    exact ⟨paid.depth, paid.main, paid.count⟩
  | pushBytes data =>
    simp only [consume, stepPush, bind_eq_ok] at h
    obtain ⟨_, -, h⟩ := h
    split_ifs at h
    · simp only [bind_eq_ok] at h
      obtain ⟨-, -, rfl, rfl⟩ := h
      exact ⟨le_refl _, fun _ => by simp [EvalState.advance], id⟩
    · obtain ⟨rfl, rfl⟩ := h
      exact ⟨le_refl _, fun _ => by simp [EvalState.advance], id⟩

theorem stepInstruction_paid {script : Bytes} {ins : Instruction}
    (h : stepInstruction B lim ctx script byteIndex ins st = .ok st') :
    (ctx.sigVersion ≠ .tapScript →
      st.stack.length + 3 * st.opCount ≤ st'.stack.length + 3 * st'.opCount) ∧
      (st.opCount ≤ maxOpsLegacy → st'.opCount ≤ maxOpsLegacy) := by
  simp only [stepInstruction, bind_eq_ok, Prod.exists] at h
  obtain ⟨mid, results, consumed, pushed⟩ := h
  have paid := consume_paid B consumed
  obtain rfl := pushAll_eq_ok pushed
  refine ⟨fun base => ?_, paid.count⟩
  have := paid.main base
  simp only [length_append, length_reverse]
  omega

theorem stepInstruction_agree (within : st.depth ≤ maxStackSize) (script : Bytes)
    (byteIndex : Nat) (ins : Instruction) :
    stepInstruction B .onPush ctx script byteIndex ins st =
      stepInstruction B .afterInstruction ctx script byteIndex ins st >>=
        checkDepth .afterInstruction := by
  simp only [stepInstruction]
  cases consumed : consume B ctx script byteIndex ins st with
  | error e => rfl
  | ok mid =>
    have depth := (consume_paid B consumed).depth
    exact pushAll_onPush (depth.trans within) mid.2

end Instruction

theorem checkDepth_eq_ok (h : checkDepth lim st = .ok st') :
    st' = st ∧ (lim = .afterInstruction → st.depth ≤ maxStackSize) := by
  simp only [checkDepth, bind_eq_ok, rejectIf_eq_ok, pure, Except.pure, Except.ok.injEq] at h
  obtain ⟨-, room, rfl⟩ := h
  exact ⟨rfl, fun after => by simpa [after] using room⟩

section Run

variable {ctx : EvalContext} {script : Bytes}

variable {st : EvalState} {stack : List Bytes}

theorem evalItems_agree (items : List (Option (Nat × Instruction)))
    (within : st.depth ≤ maxStackSize) :
    evalItems B .onPush ctx script items st =
      evalItems B .afterInstruction ctx script items st := by
  induction items generalizing st with
  | nil => rfl
  | cons item items ih =>
    rcases item with _ | ⟨byteIndex, ins⟩
    · rfl
    · simp only [evalItems, stepInstruction_agree B within]
      cases stepped : stepInstruction B .afterInstruction ctx script byteIndex ins st with
      | error e => rfl
      | ok mid =>
        simp only [ok_bind]
        cases checked : checkDepth .afterInstruction mid with
        | error e => rfl
        | ok next =>
          obtain ⟨rfl, room⟩ := checkDepth_eq_ok checked
          exact ih (room rfl)

theorem evalItems_stack_length (base : ctx.sigVersion ≠ .tapScript)
    (items : List (Option (Nat × Instruction)))
    (count : st.opCount ≤ maxOpsLegacy) (h : evalItems B lim ctx script items st = .ok st') :
    st.stack.length + 3 * st.opCount ≤ st'.stack.length + 3 * maxOpsLegacy := by
  induction items generalizing st with
  | nil =>
    simp only [evalItems, Except.ok.injEq] at h
    subst h
    omega
  | cons item items ih =>
    rcases item with _ | ⟨byteIndex, ins⟩
    · cases h
    · simp only [evalItems, bind_eq_ok] at h
      obtain ⟨mid, stepped, _, checked, h⟩ := h
      obtain ⟨rfl, -⟩ := checkDepth_eq_ok checked
      have paid := stepInstruction_paid B stepped
      exact (paid.1 base).trans (ih (paid.2 count) h)

theorem evalScriptWith_agree (within : ctx.sigVersion ≠ .tapScript → stack.length ≤ maxStackSize) :
    evalScriptWith B .onPush script stack ctx =
      evalScriptWith B .afterInstruction script stack ctx := by
  by_cases room : stack.length ≤ maxStackSize
  · have depth : (EvalState.init B ctx stack).depth ≤ maxStackSize := by
      simpa [EvalState.depth, EvalState.init] using room
    simp only [evalScriptWith, evalItems_agree B _ depth]
  · have tap : ctx.sigVersion = .tapScript := by
      by_contra base
      exact room (within base)
    simp [evalScriptWith, checkInitial, rejectIf, tap, not_le.mp room]

theorem evalScriptWith_not_clean (base : ctx.sigVersion ≠ .tapScript)
    (above : maxStackSize < stack.length) (lim : StackLimit) {check : Bool} {stack' : List Bytes}
    (h : evalScriptWith B lim script stack ctx = .ok (check, stack')) :
    check = true ∧ ¬Accepts (requireCleanTrue B stack') := by
  simp only [evalScriptWith, base, false_and, if_false, bind_eq_ok] at h
  obtain ⟨-, -, st, ran, -, -, rfl, rfl⟩ := h
  have long := evalItems_stack_length B base _ (Nat.zero_le _) ran
  simp only [EvalState.init, maxStackSize, maxOpsLegacy] at above long
  match hs : st.stack with
  | [] => simp [requireCleanTrue]
  | [_] =>
    simp only [hs, length_singleton] at long
    omega
  | _ :: _ :: _ => simp [requireCleanTrue]

theorem evalItems_depth_le (items : List (Option (Nat × Instruction)))
    (within : st.depth ≤ maxStackSize)
    (h : evalItems B .afterInstruction ctx script items st = .ok st') :
    st'.depth ≤ maxStackSize := by
  induction items generalizing st with
  | nil =>
    simp only [evalItems, Except.ok.injEq] at h
    exact h ▸ within
  | cons item items ih =>
    rcases item with _ | ⟨byteIndex, ins⟩
    · cases h
    · simp only [evalItems, bind_eq_ok] at h
      obtain ⟨mid, -, _, checked, h⟩ := h
      obtain ⟨rfl, room⟩ := checkDepth_eq_ok checked
      exact ih (room rfl) h

theorem evalScriptWith_length_le {stack' : List Bytes} {check : Bool}
    (within : stack.length ≤ maxStackSize)
    (h : evalScriptWith B .afterInstruction script stack ctx = .ok (check, stack')) :
    stack'.length ≤ maxStackSize := by
  rw [evalScriptWith] at h
  split_ifs at h
  · simp only [Except.ok.injEq, Prod.mk.injEq] at h
    exact h.2 ▸ within
  · simp only [bind_eq_ok] at h
    obtain ⟨-, -, st, ran, -, -, -, rfl⟩ := h
    have depth := evalItems_depth_le B _ (by simpa [EvalState.depth, EvalState.init] using within)
      ran
    simp only [EvalState.depth] at depth
    omega

end Run

section Spend

variable {job : ScriptCheckJob} {i : job.InputIndex} {amount : UInt64} {script : Bytes}

theorem fromJob_sigVersion {sigVersion : SigVersion} {ctx : EvalContext}
    (h : EvalContext.fromJob job i amount script sigVersion = .ok ctx) :
    ctx.sigVersion = sigVersion := by
  simp only [EvalContext.fromJob, bind_eq_ok, pure, Except.pure, Except.ok.injEq] at h
  obtain ⟨_, -, rfl⟩ := h
  rfl

theorem executeWitnessV0_agree (items : List Bytes) :
    Accepts (P2wsh.executeWitnessV0 B .onPush job i script items amount) ↔
      Accepts (P2wsh.executeWitnessV0 B .afterInstruction job i script items amount) := by
  simp only [P2wsh.executeWitnessV0, accepts_rejectIf_bind,
    accepts_bind (x := EvalContext.fromJob ..)]
  refine and_congr_right fun _ => exists_congr fun ctx => and_congr_right fun made => ?_
  have base : ctx.sigVersion ≠ .tapScript := by simp [fromJob_sigVersion made]
  by_cases room : items.reverse.length ≤ maxStackSize
  · rw [evalScriptWith_agree B fun _ => room]
  · have rejected (lim : StackLimit) : ¬Accepts (evalScriptWith B lim script items.reverse ctx >>=
        fun ended => requireCleanTrue B ended.2) := by
      rw [accepts_bind]
      rintro ⟨_, ran, clean⟩
      exact (evalScriptWith_not_clean B base (not_le.mp room) lim ran).2 clean
    exact iff_of_false (rejected _) (rejected _)

theorem evalScriptWith_nil (ctx : EvalContext) : evalScriptWith B .onPush script [] ctx =
    evalScriptWith B .afterInstruction script [] ctx :=
  evalScriptWith_agree B fun _ => Nat.zero_le _

theorem verifyBare_agree : verifyBare B .onPush job i amount script =
    verifyBare B .afterInstruction job i amount script := by
  simp only [verifyBare, evalScriptWith_nil]
  refine bind_congr_ok fun stack ran => bind_congr_ok fun ctx _ => ?_
  have within : stack.length ≤ maxStackSize := by
    split_ifs at ran
    · simp only [Except.ok.injEq] at ran
      simp [← ran]
    · simp only [bind_eq_ok, Prod.exists, pure, Except.pure, Except.ok.injEq] at ran
      obtain ⟨_, -, _, _, ran, rfl⟩ := ran
      exact evalScriptWith_length_le B (Nat.zero_le _) ran
  rw [evalScriptWith_agree B fun _ => within]

theorem p2shScriptSigStack_agree : p2shScriptSigStack B .onPush job i amount =
    p2shScriptSigStack B .afterInstruction job i amount := by
  simp only [p2shScriptSigStack, evalScriptWith_nil]

theorem p2shScriptSigStack_length {stack : List Bytes}
    (h : p2shScriptSigStack B lim job i amount = .ok stack) :
    stack.length < maxStackSize := by
  simp only [p2shScriptSigStack, requireRoomForP2shHashPush, bind_eq_ok,
    Prod.exists, rejectIf_eq_ok, pure, Except.pure, Except.ok.injEq] at h
  obtain ⟨_, -, _, _, -, -, room, -, -, rfl⟩ := h
  omega

theorem verifyP2shLegacy_agree {stack : List Bytes} (within : stack.length ≤ maxStackSize) :
    verifyP2shLegacy B .onPush job i stack amount script =
      verifyP2shLegacy B .afterInstruction job i stack amount script := by
  cases stack with
  | nil => rfl
  | cons redeem stack =>
    have below : stack.length ≤ maxStackSize := by
      rw [length_cons] at within
      omega
    simp only [verifyP2shLegacy, evalScriptWith_agree B fun _ => below]

theorem p2trVerify_agree : P2tr.verify B .onPush job i amount script =
    P2tr.verify B .afterInstruction job i amount script := by
  have run (outputKey : Bytes) : P2tr.verifyScriptPath B .onPush job i outputKey amount script =
      P2tr.verifyScriptPath B .afterInstruction job i outputKey amount script := by
    simp only [P2tr.verifyScriptPath]
    split
    · refine bind_congr_ok fun leaf _ => ?_
      split_ifs
      · rfl
      · refine bind_congr_ok fun ctx made => ?_
        have tap := fromJob_sigVersion made
        congr 1
        exact evalScriptWith_agree B fun base => absurd tap base
    · rfl
  simp only [P2tr.verify, run]

theorem verifyInterpreted_agree (keyhash : Bytes) :
    Accepts (P2wpkh.verifyInterpreted B .onPush job i keyhash amount) ↔
      Accepts (P2wpkh.verifyInterpreted B .afterInstruction job i keyhash amount) := by
  simp [P2wpkh.verifyInterpreted, executeWitnessV0_agree]

theorem verifyWithScripthash_agree (scripthash : Bytes) :
    Accepts (P2wsh.verifyWithScripthash B .onPush job i scripthash amount) ↔
      Accepts (P2wsh.verifyWithScripthash B .afterInstruction job i scripthash amount) := by
  simp only [P2wsh.verifyWithScripthash]
  split
  · rfl
  · simp [executeWitnessV0_agree]

variable (pre : TxScriptPrecompute)

theorem verifyNativeWitness_agree (version : Nat) (program : Bytes) :
    Accepts (verifyNativeWitness B .onPush job i pre version program amount script) ↔
      Accepts (verifyNativeWitness B .afterInstruction job i pre version program amount
        script) := by
  simp only [verifyNativeWitness, accepts_rejectIf_bind, p2trVerify_agree]
  refine and_congr_right fun _ => and_congr_right fun _ => ?_
  split_ifs
  all_goals first
    | rfl
    | exact verifyInterpreted_agree B program
    | exact verifyWithScripthash_agree B _

theorem tryP2shNestedSegwit_agree (items : List Bytes) :
    (tryP2shNestedSegwit B .onPush job i pre items amount script).map Accepts =
      (tryP2shNestedSegwit B .afterInstruction job i pre items amount script).map
        Accepts := by
  simp only [tryP2shNestedSegwit]
  by_cases inactive : job.flags.witnessActive = false
  · simp only [if_pos inactive]
  · simp only [if_neg inactive]
    split
    · rfl
    · split
      · rfl
      · simp only [map_some, some.injEq, eq_iff_iff, accepts_rejectIf_bind,
          accepts_bind (x := checkP2shRedeemHash ..)]
        refine and_congr_right fun _ => exists_congr fun _ => and_congr_right fun _ =>
          and_congr_right fun _ => ?_
        split_ifs
        all_goals first
          | rfl
          | exact verifyInterpreted_agree B _
          | exact verifyWithScripthash_agree B _

theorem verifyP2sh_agree : Accepts (verifyP2sh B .onPush job i pre amount script) ↔
      Accepts (verifyP2sh B .afterInstruction job i pre amount script) := by
  simp only [verifyP2sh, verifyBare_agree, p2shScriptSigStack_agree]
  split_ifs
  · rfl
  · simp only [accepts_bind (x := p2shScriptSigStack ..)]
    refine exists_congr fun stack => and_congr_right fun ran => ?_
    have short := p2shScriptSigStack_length B ran
    have nested : (tryP2shNestedSegwit B .onPush job i pre stack amount script).map Accepts =
        (tryP2shNestedSegwit B .afterInstruction job i pre stack amount script).map Accepts :=
      tryP2shNestedSegwit_agree B pre stack
    cases h1 : tryP2shNestedSegwit B .onPush job i pre stack amount script <;>
      cases h2 : tryP2shNestedSegwit B .afterInstruction job i pre stack amount script <;>
      simp only [h1, h2, map_none, map_some, reduceCtorEq, some.injEq]
        at nested
    · rw [verifyP2shLegacy_agree B short.le]
    · exact iff_of_eq nested

end Spend

/-- Testing the limit on push and testing it after every instruction give the same verdict: for
every script run from any stack that must end clean, and for every input of every transaction. -/
theorem stackLimit_verdict :
    (∀ (script : Bytes) (stack : List Bytes) (ctx : EvalContext),
      Accepts (evalScriptWith B .onPush script stack ctx >>= fun (check, stack) =>
        if check then requireCleanTrue B stack else .ok ()) ↔
      Accepts (evalScriptWith B .afterInstruction script stack ctx >>= fun (check, stack) =>
        if check then requireCleanTrue B stack else .ok ())) ∧
    ∀ (job : ScriptCheckJob) (i : job.InputIndex) (pre : TxScriptPrecompute) (amount : UInt64)
      (script : Bytes),
      Accepts (verifyInput B .onPush job i pre amount script) ↔
        Accepts (verifyInput B .afterInstruction job i pre amount script) := by
  constructor
  · intro script stack ctx
    by_cases above : ctx.sigVersion ≠ .tapScript ∧ maxStackSize < stack.length
    · have rejected (lim : StackLimit) : ¬Accepts (evalScriptWith B lim script stack ctx >>=
          fun (check, stack) => if check then requireCleanTrue B stack else .ok ()) := by
        rw [accepts_bind]
        rintro ⟨_, ran, clean⟩
        obtain ⟨checked, unclean⟩ := evalScriptWith_not_clean B above.1 above.2 lim ran
        simp only [checked] at clean
        exact unclean clean
      exact iff_of_false (rejected .onPush) (rejected .afterInstruction)
    · rw [evalScriptWith_agree B fun base => by
        by_contra long
        exact above ⟨base, not_le.mp long⟩]
  · intro job i pre amount script
    simp only [verifyInput]
    split
    · exact verifyNativeWitness_agree B pre _ _
    · simp only [accepts_rejectIf_bind]
      refine and_congr_right fun _ => ?_
      split
      · simp only [verifyP2pkh, verifyBare_agree]
      · exact verifyP2sh_agree B pre
      · rw [verifyBare_agree]

end Rbitcoin.Script
