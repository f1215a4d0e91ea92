import Rbitcoin.Script.StackLimit

/-! Rules for running a straight-line script by hand. `Running st stack ops` says what matters of
a state between two instructions; a rule takes an instruction off the front of the list and gives
the state after it. -/

namespace Rbitcoin.Script

open Bytes Tx Outcome List EvalState

variable (B : Bitcoin) (lim : StackLimit)

/-- The state in which an opcode past `OP_16` operates outside tapscript. -/
def EvalState.counted (st : EvalState) : EvalState :=
  { st.advance with opCount := st.opCount + 1 }

def EvalState.pushed (st : EvalState) (results : List Bytes) : EvalState :=
  { st with stack := results.reverse ++ st.stack }

/-- Counted opcodes that neither branch nor fail on sight. -/
def isPlain (code : UInt8) : Bool :=
  0x60 < code &&
    code ∉ ([0x63, 0x64, 0x67, 0x68, opVerif, opVernotif, opCodeseparator] : List UInt8) &&
    !isDisabledLegacy code

variable {lim} {ctx : EvalContext} {script : Bytes} {k : Nat} {st : EvalState}

theorem depth_pushed (st : EvalState) (results : List Bytes) :
    (st.pushed results).depth = st.depth + results.length := by
  simp only [pushed, depth, length_append, length_reverse]
  omega

variable {results : List Bytes}

theorem pushAll_pushed (room : st.depth + results.length ≤ maxStackSize) :
    st.pushAll lim results = .ok (st.pushed results) := by
  have after : st.pushAll .afterInstruction results = .ok (st.pushed results) :=
    pushAll_afterInstruction st results
  cases lim with
  | afterInstruction => exact after
  | onPush =>
    have fits : ¬maxStackSize < (st.pushed results).depth := by
      rw [depth_pushed]
      omega
    rw [pushAll_onPush (by omega), after]
    simp [checkDepth, rejectIf, fits]

theorem pushAll_checkDepth (room : st.depth + results.length ≤ maxStackSize) :
    (st.pushAll lim results >>= checkDepth lim) = .ok (st.pushed results) := by
  rw [pushAll_pushed room]
  simp [checkDepth, rejectIf, depth_pushed, not_lt.mpr room]

variable {items : List (Option (Nat × Instruction))} {ins : Instruction}

theorem evalItems_consume {st' : EvalState}
    (consumed : consume B ctx script k ins st = .ok (st', results))
    (room : st'.depth + results.length ≤ maxStackSize) :
    evalItems B lim ctx script (some (k, ins) :: items) st =
      evalItems B lim ctx script items (st'.pushed results) := by
  have ended : (st'.pushAll lim results >>= checkDepth lim) = .ok (st'.pushed results) :=
    pushAll_checkDepth room
  obtain ⟨mid, pushed, checked⟩ := bind_eq_ok.mp ended
  simp only [evalItems, stepInstruction, consumed, ok_bind, pushed, checked]

theorem evalItems_consume_error {e : ConsensusError}
    (failed : consume B ctx script k ins st = .error e) :
    evalItems B lim ctx script (some (k, ins) :: items) st = .error e := by
  rw [evalItems, stepInstruction, failed]
  rfl

theorem evalItems_overflow {st' : EvalState}
    (consumed : consume B ctx script k ins st = .ok (st', results))
    (within : st'.depth ≤ maxStackSize) (above : maxStackSize < st'.depth + results.length) :
    evalItems B lim ctx script (some (k, ins) :: items) st = fail "stack size" := by
  have deep : maxStackSize < (st'.pushed results).depth := by rwa [depth_pushed]
  have refused : checkDepth .afterInstruction (st'.pushed results) = fail "stack size" := by
    rw [checkDepth, rejectIf_pos ⟨rfl, deep⟩]
    rfl
  have after : st'.pushAll .afterInstruction results = .ok (st'.pushed results) :=
    pushAll_afterInstruction st' results
  simp only [evalItems, stepInstruction, consumed, ok_bind]
  cases lim with
  | afterInstruction => rw [after, ok_bind, refused, error_bind]
  | onPush => rw [pushAll_onPush within, after, ok_bind, refused, error_bind]

variable {data : Bytes}

theorem consume_push (running : st.cond.allTrue = true)
    (short : data.length ≤ maxScriptElementSize) :
    consume B ctx script k (.pushBytes data) st = do
      rejectIf (ctx.flags.minimalData ∧ checkMinimalPush data (script.byteAt k) = false)
        (.script "MINIMALDATA")
      return (st.advance, [data]) := by
  have running' : st.advance.cond.allTrue = true := running
  simp [consume, stepPush, scriptElem, rejectIf_neg (not_lt.mpr short), running']

variable {code : UInt8}

theorem countOp_counted (notTap : ctx.sigVersion ≠ .tapScript) (high : 0x60 < code)
    (ops : st.opCount < maxOpsLegacy) :
    countOp ctx code st.advance = .ok st.counted := by
  have room : ¬maxOpsLegacy < st.advance.opCount + 1 := not_lt.mpr ops
  rw [countOp, if_pos ⟨notTap, high⟩, rejectIf_neg room]
  rfl

theorem consume_plain (notTap : ctx.sigVersion ≠ .tapScript) (running : st.cond.allTrue = true)
    (plain : isPlain code = true) (ops : st.opCount < maxOpsLegacy) :
    consume B ctx script k (.op code) st =
      operate B ctx st.opcodePos k st.counted (Op.ofCode code) := by
  have running' : st.advance.cond.allTrue = true := running
  simp only [isPlain, Bool.and_eq_true, decide_eq_true_eq, Bool.not_eq_true', mem_cons,
    not_or] at plain
  obtain ⟨⟨high, hif, hnotif, helse, hendif, hverif, hvernotif, hsep⟩, enabled⟩ := plain
  have allowed : rejectForbidden ctx code = .ok () := by
    simp [rejectForbidden, rejectIf, hverif, hvernotif, hsep, enabled]
  simp [consume, stepOp, countOp_counted notTap high ops, hif, hnotif, helse, hendif,
    allowed, running']

theorem consume_pushnum (running : st.cond.allTrue = true) (low : opTrue ≤ code)
    (high : code ≤ opPushnum16) :
    consume B ctx script k (.op code) st = .ok (st.advance, [[code - 0x50]]) := by
  have running' : st.advance.cond.allTrue = true := running
  have uncounted : ¬0x60 < code := UInt8.not_lt.mpr high
  have kind : Op.ofCode code = .pushnum (code - 0x50) := if_pos ⟨low, high⟩
  have enabled : isDisabledLegacy code = false := by
    simp only [isDisabledLegacy, decide_eq_false_iff_not]
    intro disabled
    simp only [mem_cons, not_mem_nil, or_false] at disabled
    rcases disabled with h | h | h | h | h | h | h | h | h | h | h | h | h | h | h <;> subst h <;>
      exact uncounted (by decide)
  have differ (other : UInt8) (above : 0x60 < other) : code ≠ other := by
    rintro rfl
    exact uncounted above
  have allowed : rejectForbidden ctx code = .ok () := by
    simp [rejectForbidden, rejectIf, enabled, differ opVerif (by decide),
      differ opVernotif (by decide), differ opCodeseparator (by decide)]
  simp [consume, stepOp, countOp, uncounted, differ 0x63 (by decide), differ 0x64 (by decide),
    differ 0x67 (by decide), differ 0x68 (by decide), allowed, running', kind, operate]

/-! ### Straight-line runs -/

/-- A state outside every conditional, with nothing on the alt stack and no separator executed. -/
structure Running (st : EvalState) (stack : List Bytes) (ops : Nat) : Prop where
  stack_eq : st.stack = stack
  altstack_eq : st.altstack = []
  cond_eq : st.cond = .empty
  opCount_eq : st.opCount = ops
  separator_eq : st.codeseparatorScriptOff = none

theorem Running.init (ctx : EvalContext) (stack : List Bytes) :
    Running (.init B ctx stack) stack 0 :=
  ⟨rfl, rfl, rfl, rfl, rfl⟩

/-- The instruction at `k` leads from `st` to a state with this stack. -/
def Steps (lim : StackLimit) (ctx : EvalContext) (script : Bytes) (k : Nat) (st : EvalState)
    (items : List (Option (Nat × Instruction))) (ins : Instruction) (stack : List Bytes)
    (ops : Nat) : Prop :=
  ∃ st', Running st' stack ops ∧
    evalItems B lim ctx script (some (k, ins) :: items) st = evalItems B lim ctx script items st'

namespace Running

variable {stack : List Bytes} {ops : Nat}

section

variable (r : Running st stack ops)
include r

theorem counted : Running st.counted stack (ops + 1) :=
  ⟨r.stack_eq, r.altstack_eq, r.cond_eq, congrArg (· + 1) r.opCount_eq, r.separator_eq⟩

theorem allTrue : st.cond.allTrue = true := by
  rw [r.cond_eq]
  rfl

theorem depth_eq : st.depth = stack.length := by
  rw [depth, r.stack_eq, r.altstack_eq, length_nil, add_zero]

theorem finish :
    (do
      let st ← evalItems B lim ctx script [] st
      rejectIf (st.cond.isEmpty = false) (.script "unbalanced IF")
      return (true, st.stack) : Result (Bool × List Bytes)) = .ok (true, stack) := by
  simp only [evalItems, ok_bind, r.cond_eq, r.stack_eq]
  rfl

theorem push (script : Bytes) (k : Nat) (short : data.length ≤ maxScriptElementSize)
    (allowed : ctx.flags.minimalData = true → checkMinimalPush data (script.byteAt k) = true)
    (room : stack.length < maxStackSize) :
    Steps B lim ctx script k st items (.pushBytes data) (data :: stack) ops := by
  refine ⟨st.advance.pushed [data],
    ⟨congrArg (data :: ·) r.stack_eq, r.altstack_eq, r.cond_eq, r.opCount_eq, r.separator_eq⟩,
    evalItems_consume B ?_ ?_⟩
  · rw [consume_push B r.allTrue short, rejectIf_neg]
    · rfl
    · rintro ⟨flag, bad⟩
      rw [allowed flag] at bad
      cases bad
  · change st.depth + 1 ≤ maxStackSize
    rw [r.depth_eq]
    omega

theorem push_nonminimal (short : data.length ≤ maxScriptElementSize)
    (flag : ctx.flags.minimalData = true) (bad : checkMinimalPush data (script.byteAt k) = false) :
    evalItems B lim ctx script (some (k, .pushBytes data) :: items) st = fail "MINIMALDATA" := by
  refine evalItems_consume_error B ?_
  rw [consume_push B r.allTrue short, rejectIf_pos ⟨flag, bad⟩]
  rfl

theorem push_full (full : stack.length = maxStackSize) :
    ¬Accepts (evalItems B lim ctx script (some (k, .pushBytes data) :: items) st) := by
  cases consumed : consume B ctx script k (.pushBytes data) st with
  | error e =>
    rw [evalItems_consume_error B consumed]
    simp
  | ok mid =>
    by_cases short : data.length ≤ maxScriptElementSize
    · obtain ⟨-, -, returned⟩ :=
        bind_eq_ok.mp ((consume_push B r.allTrue short).symm.trans consumed)
      cases returned
      have depth : st.advance.depth = maxStackSize := r.depth_eq.trans full
      rw [evalItems_overflow B consumed depth.le (by simp [depth])]
      simp
    · simp [consume, stepPush, scriptElem, rejectIf_pos (not_le.mp short)] at consumed

theorem pushnum (script : Bytes) (k : Nat) (low : opTrue ≤ code) (high : code ≤ opPushnum16)
    (room : stack.length < maxStackSize) :
    Steps B lim ctx script k st items (.op code) ([code - 0x50] :: stack) ops := by
  refine ⟨st.advance.pushed [[code - 0x50]],
    ⟨congrArg ([code - 0x50] :: ·) r.stack_eq, r.altstack_eq, r.cond_eq, r.opCount_eq,
      r.separator_eq⟩, evalItems_consume B (consume_pushnum B r.allTrue low high) ?_⟩
  change st.depth + 1 ≤ maxStackSize
  rw [r.depth_eq]
  omega

end

variable (notTap : ctx.sigVersion ≠ .tapScript)
include notTap

theorem plain (r : Running st stack ops) (plain : isPlain code = true) (room : ops < maxOpsLegacy)
    (rest results : List Bytes)
    (operated : ∀ st' thisPos, Running st' stack (ops + 1) →
      operate B ctx thisPos k st' (Op.ofCode code) = .ok ({ st' with stack := rest }, results))
    (within : rest.length + results.length ≤ maxStackSize) :
    Steps B lim ctx script k st items (.op code) (results.reverse ++ rest) (ops + 1) := by
  have run := operated st.counted st.opcodePos r.counted
  refine ⟨({ st.counted with stack := rest } : EvalState).pushed results,
    ⟨rfl, r.altstack_eq, r.cond_eq, r.counted.opCount_eq, r.separator_eq⟩,
    evalItems_consume B ?_ ?_⟩
  · rw [consume_plain B notTap r.allTrue plain (by rw [r.opCount_eq]; exact room), run]
  · simpa [depth, r.counted.altstack_eq] using within

theorem plain_error (r : Running st stack ops) (plain : isPlain code = true)
    (room : ops < maxOpsLegacy) {e : ConsensusError}
    (failed : ∀ st' thisPos, Running st' stack (ops + 1) →
      operate B ctx thisPos k st' (Op.ofCode code) = .error e) :
    evalItems B lim ctx script (some (k, .op code) :: items) st = .error e := by
  refine evalItems_consume_error B ?_
  rw [consume_plain B notTap r.allTrue plain (by rw [r.opCount_eq]; exact room),
    failed st.counted st.opcodePos r.counted]

variable {v a b : Bytes}

theorem dup (r : Running st (v :: stack) ops) (room : ops < maxOpsLegacy)
    (within : stack.length + 2 ≤ maxStackSize) :
    Steps B lim ctx script k st items (.op opDup) (v :: v :: stack) (ops + 1) := by
  refine r.plain B notTap (by decide) room (v :: stack) [v] (fun st' _ r' => ?_) within
  obtain ⟨hs, -, -, -, -⟩ := r'
  cases st'
  subst hs
  rfl

theorem hash160 (r : Running st (v :: stack) ops) (room : ops < maxOpsLegacy)
    (within : stack.length + 1 ≤ maxStackSize) :
    Steps B lim ctx script k st items (.op opHash160) (B.hash160 v :: stack) (ops + 1) := by
  refine r.plain B notTap (by decide) room stack [B.hash160 v] (fun st' _ r' => ?_) within
  simp only [operate, r'.stack_eq]
  rfl

theorem hash160_error (r : Running st [] ops) (room : ops < maxOpsLegacy) :
    evalItems B lim ctx script (some (k, .op opHash160) :: items) st = fail "stack empty" := by
  refine r.plain_error B notTap (by decide) room fun st' _ r' => ?_
  rw [show Op.ofCode opHash160 = .hash .hash160 by decide]
  simp only [operate, r'.stack_eq, pop, error_bind]

theorem equal (r : Running st (a :: b :: stack) ops) (room : ops < maxOpsLegacy)
    (within : stack.length + 1 ≤ maxStackSize) :
    Steps B lim ctx script k st items (.op opEqual) (boolEncode (a = b) :: stack) (ops + 1) := by
  refine r.plain B notTap (by decide) room stack [boolEncode (a = b)] (fun st' _ r' => ?_) within
  simp only [operate, r'.stack_eq]
  rfl

theorem equalverify (r : Running st (a :: a :: stack) ops) (room : ops < maxOpsLegacy)
    (within : stack.length ≤ maxStackSize) :
    Steps B lim ctx script k st items (.op opEqualverify) stack (ops + 1) := by
  refine r.plain B notTap (by decide) room stack [] (fun st' _ r' => ?_) within
  simp only [operate, r'.stack_eq, pop, ok_bind, rejectIf_neg (not_not.mpr rfl)]
  rfl

theorem equalverify_error (r : Running st (a :: b :: stack) ops) (room : ops < maxOpsLegacy)
    (differ : a ≠ b) :
    evalItems B lim ctx script (some (k, .op opEqualverify) :: items) st =
      fail "OP_EQUALVERIFY" := by
  refine r.plain_error B notTap (by decide) room fun st' _ r' => ?_
  simp only [operate, r'.stack_eq, pop, ok_bind, rejectIf_pos differ]
  rfl

theorem checksig (r : Running st (a :: b :: stack) ops) {ver : PreTapscript}
    (version : PreTapscript.fromSigVersion ctx.sigVersion = some ver) (room : ops < maxOpsLegacy)
    (within : stack.length + 1 ≤ maxStackSize) :
    (∀ e, checksigLegacy B b a ctx none ver = .error e →
      evalItems B lim ctx script (some (k, .op opChecksig) :: items) st = .error e) ∧
    ∀ ok, checksigLegacy B b a ctx none ver = .ok ok →
      Steps B lim ctx script k st items (.op opChecksig) (boolEncode ok :: stack) (ops + 1) := by
  have operated (st' : EvalState) (thisPos : UInt32)
      (r' : Running st' (a :: b :: stack) (ops + 1)) :
      operate B ctx thisPos k st' (Op.ofCode opChecksig) = (do
        let ok ← checksigLegacy B b a ctx none ver
        return ({ st' with stack }, [boolEncode ok])) := by
    rw [show Op.ofCode opChecksig = .checksig false by decide]
    simp [operate, opChecksigOperate, r'.stack_eq, r'.separator_eq, pop, version]
  constructor
  · intro e failed
    refine r.plain_error B notTap (by decide) room fun st' thisPos r' => ?_
    rw [operated st' thisPos r', failed]
    rfl
  · intro ok checked
    refine r.plain B notTap (by decide) room stack [boolEncode ok] (fun st' thisPos r' => ?_) within
    rw [operated st' thisPos r', checked]
    rfl

end Running

def EvalContext.base (job : ScriptCheckJob) (i : job.InputIndex) (amount : UInt64)
    (script : Bytes) : EvalContext where
  tx := job.tx
  inputIndex := i
  amount
  scriptCode := script
  sigVersion := .base
  flags := { job.flags with
    bip66Active := job.flags.bip66Active || job.flags.lowS || job.flags.strictenc }
  pre := baseSigPrecompute
  tapscript := none

theorem fromJob_base (job : ScriptCheckJob) (i : job.InputIndex) (amount : UInt64)
    (script : Bytes) :
    EvalContext.fromJob job i amount script .base = .ok (.base job i amount script) := rfl

/-- A script outside taproot is run instruction by instruction. -/
theorem evalScriptWith_eq (notTap : ctx.sigVersion ≠ .tapScript) (stack : List Bytes)
    (short : script.length ≤ maxScriptSizeLegacy) :
    evalScriptWith B lim script stack ctx = do
      let st ← evalItems B lim ctx script (decodeScript script) (.init B ctx stack)
      rejectIf (st.cond.isEmpty = false) (.script "unbalanced IF")
      return (true, st.stack) := by
  simp [evalScriptWith, checkInitial, rejectIf, notTap, not_lt.mpr short, B.instructionIndices_eq]

end Rbitcoin.Script
