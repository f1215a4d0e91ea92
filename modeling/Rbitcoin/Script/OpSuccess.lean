import Rbitcoin.Script.Interpreter

/-! `OP_SUCCESSx` in tapscript. The scan in front of an evaluation and the evaluation itself parse
the script on their own; they agree on which opcode comes first, a success or a truncated push. -/

namespace Rbitcoin.Script

open Bytes Walk Outcome Relation

/-- From one instruction to another through complete ones. -/
def Reaches (script : Bytes) : Nat → Nat → Prop :=
  ReflTransGen fun i j => opcodeEnd script i = some j

/-- The opcode of an instruction that complete ones lead to is an `OP_SUCCESSx`. -/
def SuccessAt (script : Bytes) (start : Nat) : Prop :=
  ∃ p, Reaches script start p ∧ p < script.length ∧ isOpSuccess (script.byteAt p) = true

/-- Complete instructions lead to a push that is cut off. -/
def TruncatedAt (script : Bytes) (start : Nat) : Prop :=
  ∃ p, Reaches script start p ∧ p < script.length ∧ opcodeEnd script p = none

variable {script : Bytes} {i : Nat}

theorem Reaches.le {j : Nat} (reaches : Reaches script i j) : i ≤ j := by
  induction reaches with
  | refl => exact le_refl i
  | tail _ ends ih => exact le_trans ih (opcodeEnd_lt ends).le

theorem Reaches.cases {p : Nat} (reaches : Reaches script i p) :
    p = i ∨ ∃ e, opcodeEnd script i = some e ∧ Reaches script e p := by
  rcases ReflTransGen.cases_head reaches with same | ⟨e, ends, rest⟩
  · exact .inl same.symm
  · exact .inr ⟨e, ends, rest⟩

theorem isOpSuccess_of_header_none (cut : pushHeader script i = none) :
    isOpSuccess (script.byteAt i) = false := by
  apply isOpSuccess_push
  rcases opcode_classes (script.byteAt i) with h | h | h | h | h | h
  · rw [h]
    decide
  · exact UInt8.le_trans h.2 (by decide)
  · exact h ▸ UInt8.le_of_lt (by decide)
  · exact h ▸ UInt8.le_of_lt (by decide)
  · exact h ▸ UInt8.le_refl _
  · obtain ⟨h0, h1, h2, h4⟩ := opcode_past_pushes h
    simp [pushHeader, h0, h1, h2, h4] at cut

theorem successAt_step {e : Nat} (ends : opcodeEnd script i = some e)
    (other : isOpSuccess (script.byteAt i) = false) :
    SuccessAt script i ↔ SuccessAt script e := by
  constructor
  · rintro ⟨p, reaches, inside, success⟩
    rcases reaches.cases with rfl | ⟨e', ends', rest⟩
    · rw [other] at success
      cases success
    · cases ends.symm.trans ends'
      exact ⟨p, rest, inside, success⟩
  · rintro ⟨p, rest, inside, success⟩
    exact ⟨p, .head ends rest, inside, success⟩

theorem not_successAt_of_truncated (cut : opcodeEnd script i = none)
    (other : isOpSuccess (script.byteAt i) = false) : ¬SuccessAt script i := by
  rintro ⟨p, reaches, -, success⟩
  rcases reaches.cases with rfl | ⟨e, ends, -⟩
  · rw [other] at success
    cases success
  · rw [cut] at ends
    cases ends

theorem not_successAt_of_le (past : script.length ≤ i) : ¬SuccessAt script i := by
  rintro ⟨p, reaches, inside, -⟩
  have := reaches.le
  omega

theorem tapscript_run {fuel : Nat} (enough : script.length - i < fuel) :
    ∃ found, run (tapscriptTurn script) fuel i = some found ∧
      (found = true ↔ SuccessAt script i) := by
  induction fuel generalizing i with
  | zero => omega
  | succ fuel ih =>
    by_cases inside : i < script.length
    swap
    · have past := not_successAt_of_le (not_lt.mp inside)
      refine ⟨false, run_stop ?_ fuel, by simpa using past⟩
      rw [tapscriptTurn, if_neg inside]
    have turn := tapscriptTurn_eq inside
    cases header : pushHeader script i with
    | none =>
      have cut : opcodeEnd script i = none := by rw [opcodeEnd, header, Option.bind_none]
      have none_left := not_successAt_of_truncated cut (isOpSuccess_of_header_none header)
      exact ⟨false, run_stop (by rw [turn, header]) fuel, by simpa using none_left⟩
    | some jn =>
      obtain ⟨j, n⟩ := jn
      simp only [header] at turn
      have forward := (pushHeader_bounds header).1
      cases success : isOpSuccess (script.byteAt i) with
      | true =>
        rw [success] at turn
        exact ⟨true, run_stop turn fuel, by simpa using ⟨i, .refl, inside, success⟩⟩
      | false =>
        rw [success] at turn
        obtain ⟨found, ran, answer⟩ := ih (i := j + n) (by omega)
        refine ⟨found, (run_next turn fuel).trans ran, answer.trans ?_⟩
        by_cases fits : j + n ≤ script.length
        · exact (successAt_step (by simp [opcodeEnd, header, fits]) success).symm
        · -- the payload is cut off: the scan leaves the script
          have cut : opcodeEnd script i = none := by simp [opcodeEnd, header, fits]
          have past : ¬SuccessAt script (j + n) := not_successAt_of_le (le_of_not_ge fits)
          exact iff_of_false past (not_successAt_of_truncated cut success)

theorem tapscriptHasOpSuccess_iff (script : Bytes) :
    tapscriptHasOpSuccess script = true ↔ SuccessAt script 0 := by
  obtain ⟨found, ran, answer⟩ := @tapscript_run script 0 (script.length + 1) (by omega)
  rw [tapscriptHasOpSuccess, ran, Option.getD_some, answer]

theorem none_mem_decodeFrom {fuel : Nat} (enough : script.length - i ≤ fuel)
    (truncated : TruncatedAt script i) : none ∈ decodeFrom script fuel i := by
  obtain ⟨p, reaches, inside, cut⟩ := truncated
  have le := reaches.le
  induction fuel generalizing i with
  | zero => omega
  | succ fuel ih =>
    rw [decodeFrom, if_pos (by omega)]
    rcases reaches.cases with rfl | ⟨e, ends, rest⟩
    · rw [cut]
      exact List.mem_singleton_self _
    · have forward := opcodeEnd_lt ends
      rw [ends]
      exact List.mem_cons_of_mem _ (ih (by omega) rest rest.le)

variable (B : Bitcoin) (lim : StackLimit) (ctx : EvalContext)

theorem evalItems_error {items : List (Option (Nat × Instruction))} (cut : none ∈ items)
    (st : EvalState) : ∃ e, evalItems B lim ctx script items st = .error e := by
  induction items generalizing st with
  | nil => cases cut
  | cons item items ih =>
    cases item with
    | none => exact ⟨_, rfl⟩
    | some at_ins =>
      have later : none ∈ items := by simpa using cut
      obtain ⟨byteIndex, ins⟩ := at_ins
      rw [evalItems]
      cases stepInstruction B lim ctx script byteIndex ins st with
      | error e => exact ⟨e, rfl⟩
      | ok st =>
        rw [ok_bind]
        cases checkDepth lim st with
        | error e => exact ⟨e, rfl⟩
        | ok st => exact ih later st

def EvalContext.asTapscript (ctx : EvalContext) : EvalContext :=
  { ctx with sigVersion := .tapScript }

/-- A tapscript succeeds as it stands exactly when complete instructions lead to an `OP_SUCCESSx`,
and it fails when they lead to a push that is cut off and to no `OP_SUCCESSx` before it. -/
theorem evalScript_opSuccess (script : Bytes) (stack : List Bytes) :
    ((∃ left, evalScriptWith B lim script stack ctx.asTapscript = .ok (false, left)) ↔
      SuccessAt script 0) ∧
      (TruncatedAt script 0 → ¬SuccessAt script 0 →
        ∃ e, evalScriptWith B lim script stack ctx.asTapscript = .error e) := by
  have scan := tapscriptHasOpSuccess_iff script
  have skips (no_success : ¬SuccessAt script 0) :
      ¬(ctx.asTapscript.sigVersion = .tapScript ∧ tapscriptHasOpSuccess script = true) :=
    fun h => no_success (scan.mp h.2)
  unfold evalScriptWith
  refine ⟨⟨fun ⟨left, ended⟩ => ?_, fun success => ?_⟩, fun truncated no_success => ?_⟩
  · by_contra no_success
    rw [if_neg (skips no_success)] at ended
    obtain ⟨-, -, ended⟩ := bind_eq_ok.mp ended
    obtain ⟨st, -, ended⟩ := bind_eq_ok.mp ended
    obtain ⟨-, -, ended⟩ := bind_eq_ok.mp ended
    cases ended
  · exact ⟨stack, if_pos ⟨rfl, scan.mpr success⟩⟩
  · rw [if_neg (skips no_success)]
    cases checkInitial script stack ctx.asTapscript with
    | error e => exact ⟨e, rfl⟩
    | ok _ =>
      have cut : none ∈ B.instructionIndices script := by
        rw [B.instructionIndices_eq]
        exact none_mem_decodeFrom (Nat.le_of_eq (Nat.sub_zero _)) truncated
      obtain ⟨e, failed⟩ :=
        evalItems_error B lim ctx.asTapscript cut (.init B ctx.asTapscript stack)
      exact ⟨e, by rw [failed]; rfl⟩

end Rbitcoin.Script
