import Rbitcoin.Script.Template

/-! The script runs that `verify_input` replaces by a test: a witness program as a scriptPubKey or
redeem script, the single push that a nested witness program demands of its scriptSig, and the
P2SH template `HASH160 <20> EQUAL`. -/

namespace Rbitcoin.Script

open Bytes Tx Outcome List UInt8

variable (B : Bitcoin)

theorem decodeFrom_end {script : Bytes} {i : Nat} (h : script.length ≤ i) (fuel : Nat) :
    decodeFrom script fuel i = [] := by
  cases fuel with
  | zero => rfl
  | succ fuel => exact if_neg (not_lt.mpr h)

theorem decodeFrom_next {script : Bytes} {fuel i e : Nat} (inside : i < script.length)
    (ends : opcodeEnd script i = some e) :
    decodeFrom script (fuel + 1) i =
      some (i, instructionAt script i e) :: decodeFrom script fuel e := by
  rw [decodeFrom, if_pos inside, ends]

section Direct

variable {script data rest : Bytes} {i : Nat} (short : data.length ≤ 75)
  (here : script.drop i = ofNat data.length :: (data ++ rest))
include short here

theorem byteAt_direct : (script.byteAt i).toNat = data.length := by
  rw [byteAt_of_drop here, toNat_ofNat', Nat.mod_eq_of_lt (by omega)]

theorem pushHeader_direct : pushHeader script i = some (i + 1, data.length) := by
  have direct : script.byteAt i ≤ opPushbytes75 := by
    rw [le_iff_toNat_le, byteAt_direct short here]
    exact short
  rw [pushHeader]
  simp only [direct, if_true, byteAt_direct short here]

theorem length_direct : script.length = i + 1 + data.length + rest.length := by
  have := congrArg length here
  simp only [length_drop, length_cons, length_append] at this
  omega

theorem opcodeEnd_direct : opcodeEnd script i = some (i + 1 + data.length) := by
  have size := length_direct short here
  rw [opcodeEnd, pushHeader_direct short here]
  exact if_pos (by omega)

theorem instructionAt_direct : instructionAt script i (i + 1 + data.length) = .pushBytes data := by
  have direct : script.byteAt i ≤ opPushdata4 := by
    rw [le_iff_toNat_le, byteAt_direct short here]
    exact short.trans (by decide)
  have payload : script.drop (i + 1) = data ++ rest := by
    rw [← drop_drop, here, drop_one, tail_cons]
  rw [instructionAt, if_pos direct, pushHeader_direct short here]
  simp [slice, payload]

theorem decodeFrom_direct (fuel : Nat) : decodeFrom script (fuel + 1) i =
    some (i, .pushBytes data) :: decodeFrom script fuel (i + 1 + data.length) := by
  have size := length_direct short here
  rw [decodeFrom_next (by omega) (opcodeEnd_direct short here), instructionAt_direct short here]

end Direct

theorem checkMinimalPush_direct {data : Bytes} (long : 2 ≤ data.length) (short : data.length ≤ 75) :
    checkMinimalPush data (ofNat data.length) = true := by
  have nonempty : data ≠ [] := by
    rintro rfl
    simp at long
  have size : data.length % 256 = data.length := Nat.mod_eq_of_lt (by omega)
  simp [checkMinimalPush, nonempty, show data.length ≠ 1 by omega, short, size]

section Push

variable {data : Bytes}

theorem decodeScript_push (short : data.length ≤ 75) :
    decodeScript (ofNat data.length :: data) = [some (0, .pushBytes data)] := by
  have here : (ofNat data.length :: data : Bytes).drop 0 =
      ofNat data.length :: (data ++ []) := by simp
  rw [decodeScript, length_cons, decodeFrom_direct short here, decodeFrom_end (by simp [add_comm])]

theorem evalScriptWith_push (long : 2 ≤ data.length) (short : data.length ≤ 75) (lim : StackLimit)
    {ctx : EvalContext} (notTap : ctx.sigVersion ≠ .tapScript) :
    evalScriptWith B lim (ofNat data.length :: data) [] ctx = .ok (true, [data]) := by
  have size : (ofNat data.length :: data : Bytes).length ≤ maxScriptSizeLegacy := by
    simp only [length_cons, maxScriptSizeLegacy]
    omega
  rw [evalScriptWith_eq B notTap _ size, decodeScript_push short]
  obtain ⟨_, r, h⟩ := (Running.init B ctx []).push B (ofNat data.length :: data) 0
    (by simp only [maxScriptElementSize]; omega) (fun _ => checkMinimalPush_direct long short)
    (by decide)
  rw [h, r.finish B]

end Push

/-- `script` is the version opcode `v` and one direct push of `program`. -/
structure IsProgram (script : Bytes) (v : UInt8) (program : Bytes) : Prop where
  script_eq : script = v :: ofNat program.length :: program
  long : 2 ≤ program.length
  short : program.length ≤ 40
  version : v = op0 ∨ opTrue ≤ v ∧ v ≤ opPushnum16

/-- The element that the version opcode pushes. -/
def versionElem (v : UInt8) : Bytes := if v = op0 then [] else [v - 0x50]

theorem witnessProgram_eq_some {script program : Bytes} {version : Nat}
    (h : witnessProgram B script = some (version, program)) :
    ∃ v, IsProgram script v program ∧ version = if v = op0 then 0 else v.toNat - 0x50 := by
  simp only [witnessProgram, B.witnessVersion_eq, Option.map_eq_some_iff] at h
  obtain ⟨_, found, rfl, rfl⟩ := h
  simp only [programVersion, Option.ite_none_right_eq_some, Option.some.injEq] at found
  obtain ⟨⟨long, short, version, size⟩, found⟩ := found
  match script, long with
  | v :: l :: program, long =>
    simp only [length_cons] at long short size
    have length : l = ofNat program.length := by
      rw [← UInt8.toNat_inj, UInt8.toNat_ofNat', Nat.mod_eq_of_lt (by omega)]
      exact size
    exact ⟨v, ⟨by rw [length]; rfl, by simp; omega, by simp; omega, version⟩, found.symm⟩

namespace IsProgram

variable {script program : Bytes} {v : UInt8} (is : IsProgram script v program)
include is

theorem length_eq : script.length = program.length + 2 := by
  rw [is.script_eq]
  rfl

def opcode (v : UInt8) : Instruction := if v = op0 then .pushBytes [] else .op v

theorem decodeScript_eq :
    decodeScript script = [some (0, opcode v), some (1, .pushBytes program)] := by
  have second : script.drop 1 = ofNat program.length :: (program ++ []) := by
    simp [is.script_eq]
  have short : program.length ≤ 75 := is.short.trans (by decide)
  have tail : decodeFrom script (program.length + 1) 1 = [some (1, .pushBytes program)] := by
    rw [decodeFrom_direct short second, decodeFrom_end (by rw [is.length_eq]; omega)]
  rw [decodeScript, is.length_eq, opcode]
  rcases is.version with rfl | ⟨low, high⟩
  · have first : script.drop 0 = ofNat ([] : Bytes).length :: ([] ++ script.drop 1) := by
      simp [is.script_eq]
    rw [decodeFrom_direct (by simp) first]
    exact congrArg _ tail
  · have first : script.byteAt 0 = v := by
      rw [is.script_eq]
      rfl
    have above (op : UInt8) (h : op ≤ 0x4e) : v ≠ op ∧ ¬v ≤ op := by
      simp only [opTrue, le_iff_toNat_le, reduceToNat] at low h ⊢
      exact ⟨fun same => by subst same; omega, by omega⟩
    have ends : opcodeEnd script 0 = some 1 := by
      have header : pushHeader script 0 = some (1, 0) := by
        simp only [pushHeader, first, (above opPushbytes75 (by decide)).2,
          (above opPushdata1 (by decide)).1, (above opPushdata2 (by decide)).1,
          (above opPushdata4 (by decide)).1, if_false]
      rw [opcodeEnd, header]
      exact if_pos (by rw [is.length_eq]; omega)
    have ins : instructionAt script 0 1 = .op v := by
      rw [instructionAt, first, if_neg (above opPushdata4 (by decide)).2]
    rw [decodeFrom_next (by rw [is.length_eq]; omega) ends, ins,
      if_neg (above op0 (by decide)).1, tail]

theorem evalScriptWith_eq (lim : StackLimit) {ctx : EvalContext}
    (notTap : ctx.sigVersion ≠ .tapScript) :
    evalScriptWith B lim script [] ctx = .ok (true, [program, versionElem v]) := by
  have size : script.length ≤ maxScriptSizeLegacy := by
    have := is.short
    rw [is.length_eq, maxScriptSizeLegacy]
    omega
  have short : program.length ≤ maxScriptElementSize := is.short.trans (by decide)
  have minimal : checkMinimalPush program (script.byteAt 1) = true := by
    rw [is.script_eq]
    exact checkMinimalPush_direct is.long (is.short.trans (by decide))
  have r0 := Running.init B ctx []
  obtain ⟨_, r1, h1⟩ : ∃ st, Running st [versionElem v] 0 ∧
      evalItems B lim ctx script [some (0, opcode v), some (1, .pushBytes program)]
        (.init B ctx []) = evalItems B lim ctx script [some (1, .pushBytes program)] st := by
    rw [versionElem, opcode]
    rcases is.version with rfl | ⟨low, high⟩
    · have zero : script.byteAt 0 = op0 := by
        rw [is.script_eq]
        rfl
      exact r0.push B script 0 (by decide) (fun _ => by rw [zero]; decide) (by decide)
    · have differ : v ≠ op0 := by
        rintro rfl
        exact absurd low (by decide)
      rw [if_neg differ, if_neg differ]
      exact r0.pushnum B script 0 low high (by decide)
  obtain ⟨_, r2, h2⟩ := r1.push B script 1 short (fun _ => minimal) (by simp [maxStackSize])
  rw [Script.evalScriptWith_eq B notTap _ size, is.decodeScript_eq, h1, h2, r2.finish B]

end IsProgram

def p2shTemplate (scripthash : Bytes) : Bytes := p2shPrefix ++ scripthash ++ [opEqual]

theorem eq_p2shTemplate {spk : Bytes} (h : B.isP2sh spk = true) :
    ∃ scripthash, scripthash.length = 20 ∧ spk = p2shTemplate scripthash := by
  obtain ⟨size, front, back⟩ := (B.isP2sh_iff spk).mp h
  refine ⟨spk.slice 2 22, slice_length (by omega), ?_⟩
  rw [p2shTemplate, ← front, ← back]
  exact (take_slice_drop spk (by decide)).symm

section Template

variable {scripthash : Bytes} (len : scripthash.length = 20)
include len

theorem decodeScript_p2shTemplate : decodeScript (p2shTemplate scripthash) =
    [some (0, .op opHash160), some (1, .pushBytes scripthash), some (22, .op opEqual)] := by
  match scripthash, len with
  | [_, _, _, _, _, _, _, _, _, _, _, _, _, _, _, _, _, _, _, _], _ => rfl

/-- The P2SH template as a stack check and a hash comparison. -/
theorem evalScriptWith_p2shTemplate (lim : StackLimit) {ctx : EvalContext}
    (notTap : ctx.sigVersion ≠ .tapScript) {stack : List Bytes}
    (within : stack.length ≤ maxStackSize) {r : Bool × List Bytes} :
    evalScriptWith B lim (p2shTemplate scripthash) stack ctx = .ok r ↔
      ∃ redeem below, stack = redeem :: below ∧ stack.length < maxStackSize ∧
        r = (true, boolEncode (scripthash = B.hash160 redeem) :: below) := by
  have size : (p2shTemplate scripthash).length ≤ maxScriptSizeLegacy := by
    simp [p2shTemplate, p2shPrefix, len, maxScriptSizeLegacy]
  rw [Script.evalScriptWith_eq B notTap _ size, decodeScript_p2shTemplate len]
  have r0 := Running.init B ctx stack
  cases stack with
  | nil => simp [r0.hash160_error B notTap (by decide)]
  | cons redeem below =>
    obtain ⟨_, r1, h1⟩ := r0.hash160 B notTap (by decide) within
    rw [h1]
    by_cases room : below.length + 1 < maxStackSize
    · obtain ⟨_, r2, h2⟩ := r1.push B (p2shTemplate scripthash) 1 (by rw [len]; decide)
        (fun _ => checkMinimalPush_twenty len) room
      obtain ⟨_, r3, h3⟩ := r2.equal B notTap (by decide) (by omega)
      rw [h2, h3, r3.finish B, Except.ok.injEq]
      constructor
      · rintro rfl
        exact ⟨redeem, below, rfl, room, rfl⟩
      · rintro ⟨_, _, same, -, rfl⟩
        cases same
        rfl
    · have full : (B.hash160 redeem :: below).length = maxStackSize := by
        simp only [length_cons] at within ⊢
        omega
      refine iff_of_false (fun ran => ?_) ?_
      · obtain ⟨st, pushed, -⟩ := bind_eq_ok.mp ran
        exact r1.push_full B full ⟨st, pushed⟩
      · rintro ⟨_, _, -, small, -⟩
        exact room small

end Template

end Rbitcoin.Script
