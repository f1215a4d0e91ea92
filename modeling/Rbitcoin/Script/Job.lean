import Rbitcoin.Tx.Precompute

/-! The unit of script verification: a transaction, the outputs it spends, the flags of the block
it is in and the row of common hashes. -/

namespace Rbitcoin.Script

open Tx List

inductive ConsensusError
  | script (msg : String)
  /-- A broken invariant of the caller. -/
  | internal (msg : String)
  deriving DecidableEq, Repr

abbrev Result (α : Type) := Except ConsensusError α

abbrev fail {α : Type} (msg : String) : Result α := .error (.script msg)

/-- The rules that are in force for an input. -/
structure ScriptVerifyFlags where
  bip65Active : Bool
  bip112Active : Bool
  bip66Active : Bool
  bip16Active : Bool
  taprootActive : Bool
  minimalIf : Bool
  nullfail : Bool
  lowS : Bool
  strictenc : Bool
  nullDummy : Bool
  minimalData : Bool
  witnessPubkeytype : Bool
  witnessActive : Bool
  discourageUpgradableWitness : Bool
  constScriptcode : Bool
  /-- Clean stack for bare and P2SH scripts; witness scripts need one without it. -/
  cleanstack : Bool
  deriving DecidableEq, Repr

/-- The heights of the chain parameters that switch script rules on. -/
structure ActivationHeights where
  bip65Height : Nat
  bip66Height : Nat
  csvHeight : Nat
  segwitHeight : Nat
  deriving DecidableEq, Repr

/-- The one block whose taproot spends are not checked. -/
def taprootExceptionMainnet : Bytes :=
  [0xad, 0x95, 0xe3, 0xa1, 0x5e, 0xe5, 0xff, 0xd5, 0x85, 0xc5, 0xe8, 0x1d, 0x44, 0xb5, 0x6a, 0x98,
   0x1e, 0x84, 0x2d, 0x5b, 0xc3, 0x14, 0x0f, 0x00, 0x00, 0x00, 0x00, 0x00, 0x00, 0x00, 0x00, 0x00]

/-- The flags of the block with `blockHash` at `height`. `bip16Active` is false only for a BIP16
exception block or genesis. -/
def ScriptVerifyFlags.consensusAt (params : ActivationHeights) (height : Nat) (blockHash : Bytes)
    (bip16Active : Bool) : ScriptVerifyFlags where
  bip65Active := params.bip65Height ≤ height
  bip112Active := params.csvHeight ≤ height
  bip66Active := params.bip66Height ≤ height
  bip16Active
  taprootActive := bip16Active && blockHash != taprootExceptionMainnet
  minimalIf := false
  nullfail := false
  lowS := false
  strictenc := false
  nullDummy := params.segwitHeight ≤ height
  minimalData := false
  witnessPubkeytype := false
  witnessActive := bip16Active
  discourageUpgradableWitness := false
  constScriptcode := false
  cleanstack := false

/-- A transaction whose inputs are to be verified. -/
structure ScriptCheckJob where
  tx : Transaction
  /-- The spent outputs, one for each input. -/
  prevouts : List TxOut
  prevouts_length : prevouts.length = tx.input.length
  flags : ScriptVerifyFlags
  /-- What `pre()` returns: the stored row of common hashes or the one filled on demand. -/
  pre : Result TxScriptPrecompute

variable (job : ScriptCheckJob)

abbrev ScriptCheckJob.InputIndex := Fin job.tx.input.length

abbrev ScriptCheckJob.txIn (i : job.InputIndex) : TxIn := job.tx.input.get i

/-- Without a witness item no BIP143 hash is taken, and verification keeps the base row. -/
def ScriptCheckJob.skipsSegwitMidstates : Bool :=
  !usesSegwitSerialization job.tx

/-- The placeholder row of a base sighash, which does not read it. -/
def baseSigPrecompute : TxScriptPrecompute where
  connect := ⟨replicate 32 0, replicate 32 0, 0, 0, 0, 0, false⟩
  shaPrevouts := replicate 32 0
  shaSequences := replicate 32 0
  shaOutputs := replicate 32 0
  shaAmounts := none
  shaScriptpubkeys := none

def midstateRow : Result TxScriptPrecompute :=
  if job.skipsSegwitMidstates then .ok baseSigPrecompute else job.pre

def ScriptCheckJob.single (scriptSig : Bytes) (witness : List Bytes) (prevout : TxOut)
    (flags : ScriptVerifyFlags) : ScriptCheckJob where
  tx := { version := 2, lockTime := 0, output := [],
          input := [⟨⟨replicate 32 1, 0⟩, scriptSig, 0xffffffff, witness⟩] }
  prevouts := [prevout]
  prevouts_length := rfl
  flags
  pre := .ok baseSigPrecompute

end Rbitcoin.Script
