import Rbitcoin.Lib.Bytes

/-! Transactions as the code reads them, and the consensus encoding they are hashed under. The
encoders, their declared sizes and the hash functions belong to the bitcoin crate, so they are
the fields of `Encoding` with the facts its documentation gives: every size is the length of the
encoding, and the fixed-width fields have their widths. -/

namespace Rbitcoin.Tx

structure OutPoint where
  txid : Bytes
  vout : UInt32
  deriving DecidableEq, Repr

structure TxIn where
  previousOutput : OutPoint
  scriptSig : Bytes
  sequence : UInt32
  witness : List Bytes
  deriving DecidableEq, Repr

structure TxOut where
  /-- Satoshis. -/
  value : UInt64
  scriptPubkey : Bytes
  deriving DecidableEq, Repr

structure Transaction where
  /-- The bits of the signed 32-bit version. -/
  version : UInt32
  lockTime : UInt32
  input : List TxIn
  output : List TxOut
  deriving DecidableEq, Repr

/-- Consensus encoders, declared sizes and hash functions. -/
structure Encoding where
  version : UInt32 → Bytes
  outPoint : OutPoint → Bytes
  script : Bytes → Bytes
  sequence : UInt32 → Bytes
  txOut : TxOut → Bytes
  witness : List Bytes → Bytes
  lockTime : UInt32 → Bytes
  varInt : Nat → Bytes
  /-- `VarInt::size`. -/
  varIntSize : Nat → Nat
  /-- `TxIn::base_size`. -/
  baseSize : TxIn → Nat
  /-- `TxOut::size`. -/
  txOutSize : TxOut → Nat
  /-- `Witness::size`. -/
  witnessSize : List Bytes → Nat
  isCoinbase : Transaction → Bool
  sha256 : Bytes → Bytes
  sha256d : Bytes → Bytes
  version_length : ∀ v, (version v).length = 4
  outPoint_length : ∀ o, (outPoint o).length = 36
  sequence_length : ∀ s, (sequence s).length = 4
  lockTime_length : ∀ l, (lockTime l).length = 4
  varIntSize_eq : ∀ n, varIntSize n = (varInt n).length
  baseSize_eq : ∀ i, baseSize i =
    (outPoint i.previousOutput ++ script i.scriptSig ++ sequence i.sequence).length
  txOutSize_eq : ∀ o, txOutSize o = (txOut o).length
  witnessSize_eq : ∀ w, witnessSize w = (witness w).length

/-- Some input has a witness, or there is no input: the serialization has the witness marker. -/
def usesSegwitSerialization (tx : Transaction) : Bool :=
  if tx.input.any fun i => !i.witness.isEmpty then true else tx.input.isEmpty

def compactSize (n : Nat) : Bytes :=
  if n < 0xfd then Bytes.toLe 1 n
  else if n < 0x10000 then 0xfd :: Bytes.toLe 2 n
  else if n < 0x100000000 then 0xfe :: Bytes.toLe 4 n
  else 0xff :: Bytes.toLe 8 n

/-- The consensus encoding, over given hash functions. The txid of an outpoint is cut or filled to
its 32 bytes. -/
def Encoding.standard (sha256 sha256d : Bytes → Bytes) : Encoding where
  version v := Bytes.toLe 4 v.toNat
  outPoint o := (o.txid ++ List.replicate 32 0).take 32 ++ Bytes.toLe 4 o.vout.toNat
  script s := compactSize s.length ++ s
  sequence s := Bytes.toLe 4 s.toNat
  txOut o := Bytes.toLe 8 o.value.toNat ++ compactSize o.scriptPubkey.length ++ o.scriptPubkey
  witness w := compactSize w.length ++ w.flatMap fun item => compactSize item.length ++ item
  lockTime l := Bytes.toLe 4 l.toNat
  varInt := compactSize
  varIntSize n := (compactSize n).length
  baseSize i := 36 + (compactSize i.scriptSig.length ++ i.scriptSig).length + 4
  txOutSize o :=
    (Bytes.toLe 8 o.value.toNat ++ compactSize o.scriptPubkey.length ++ o.scriptPubkey).length
  witnessSize w :=
    (compactSize w.length ++ w.flatMap fun item => compactSize item.length ++ item).length
  isCoinbase tx := tx.input.length == 1 && tx.input.all fun i =>
    i.previousOutput == ⟨List.replicate 32 0, 0xffffffff⟩
  sha256
  sha256d
  version_length _ := by simp
  outPoint_length _ := by simp
  sequence_length _ := by simp
  lockTime_length _ := by simp
  varIntSize_eq _ := rfl
  baseSize_eq _ := by simp; omega
  txOutSize_eq _ := rfl
  witnessSize_eq _ := rfl

namespace Encoding

variable (E : Encoding)

/-- An input without its witness. -/
def txInBase (i : TxIn) : Bytes :=
  E.outPoint i.previousOutput ++ E.script i.scriptSig ++ E.sequence i.sequence

variable (tx : Transaction)

/-- The input count and the inputs without their witnesses. -/
def vin : Bytes :=
  E.varInt tx.input.length ++ tx.input.flatMap E.txInBase

def vout : Bytes :=
  E.varInt tx.output.length ++ tx.output.flatMap E.txOut

/-- The encoding without marker and witnesses, which the txid hashes. -/
def stripped : Bytes :=
  E.version tx.version ++ E.vin tx ++ E.vout tx ++ E.lockTime tx.lockTime

/-- The BIP144 encoding: with marker, flag and witnesses exactly when some input has a witness. -/
def bip144 : Bytes :=
  if tx.input.any fun i => !i.witness.isEmpty then
    E.version tx.version ++ [0, 1] ++ E.vin tx ++ E.vout tx ++
      tx.input.flatMap (fun i => E.witness i.witness) ++ E.lockTime tx.lockTime
  else E.stripped tx

end Encoding

end Rbitcoin.Tx
