import Rbitcoin.Lib.Bytes

/-! The opcode bytes the script code tests for, and the byte classes built from them. -/

namespace Rbitcoin.Script

@[simp] abbrev op0 : UInt8 := 0x00
@[simp] abbrev opPushbytes20 : UInt8 := 0x14
@[simp] abbrev opPushbytes32 : UInt8 := 0x20
/-- Largest direct push. -/
@[simp] abbrev opPushbytes75 : UInt8 := 0x4b
@[simp] abbrev opPushdata1 : UInt8 := 0x4c
@[simp] abbrev opPushdata2 : UInt8 := 0x4d
@[simp] abbrev opPushdata4 : UInt8 := 0x4e
@[simp] abbrev op1negate : UInt8 := 0x4f
@[simp] abbrev opReserved : UInt8 := 0x50
@[simp] abbrev opTrue : UInt8 := 0x51
@[simp] abbrev opPushnum16 : UInt8 := 0x60
@[simp] abbrev opDup : UInt8 := 0x76
@[simp] abbrev opVerif : UInt8 := 0x65
@[simp] abbrev opVernotif : UInt8 := 0x66
@[simp] abbrev opEqual : UInt8 := 0x87
@[simp] abbrev opEqualverify : UInt8 := 0x88
@[simp] abbrev opHash160 : UInt8 := 0xa9
@[simp] abbrev opCodeseparator : UInt8 := 0xab
@[simp] abbrev opChecksig : UInt8 := 0xac
@[simp] abbrev opChecksigverify : UInt8 := 0xad
@[simp] abbrev opCheckmultisig : UInt8 := 0xae
@[simp] abbrev opCheckmultisigverify : UInt8 := 0xaf

/-- The pay-to-anchor witness program `Ns`. -/
def p2aProgram : Bytes := [0x4e, 0x73]

def p2pkhPrefix : Bytes := [opDup, opHash160, opPushbytes20]
def p2pkhSuffix : Bytes := [opEqualverify, opChecksig]
def p2shPrefix : Bytes := [opHash160, opPushbytes20]

/-- Disabled opcodes, which fail a legacy or witness v0 script even in a skipped branch. -/
def isDisabledLegacy (code : UInt8) : Bool :=
  code ∈ ([0x7e, 0x7f, 0x80, 0x81, 0x83, 0x84, 0x85, 0x86, 0x8d, 0x8e, 0x95, 0x96, 0x97, 0x98,
    0x99] : List UInt8)

/-- The `OP_SUCCESSx` opcodes of BIP342. -/
def isOpSuccess (code : UInt8) : Bool :=
  code ∈ ([80, 98, 126, 127, 128, 129, 131, 132, 133, 134, 137, 138, 141, 142, 149, 150, 151, 152,
    153] : List UInt8) || decide (187 ≤ code ∧ code ≤ 254)

end Rbitcoin.Script
