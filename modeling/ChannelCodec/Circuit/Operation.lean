import ChannelCodec.Bits.Text
import ChannelCodec.HwType.Text

/-! The operations of circuits. Values and operations are numbered in the order in which they
were made. -/
namespace ChannelCodec

inductive Predicate where
  | eq
  | ne
  | ult
  | ule
  | ugt
  | uge
deriving DecidableEq, Repr

def Predicate.text : Predicate → String
  | .eq => "eq"
  | .ne => "ne"
  | .ult => "ult"
  | .ule => "ule"
  | .ugt => "ugt"
  | .uge => "uge"

def Predicate.holds : Predicate → Ordering → Bool
  | .eq, o => o = .eq
  | .ne, o => o ≠ .eq
  | .ult, o => o = .lt
  | .ule, o => o ≠ .gt
  | .ugt, o => o = .gt
  | .uge, o => o ≠ .lt

inductive Gate where
  | constant (value : Bits)
  /-- The same bits at another type of the same width. -/
  | bitcast
  /-- As many bits of an integer as the result has, from `low` on. -/
  | extract (low : Nat)
  /-- Integers side by side, the first one most significant. -/
  | concat
  | add
  | compare (predicate : Predicate)
  /-- Of an array and an index: as many elements as the result has, from the index on. -/
  | arraySlice
  /-- Of an array and an index: one element. -/
  | arrayGet
  /-- An array with operand `k` as element `k`. -/
  | arrayCreate
  /-- Arrays side by side, the first one at the highest indices. -/
  | arrayConcat
  | structExtract (field : String)
  /-- A struct from one operand per field, in field order. -/
  | structCreate
deriving DecidableEq, Repr

inductive OperationKind where
  | compute (gate : Gate)
  /-- Runs the circuit `callee` on the operands; the results are its outputs. -/
  | instantiate (callee name : String)
  /-- Runs its region on the rising edge of the operand. -/
  | always
  /-- Runs its region when the operand holds. -/
  | branch
  /-- Reports `message` when the operand does not hold. -/
  | assertion (message : String)
deriving DecidableEq, Repr

def Gate.mnemonic : Gate → String
  | .constant _ => "hw.constant"
  | .bitcast => "hw.bitcast"
  | .extract _ => "comb.extract"
  | .concat => "comb.concat"
  | .add => "comb.add"
  | .compare _ => "comb.icmp"
  | .arraySlice => "hw.array_slice"
  | .arrayGet => "hw.array_get"
  | .arrayCreate => "hw.array_create"
  | .arrayConcat => "hw.array_concat"
  | .structExtract _ => "hw.struct_extract"
  | .structCreate => "hw.struct_create"

def OperationKind.mnemonic : OperationKind → String
  | .compute gate => gate.mnemonic
  | .instantiate .. => "hw.instance"
  | .always => "sv.always"
  | .branch => "sv.if"
  | .assertion _ => "sv.assert"

def OperationKind.hasRegion : OperationKind → Bool
  | .always | .branch => true
  | _ => false

inductive Block where
  | body
  | region (owner : Nat)
deriving DecidableEq, Repr

/-- Within a block operations run in the order of their numbers. -/
structure Operation where
  kind : OperationKind
  operands : List Nat
  results : List Nat
  block : Block
deriving DecidableEq, Repr

inductive Origin where
  | input (n : Nat)
  /-- The `n`-th result of an operation. -/
  | result (operation : Nat) (n : Nat)
deriving DecidableEq, Repr

structure Value where
  type : HwType
  origin : Origin
  name : Option String := none
deriving DecidableEq, Repr

end ChannelCodec
