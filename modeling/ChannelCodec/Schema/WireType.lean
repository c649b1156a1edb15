import ChannelCodec.Width

/-! The types of message fields and the sizes of their values. -/
namespace ChannelCodec

inductive ElementSize where
  | void
  | bit
  | byte
  | twoBytes
  | fourBytes
  | eightBytes
  | pointer
  | inlineComposite
deriving DecidableEq, Repr

namespace ElementSize

def code : ElementSize → Nat
  | .void => 0
  | .bit => 1
  | .byte => 2
  | .twoBytes => 3
  | .fourBytes => 4
  | .eightBytes => 5
  | .pointer => 6
  | .inlineComposite => 7

def bits : ElementSize → Nat
  | .void => 0
  | .bit => 1
  | .byte => 8
  | .twoBytes => 16
  | .fourBytes => 32
  | .eightBytes | .pointer | .inlineComposite => 64

def all : List ElementSize :=
  [.void, .bit, .byte, .twoBytes, .fourBytes, .eightBytes, .pointer, .inlineComposite]

end ElementSize

inductive PointerKind where
  | struct
  | list
  | far
  | other
deriving DecidableEq, Repr

namespace PointerKind

def tag : PointerKind → Nat
  | .struct => 0
  | .list => 1
  | .far => 2
  | .other => 3

def all : List PointerKind := [.struct, .list, .far, .other]

end PointerKind

/-- The 30-bit offset in a pointer to a struct without data and pointers. It is -1, so that the
struct lies on its own pointer. -/
def emptyStructOffset : Nat := 2 ^ (30 : Nat) - 1

inductive WireWidth where
  | w8
  | w16
  | w32
  | w64
deriving DecidableEq, Repr

namespace WireWidth

def log : WireWidth → Nat
  | .w8 => 3
  | .w16 => 4
  | .w32 => 5
  | .w64 => 6

def bits (w : WireWidth) : Nat := 2 ^ w.log

/-- The least width that holds `bits` bits, up to 64 of them. -/
def holding (bits : Nat) : WireWidth :=
  if bits ≤ 8 then .w8 else if bits ≤ 16 then .w16 else if bits ≤ 32 then .w32 else .w64

def elementSize : WireWidth → ElementSize
  | .w8 => .byte
  | .w16 => .twoBytes
  | .w32 => .fourBytes
  | .w64 => .eightBytes

theorem le_bits_holding {bits : Nat} (h : bits ≤ 64) : bits ≤ (holding bits).bits := by
  unfold holding
  split
  · assumption
  · split
    · assumption
    · split
      · assumption
      · exact h

end WireWidth

inductive WireType where
  | void
  | bool
  | int (width : WireWidth)
  | uint (width : WireWidth)
  | list (element : WireType)
deriving DecidableEq, Repr

namespace WireType

def elementSize : WireType → ElementSize
  | .void => .void
  | .bool => .bit
  | .int width | .uint width => width.elementSize
  | .list _ => .pointer

/-- The bits that a value takes in a struct or a list. A list takes a pointer there. -/
def bits (t : WireType) : Nat := t.elementSize.bits

def isPointer : WireType → Bool
  | .list _ => true
  | _ => false

def element? : WireType → Option WireType
  | .list element => some element
  | _ => none

def text : WireType → String
  | .void => "Void"
  | .bool => "Bool"
  | .int width => "Int" ++ toString width.bits
  | .uint width => "UInt" ++ toString width.bits
  | .list element => "List(" ++ element.text ++ ")"

end WireType
end ChannelCodec
