import ChannelCodec.Width

/-! Bit vectors of a fixed width. A bit vector is its width and the natural number of which it
is the binary form, so every operation says what it does to that number. -/
namespace ChannelCodec

/-- `width` bits. Bit 0 is the least significant one of `toNat`. -/
@[ext] structure Bits where
  width : Nat
  toNat : Nat
  toNat_lt : toNat < 2 ^ width
deriving DecidableEq, Repr

namespace Bits

def ofNat (width n : Nat) : Bits := ⟨width, n % 2 ^ width, Nat.mod_lt _ (Nat.two_pow_pos width)⟩

def zero (width : Nat) : Bits := ⟨width, 0, Nat.two_pow_pos width⟩

def ofBool (b : Bool) : Bits := ofNat 1 b.toNat

def bit (b : Bits) (i : Nat) : Bool := b.toNat.testBit i

/-- The number with the bit `f i` at every position `i` below `count`. -/
def gather (f : Nat → Bool) (count : Nat) : Nat :=
  (List.range count).foldl (fun n i => n ||| (f i).toNat <<< i) 0

theorem gather_succ (f : Nat → Bool) (count : Nat) :
    gather f (count + 1) = gather f count ||| (f count).toNat <<< count := by
  rw [gather, List.range_succ, List.foldl_append]
  rfl

theorem gather_lt (f : Nat → Bool) (count : Nat) : gather f count < 2 ^ count := by
  induction count with
  | zero => exact Nat.one_pos
  | succ count ih =>
    have hold := Nat.lt_trans ih (Nat.pow_lt_pow_succ (by decide : 1 < 2))
    have hnew : (f count).toNat <<< count < 2 ^ (count + 1) := by
      rw [Nat.shiftLeft_eq, Nat.pow_succ, Nat.mul_comm]
      exact Nat.mul_lt_mul_of_pos_left (f count).toNat_lt (Nat.two_pow_pos count)
    rw [gather_succ]
    exact Nat.or_lt_two_pow hold hnew

def bits (b : Bits) : List Bool := (List.range b.width).map b.bit

def setBit (b : Bits) (i : Nat) : Bits := ofNat b.width (b.toNat ||| 1 <<< i)

def append (high low : Bits) : Bits :=
  ⟨high.width + low.width, high.toNat * 2 ^ low.width + low.toNat, by
    have h := Nat.mul_le_mul_right (2 ^ low.width) (Nat.succ_le_of_lt high.toNat_lt)
    have := low.toNat_lt
    rw [Nat.pow_add]
    rw [Nat.succ_mul] at h
    omega⟩

/-- All parts in one vector, the first one highest. -/
def concat (parts : List Bits) : Bits := parts.foldr append (zero 0)

/-- Array elements in one vector, each above the ones before it. -/
def ofElements (elements : List Bits) : Bits :=
  elements.foldl (fun low element => element.append low) (zero 0)

def ofBits (bits : List Bool) : Bits := ofElements (bits.map ofBool)

def ofBytes (bytes : List UInt8) : Bits :=
  ofBits (bytes.flatMap fun b => (List.range 8).map b.toNat.testBit)

def wordBytes (word : UInt64) : List UInt8 :=
  (List.range 8).map fun k => (word.toNat >>> (8 * k)).toUInt8

def ofWords (words : List UInt64) : Bits := ofBytes (words.flatMap wordBytes)

/-- The low `width` bits of the two's complement form of `i`, a number of 64 bits: its low word,
and ones above it if `i` is negative. -/
def ofInt (width : Nat) (i : Int) : Bits :=
  let low := ofNat width (i % (2 ^ (64 : Nat) : Nat)).toNat
  if i < 0 then (List.range' 64 (width - 64)).foldl setBit low else low

/-- `width` bits from position `low` on. Bits past the end are zero. -/
def slice (b : Bits) (low width : Nat) : Bits :=
  ⟨width, gather (fun i => b.bit (low + i)) width, gather_lt _ width⟩

def lowNat (b : Bits) : Nat := gather b.bit (min b.width 64)

def signedWord (n : Nat) : Int := Int.bmod n (2 ^ (64 : Nat))

/-- The number that the low 64 bits write in two's complement. If the vector is shorter, its topmost
bit is the sign and fills the word. -/
def lowInt (b : Bits) : Int :=
  if b.width = 0 ∨ 64 ≤ b.width then signedWord b.lowNat
  else if b.bit (b.width - 1) then
    signedWord (b.lowNat ||| (2 ^ (64 : Nat) - 1) <<< b.width % 2 ^ (64 : Nat))
  else signedWord b.lowNat

/-- The words of the vector, the lowest one first, with zeros above its topmost bit. -/
def toWords (b : Bits) : List UInt64 :=
  (List.range (wordsFor b.width)).map fun k => (b.slice (k * 64) 64).lowNat.toUInt64

def addBits : (carry : Bool) → List Bool → List Bool → List Bool
  | carry, x :: xs, y :: ys => (x ^^ y ^^ carry) :: addBits (x && y || carry && (x ^^ y)) xs ys
  | _, _, _ => []

/-- The order of two numbers, decided at the first bits that differ, the highest bits first. -/
def compareBits : List Bool → List Bool → Ordering
  | true :: _, false :: _ => .gt
  | false :: _, true :: _ => .lt
  | _ :: xs, _ :: ys => compareBits xs ys
  | _, _ => .eq

def add? (a b : Bits) : Option Bits :=
  if a.width = b.width then some (ofBits (addBits false a.bits b.bits)) else none

def compare? (a b : Bits) : Option Ordering :=
  if a.width = b.width then some (compareBits a.bits.reverse b.bits.reverse) else none

@[simp] theorem width_ofNat (width n : Nat) : (ofNat width n).width = width := rfl
@[simp] theorem toNat_ofNat (width n : Nat) : (ofNat width n).toNat = n % 2 ^ width := rfl
@[simp] theorem width_zero (width : Nat) : (zero width).width = width := rfl
@[simp] theorem toNat_zero (width : Nat) : (zero width).toNat = 0 := rfl
@[simp] theorem width_slice (b : Bits) (low width : Nat) : (b.slice low width).width = width := rfl
theorem gather_testBit (n low count : Nat) :
    gather (fun i => n.testBit (low + i)) count = n / 2 ^ low % 2 ^ count := by
  induction count with
  | zero => rw [Nat.pow_zero, Nat.mod_one]; rfl
  | succ count ih =>
    have hlt : n / 2 ^ low % 2 ^ count < 2 ^ count := Nat.mod_lt _ (Nat.two_pow_pos count)
    have hbit : (n.testBit (low + count)).toNat = n / 2 ^ low / 2 ^ count % 2 := by
      rw [Nat.toNat_testBit, Nat.pow_add, Nat.div_div_eq_div_mul]
    rw [gather_succ, ih, hbit, Nat.or_comm, ← Nat.shiftLeft_add_eq_or_of_lt hlt, Nat.shiftLeft_eq,
      Nat.mod_pow_succ, Nat.add_comm, Nat.mul_comm (2 ^ count)]

@[simp] theorem toNat_slice (b : Bits) (low width : Nat) :
    (b.slice low width).toNat = b.toNat / 2 ^ low % 2 ^ width := gather_testBit b.toNat low width
@[simp] theorem width_append (a b : Bits) : (a.append b).width = a.width + b.width := rfl
@[simp] theorem toNat_append (a b : Bits) :
    (a.append b).toNat = a.toNat * 2 ^ b.width + b.toNat := rfl
@[simp] theorem concat_nil : concat [] = zero 0 := rfl
@[simp] theorem concat_cons (part : Bits) (parts : List Bits) :
    concat (part :: parts) = part.append (concat parts) := rfl

@[simp] theorem ofNat_toNat (b : Bits) : ofNat b.width b.toNat = b := by
  ext
  · rfl
  · exact Nat.mod_eq_of_lt b.toNat_lt

theorem width_concat (parts : List Bits) : (concat parts).width = total (parts.map width) := by
  induction parts with
  | nil => rfl
  | cons part parts ih => simp [ih]

end Bits
end ChannelCodec
