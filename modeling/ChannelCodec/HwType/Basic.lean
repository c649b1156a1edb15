import ChannelCodec.Width

/-! Hardware types and how their values are packed into bits: bit `i` of an integer is bit `i`
of the packed value, array element `k` occupies the bits from `k * w` up to `(k + 1) * w`, and
the first field of a struct occupies the most significant bits. -/
namespace ChannelCodec

structure Field (τ : Type) where
  name : String
  type : τ
deriving DecidableEq, Repr

inductive Signedness where
  | signless
  | signed
  | unsigned
deriving DecidableEq, Repr

inductive HwType where
  | int (signedness : Signedness) (width : Nat)
  | array (size : Nat) (element : HwType)
  | struct (fields : List (Field HwType))
  /-- An alias, that is another name for a type. -/
  | named (name : String) (target : HwType)
  | channel (payload : HwType)
deriving Repr

namespace HwType

/-- Induction over hardware types in which a struct has the property when the types of all its
fields have it. -/
@[elab_as_elim]
theorem induct {motive : HwType → Prop} (int : ∀ s w, motive (.int s w))
    (array : ∀ n t, motive t → motive (.array n t))
    (struct : ∀ fs : List (Field HwType), (∀ f ∈ fs, motive f.type) → motive (.struct fs))
    (named : ∀ name t, motive t → motive (.named name t))
    (channel : ∀ t, motive t → motive (.channel t)) (t : HwType) : motive t :=
  HwType.rec (motive_2 := fun fs => ∀ f ∈ fs, motive f.type) (motive_3 := fun f => motive f.type)
    int array struct named channel (by simp) (by simp +contextual) (by simp) t

mutual
def decEq : (a b : HwType) → Decidable (a = b)
  | .int s w, .int s' w' => decidable_of_iff (s = s' ∧ w = w') (by simp)
  | .array n e, .array n' e' =>
    match decEq e e' with
    | isTrue h => decidable_of_iff (n = n') (by simp [h])
    | isFalse h => isFalse (by simp [h])
  | .struct fs, .struct fs' =>
    match decEqFields fs fs' with
    | isTrue h => isTrue (by simp [h])
    | isFalse h => isFalse (by simp [h])
  | .named n t, .named n' t' =>
    match decEq t t' with
    | isTrue h => decidable_of_iff (n = n') (by simp [h])
    | isFalse h => isFalse (by simp [h])
  | .channel t, .channel t' =>
    match decEq t t' with
    | isTrue h => isTrue (by simp [h])
    | isFalse h => isFalse (by simp [h])
  | .int .., .array .. | .int .., .struct .. | .int .., .named .. | .int .., .channel ..
  | .array .., .int .. | .array .., .struct .. | .array .., .named .. | .array .., .channel ..
  | .struct .., .int .. | .struct .., .array .. | .struct .., .named .. | .struct .., .channel ..
  | .named .., .int .. | .named .., .array .. | .named .., .struct .. | .named .., .channel ..
  | .channel .., .int .. | .channel .., .array .. | .channel .., .struct ..
  | .channel .., .named .. => isFalse (by simp)
def decEqFields : (a b : List (Field HwType)) → Decidable (a = b)
  | [], [] => isTrue rfl
  | [], _ :: _ => isFalse (by simp)
  | _ :: _, [] => isFalse (by simp)
  | ⟨n, t⟩ :: fs, ⟨n', t'⟩ :: fs' =>
    match decEq t t', decEqFields fs fs' with
    | isTrue h, isTrue h' => decidable_of_iff (n = n') (by simp [h, h'])
    | isFalse h, _ => isFalse (by simp [h])
    | _, isFalse h => isFalse (by simp [h])
end

instance : DecidableEq HwType := decEq

def bit : HwType := .int .signless 1

def bits (width : Nat) : HwType := .int .signless width

def bitArray (size : Nat) : HwType := .array size bit

def canonical : HwType → HwType
  | .named _ target => target.canonical
  | t => t

/-- The type that a channel carries, or the type itself if it is none. -/
def unwrapped : HwType → HwType
  | .channel payload => payload
  | t => t

mutual
def bitWidth : HwType → Nat
  | .int _ width => width
  | .array size element => element.bitWidth * size
  | .struct fields => fieldsWidth fields
  | .named _ target => target.bitWidth
  | .channel payload => payload.bitWidth
def fieldsWidth : List (Field HwType) → Nat
  | [] => 0
  | ⟨_, type⟩ :: fields => type.bitWidth + fieldsWidth fields
end

def int? (t : HwType) : Option (Signedness × Nat) :=
  match t.canonical with
  | .int signedness width => some (signedness, width)
  | _ => none

def array? (t : HwType) : Option (HwType × Nat) :=
  match t.canonical with
  | .array size element => some (element, size)
  | _ => none

def struct? (t : HwType) : Option (List (Field HwType)) :=
  match t.canonical with
  | .struct fields => some fields
  | _ => none

def isInteger (t : HwType) : Bool := t.int?.isSome

def isSigned (t : HwType) : Bool :=
  match t.int? with
  | some (.signed, _) => true
  | _ => false

def isSignless (t : HwType) : Bool :=
  match t.int? with
  | some (.signless, _) => true
  | _ => false

def isBitArray (t : HwType) : Bool :=
  match t.array? with
  | some (element, _) => element.canonical = bit
  | none => false

/-- The distance of the first field called `name` from the least significant bit of packed
fields, and its type. -/
def placeOf? (name : String) : List (Field HwType) → Option (Nat × HwType)
  | [] => none
  | f :: fields =>
    if f.name = name then some (fieldsWidth fields, f.type) else placeOf? name fields

def fieldPlace? (t : HwType) (name : String) : Option (Nat × HwType) :=
  t.struct?.bind (placeOf? name)

def fieldType? (t : HwType) (name : String) : Option HwType :=
  (t.fieldPlace? name).map (·.2)

theorem canonical_ne_named (t : HwType) (name : String) (target : HwType) :
    t.canonical ≠ .named name target := by
  induction t using induct with
  | named _ t ih => simpa [canonical] using ih
  | _ => simp [canonical]

@[simp] theorem bitWidth_canonical (t : HwType) : t.canonical.bitWidth = t.bitWidth := by
  induction t using induct with
  | named _ t ih => simpa [canonical, bitWidth] using ih
  | _ => simp [canonical]

theorem fieldsWidth_eq_total (fields : List (Field HwType)) :
    fieldsWidth fields = total (fields.map (·.type.bitWidth)) := by
  induction fields with
  | nil => rfl
  | cons f fields ih => simp [fieldsWidth, ih]

end HwType
end ChannelCodec
