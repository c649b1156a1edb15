import ChannelCodec.HwType.Basic

/-! The written form of hardware types. -/
namespace ChannelCodec

def Signedness.text : Signedness → String
  | .signless => "i"
  | .signed => "si"
  | .unsigned => "ui"

namespace HwType

mutual
def text : HwType → String
  | .int signedness width => signedness.text ++ toString width
  | .array size element => "!hw.array<" ++ toString size ++ "x" ++ element.text ++ ">"
  | .struct fields => "!hw.struct<" ++ ", ".intercalate (fieldTexts fields) ++ ">"
  | .named name target => "!hw.typealias<@" ++ name ++ ", " ++ target.text ++ ">"
  | .channel payload => "!esi.channel<" ++ payload.text ++ ">"
def fieldTexts : List (Field HwType) → List String
  | [] => []
  | ⟨name, type⟩ :: fields => (name ++ ": " ++ type.text) :: fieldTexts fields
end

instance : ToString HwType := ⟨text⟩

theorem fieldTexts_eq_map (fields : List (Field HwType)) :
    fieldTexts fields = fields.map fun f => f.name ++ ": " ++ f.type.text := by
  induction fields with
  | nil => rfl
  | cons f fields ih => simp [fieldTexts, ih]

end HwType
end ChannelCodec
