import ChannelCodec.Proofs.Message.Decoded
import ChannelCodec.Proofs.Message.Encoded

/-! The check for support decides. A type that passes it has a declaration, a layout and both
circuits, whatever it looks like; a type that does not is refused everywhere with the report of the
check, before anything is written. -/
namespace ChannelCodec

namespace HwType

/-- The check fails with nothing but reports of unsupported types. -/
def RefusesOnly (check : Except Diagnostic Unit) : Prop :=
  ∀ d, check = .error d → d.isUnsupportedType = true

theorem refusesOnly_ok : RefusesOnly (.ok ()) := fun _ h => nomatch h

theorem refusesOnly_obstacle (obstacle : Obstacle) (t : HwType) :
    RefusesOnly (.error (obstacle.diagnostic t)) := by
  intro d h
  cases h
  rfl

theorem refusesOnly_demand (p : Prop) [Decidable p] (t : HwType) (obstacle : Obstacle) :
    RefusesOnly (demand p t obstacle) := by
  unfold demand
  split
  · exact refusesOnly_ok
  · exact refusesOnly_obstacle obstacle t

theorem RefusesOnly.andThen {first : Except Diagnostic Unit}
    {second : Unit → Except Diagnostic Unit} (h : RefusesOnly first)
    (h' : RefusesOnly (second ())) : RefusesOnly (first >>= second) := by
  cases first with
  | error d => exact h
  | ok a => exact h'

private theorem refusesOnly_checkAliases (shown t : HwType) :
    RefusesOnly (checkAliases shown t) := by
  induction t using HwType.induct with
  | named name target ih =>
    unfold checkAliases
    exact .andThen (refusesOnly_demand _ _ _) ih
  | _ =>
    unfold checkAliases
    exact refusesOnly_ok

private theorem refusesOnly_checkElement (t : HwType) : RefusesOnly (checkElement t) := by
  unfold checkElement
  split
  · exact refusesOnly_demand _ _ _
  · exact refusesOnly_obstacle _ _

private theorem refusesOnly_checkArray (t element : HwType) (size : Nat) :
    RefusesOnly (checkArray t size element) := by
  have hrest : ∀ check : Except Diagnostic Unit, RefusesOnly check → RefusesOnly (do
      check
      demand (element.array?.isNone) t .arrayOfArrays
      demand (element.struct?.isNone) t .arrayOfStructs
      demand (size ≠ 0) t .emptyArray
      demand (size ≤ maxListLength) t .longArray
      checkElement element) := by
    intro check hcheck
    apply hcheck.andThen
    apply (refusesOnly_demand _ _ _).andThen
    apply (refusesOnly_demand _ _ _).andThen
    apply (refusesOnly_demand _ _ _).andThen
    apply (refusesOnly_demand _ _ _).andThen
    exact refusesOnly_checkElement element
  cases element with
  | named name target => exact hrest _ (refusesOnly_demand _ _ _)
  | _ => exact hrest (.ok ()) refusesOnly_ok

theorem refusesOnly_checkMember (t : HwType) : RefusesOnly (checkMember t) := by
  unfold checkMember
  split
  · exact refusesOnly_demand _ _ _
  · exact refusesOnly_checkArray _ _ _
  · exact refusesOnly_obstacle _ _
  · exact refusesOnly_obstacle _ _

private theorem refusesOnly_checkFields (t : HwType) (fields : List (Field HwType)) :
    RefusesOnly (checkFields t fields) := by
  induction fields with
  | nil => exact refusesOnly_ok
  | cons f fields ih =>
    unfold checkFields
    apply (refusesOnly_demand _ _ _).andThen
    exact (refusesOnly_checkMember _).andThen ih

theorem refusesOnly_checkSupported (t : HwType) : RefusesOnly t.checkSupported := by
  unfold checkSupported
  apply (refusesOnly_checkAliases t t).andThen
  split
  · exact (refusesOnly_demand _ _ _).andThen (refusesOnly_checkFields _ _)
  · exact refusesOnly_checkMember t

end HwType

namespace MessageSchema

/-- Everything that is asked of a message type can be had: its declaration, its layout, and both
circuits, each with a value of the right type at its output. -/
structure Accepted (s : MessageSchema) : Prop where
  supported : s.checkSupported = .ok ()
  write : ∃ text, s.write = (text, .ok ())
  node : ∃ node, s.node = .ok node
  report : ∃ r, s.report = .ok r
  encoder : ∃ size c, s.size = .ok size ∧ s.encoder = .ok c ∧
    c.Drives [⟨.output, "encoded", .bitArray size⟩]
  decoder : ∃ c, s.decoder = .ok c ∧ c.Drives [⟨.output, "decoded", s.type⟩]

/-- Everything that is asked of a message type fails with `d`, and nothing is written. -/
structure Refused (s : MessageSchema) (d : Diagnostic) : Prop where
  supported : s.checkSupported = .error d
  kind : d.isUnsupportedType = true
  write : s.write = ("", .error d)
  node : s.node = .error d
  size : s.size = .error d
  report : s.report = .error d
  encoder : s.encoder = .error (.report d)
  decoder : s.decoder = .error (.report d)

variable {t : HwType}

theorem accepted_of_supported (ht : t.Written) (h : (of t).checkSupported = .ok ())
    (hid : (of t).id ≠ ownSchemaId) : (of t).Accepted := by
  have hbit : (Bits.zero 1).width = 1 := rfl
  have hvalue : (Bits.zero (of t).type.bitWidth).width = (of t).type.bitWidth := rfl
  have hmessage : (Bits.zero (of t).layout.size).width = (of t).layout.size := rfl
  obtain ⟨enc, _, henc, hencoded, _⟩ := encoder_runs ht h hid hbit hbit hvalue
  obtain ⟨dec, hdec, hdecoded, _⟩ := decoder_runs ht h hid hbit hbit hmessage
  constructor
  case supported => exact h
  case write =>
    have hd := declaration_eq h
    unfold declaration at hd
    split at hd
    next text hw => exact ⟨text, hw⟩
    next => cases hd
  case node => exact ⟨_, node_eq ht h hid⟩
  case report => exact ⟨_, report_eq ht h hid⟩
  case encoder => exact ⟨_, enc, size_eq ht h hid, henc, hencoded⟩
  case decoder => exact ⟨dec, hdec, hdecoded⟩

theorem refused_of_not_supported {s : MessageSchema} {d : Diagnostic}
    (h : s.checkSupported = .error d) : s.Refused d := by
  have hwrite : s.write = ("", .error d) := by
    unfold write
    rw [h]
  have hdeclaration : s.declaration = .error d := by
    unfold declaration
    rw [hwrite]
  have hnode : s.node = .error d := by
    unfold node compiled
    rw [hdeclaration]
    rfl
  constructor
  case supported => exact h
  case kind => exact HwType.refusesOnly_checkSupported s.type d h
  case write => exact hwrite
  case node => exact hnode
  case size =>
    unfold size
    rw [hnode]
    rfl
  case report =>
    unfold report
    rw [hnode]
    rfl
  case encoder =>
    unfold encoder
    rw [h]
    rfl
  case decoder =>
    unfold decoder
    rw [h]
    rfl

/-- The check for support is the only thing that can stand between a type and its messages. -/
theorem accepted_or_refused (ht : t.Written) (hid : (of t).id ≠ ownSchemaId) :
    (of t).Accepted ∨ ∃ d, (of t).Refused d := by
  cases h : (of t).checkSupported with
  | ok _ => exact .inl (accepted_of_supported ht h hid)
  | error d => exact .inr ⟨d, refused_of_not_supported h⟩

def wideType : HwType := .channel (.int .unsigned 65)

theorem written_wideType : wideType.Written :=
  ⟨"!esi.channel<ui65>", by decide +kernel, by decide +kernel⟩

theorem mixedType_accepted_wideType_refused :
    (of mixedType).Accepted ∧
      (of wideType).Refused (Obstacle.wideInteger.diagnostic (.int .unsigned 65)) := by
  have hwide : (of wideType).checkSupported =
      .error (Obstacle.wideInteger.diagnostic (.int .unsigned 65)) := by decide +kernel
  constructor
  · apply (accepted_or_refused written_mixedType id_mixedType).resolve_right
    rintro ⟨d, h⟩
    have hsupported := h.supported
    rw [checkSupported_mixedType] at hsupported
    cases hsupported
  · obtain h | ⟨d, h⟩ := accepted_or_refused written_wideType (by decide +kernel)
    · have hsupported := h.supported
      rw [hwide] at hsupported
      cases hsupported
    · have hsupported := h.supported
      rw [hwide] at hsupported
      cases hsupported
      exact h

end MessageSchema
end ChannelCodec
