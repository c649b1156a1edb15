import ChannelCodec.Emission
import ChannelCodec.Proofs.Design.Writing
import ChannelCodec.Proofs.Gasket.Sharing
import ChannelCodec.Proofs.Message.Admission

/-! Requests and the check for support. A request takes up to three channels off a type before its
circuit is made; the message format of a type takes off one. The two agree about every type that is
not a channel of channels, and of those the check lets none pass. -/
namespace ChannelCodec

namespace MessageSchema
variable {s : MessageSchema} {t : HwType} {conversion : Conversion}

/-- If the message format passes the check, it is that of a written type, and its own schema leaves
its identifier free. -/
def Regular (s : MessageSchema) : Prop :=
  s.checkSupported = .ok () → ∃ t : HwType, t.Written ∧ s = of t ∧ s.id ≠ ownSchemaId

theorem Regular.of_written (ht : t.Written) (hid : (of t).id ≠ ownSchemaId) : (of t).Regular :=
  fun _ => ⟨t, ht, rfl, hid⟩

theorem Regular.accepted (hs : s.Regular) (h : s.checkSupported = .ok ()) : s.Accepted := by
  obtain ⟨t, ht, rfl, hid⟩ := hs h
  exact accepted_of_supported ht h hid

theorem supported_of_converter {c : Circuit} (hc : s.converter conversion = .ok c) :
    s.checkSupported = .ok () := by
  cases h : s.checkSupported with
  | ok _ => rfl
  | error d =>
    have hrefused := refused_of_not_supported h
    cases conversion with
    | encode => cases hrefused.encoder.symm.trans hc
    | decode => cases hrefused.decoder.symm.trans hc

private theorem supported_of_report {r : MessageReport} (hr : s.report = .ok r) :
    s.checkSupported = .ok () := by
  cases h : s.checkSupported with
  | ok _ => rfl
  | error d => cases (refused_of_not_supported h).report.symm.trans hr

private theorem Regular.callees_eq_nil (hs : s.Regular) {c : Circuit}
    (hc : s.converter conversion = .ok c) : c.callees = [] := by
  have h := supported_of_converter hc
  obtain ⟨t, ht, rfl, hid⟩ := hs h
  have hbit : (Bits.zero 1).width = 1 := rfl
  have hvalue : (Bits.zero (of t).type.bitWidth).width = (of t).type.bitWidth := rfl
  have hmessage : (Bits.zero (of t).layout.size).width = (of t).layout.size := rfl
  cases conversion with
  | encode =>
    obtain ⟨_, _, henc, _, hcallees, _⟩ := encoder_runs ht h hid hbit hbit hvalue
    cases henc.symm.trans hc
    exact hcallees
  | decode =>
    obtain ⟨_, hdec, _, hcallees, _⟩ := decoder_runs ht h hid hbit hbit hmessage
    cases hdec.symm.trans hc
    exact hcallees

private theorem Regular.exists_converter_iff (hs : s.Regular) (conversion : Conversion) :
    (∃ c, s.converter conversion = .ok c) ↔ s.checkSupported = .ok () := by
  refine ⟨fun ⟨_, hc⟩ => supported_of_converter hc, fun h => ?_⟩
  have haccepted := hs.accepted h
  cases conversion with
  | encode =>
    obtain ⟨_, c, _, hc, _⟩ := haccepted.encoder
    exact ⟨c, hc⟩
  | decode =>
    obtain ⟨c, hc, _⟩ := haccepted.decoder
    exact ⟨c, hc⟩

private theorem Regular.exists_report_iff (hs : s.Regular) :
    (∃ r, s.report = .ok r) ↔ s.checkSupported = .ok () :=
  ⟨fun ⟨_, hr⟩ => supported_of_report hr, fun h => (hs.accepted h).report⟩

/-- The message format whose circuits are made on a request for a type. -/
def requested (t : HwType) : MessageSchema := of t.unwrapped.unwrapped

theorem checkSupported_nested (t : HwType) : (of (.channel (.channel t))).checkSupported =
    .error (Obstacle.channel.diagnostic (.channel t)) := rfl

private theorem requested_eq_or_nested (t : HwType) :
    requested t = of t ∨ ∃ u : HwType, t = .channel (.channel u) ∧ requested t = of u := by
  cases t with
  | channel payload =>
    cases payload with
    | channel u => exact .inr ⟨u, rfl, rfl⟩
    | _ => exact .inl rfl
  | _ => exact .inl rfl

private theorem requested_agrees (ht : t.Written) (hid : (of t).id ≠ ownSchemaId)
    (hnested : ∀ u : HwType, t = .channel (.channel u) → (of u).checkSupported ≠ .ok ()) :
    (requested t).Regular ∧
      ((requested t).checkSupported = .ok () ↔ (of t).checkSupported = .ok ()) := by
  obtain h | ⟨u, rfl, h⟩ := requested_eq_or_nested t
  · rw [h]
    exact ⟨.of_written ht hid, Iff.rfl⟩
  · have hu := hnested u rfl
    rw [h, checkSupported_nested]
    exact ⟨fun hsupported => absurd hsupported hu, iff_of_false hu nofun⟩

end MessageSchema

namespace CircuitRequest
open MessageSchema

theorem generated_eq_ok {r : CircuitRequest} {c : Circuit} :
    generated r.key = .ok c ↔ (requested r.type).converter r.conversion = .ok c := by
  have hgenerated : generated r.key = ((requested r.type).converter r.conversion).mapError
    (Request.noted r.key.1 r.key.2) := rfl
  rw [hgenerated]
  cases (requested r.type).converter r.conversion with
  | ok c' => exact Iff.rfl
  | error failure => exact iff_of_false nofun nofun

theorem exists_generated_iff {r : CircuitRequest} (hr : (requested r.type).Regular) :
    (∃ c, generated r.key = .ok c) ↔ (requested r.type).checkSupported = .ok () := by
  rw [← hr.exists_converter_iff r.conversion]
  exact exists_congr fun c => generated_eq_ok

variable {d : Design} {w w' : Workshop} {r : CircuitRequest} {outcome : Except Failure String}

theorem exists_outcome_iff (hkept : Kept d w) (hserves : Serves r w w' outcome) :
    (∃ name, outcome = .ok name) ↔ ∃ c, generated r.key = .ok c := by
  constructor
  · rintro ⟨name, rfl⟩
    cases hmade : generated r.key with
    | ok c => exact ⟨c, rfl⟩
    | error failure => cases (hserves.eq_error_iff hkept).mpr hmade
  · rintro ⟨c, hc⟩
    cases outcome with
    | ok name => exact ⟨name, rfl⟩
    | error failure => cases ((hserves.eq_error_iff hkept).mp rfl).symm.trans hc

/-- A request is answered with a circuit exactly when the message format that it comes down to
passes the check, whatever has been requested before. -/
theorem exists_answer_iff (hr : (requested r.type).Regular) (d : Design)
    (before : List CircuitRequest) :
    (∃ name, answer d before r = .ok name) ↔ (requested r.type).checkSupported = .ok () := by
  rw [← exists_generated_iff hr]
  exact exists_outcome_iff (kept_after d before) (serves_after d before r).2

private theorem shared_iff {before between : List CircuitRequest} {conversion : Conversion}
    {t t' : HwType} {name name' : String} (h : answer d before ⟨conversion, t⟩ = .ok name)
    (h' : answer d (before ++ ⟨conversion, t⟩ :: between) ⟨conversion, t'⟩ = .ok name') :
    name' = name ↔ of t' = of t := by
  by_cases hkey : (⟨conversion, t'⟩ : CircuitRequest).key = key ⟨conversion, t⟩
  · have hsame : answer d (before ++ ⟨conversion, t⟩ :: between) ⟨conversion, t'⟩ =
        answer d before ⟨conversion, t⟩ := (shared_by_key hkey between).1
    rw [h', h] at hsame
    exact iff_of_true (Except.ok.inj hsame) (congrArg MessageSchema.mk (Prod.ext_iff.mp hkey).2)
  · refine iff_of_false (names_apart hkey h between h') fun hof => hkey ?_
    exact Prod.ext rfl (MessageSchema.mk.inj hof)

end CircuitRequest

namespace Emission
open MessageSchema

variable {d : Design} {w : Workshop} {r : CircuitRequest} {types : List HwType}

private theorem flat_of_serves {w' : Workshop} {outcome : Except Failure String}
    (hr : (requested r.type).Regular) (hserves : Serves r w w' outcome) (hflat : w.design.Flat) :
    w'.design.Flat := by
  cases hserves with
  | found _ _ halike | failed _ _ _ halike =>
    rw [halike.design]
    exact hflat
  | added c name _ hmade _ hdesign =>
    rw [Design.Flat, hdesign, List.forall_mem_append, List.forall_mem_singleton]
    have hcallees := hr.callees_eq_nil (CircuitRequest.generated_eq_ok.mp hmade)
    exact ⟨hflat, hcallees⟩

private theorem request_succeeds (hkept : Kept d w) (hflat : w.design.Flat)
    (hr : (requested r.type).Regular) (h : (requested r.type).checkSupported = .ok ()) :
    Succeeds (Request.circuit r.conversion r.type) w fun _ w' => Kept d w' ∧ w'.design.Flat := by
  obtain ⟨w', hbound, ⟨name, hrun, hserves⟩ | ⟨failure, hrun, hserves⟩⟩ :=
    Request.circuit_serves hkept.bound r
  · exact ⟨name, w', hrun, hkept.serves hserves hbound, flat_of_serves hr hserves hflat⟩
  · obtain ⟨c, hc⟩ := (CircuitRequest.exists_generated_iff hr).mpr h
    cases ((hserves.eq_error_iff hkept).mp rfl).symm.trans hc

theorem request_ensures (hkept : Kept d w) (hr : (requested r.type).Regular) :
    Ensures (Request.circuit r.conversion r.type) w fun _ w' =>
      Kept d w' ∧ (requested r.type).checkSupported = .ok () := by
  intro name w' hrun
  obtain ⟨w₁, hbound, ⟨_, hrun₁, hserves⟩ | ⟨_, hrun₁, _⟩⟩ :=
    Request.circuit_serves hkept.bound r
  · rw [hrun] at hrun₁
    cases hrun₁
    refine ⟨hkept.serves hserves hbound, (CircuitRequest.exists_generated_iff hr).mp ?_⟩
    exact (CircuitRequest.exists_outcome_iff hkept hserves).mp ⟨name, rfl⟩
  · rw [hrun] at hrun₁
    cases hrun₁

private theorem requestAll_succeeds (hkept : Kept d w) (hflat : w.design.Flat)
    (hregular : ∀ t ∈ types, (requested t).Regular)
    (h : ∀ t ∈ types, (requested t).checkSupported = .ok ()) :
    Succeeds (requestAll types) w fun _ w' => Kept d w' ∧ w'.design.Flat := by
  induction types generalizing w with
  | nil => exact .pure ⟨hkept, hflat⟩
  | cons t types ih =>
    obtain ⟨ht, hregular⟩ := List.forall_mem_cons.mp hregular
    obtain ⟨hsupported, h⟩ := List.forall_mem_cons.mp h
    rw [requestAll]
    refine (request_succeeds (r := ⟨.encode, t⟩) hkept hflat ht hsupported).bind
      fun _ w₁ ⟨hkept₁, hflat₁⟩ => ?_
    refine (request_succeeds (r := ⟨.decode, t⟩) hkept₁ hflat₁ ht hsupported).bind
      fun _ w₂ ⟨hkept₂, hflat₂⟩ => ?_
    exact ih hkept₂ hflat₂ hregular h

theorem requestAll_ensures (hkept : Kept d w) (hregular : ∀ t ∈ types, (requested t).Regular) :
    Ensures (requestAll types) w fun _ _ => ∀ t ∈ types, (requested t).checkSupported = .ok () := by
  induction types generalizing w with
  | nil => exact .pure (by simp)
  | cons t types ih =>
    obtain ⟨ht, hregular⟩ := List.forall_mem_cons.mp hregular
    rw [requestAll]
    refine (request_ensures (r := ⟨.encode, t⟩) hkept ht).bind fun _ w₁ ⟨hkept₁, hsupported⟩ => ?_
    refine (request_ensures (r := ⟨.decode, t⟩) hkept₁ ht).bind fun _ w₂ ⟨hkept₂, _⟩ => ?_
    exact (ih hkept₂ hregular).mono fun _ _ h => List.forall_mem_cons.mpr ⟨hsupported, h⟩

theorem circuits_succeeds_iff (hregular : ∀ t ∈ types, (requested t).Regular) :
    (∃ text, circuits types = .ok text) ↔ ∀ t ∈ types, (requested t).checkSupported = .ok () := by
  have hkept := kept_start {}
  constructor
  · rintro ⟨text, htext⟩
    rw [circuits, design, EStateM.run] at htext
    cases hrun : requestAll types {} with
    | ok _ w => exact requestAll_ensures hkept hregular _ w hrun
    | error failure w =>
      rw [hrun] at htext
      cases htext
  · intro h
    obtain ⟨_, w, hrun, _, hflat⟩ := requestAll_succeeds hkept (by simp [Design.Flat]) hregular h
    obtain ⟨text, htext⟩ := hflat.exists_text
    have hdesign : design types = .ok w.design := by
      rw [design, EStateM.run, hrun]
    refine ⟨text, (bind_of_ok hdesign _).trans ?_⟩
    rw [htext]
    rfl

private theorem layout_succeeds_iff (hregular : ∀ t ∈ types, (of t).Regular) (pretty : Bool) :
    (∃ text, layout types pretty = .ok text) ↔ ∀ t ∈ types, (of t).checkSupported = .ok () := by
  have hreports : (∃ text, layout types pretty = .ok text) ↔
      ∃ reports, (SchemaFile.schemas types).mapM report = .ok reports := by
    rw [layout]
    cases (SchemaFile.schemas types).mapM report with
    | error d => exact iff_of_false nofun nofun
    | ok reports => exact iff_of_true ⟨_, rfl⟩ ⟨_, rfl⟩
  rw [hreports, exists_mapM_iff]
  simp only [SchemaFile.schemas, List.mem_eraseDups, List.forall_mem_map]
  exact forall₂_congr fun t ht => (hregular t ht).exists_report_iff

end Emission

open MessageSchema

/-- What is made of types on request agrees with what the check says about them. -/
structure Agreement (types : List HwType) : Prop where
  /-- A request is answered with a circuit exactly when its type passes the check, whatever has been
  requested before. -/
  requests : ∀ t ∈ types, ∀ (d : Design) (before : List CircuitRequest) (conversion : Conversion),
    (∃ name, CircuitRequest.answer d before ⟨conversion, t⟩ = .ok name) ↔
      (of t).checkSupported = .ok ()
  /-- Circuits for the same direction are shared exactly where message formats are equal. -/
  shared : ∀ (t t' : HwType) (d : Design) (before between : List CircuitRequest)
    (conversion : Conversion) (name name' : String),
    CircuitRequest.answer d before ⟨conversion, t⟩ = .ok name →
    CircuitRequest.answer d (before ++ ⟨conversion, t⟩ :: between) ⟨conversion, t'⟩ = .ok name' →
      (name' = name ↔ of t' = of t)
  /-- The circuits of the types are emitted exactly when their layouts are. -/
  emission : ∀ verify pretty : Bool, (∃ text, emit types .circuits verify pretty = .ok text) ↔
    ∃ text, emit types .layout verify pretty = .ok text

/-- Requests, the check and what is emitted agree, unless a type is a channel of channels of
something that the check would let pass. -/
theorem requests_agree_with_check {types : List HwType} (hwritten : ∀ t ∈ types, t.Written)
    (hid : ∀ t ∈ types, (of t).id ≠ ownSchemaId)
    (hnested : ∀ t : HwType, .channel (.channel t) ∈ types → (of t).checkSupported ≠ .ok ()) :
    Agreement types := by
  have hagree : ∀ t ∈ types, (requested t).Regular ∧
      ((requested t).checkSupported = .ok () ↔ (of t).checkSupported = .ok ()) :=
    fun t ht => requested_agrees (hwritten t ht) (hid t ht) fun u hu => hnested u (hu ▸ ht)
  constructor
  case requests =>
    intro t ht d before conversion
    obtain ⟨hregular, hsupported⟩ := hagree t ht
    exact (CircuitRequest.exists_answer_iff hregular d before).trans hsupported
  case shared => exact fun _ _ _ _ _ _ _ _ h h' => CircuitRequest.shared_iff h h'
  case emission =>
    intro verify pretty
    have hregular : ∀ t ∈ types, (of t).Regular :=
      fun t ht => .of_written (hwritten t ht) (hid t ht)
    rw [emit, emit, exists_mapError_iff,
      Emission.circuits_succeeds_iff fun t ht => (hagree t ht).1,
      Emission.layout_succeeds_iff hregular pretty]
    exact forall₂_congr fun t ht => (hagree t ht).2

theorem mixedType_served_wideType_refused :
    (∃ name, CircuitRequest.answer {} [] ⟨.encode, mixedType⟩ = .ok name) ∧
    (¬ ∃ name, CircuitRequest.answer {} [⟨.encode, mixedType⟩] ⟨.decode, wideType⟩ = .ok name) ∧
    ((∃ text, emit [mixedType, wideType] .circuits true false = .ok text) ↔
      ∃ text, emit [mixedType, wideType] .layout true false = .ok text) := by
  have hagree : Agreement [mixedType, wideType] := by
    apply requests_agree_with_check
    · simp [written_mixedType, written_wideType]
    · exact List.forall_mem_cons.mpr ⟨id_mixedType, by decide +kernel⟩
    · simp [mixedType, wideType]
  refine ⟨?_, ?_, hagree.emission true false⟩
  · exact (hagree.requests _ (by simp) {} [] .encode).mpr checkSupported_mixedType
  · rw [hagree.requests _ (by simp)]
    decide +kernel

/-- A channel of channels is refused by the check and has no layout, but its circuits are those of
the values that the inner channels carry. -/
theorem nested_served_but_refused {t : HwType} (ht : t.Written) (hid : (of t).id ≠ ownSchemaId)
    (h : (of t).checkSupported = .ok ()) (verify pretty : Bool) :
    (of (.channel (.channel t))).checkSupported =
      .error (Obstacle.channel.diagnostic (.channel t)) ∧
    (∀ (d : Design) (before : List CircuitRequest) (conversion : Conversion),
      ∃ name, CircuitRequest.answer d before ⟨conversion, .channel (.channel t)⟩ = .ok name) ∧
    (∃ text, emit [.channel (.channel t)] .circuits verify pretty = .ok text) ∧
    emit [.channel (.channel t)] .layout verify pretty =
      .error (.report (Obstacle.channel.diagnostic (.channel t))) := by
  have hregular : (requested (.channel (.channel t))).Regular := .of_written ht hid
  refine ⟨checkSupported_nested t, fun d before conversion => ?_, ?_, ?_⟩
  · exact (CircuitRequest.exists_answer_iff hregular d before).mpr h
  · have hall : ∀ u ∈ [HwType.channel (.channel t)], (requested u).Regular :=
      List.forall_mem_singleton.mpr hregular
    exact (Emission.circuits_succeeds_iff hall).mpr (List.forall_mem_singleton.mpr h)
  · have hreports : (SchemaFile.schemas [.channel (.channel t)]).mapM report =
        .error (Obstacle.channel.diagnostic (.channel t)) := by
      have hschemas : SchemaFile.schemas [.channel (.channel t)] = [of (.channel (.channel t))] :=
        rfl
      rw [hschemas, List.mapM_cons, (refused_of_not_supported (checkSupported_nested t)).report]
      rfl
    rw [emit, Emission.layout, hreports]
    rfl

def nestedBytes : HwType := .channel (.channel (.int .unsigned 8))

private theorem written_nestedBytes : nestedBytes.Written :=
  ⟨"!esi.channel<!esi.channel<ui8>>", by decide +kernel, by decide +kernel⟩

theorem nestedBytes_served_but_refused :
    nestedBytes.Written ∧ (of nestedBytes).id ≠ ownSchemaId ∧
    (∃ name, CircuitRequest.answer {} [] ⟨.encode, nestedBytes⟩ = .ok name) ∧
    (of nestedBytes).checkSupported ≠ .ok () ∧
    (∃ text, emit [nestedBytes] .circuits true false = .ok text) ∧
    ¬ ∃ text, emit [nestedBytes] .layout true false = .ok text := by
  have hbytes : (HwType.int .unsigned 8).Written := ⟨"ui8", by decide +kernel, by decide +kernel⟩
  obtain ⟨hrefused, hserved, hcircuits, hlayout⟩ := nested_served_but_refused hbytes
    (by decide +kernel) (by decide +kernel) true false
  refine ⟨written_nestedBytes, by decide +kernel, hserved {} [] .encode, ?_, hcircuits, ?_⟩
  · rw [nestedBytes, hrefused]
    exact nofun
  · rintro ⟨text, htext⟩
    cases hlayout.symm.trans htext

end ChannelCodec
