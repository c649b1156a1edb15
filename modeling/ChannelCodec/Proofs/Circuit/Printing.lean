import ChannelCodec.Circuit.Text
import ChannelCodec.Proofs.Circuit.Demand
import ChannelCodec.Proofs.Circuit.History
import ChannelCodec.Proofs.Message.Naming

/-! The written form of circuits. A region is written between the head of its operation and a brace,
so every operation of a well-formed circuit has one line, and every result stands in front of one
operation. Names that start with a letter cannot be mistaken for numbers. -/
namespace ChannelCodec

inductive BodyLine where
  | head (indent operation : Nat)
  | close (indent : Nat)
deriving DecidableEq, Repr

def BodyLine.operation? : BodyLine → Option Nat
  | head _ i => some i
  | close _ => none

def listed (texts : List String) : String := ", ".intercalate texts

/-- What is written of an operation in front of its operands, behind its mnemonic. -/
def OperationKind.lead : OperationKind → String
  | .compute (.constant value) => " " ++ value.text
  | .compute (.compare predicate) => " " ++ predicate.text ++ " "
  | .compute _ | .branch | .assertion _ => " "
  | .instantiate callee name => " \"" ++ name ++ "\" @" ++ callee ++ "("
  | .always => " posedge "

/-- What is written of it behind its operands, by the types of its operands and results. -/
def OperationKind.tail (kind : OperationKind) (operands results : List HwType) : String :=
  match kind with
  | .compute (.constant _) => " : " ++ listed (results.map HwType.text)
  | .compute (.extract low) =>
    " from " ++ toString low ++ " : (" ++ listed (operands.map HwType.text) ++ ") -> " ++
      listed (results.map HwType.text)
  | .compute (.compare _) => " : " ++ listed ((operands.take 1).map HwType.text)
  | .compute (.structExtract field) =>
    "[\"" ++ field ++ "\"] : " ++ listed ((operands.take 1).map HwType.text)
  | .compute _ =>
    " : (" ++ listed (operands.map HwType.text) ++ ") -> " ++ listed (results.map HwType.text)
  | .instantiate .. =>
    ") : (" ++ listed (operands.map HwType.text) ++ ") -> (" ++
      listed (results.map HwType.text) ++ ")"
  | .always | .branch => " \x7b"
  | .assertion message => ", \"" ++ message ++ "\""

namespace Circuit

def lineText (c : Circuit) : BodyLine → String
  | .head indent i =>
    String.ofList (List.replicate indent ' ') ++ ((c.operations.get? i).map c.headText).getD ""
  | .close indent => String.ofList (List.replicate indent ' ') ++ "\x7d"

def linesOf (c : Circuit) (indent : Nat) (i : Nat) : List BodyLine :=
  match c.operations.get? i with
  | none => []
  | some o =>
    if o.kind.hasRegion then
      .head indent i :: (c.operationsIn (.region i)).flatMap (fun j =>
        if _h : i < j ∧ j < c.operations.size then c.linesOf (indent + 2) j else [])
        ++ [.close indent]
    else [.head indent i]
termination_by c.operations.size - i
decreasing_by omega

def bodyLines (c : Circuit) : List BodyLine := c.body.flatMap (c.linesOf 2)

/-- The operations on the lines of the body, in order. -/
def printed (c : Circuit) : List Operation :=
  (c.bodyLines.filterMap BodyLine.operation?).filterMap c.operations.get?

/-- The written form of a circuit leaves no doubt about its values. They have different texts, that
of an input is the one in the list of ports, and whatever is used is an input, which stands in front
of no operation, or stands in front of exactly one. A line shows the results of its operation in
front of an equals sign and the operands behind the mnemonic; besides these it shows no value. -/
structure Unambiguous (c : Circuit) : Prop where
  distinct : ∀ v w, c.valueText v = c.valueText w → v = w
  input : ∀ (v : Nat) (port : Port), c.inputPorts[v]? = some port →
    c.origin? v = some (.input v) ∧ c.valueText v = "%" ++ port.name ∧
      portText port = s!"in {c.valueText v}: {port.type}"
  text : c.text = String.join (c.lines.map (· ++ "\n"))
  lines : c.lines =
    (s!"hw.module @{c.name}(" ++ ", ".intercalate (c.ports.map portText) ++ ") \x7b") ::
      c.bodyLines.map c.lineText ++ [c.outputLine, "\x7d"]
  operation : ∀ o ∈ c.printed, ∃ operands results,
    c.Types o.operands operands ∧ c.Types o.results results ∧ c.headText o =
      (if o.results = [] then "" else listed (o.results.map c.valueText) ++ " = ") ++
        o.kind.mnemonic ++ o.kind.lead ++ listed (o.operands.map c.valueText) ++
        o.kind.tail operands results
  output : ∃ types, c.Types c.outputs types ∧ c.outputLine =
    if c.outputs = [] then "  hw.output"
    else "  hw.output " ++ listed (c.outputs.map c.valueText) ++ " : " ++
      listed (types.map HwType.text)
  given : ∀ v, (∃ o ∈ c.printed, v ∈ o.operands) ∨ v ∈ c.outputs → v < c.values.size ∧
    (c.printed.flatMap (·.results)).count v = if v < c.inputPorts.length then 0 else 1

variable {known : String → List Port → Prop} {c : Circuit}

private theorem operationLines_eq (c : Circuit) (indent i : Nat) :
    c.operationLines indent i = (c.linesOf indent i).map c.lineText := by
  induction hn : c.operations.size - i using Nat.strongRecOn generalizing indent i with
  | ind n ih =>
    rw [operationLines, linesOf]
    cases ho : c.operations.get? i with
    | none => rfl
    | some o =>
      have hhead : c.lineText (.head indent i) =
          String.ofList (List.replicate indent ' ') ++ c.headText o := by
        rw [lineText, ho]
        rfl
      have hregion : ((c.operationsIn (.region i)).flatMap fun j =>
          if _h : i < j ∧ j < c.operations.size then c.operationLines (indent + 2) j else []) =
            ((c.operationsIn (.region i)).flatMap fun j => if _h : i < j ∧ j < c.operations.size
              then c.linesOf (indent + 2) j else []).map c.lineText := by
        rw [List.map_flatMap]
        refine List.flatMap_congr fun j _ => ?_
        split
        · exact ih (c.operations.size - j) (by omega) _ j rfl
        · rfl
      dsimp only
      rw [hregion]
      split
      · rw [List.map_append, List.map_cons, hhead]
        rfl
      · rw [List.map_cons, hhead]
        rfl

private theorem lines_eq (c : Circuit) : c.lines =
    (s!"hw.module @{c.name}(" ++ ", ".intercalate (c.ports.map portText) ++ ") \x7b") ::
      c.bodyLines.map c.lineText ++ [c.outputLine, "\x7d"] := by
  have hbody : c.operationLines 2 = fun i => (c.linesOf 2 i).map c.lineText :=
    funext (c.operationLines_eq 2)
  rw [lines, hbody, bodyLines, List.map_flatMap]

/-! A line shows results and operands at their places. -/

theorem typeTexts_eq {values : List Nat} {types : List HwType} (h : c.Types values types) :
    c.typeTexts values = listed (types.map HwType.text) := by
  have htexts : values.map c.typeText = types.map HwType.text := by
    induction h with
    | nil => rfl
    | cons hv _ ih =>
      rw [List.map_cons, List.map_cons, ih, typeText, hv]
      rfl
  rw [typeTexts, htexts, listed]

private theorem gateText_eq {gate : Gate} {operands results : List Nat} {types : List HwType}
    {t : HwType} (hoperands : c.Types operands types) (hgate : gate.Typed types t)
    (hresults : c.Types results [t]) : c.gateText gate operands results =
      OperationKind.lead (.compute gate) ++ listed (operands.map c.valueText) ++
        OperationKind.tail (.compute gate) types [t] := by
  have hfirst : c.Types (operands.take 1) (types.take 1) := List.forall₂_take 1 hoperands
  have hvalues : c.valueTexts operands = listed (operands.map c.valueText) := rfl
  unfold gateText
  simp only [hvalues, typeTexts_eq hoperands, typeTexts_eq hfirst, typeTexts_eq hresults]
  cases hgate with
  | constant =>
    -- A constant has no operands.
    obtain rfl := List.forall₂_nil_right_iff.mp hoperands
    simp only [OperationKind.lead, OperationKind.tail, listed, toString, String.append_assoc]
    rfl
  | extract | compare | structExtract | bitcast | concat | add | arraySlice | arrayGet | arrayCreate
  | arrayConcat | structCreate =>
    simp only [OperationKind.lead, OperationKind.tail, toString, String.append_assoc]

theorem Typed.headText {o : Operation} (h : c.Typed known o) : ∃ operands results,
    c.Types o.operands operands ∧ c.Types o.results results ∧ c.headText o =
      (if o.results = [] then "" else listed (o.results.map c.valueText) ++ " = ") ++
        o.kind.mnemonic ++ o.kind.lead ++ listed (o.operands.map c.valueText) ++
        o.kind.tail operands results := by
  have hfront : (if o.results.isEmpty then "" else c.valueTexts o.results ++ " = ") =
      if o.results = [] then "" else listed (o.results.map c.valueText) ++ " = " :=
    if_congr List.isEmpty_iff rfl rfl
  have hvalues : c.valueTexts o.operands = listed (o.operands.map c.valueText) := rfl
  unfold Circuit.headText
  rw [hfront]
  cases h with
  | @compute gate types t hkind hoperands hgate hresults =>
    refine ⟨types, [t], hoperands, hresults, ?_⟩
    simp only [hkind, gateText_eq hoperands hgate hresults, String.append_assoc]
  | @instantiate callee name ports hkind hknown hoperands hresults =>
    refine ⟨_, _, hoperands, hresults, ?_⟩
    have harrow : ") -> (" = ") -> " ++ "(" := rfl
    simp only [hkind, hvalues, typeTexts_eq hoperands, typeTexts_eq hresults, harrow,
      OperationKind.lead, OperationKind.tail, toString, String.append_assoc]
  | observe hkind hoperands hresults =>
    refine ⟨_, [], hoperands, hresults ▸ .nil, ?_⟩
    rcases hkind with hkind | hkind | ⟨message, hkind⟩ <;>
      simp only [hkind, hvalues, OperationKind.lead, OperationKind.tail, toString,
        String.append_assoc]

private theorem exists_types {values : List Nat} (h : ∀ v ∈ values, v < c.values.size) :
    ∃ types, c.Types values types := by
  induction values with
  | nil => exact ⟨[], .nil⟩
  | cons v values ih =>
    obtain ⟨hv, hvalues⟩ := List.forall_mem_cons.mp h
    obtain ⟨x, hx⟩ := get?_values_of_lt hv
    obtain ⟨types, htypes⟩ := ih hvalues
    exact ⟨x.type :: types, .cons (type?_of_get? hx) htypes⟩

private theorem outputLine_eq {types : List HwType} (h : c.Types c.outputs types) : c.outputLine =
    if c.outputs = [] then "  hw.output"
    else "  hw.output " ++ listed (c.outputs.map c.valueText) ++ " : " ++
      listed (types.map HwType.text) := by
  rw [outputLine, typeTexts_eq h]
  exact if_congr List.isEmpty_iff rfl rfl

/-! Every operation has one line. -/

private theorem within_iff {i k : Nat} :
    c.Within i k ↔ k = i ∨ ∃ j ∈ c.operationsIn (.region i), c.Within j k := by
  constructor
  · intro h
    induction h with
    | self => exact .inl rfl
    | @inside m k o _ ho hb ih =>
      rcases ih with rfl | ⟨j, hj, hm⟩
      · exact .inr ⟨k, mem_operationsIn.mpr ⟨o, ho, hb⟩, .self⟩
      · exact .inr ⟨j, hj, hm.inside ho hb⟩
  · rintro (rfl | ⟨j, hj, hk⟩)
    · exact .self
    · obtain ⟨o, ho, hb⟩ := mem_operationsIn.mp hj
      exact (Within.self.inside ho hb).trans hk

theorem WellFormed.operations_linesOf (hc : c.WellFormed known) (indent : Nat) {i : Nat}
    (hi : i < c.operations.size) : (c.linesOf indent i).filterMap BodyLine.operation? =
      i :: (c.operationsIn (.region i)).flatMap fun j =>
        (c.linesOf (indent + 2) j).filterMap BodyLine.operation? := by
  obtain ⟨o, ho⟩ := get?_operations_of_lt hi
  rw [linesOf, ho]
  dsimp only
  cases hregion : o.kind.hasRegion with
  | true =>
    have hinside : ((c.operationsIn (.region i)).flatMap fun j =>
        if _h : i < j ∧ j < c.operations.size then c.linesOf (indent + 2) j else []) =
          (c.operationsIn (.region i)).flatMap (c.linesOf (indent + 2)) := by
      refine List.flatMap_congr fun j hj => ?_
      obtain ⟨p, hp, -⟩ := mem_operationsIn.mp hj
      rw [dif_pos ⟨(hc.regions i j hj).1, lt_of_get?_operations hp⟩]
    rw [if_pos rfl, hinside, List.filterMap_append, List.filterMap_cons, List.filterMap_flatMap]
    exact List.append_nil _
  | false =>
    have hnone : c.operationsIn (.region i) = [] := by
      refine List.eq_nil_iff_forall_not_mem.mpr fun j hj => ?_
      obtain ⟨-, p, hp, hregion'⟩ := hc.regions i j hj
      obtain rfl := Option.some.inj (ho.symm.trans hp)
      rw [hregion] at hregion'
      cases hregion'
    rw [hnone]
    rfl

theorem WellFormed.mem_linesOf (hc : c.WellFormed known) (indent : Nat) {i : Nat}
    (hi : i < c.operations.size) (k : Nat) :
    k ∈ (c.linesOf indent i).filterMap BodyLine.operation? ↔ c.Within i k := by
  induction hn : c.operations.size - i using Nat.strongRecOn generalizing indent i with
  | ind n ih =>
    rw [hc.operations_linesOf indent hi, List.mem_cons, List.mem_flatMap, within_iff]
    refine or_congr_right (exists_congr fun j => and_congr_right fun hj => ?_)
    obtain ⟨p, hp, -⟩ := mem_operationsIn.mp hj
    have hj' := lt_of_get?_operations hp
    have hlt := (hc.regions i j hj).1
    exact ih (c.operations.size - j) (by omega) _ hj' rfl

theorem WellFormed.nodup_block (hc : c.WellFormed known) (indent : Nat) (block : Block)
    (h : ∀ i ∈ c.operationsIn block,
      ((c.linesOf indent i).filterMap BodyLine.operation?).Nodup) :
    ((c.operationsIn block).flatMap fun i =>
      (c.linesOf indent i).filterMap BodyLine.operation?).Nodup := by
  refine List.nodup_flatMap.mpr ⟨h, ?_⟩
  refine (hc.typed.apart_operationsIn block).imp_of_mem fun {i j} hi hj hapart => ?_
  obtain ⟨o, ho, -⟩ := mem_operationsIn.mp hi
  obtain ⟨p, hp, -⟩ := mem_operationsIn.mp hj
  intro k hk hk'
  rw [hc.mem_linesOf indent (lt_of_get?_operations ho)] at hk
  rw [hc.mem_linesOf indent (lt_of_get?_operations hp)] at hk'
  exact hapart k hk hk'

private theorem WellFormed.nodup_linesOf (hc : c.WellFormed known) (indent : Nat) {i : Nat}
    (hi : i < c.operations.size) :
    ((c.linesOf indent i).filterMap BodyLine.operation?).Nodup := by
  induction hn : c.operations.size - i using Nat.strongRecOn generalizing indent i with
  | ind n ih =>
    rw [hc.operations_linesOf indent hi, List.nodup_cons]
    constructor
    · intro hself
      obtain ⟨j, hj, hself⟩ := List.mem_flatMap.mp hself
      obtain ⟨p, hp, -⟩ := mem_operationsIn.mp hj
      rw [hc.mem_linesOf _ (lt_of_get?_operations hp)] at hself
      have hle := hc.typed.le_of_within hself
      have hlt := (hc.regions i j hj).1
      omega
    · refine hc.nodup_block _ _ fun j hj => ?_
      obtain ⟨p, hp, -⟩ := mem_operationsIn.mp hj
      have hj' := lt_of_get?_operations hp
      have hlt := (hc.regions i j hj).1
      exact ih (c.operations.size - j) (by omega) _ hj' rfl

private theorem WellFormed.exists_within_body (hc : c.WellFormed known) {k : Nat}
    (hk : k < c.operations.size) : ∃ i ∈ c.body, c.Within i k := by
  induction k using Nat.strongRecOn with
  | ind k ih =>
    obtain ⟨o, ho⟩ := get?_operations_of_lt hk
    cases hb : o.block with
    | body => exact ⟨k, mem_operationsIn.mpr ⟨o, ho, hb⟩, .self⟩
    | region owner =>
      have hlt := hc.typed.region k o owner ho hb
      obtain ⟨i, hi, hw⟩ := ih owner hlt (Nat.lt_trans hlt hk)
      exact ⟨i, hi, hw.inside ho hb⟩

private theorem WellFormed.operations_bodyLines (hc : c.WellFormed known) :
    (c.bodyLines.filterMap BodyLine.operation?).Perm (List.range c.operations.size) := by
  rw [bodyLines, List.filterMap_flatMap]
  refine (List.perm_ext_iff_of_nodup ?_ List.nodup_range).mpr fun k => ?_
  · refine hc.nodup_block _ _ fun i hi => ?_
    obtain ⟨o, ho, -⟩ := mem_operationsIn.mp hi
    exact hc.nodup_linesOf _ (lt_of_get?_operations ho)
  · rw [List.mem_flatMap, List.mem_range]
    have hwithin : ∀ i ∈ c.body,
        (k ∈ (c.linesOf 2 i).filterMap BodyLine.operation? ↔ c.Within i k) := by
      intro i hi
      obtain ⟨o, ho, -⟩ := mem_operationsIn.mp hi
      exact hc.mem_linesOf _ (lt_of_get?_operations ho) k
    constructor
    · rintro ⟨i, hi, hk⟩
      obtain ⟨o, ho, -⟩ := mem_operationsIn.mp hi
      cases (hwithin i hi).mp hk with
      | self => exact lt_of_get?_operations ho
      | inside _ hget => exact lt_of_get?_operations hget
    · intro hk
      obtain ⟨i, hi, hw⟩ := hc.exists_within_body hk
      exact ⟨i, hi, (hwithin i hi).mpr hw⟩

/-- The body of a well-formed circuit has a line for every operation, and one only. -/
theorem WellFormed.printed_perm (hc : c.WellFormed known) :
    c.printed.Perm c.operations.values := by
  rw [← c.operations.filterMap_get?_keys]
  exact hc.operations_bodyLines.filterMap _

/-! Every result stands on one line. -/

private theorem WellTyped.nodup_results (hc : c.WellTyped known) :
    (c.operations.values.flatMap (·.results)).Nodup := by
  have hget : ∀ (i : Nat) (hi : i < c.operations.values.length),
      c.operations.get? i = some c.operations.values[i] := by
    intro i hi
    rw [Arena.get?_eq_values, List.getElem?_eq_getElem hi]
  refine List.nodup_flatMap.mpr ⟨fun o ho => ?_, List.pairwise_iff_getElem.mpr ?_⟩
  · obtain ⟨i, hi, rfl⟩ := List.mem_iff_getElem.mp ho
    refine List.nodup_iff_getElem?_ne_getElem?.mpr fun n m hlt hm heq => ?_
    have hv := List.getElem?_eq_getElem hm
    have horigin := hc.result i _ m _ (hget i hi) hv
    rw [hc.result i _ n _ (hget i hi) (heq.trans hv)] at horigin
    cases horigin
    omega
  · intro i j hi hj hlt v hv hv'
    obtain ⟨n, hn⟩ := List.mem_iff_getElem?.mp hv
    obtain ⟨m, hm⟩ := List.mem_iff_getElem?.mp hv'
    have horigin := hc.result i _ n v (hget i hi) hn
    rw [hc.result j _ m v (hget j hj) hm] at horigin
    cases horigin
    omega

private theorem WellTyped.mem_results (hc : c.WellTyped known) {v : Nat} (hv : v < c.values.size) :
    v ∈ c.operations.values.flatMap (·.results) ↔ c.inputPorts.length ≤ v := by
  rw [List.mem_flatMap]
  constructor
  · rintro ⟨o, ho, hmem⟩
    obtain ⟨i, hi⟩ := List.mem_iff_getElem?.mp ho
    obtain ⟨n, hn⟩ := List.mem_iff_getElem?.mp hmem
    rw [← Arena.get?_eq_values] at hi
    refine Nat.le_of_not_lt fun hlt => ?_
    have horigin := (hc.input v _ (List.getElem?_eq_getElem hlt)).1
    rw [hc.result i o n v hi hn] at horigin
    cases horigin
  · intro hle
    rcases hc.origin v hv with ⟨-, hlt⟩ | ⟨i, n, o, -, ho, hn⟩
    · omega
    · rw [Arena.get?_eq_values] at ho
      exact ⟨o, List.mem_of_getElem? ho, List.mem_of_getElem? hn⟩

theorem WellFormed.count_results (hc : c.WellFormed known) {v : Nat} (hv : v < c.values.size) :
    (c.printed.flatMap (·.results)).count v = if v < c.inputPorts.length then 0 else 1 := by
  rw [(hc.printed_perm.flatMap_right _).count_eq, hc.typed.nodup_results.count]
  by_cases hlt : v < c.inputPorts.length
  · rw [if_pos hlt, if_neg fun h => Nat.not_le_of_lt hlt ((hc.typed.mem_results hv).mp h)]
  · rw [if_neg hlt, if_pos ((hc.typed.mem_results hv).mpr (Nat.le_of_not_lt hlt))]

/-! Different values have different texts. -/

/-- Inputs have the names of their ports, and all names start with a letter. -/
structure Labelled (c : Circuit) : Prop where
  input : ∀ (v : Nat) (port : Port), c.inputPorts[v]? = some port →
    (c.values.get? v).bind (·.name) = some port.name
  letter : ∀ v x name, c.values.get? v = some x → x.name = some name →
    startsWith isAsciiLetter name = true

private theorem toString_injective {n m : Nat} (h : toString n = toString m) : n = m := by
  have hdigits : Nat.toDigits 10 n = Nat.toDigits 10 m := by
    have hlists := congrArg String.toList h
    rwa [Nat.toString_eq_ofList_toDigits, Nat.toString_eq_ofList_toDigits, String.toList_ofList,
      String.toList_ofList] at hlists
  calc n = Nat.ofDigitChars 10 (Nat.toDigits 10 n) 0 := Nat.ofDigitChars_ten_toDigits.symm
    _ = Nat.ofDigitChars 10 (Nat.toDigits 10 m) 0 := by rw [hdigits]
    _ = m := Nat.ofDigitChars_ten_toDigits

private theorem toString_ne_of_letter {name : String} (h : startsWith isAsciiLetter name = true)
    (n : Nat) :
    toString n ≠ name := by
  rintro rfl
  unfold startsWith at h
  cases hdigits : (toString n).toList with
  | nil =>
    rw [hdigits] at h
    cases h
  | cons d rest =>
    rw [hdigits] at h
    have hd : d ∈ Nat.toDigits 10 n := by
      rw [Nat.toString_eq_ofList_toDigits, String.toList_ofList] at hdigits
      rw [hdigits]
      exact List.mem_cons_self
    have hdigit := Nat.isDigit_of_mem_toDigits (by decide) (by decide) hd
    rw [not_isDigit_of_isAsciiLetter h] at hdigit
    cases hdigit

private theorem eq_of_name_eq (hnames : c.valueNames.Nodup) {v w : Nat} {name : String}
    (hv : (c.values.get? v).bind (·.name) = some name)
    (hw : (c.values.get? w).bind (·.name) = some name) : v = w := by
  obtain ⟨x, hx, hxname⟩ := Option.bind_eq_some_iff.mp hv
  obtain ⟨y, hy, hyname⟩ := Option.bind_eq_some_iff.mp hw
  rw [Arena.get?_eq_values] at hx hy
  have hpairs := List.pairwise_iff_getElem.mp (List.pairwise_filterMap.mp hnames)
  obtain ⟨hvlt, rfl⟩ := List.getElem?_eq_some_iff.mp hx
  obtain ⟨hwlt, rfl⟩ := List.getElem?_eq_some_iff.mp hy
  rcases Nat.lt_trichotomy v w with hlt | heq | hlt
  · exact absurd rfl (hpairs v w hvlt hwlt hlt name hxname name hyname)
  · exact heq
  · exact absurd rfl (hpairs w v hwlt hvlt hlt name hyname name hxname)

private theorem Labelled.eq_of_valueText_eq (hc : c.Labelled) (hnames : c.valueNames.Nodup)
    {v w : Nat} (h : c.valueText v = c.valueText w) : v = w := by
  -- Names start with letters and numbers with digits, so no name is a number.
  have hletter : ∀ {v name}, (c.values.get? v).bind (·.name) = some name →
      startsWith isAsciiLetter name = true := by
    intro v name hname
    obtain ⟨x, hx, hxname⟩ := Option.bind_eq_some_iff.mp hname
    exact hc.letter v x name hx hxname
  unfold valueText at h
  cases hv : (c.values.get? v).bind (·.name) with
  | some name =>
    cases hw : (c.values.get? w).bind (·.name) with
    | some name' =>
      rw [hv, hw] at h
      obtain rfl := String.append_right_inj "%" |>.mp h
      exact eq_of_name_eq hnames hv hw
    | none =>
      rw [hv, hw] at h
      exact absurd ((String.append_right_inj "%").mp h).symm (toString_ne_of_letter (hletter hv) w)
  | none =>
    cases hw : (c.values.get? w).bind (·.name) with
    | some name =>
      rw [hv, hw] at h
      exact absurd ((String.append_right_inj "%").mp h) (toString_ne_of_letter (hletter hw) v)
    | none =>
      rw [hv, hw] at h
      exact toString_injective ((String.append_right_inj "%").mp h)

theorem WellFormed.unambiguous (hc : c.WellFormed known) (hlabels : c.Labelled)
    (houtputs : ∀ v ∈ c.outputs, v < c.values.size) : c.Unambiguous where
  distinct _ _ := hlabels.eq_of_valueText_eq (List.nodup_append.mp hc.names).1
  input v port hport := by
    have htext : c.valueText v = "%" ++ port.name := by
      unfold valueText
      rw [hlabels.input v port hport]
    have hdirection : port.direction = .input :=
      of_decide_eq_true (List.mem_filter.mp (List.mem_of_getElem? hport)).2
    refine ⟨(hc.typed.input v port hport).1, htext, ?_⟩
    rw [portText, hdirection, htext]
    rfl
  text := rfl
  lines := c.lines_eq
  operation o ho := by
    obtain ⟨i, hi⟩ := List.mem_iff_getElem?.mp (hc.printed_perm.mem_iff.mp ho)
    rw [← Arena.get?_eq_values] at hi
    exact (hc.typed.typed i o hi).headText
  output := by
    obtain ⟨types, htypes⟩ := exists_types houtputs
    exact ⟨types, htypes, outputLine_eq htypes⟩
  given v hv := by
    have hlt : v < c.values.size := by
      rcases hv with ⟨o, ho, hmem⟩ | hv
      · obtain ⟨i, hi⟩ := List.mem_iff_getElem?.mp (hc.printed_perm.mem_iff.mp ho)
        rw [← Arena.get?_eq_values] at hi
        exact hc.typed.lt_of_operand hi hmem
      · exact houtputs v hv
    exact ⟨hlt, hc.count_results hlt⟩

end Circuit
end ChannelCodec
