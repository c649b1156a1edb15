import ChannelCodec.Proofs.Circuit.Meaning
import ChannelCodec.Proofs.Success

/-! Running a circuit gives what it means. Values are computed on demand and kept, in whatever
order they are asked for; that never changes a value, and an assertion is recorded exactly when
it is one of the alarms. -/
namespace ChannelCodec
namespace Simulation

/-- The state after part of a run: what is known is right, the inputs are known, and the
violations are the given ones. -/
structure Knows (c : Circuit) (e : Setting) (violations : Array Violation) (s : State) : Prop where
  size : s.known.size = c.values.size
  right : ∀ v b, s.known[v]? = some (some b) → b = c.meaning e v
  inputs : ∀ v, v < c.inputPorts.length → s.known[v]? = some (some (c.meaning e v))
  violations : s.violations = violations

variable {c : Circuit} {e : Setting} {call : Call} {violations : Array Violation} {s : State}

def learnt (known : Array (Option Bits)) (pairs : List (Nat × Bits)) : Array (Option Bits) :=
  pairs.foldl (fun known p => known.setIfInBounds p.1 (some p.2)) known

theorem forIn_learn (pairs : List (Nat × Bits)) (s : State) :
    (forIn pairs PUnit.unit fun x _ =>
      match x with
      | (w, b) => do
        learn w b
        pure (ForInStep.yield PUnit.unit) : Step PUnit) s =
      .ok PUnit.unit { s with known := learnt s.known pairs } := by
  induction pairs generalizing s with
  | nil => rfl
  | cons p pairs ih =>
    obtain ⟨w, b⟩ := p
    rw [List.forIn_cons]
    exact ih { s with known := s.known.setIfInBounds w (some b) }

theorem getElem?_learnt_map (f : Nat → Bits) (vs : List Nat) (known : Array (Option Bits))
    (w : Nat) : (learnt known (vs.zip (vs.map f)))[w]? =
      if w ∈ vs ∧ w < known.size then some (some (f w)) else known[w]? := by
  induction vs generalizing known with
  | nil => simp [learnt]
  | cons v vs ih =>
    have h := ih (known.setIfInBounds v (some (f v)))
    rw [Array.size_setIfInBounds, Array.getElem?_setIfInBounds] at h
    simp only [List.map_cons, List.zip_cons_cons]
    change (learnt (known.setIfInBounds v (some (f v))) (vs.zip (vs.map f)))[w]? = _
    rw [h]
    by_cases hw : v = w
    · subst hw
      by_cases hs : v < known.size
      · simp [hs]
      · simp [hs]
    · simp [hw, Ne.symm hw]

private theorem Knows.learnt (h : Knows c e violations s) {v : Nat} (hv : v < c.values.size) :
    Knows c e violations { s with known := learnt s.known [(v, c.meaning e v)] } := by
  have hget : ∀ w : Nat, (Simulation.learnt s.known [(v, c.meaning e v)])[w]? =
      if w = v then some (some (c.meaning e w)) else s.known[w]? := by
    intro w
    have hlearnt := getElem?_learnt_map (c.meaning e) [v] s.known w
    rw [h.size] at hlearnt
    refine hlearnt.trans ?_
    by_cases hw : w = v
    · simp [hw, hv]
    · simp [hw]
  refine ⟨by simpa [Simulation.learnt] using h.size, fun w b hb => ?_, fun w hw => ?_,
    h.violations⟩
  · rw [hget] at hb
    split at hb
    · simpa using hb.symm
    · exact h.right w b hb
  · rw [hget]
    split
    · rfl
    · exact h.inputs w hw

theorem perform_compute {o : Operation} {gate : Gate} {b : Bits} {operands : List Bits}
    (hk : o.kind = .compute gate)
    (heval : gate.eval (c.resultWidth o) (c.operandTypes o) operands = .ok b) :
    perform c call o operands s = .ok [b] s := by
  unfold Circuit.resultWidth Circuit.operandTypes at heval
  unfold perform
  simp only [hk, heval]
  rfl

theorem perform_instantiate {o : Operation} {callee name : String} {operands results : List Bits}
    {violations : Array Violation} (hk : o.kind = .instantiate callee name)
    (hcall : call callee name operands s.violations = .ok (results, violations)) :
    perform c call o operands s = .ok results { s with violations } := by
  have hget : (get : Step State) s = .ok s s := rfl
  unfold perform
  simp only [hk, Bind.bind, EStateM.bind, hget, hcall]
  rfl

theorem definingOperation?_eq {v i n : Nat} {x : Value} {o : Operation}
    (hx : c.values.get? v = some x) (ho : x.origin = .result i n)
    (hi : c.operations.get? i = some o) : c.definingOperation? v = some o := by
  simp [Circuit.definingOperation?, hx, ho, hi]

theorem known?_eq (v : Nat) (s : State) : known? v s = .ok (s.known[v]?).join s := rfl

/-- Asking for a value gives its meaning, and records nothing. -/
theorem value_succeeds (hc : c.Straight e) {v : Nat} (hv : v < c.values.size)
    (hs : Knows c e violations s) :
    Succeeds (value c call v) s fun b s' => b = c.meaning e v ∧ Knows c e violations s' := by
  induction v using Nat.strongRecOn generalizing s with
  | ind v ih =>
    obtain ⟨x, hx⟩ := Circuit.get?_values_of_lt hv
    rw [value]
    refine Succeeds.step (known?_eq v s) ?_
    cases hknown : (s.known[v]?).join with
    | some b => exact .pure ⟨hs.right v b (Option.join_eq_some_iff.mp hknown), hs⟩
    | none =>
      rcases hc.origin v x hx with ⟨_, hin⟩ | ⟨i, n, o, ho, hi, hcomp⟩
      · rw [hs.inputs v hin] at hknown
        exact absurd hknown (by simp)
      · obtain ⟨gate, b, hk, heval⟩ := hcomp.eval
        have hmeaning := Circuit.meaning_of_eval hx ho hi hk hcomp.earlier heval
        simp only [definingOperation?_eq hx ho hi]
        refine (Succeeds.mapM (g := c.meaning e) ?_ hs).bind ?_
        · intro w hw s₁ h₁
          have hlt := hcomp.earlier w hw
          rw [dif_pos hlt]
          exact ih w hlt (by omega) h₁
        · rintro _ s₁ ⟨rfl, h₁⟩
          refine Succeeds.step (perform_compute hk heval) ?_
          rw [← hmeaning, hcomp.results, List.zip_cons_cons, List.zip_nil_right]
          refine Succeeds.step (forIn_learn _ _) ?_
          refine Succeeds.step (known?_eq v _) ?_
          have hsize : v < s₁.known.size := h₁.size ▸ hv
          have hlearnt : ((learnt s₁.known [(v, c.meaning e v)])[v]?).join =
              some (c.meaning e v) := by
            simp [learnt, hsize]
          simp only [hlearnt]
          exact .pure ⟨rfl, h₁.learnt hv⟩

def violationsAt (path : List String) (messages : List String) : Array Violation :=
  (messages.map fun message => { path, message : Violation }).toArray

private theorem condition_succeeds (hc : c.Straight e) {o : Operation} {v : Nat}
    (ho : o.operands = [v]) (hv : v < c.values.size) (hs : Knows c e violations s) :
    Succeeds (condition c call o) s fun b s' =>
      b = (c.meaning e v).bit 0 ∧ Knows c e violations s' := by
  unfold condition
  rw [ho]
  refine (value_succeeds hc hv hs).bind ?_
  rintro _ s₁ ⟨rfl, h₁⟩
  exact .pure ⟨rfl, h₁⟩

@[simp] theorem violationsAt_nil (path : List String) : violationsAt path [] = #[] := rfl

@[simp] theorem violationsAt_append (path : List String) (xs ys : List String) :
    violationsAt path (xs ++ ys) = violationsAt path xs ++ violationsAt path ys := by
  simp [violationsAt]

theorem forM_records (path : List String) {f : Nat → Step Unit} {g : Nat → List String}
    {items : List Nat}
    (hf : ∀ j ∈ items, ∀ violations s, Knows c e violations s →
      Succeeds (f j) s fun _ s' => Knows c e (violations ++ violationsAt path (g j)) s')
    (hs : Knows c e violations s) :
    Succeeds (items.forM f) s fun _ s' =>
      Knows c e (violations ++ violationsAt path (items.flatMap g)) s' := by
  induction items generalizing s violations with
  | nil =>
    refine .pure ?_
    rwa [List.flatMap_nil, violationsAt_nil, Array.append_empty]
  | cons j items ih =>
    change Succeeds (f j >>= fun _ => items.forM f) s _
    refine (hf j List.mem_cons_self violations s hs).bind fun _ s₁ h₁ => ?_
    refine (ih (fun x hx => hf x (List.mem_cons_of_mem j hx)) h₁).mono fun _ s₂ h₂ => ?_
    rwa [List.flatMap_cons, violationsAt_append, ← Array.append_assoc]

theorem region_succeeds {path : List String} {f : Nat → Step Unit} {g : Nat → List String}
    {items : List Nat} {known holds : Bool} (hknown : known = holds)
    (hf : ∀ j ∈ items, ∀ violations s, Knows c e violations s →
      Succeeds (f j) s fun _ s' => Knows c e (violations ++ violationsAt path (g j)) s')
    (hs : Knows c e violations s) :
    Succeeds (if known then items.forM f else pure ()) s fun _ s' =>
      Knows c e (violations ++ violationsAt path (if holds then items.flatMap g else [])) s' := by
  rw [hknown]
  split
  · exact forM_records path hf hs
  · refine .pure ?_
    rwa [violationsAt_nil, Array.append_empty]

private theorem assertion_succeeds {path : List String} {known holds : Bool}
    (hknown : known = holds) (message : String) (hs : Knows c e violations s) :
    Succeeds (if !known then record { path, message } else pure ()) s fun _ s' =>
      Knows c e (violations ++ violationsAt path (if holds then [] else [message])) s' := by
  rw [hknown]
  cases holds with
  | true =>
    refine .pure ?_
    rwa [if_pos rfl, violationsAt_nil, Array.append_empty]
  | false =>
    refine .of_eq rfl ⟨hs.size, hs.right, hs.inputs, ?_⟩
    simp [violationsAt, hs.violations]

theorem execute_succeeds (hc : c.Straight e) (path : List String) {i : Nat}
    (hi : i < c.operations.size) (hs : Knows c e violations s) :
    Succeeds (execute c call path i) s fun _ s' =>
      Knows c e (violations ++ violationsAt path (c.alarms e i)) s' := by
  induction hn : c.operations.size - i using Nat.strongRecOn generalizing i s violations with
  | ind n ih =>
    -- A region stands behind its owner, so ever fewer operations are left behind `i`.
    have hinside : ∀ j ∈ c.operationsIn (.region i), ∀ violations s, Knows c e violations s →
        Succeeds (if _h : i < j ∧ j < c.operations.size then execute c call path j
          else report s!"Operation {i} contains operation {j}") s fun _ s' =>
            Knows c e (violations ++ violationsAt path
              (if _h : i < j ∧ j < c.operations.size then c.alarms e j else [])) s' := by
      intro j hj violations s h
      have hlt := hc.lt_of_mem_region hj
      rw [dif_pos hlt, dif_pos hlt]
      exact ih (c.operations.size - j) (by omega) hlt.2 h rfl
    obtain ⟨o, ho⟩ := Circuit.get?_operations_of_lt hi
    rw [execute, Circuit.alarms]
    simp only [ho]
    rcases hc.operation i o ho with ⟨v, hv, hcomp⟩ | hobs
    · obtain ⟨gate, b, hk, _⟩ := hcomp.eval
      simp only [hk, hcomp.results, violationsAt_nil, Array.append_empty]
      exact (value_succeeds hc hv hs).bind fun _ s₁ h₁ => .pure h₁.2
    · obtain ⟨v, hops, hv⟩ := hobs.operand
      have hcondition : Succeeds (condition c call o) s _ := condition_succeeds hc hops hv hs
      rcases hobs.kind with hk | hk | ⟨message, hk⟩
      · simp only [hk, hops]
        exact hcondition.bind fun b s₁ h₁ => region_succeeds h₁.1 hinside h₁.2
      · simp only [hk, hops]
        exact hcondition.bind fun b s₁ h₁ => region_succeeds h₁.1 hinside h₁.2
      · simp only [hk, hops]
        exact hcondition.bind fun b s₁ h₁ => assertion_succeeds h₁.1 message h₁.2

private theorem size_learnt (pairs : List (Nat × Bits)) (known : Array (Option Bits)) :
    (learnt known pairs).size = known.size := by
  induction pairs generalizing known with
  | nil => rfl
  | cons p pairs ih =>
    exact (ih (known.setIfInBounds p.1 (some p.2))).trans Array.size_setIfInBounds

private theorem knows_start (hc : c.Straight e) :
    Knows c e violations {
      known := learnt (Array.replicate c.values.size none)
        ((List.range c.inputPorts.length).zip e.inputs)
      violations } := by
  have hmeaning : ∀ v, v < c.inputPorts.length →
      v < c.values.size ∧ e.inputs[v]? = some (c.meaning e v) := by
    intro v hv
    obtain ⟨x, hx, ho⟩ := hc.input v hv
    have hin : v < e.inputs.length := by rw [hc.inputs]; exact hv
    refine ⟨Circuit.lt_of_get?_values hx, ?_⟩
    rw [Circuit.meaning_input hx ho, List.getD_eq_getElem?_getD, List.getElem?_eq_getElem hin,
      Option.getD_some]
  have hinputs : e.inputs = (List.range c.inputPorts.length).map (c.meaning e) := by
    refine List.ext_getElem (by simp [hc.inputs]) fun v hv hv' => ?_
    have hget := (hmeaning v (hc.inputs ▸ hv)).2
    rw [List.getElem?_eq_getElem hv] at hget
    simpa using hget
  have hget : ∀ v : Nat, (learnt (Array.replicate c.values.size none)
      ((List.range c.inputPorts.length).zip e.inputs))[v]? =
        if v < c.inputPorts.length ∧ v < c.values.size then some (some (c.meaning e v))
        else (Array.replicate c.values.size none)[v]? := by
    intro v
    rw [hinputs, getElem?_learnt_map]
    simp only [List.mem_range, Array.size_replicate]
  refine ⟨?_, fun v b hb => ?_, fun v hv => ?_, rfl⟩
  · rw [size_learnt, Array.size_replicate]
  · rw [hget] at hb
    split at hb
    · simpa using hb.symm
    · rw [Array.getElem?_replicate] at hb
      split at hb <;> simp at hb
  · rw [hget, if_pos ⟨hv, (hmeaning v hv).1⟩]

/-- Running an instance gives the meanings of the outputs and records the alarms of the body. -/
theorem instanceOutputs_succeeds (hc : c.Straight e) (ho : ∀ v ∈ c.outputs, v < c.values.size)
    (path : List String) :
    Succeeds (instanceOutputs c call path e.inputs)
      { known := Array.replicate c.values.size none, violations } fun bs s' =>
        bs = c.outputs.map (c.meaning e) ∧
          s'.violations = violations ++ violationsAt path (c.body.flatMap (c.alarms e)) := by
  rw [instanceOutputs]
  refine Succeeds.step (forIn_learn _ _) ?_
  have hbody : ∀ i ∈ c.body, i < c.operations.size := by
    intro i hi
    obtain ⟨o, ho, _⟩ := Circuit.mem_operationsIn.mp hi
    exact Circuit.lt_of_get?_operations ho
  refine (forM_records path (g := c.alarms e)
    (fun i hi violations s hs => execute_succeeds hc path (hbody i hi) hs)
    (knows_start hc)).bind fun _ s₁ h₁ => ?_
  refine (Succeeds.mapM (g := c.meaning e)
    (fun v hv s hs => value_succeeds hc (ho v hv) hs) h₁).mono ?_
  rintro bs s₂ ⟨hbs, h₂⟩
  exact ⟨hbs, h₂.violations⟩

theorem find?_extra_eq_none {given : List (String × Bits)} {ports : List Port} :
    given.find? (fun p => !ports.any (·.name = p.1)) = none ↔
      ∀ p ∈ given, ∃ port ∈ ports, port.name = p.1 := by
  rw [List.find?_eq_none]
  simp only [Bool.not_eq_true', Bool.not_eq_false, List.any_eq_true, decide_eq_true_eq]

end Simulation

open Simulation in
/-- A run of a circuit without instances gives the meanings of its outputs, and the violations
are its alarms, in order. -/
theorem Circuit.Straight.run {c : Circuit} {e : Setting} (hc : c.Straight e)
    (ho : ∀ v ∈ c.outputs, v < c.values.size) {d : Design} (hd : d.find? c.name = some c)
    {given : List (String × Bits)} (hin : inputValues given c.inputPorts = .ok e.inputs)
    (hnames : ∀ p ∈ given, ∃ port ∈ c.inputPorts, port.name = p.1) :
    d.run c.name given = .ok {
      outputs := (c.outputPorts.map (·.name)).zip (c.outputs.map (c.meaning e))
      violations := (c.body.flatMap (c.alarms e)).map fun message => ⟨[c.name], message⟩ } := by
  have hlen : ∃ depth, d.circuits.length = depth + 1 := by
    cases hcs : d.circuits with
    | nil => simp [Design.find?, hcs] at hd
    | cons _ _ => exact ⟨_, rfl⟩
  obtain ⟨depth, hdepth⟩ := hlen
  have hextra := find?_extra_eq_none.mpr hnames
  have houtputs : Simulation.outputs d (depth + 1) c [c.name] e.inputs #[] =
      .ok (c.outputs.map (c.meaning e),
        violationsAt [c.name] (c.body.flatMap (c.alarms e))) := by
    rw [Simulation.outputs]
    split
    next results s h =>
      have hpost := (instanceOutputs_succeeds hc ho [c.name]).of_ok h
      simp [hpost.1, hpost.2]
    next failure s h => exact ((instanceOutputs_succeeds hc ho [c.name]).ne_error h).elim
  have hinputs : (Simulation.inputValues given c.inputPorts).mapError Failure.report =
      .ok e.inputs := by
    rw [hin]
    rfl
  unfold Design.run
  simp only [hd]
  refine (bind_of_ok hinputs _).trans ?_
  simp only [hextra, hdepth]
  refine (bind_of_ok houtputs _).trans ?_
  simp [violationsAt, pure, Except.pure]

end ChannelCodec
