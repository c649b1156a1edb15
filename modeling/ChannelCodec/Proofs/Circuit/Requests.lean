import ChannelCodec.Proofs.Circuit.Demand
import ChannelCodec.Proofs.Circuit.Running

/-! Running a circuit with instances. Values are asked for by operations, outputs and each other, in
an order that depends on all of them; but at any time what is known is what the operations behind it
mean, and every operation has run at most once. -/
namespace ChannelCodec.Simulation

/-- What operation `i` records in the instance at `path`, where `inside` says what instances
record. -/
def records (c : Circuit) (e : Setting) (path : List String) (inside : Instance → List Violation)
    (i : Nat) : List Violation :=
  (c.messages e i).map (fun message => ⟨path, message⟩) ++ (c.instanceAt? e i).toList.flatMap inside

/-- Calls give what the setting says, and record what `inside` says in some order. -/
def Serves (c : Circuit) (e : Setting) (call : Call) (inside : Instance → List Violation) : Prop :=
  ∀ i inst, c.instanceAt? e i = some inst → ∀ violations : Array Violation,
    ∃ violations' : Array Violation,
      call inst.callee inst.name inst.inputs violations =
        .ok (e.callee inst.callee inst.inputs, violations') ∧
      violations'.toList.Perm (violations.toList ++ inside inst)

/-- The state after the operations in `log`: each has run once, what is known is what they mean, and
the violations are theirs. -/
structure Progress (c : Circuit) (e : Setting) (records : Nat → List Violation)
    (before : List Violation) (log : List Nat) (s : State) : Prop where
  known : s.known = c.table e log
  nodup : log.Nodup
  runs : ∀ i ∈ log, i ∈ c.running e
  closed : ∀ i ∈ log, ∀ o, c.operations.get? i = some o → ∀ w ∈ o.operands,
    c.settled log w = true
  violations : s.violations.toList.Perm (before ++ log.flatMap records)

/-- After the operations in `log`, `m` succeeds and runs further operations, all of a `kind`;
`post` holds of what it returns and of all operations so far. -/
def Advances {α : Type} (c : Circuit) (e : Setting) (records : Nat → List Violation)
    (before : List Violation) (kind : Nat → Prop) (log : List Nat) (m : Step α)
    (post : α → List Nat → Prop) : Prop :=
  ∀ s, Progress c e records before log s → Succeeds m s fun a s' => ∃ more,
    (∀ i ∈ more, kind i) ∧ Progress c e records before (log ++ more) s' ∧ post a (log ++ more)

abbrev Executes (c : Circuit) (e : Setting) (records : Nat → List Violation)
    (before : List Violation) (i : Nat) (log : List Nat) (m : Step Unit) : Prop :=
  Advances c e records before (fun k => c.Within i k ∨ c.HasResult k) log m fun _ log' =>
    c.Covers e log' i

variable {c : Circuit} {e : Setting} {before : List Violation} {log : List Nat} {s : State}

namespace Advances
variable {α β : Type} {recs : Nat → List Violation} {kind : Nat → Prop} {m : Step α}
variable {post : α → List Nat → Prop}

theorem pure {a : α} (h : post a log) : Advances c e recs before kind log (Pure.pure a) post := by
  intro s hs
  refine .pure ⟨[], List.forall_mem_nil _, ?_, ?_⟩
  · rwa [List.append_nil]
  · rwa [List.append_nil]

theorem mono {kind' : Nat → Prop} {post' : α → List Nat → Prop}
    (h : Advances c e recs before kind log m post) (hkind : ∀ i, kind i → kind' i)
    (hpost : ∀ a more, (∀ i ∈ more, kind i) → post a (log ++ more) → post' a (log ++ more)) :
    Advances c e recs before kind' log m post' := by
  intro s hs
  refine (h s hs).mono ?_
  rintro a s' ⟨more, hmore, hs', hp⟩
  exact ⟨more, fun i hi => hkind i (hmore i hi), hs', hpost a more hmore hp⟩

theorem widen {kind' : Nat → Prop} (h : Advances c e recs before kind log m post)
    (hkind : ∀ i, kind i → kind' i) : Advances c e recs before kind' log m post :=
  h.mono hkind fun _ _ _ hp => hp

theorem bind {f : α → Step β} {post' : β → List Nat → Prop}
    (h : Advances c e recs before kind log m post)
    (hf : ∀ a more, (∀ i ∈ more, kind i) → post a (log ++ more) →
      Advances c e recs before kind (log ++ more) (f a) post') :
    Advances c e recs before kind log (m >>= f) post' := by
  intro s hs
  refine (h s hs).bind ?_
  rintro a s₁ ⟨more, hmore, h₁, hp⟩
  refine (hf a more hmore hp s₁ h₁).mono ?_
  rintro b s₂ ⟨more', hmore', h₂, hp'⟩
  rw [List.append_assoc] at h₂ hp'
  exact ⟨more ++ more', List.forall_mem_append.mpr ⟨hmore, hmore'⟩, h₂, hp'⟩

theorem mapM {f : Nat → Step Bits} {vs : List Nat}
    (hf : ∀ v ∈ vs, ∀ log, Advances c e recs before kind log (f v) fun b log' =>
      b = c.meaning e v ∧ c.settled log' v = true) :
    Advances c e recs before kind log (vs.mapM f) fun bs log' =>
      bs = vs.map (c.meaning e) ∧ ∀ v ∈ vs, c.settled log' v = true := by
  induction vs generalizing log with
  | nil => exact .pure ⟨rfl, List.forall_mem_nil _⟩
  | cons v vs ih =>
    rw [List.forall_mem_cons] at hf
    rw [List.mapM_cons]
    refine (hf.1 log).bind ?_
    rintro _ more - ⟨rfl, hv⟩
    refine (ih hf.2).bind ?_
    rintro _ more' - ⟨rfl, hvs⟩
    refine .pure ⟨rfl, List.forall_mem_cons.mpr ⟨?_, hvs⟩⟩
    exact Circuit.settled_mono hv

end Advances

section Running
variable {known : String → List Port → Prop} {call : Call} {path : List String}
variable {inside : Instance → List Violation}

private theorem learnt_results (hc : c.WellTyped known) {i : Nat} {o : Operation}
    (ho : c.operations.get? i = some o) :
    learnt (c.table e log) (o.results.zip (o.results.map (c.meaning e))) =
      c.table e (log ++ [i]) := by
  apply Array.ext_getElem?
  intro v
  rw [getElem?_learnt_map, Circuit.size_table]
  by_cases hv : v < c.values.size
  · rw [Circuit.getElem?_table hv, Circuit.getElem?_table hv]
    simp only [hv, and_true, hc.settled_append ho log hv]
    by_cases hmem : v ∈ o.results
    · simp [hmem]
    · simp [hmem]
  · rw [if_neg fun h => hv h.2]
    rw [Array.getElem?_eq_none, Array.getElem?_eq_none]
    · rw [Circuit.size_table]
      omega
    · rw [Circuit.size_table]
      omega

theorem Progress.push {recs : Nat → List Violation} (hc : c.WellTyped known)
    (h : Progress c e recs before log s) {i : Nat} {o : Operation}
    (ho : c.operations.get? i = some o) (hi : i ∉ log) (hruns : c.Runs e i)
    (hsettled : ∀ w ∈ o.operands, c.settled log w = true) {violations : Array Violation}
    (hviolations : violations.toList.Perm (s.violations.toList ++ recs i)) :
    Progress c e recs before (log ++ [i])
      ⟨learnt s.known (o.results.zip (o.results.map (c.meaning e))), violations⟩ where
  known := by rw [h.known, learnt_results hc ho]
  nodup := by
    rw [List.nodup_append]
    refine ⟨h.nodup, List.pairwise_singleton _ i, ?_⟩
    rintro j hj k hk rfl
    exact hi (List.mem_singleton.mp hk ▸ hj)
  runs := by
    refine List.forall_mem_append.mpr ⟨h.runs, List.forall_mem_singleton.mpr ?_⟩
    exact Circuit.mem_running.mpr ⟨Circuit.lt_of_get?_operations ho, hruns⟩
  closed := by
    refine List.forall_mem_append.mpr ⟨fun j hj p hp w hw => ?_, ?_⟩
    · exact Circuit.settled_mono (h.closed j hj p hp w hw)
    · rw [List.forall_mem_singleton]
      intro p hp w hw
      obtain rfl := Option.some.inj (ho.symm.trans hp)
      exact Circuit.settled_mono (hsettled w hw)
  violations := by
    rw [List.flatMap_append, List.flatMap_singleton, ← List.append_assoc]
    exact hviolations.trans (h.violations.append_right _)

theorem perform_eq (path : List String) (hc : c.WellTyped known) (he : e.Sized known c)
    (hcall : Serves c e call inside) {i : Nat} {o : Operation}
    (ho : c.operations.get? i = some o)
    (hkind : (∃ gate, o.kind = .compute gate) ∨ ∃ callee name, o.kind = .instantiate callee name)
    (s : State) : ∃ violations : Array Violation,
      perform c call o (o.operands.map (c.meaning e)) s =
        .ok (o.results.map (c.meaning e)) { s with violations } ∧
      violations.toList.Perm (s.violations.toList ++ records c e path inside i) := by
  cases hc.performs he ho with
  | @compute gate v hk hresults heval =>
    have hrecords : records c e path inside i = [] := by
      unfold records Circuit.messages Circuit.failure Circuit.instanceAt?
      simp [ho, hk]
    refine ⟨s.violations, ?_, ?_⟩
    · rw [perform_compute hk heval, hresults]
      rfl
    · rw [hrecords, List.append_nil]
  | @instantiate callee name hk houtputs =>
    have hinst : c.instanceAt? e i = some ⟨callee, name, o.operands.map (c.meaning e)⟩ := by
      unfold Circuit.instanceAt?
      simp only [ho, hk]
    have hrecords : records c e path inside i =
        inside ⟨callee, name, o.operands.map (c.meaning e)⟩ := by
      unfold records Circuit.messages Circuit.failure
      simp [ho, hk, hinst]
    obtain ⟨violations, hrun, hperm⟩ := hcall i _ hinst s.violations
    refine ⟨violations, ?_, hrecords ▸ hperm⟩
    rw [← houtputs]
    exact perform_instantiate hk hrun
  | observe hk =>
    obtain ⟨gate, hgate⟩ | ⟨callee, name, hinstance⟩ := hkind
    · simp [hgate] at hk
    · simp [hinstance] at hk

private theorem Progress.known?_eq {recs : Nat → List Violation}
    (h : Progress c e recs before log s) {v : Nat} (hv : v < c.values.size) :
    known? v s = .ok (if c.settled log v then some (c.meaning e v) else none) s := by
  rw [Simulation.known?_eq, h.known, Circuit.getElem?_table hv]
  rfl

def Leads (c : Circuit) (v i : Nat) : Prop :=
  ∃ o, c.operations.get? i = some o ∧ ∃ w ∈ o.results, w ≤ v

theorem Leads.hasResult {v i : Nat} (h : Leads c v i) : c.HasResult i := by
  obtain ⟨o, ho, w, hw, -⟩ := h
  exact ⟨o, ho, List.ne_nil_of_mem hw⟩

/-- Operands lead to an operation that is none of those that lead to them. -/
theorem Leads.of_operand (hc : c.WellTyped known) {i j w v : Nat} {o : Operation}
    (ho : c.operations.get? i = some o) (hw : w ∈ o.operands) (hv : v ∈ o.results)
    (h : Leads c w j) : Leads c v j ∧ j ≠ i := by
  obtain ⟨p, hp, u, hu, hle⟩ := h
  have hlt := hc.earlier i o ho w hw v hv
  refine ⟨⟨p, hp, u, hu, by omega⟩, ?_⟩
  rintro rfl
  obtain rfl := Option.some.inj (ho.symm.trans hp)
  have hlt' := hc.earlier j o ho w hw u hu
  omega

theorem asked_of_runs {i : Nat} {o : Operation} (hruns : c.Runs e i)
    (ho : c.operations.get? i = some o) {w : Nat} (hw : w ∈ o.operands) (j n : Nat)
    (h : c.origin? w = some (.result j n)) : c.Runs e j :=
  hruns.operand ho hw h

/-- Asking for a value gives its meaning. Only operations that lead to it run. -/
theorem value_advances (hc : c.WellTyped known) (he : e.Sized known c)
    (hcall : Serves c e call inside) {v : Nat} (hv : v < c.values.size)
    (hasked : ∀ i n, c.origin? v = some (.result i n) → c.Runs e i) :
    Advances c e (records c e path inside) before (Leads c v) log (value c call v) fun b log' =>
      b = c.meaning e v ∧ c.settled log' v = true := by
  induction v using Nat.strongRecOn generalizing log with
  | ind v ih =>
    intro s hs
    rw [value]
    refine Succeeds.step (hs.known?_eq hv) ?_
    cases hsettled : c.settled log v with
    | true =>
      refine .pure ⟨[], List.forall_mem_nil _, ?_, rfl, ?_⟩
      · rwa [List.append_nil]
      · rwa [List.append_nil]
    | false =>
      obtain ⟨i, n, o, horigin, ho, hn, hi⟩ := hc.origin_of_open hv hsettled
      obtain ⟨x, hx, hresult⟩ := Circuit.get?_of_origin? horigin
      have hmem := List.mem_of_getElem? hn
      have hruns := hasked i n horigin
      simp only [Bool.false_eq_true, if_false, definingOperation?_eq hx hresult ho]
      -- What the operands run leads to them, so operation `i` has still not run behind them.
      have hoperands : Advances c e (records c e path inside) before
          (fun j => Leads c v j ∧ j ≠ i) log
          (o.operands.mapM fun w => if _h : w < v then value c call w
            else report s!"Value {v} depends on value {w}") fun bs log' =>
          bs = o.operands.map (c.meaning e) ∧ ∀ w ∈ o.operands, c.settled log' w = true := by
        refine .mapM fun w hw log => ?_
        have hlt := hc.earlier i o ho w hw v hmem
        rw [dif_pos hlt]
        exact (ih w hlt (by omega) (asked_of_runs hruns ho hw)).widen fun j hj =>
          hj.of_operand hc ho hw hmem
      refine (hoperands s hs).bind ?_
      rintro _ s₁ ⟨more, hmore, h₁, rfl, hsettled₁⟩
      have hi₁ : i ∉ log ++ more := by
        rw [List.mem_append, not_or]
        exact ⟨hi, fun h => (hmore i h).2 rfl⟩
      have hkind : (∃ gate, o.kind = .compute gate) ∨
          ∃ callee name, o.kind = .instantiate callee name := by
        cases hc.performs he ho with
        | compute hk => exact .inl ⟨_, hk⟩
        | instantiate hk => exact .inr ⟨_, _, hk⟩
        | observe _ _ hnil =>
          rw [hnil] at hmem
          cases hmem
      obtain ⟨violations, hperform, hviolations⟩ := perform_eq path hc he hcall ho hkind s₁
      have h₂ := h₁.push hc ho hi₁ hruns hsettled₁ hviolations
      have hv₂ : c.settled (log ++ more ++ [i]) v = true :=
        (hc.settled_append ho _ hv).mpr (.inr hmem)
      refine Succeeds.step hperform ?_
      refine Succeeds.step (forIn_learn _ _) ?_
      refine Succeeds.step (h₂.known?_eq hv) ?_
      rw [List.append_assoc] at h₂ hv₂
      simp only [List.append_assoc, hv₂, if_true]
      refine .pure ⟨more ++ [i], ?_, h₂, rfl, hv₂⟩
      refine List.forall_mem_append.mpr ⟨fun j hj => (hmore j hj).1, ?_⟩
      exact List.forall_mem_singleton.mpr ⟨o, ho, v, hmem, Nat.le_refl v⟩

theorem Advances.forM {recs : Nat → List Violation} {f : Nat → Step Unit} {items : List Nat}
    (hf : ∀ j ∈ items, ∀ log, c.Fresh log j → Executes c e recs before j log (f j))
    (hapart : items.Pairwise fun i j => ∀ k, c.Within i k → ¬ c.Within j k)
    (hfresh : ∀ j ∈ items, c.Fresh log j) :
    Advances c e recs before (fun k => (∃ j ∈ items, c.Within j k) ∨ c.HasResult k) log
      (items.forM f) fun _ log' => ∀ j ∈ items, c.Covers e log' j := by
  induction items generalizing log with
  | nil => exact .pure (List.forall_mem_nil _)
  | cons j items ih =>
    rw [List.forall_mem_cons] at hf hfresh
    rw [List.pairwise_cons] at hapart
    -- What runs without a result lies within `j`, so the other operations stay fresh.
    have hfirst : Advances c e recs before
        (fun k => (∃ j' ∈ j :: items, c.Within j' k) ∨ c.HasResult k) log (f j) fun _ log' =>
          c.Covers e log' j ∧ ∀ j' ∈ items, c.Fresh log' j' := by
      refine (hf.1 log hfresh.1).mono ?_ ?_
      · exact fun k => Or.imp_left fun hk => ⟨j, List.mem_cons_self, hk⟩
      · intro _ more hmore hcovers
        refine ⟨hcovers, fun j' hj' k hk hw => ?_⟩
        rcases List.mem_append.mp hk with hk | hk
        · exact hfresh.2 j' hj' k hk hw
        · exact (hmore k hk).resolve_left fun h => hapart.1 j' hj' k h hw
    refine hfirst.bind (f := fun _ => items.forM f) ?_
    rintro _ more - ⟨hcovers, hfresh'⟩
    refine (ih hf.2 hapart.2 hfresh').mono ?_ ?_
    · rintro k (⟨j', hj', hk⟩ | hk)
      · exact .inl ⟨j', List.mem_cons_of_mem j hj', hk⟩
      · exact .inr hk
    · intro _ more' _ hall
      refine List.forall_mem_cons.mpr ⟨fun k hk hw => ?_, hall⟩
      exact List.mem_append_left _ (hcovers k hk hw)

theorem Advances.act {recs : Nat → List Violation} {kind : Nat → Prop} {m : Step Unit}
    (hc : c.WellTyped known) {i : Nat} {o : Operation} (ho : c.operations.get? i = some o)
    (hresults : o.results = []) (hi : i ∉ log) (hruns : c.Runs e i)
    (hsettled : ∀ w ∈ o.operands, c.settled log w = true) (hkind : kind i)
    (hm : ∀ s, ∃ violations : Array Violation, m s = .ok () { s with violations } ∧
      violations.toList.Perm (s.violations.toList ++ recs i)) :
    Advances c e recs before kind log m fun _ log' => log' = log ++ [i] := by
  intro s hs
  obtain ⟨violations, hrun, hperm⟩ := hm s
  have h := hs.push hc ho hi hruns hsettled hperm
  rw [hresults] at h
  exact .of_eq hrun ⟨[i], List.forall_mem_singleton.mpr hkind, h, rfl⟩

theorem Executes.act {recs : Nat → List Violation} {m : Step Unit} (hc : c.WellTyped known)
    {i : Nat} {o : Operation} (ho : c.operations.get? i = some o) (hresults : o.results = [])
    (hregion : o.kind.hasRegion = false) (hactive : c.active e i = true)
    (hsettled : ∀ w ∈ o.operands, c.settled log w = true) (hfresh : c.Fresh log i)
    (hm : ∀ s, ∃ violations : Array Violation, m s = .ok () { s with violations } ∧
      violations.toList.Perm (s.violations.toList ++ recs i)) :
    Executes c e recs before i log m := by
  refine (Advances.act hc ho hresults (hfresh.not_mem ho hresults) (.active hactive) hsettled
    (.inl .self) hm).mono (fun _ hk => hk) ?_
  intro _ more _ hlog
  rw [hlog]
  exact Circuit.covers_of_closed (List.mem_append_right _ (List.mem_singleton_self i))
    (Circuit.opens_of_no_region ho hregion)

private theorem condition_advances (hc : c.WellTyped known) (he : e.Sized known c)
    (hcall : Serves c e call inside) {i v : Nat} {o : Operation}
    (ho : c.operations.get? i = some o) (hv : o.operands = [v]) (hruns : c.Runs e i)
    (hfresh : c.Fresh log i) :
    Advances c e (records c e path inside) before c.HasResult log (condition c call o)
      fun b log' => b = (c.meaning e v).bit 0 ∧ (∀ w ∈ o.operands, c.settled log' w = true) ∧
        c.Fresh log' i := by
  have hmem : v ∈ o.operands := by rw [hv]; exact List.mem_singleton_self v
  have hvalue : Advances c e (records c e path inside) before c.HasResult log (value c call v)
      fun b log' => b = c.meaning e v ∧ c.settled log' v = true :=
    (value_advances hc he hcall (hc.lt_of_operand ho hmem) (asked_of_runs hruns ho hmem)).widen
      fun _ => Leads.hasResult
  unfold condition
  rw [hv]
  refine hvalue.bind ?_
  rintro _ more hmore ⟨rfl, hsettled⟩
  exact .pure ⟨rfl, List.forall_mem_singleton.mpr hsettled, hfresh.append hmore⟩

theorem region_advances (hc : c.WellTyped known) {i v : Nat} {o : Operation}
    (ho : c.operations.get? i = some o) (hkind : o.kind = .always ∨ o.kind = .branch)
    (hv : o.operands = [v]) (hresults : o.results = []) (hactive : c.active e i = true)
    (hsettled : ∀ w ∈ o.operands, c.settled log w = true) (hfresh : c.Fresh log i)
    {f : Nat → Step Unit}
    (hf : ∀ j ∈ c.operationsIn (.region i), c.active e j = true → ∀ log, c.Fresh log j →
      Executes c e (records c e path inside) before j log (f j)) :
    Executes c e (records c e path inside) before i log
      (if (c.meaning e v).bit 0 then (c.operationsIn (.region i)).forM f else Pure.pure ()) := by
  have hopens : c.opens e i = (c.meaning e v).bit 0 := by
    rw [Circuit.opens_of_operand ho hv]
    obtain hk | hk := hkind <;> rw [hk] <;> exact Bool.true_and _
  have hrecords : records c e path inside i = [] := by
    unfold records Circuit.messages Circuit.failure Circuit.instanceAt?
    obtain hk | hk := hkind <;> simp [ho, hk]
  -- The log takes the owner before its region, although neither is seen in the state.
  have hmark : Advances c e (records c e path inside) before
      (fun k => c.Within i k ∨ c.HasResult k) log (Pure.pure ()) fun _ log' =>
        log' = log ++ [i] := by
    refine .act hc ho hresults (hfresh.not_mem ho hresults) (.active hactive) hsettled
      (.inl .self) fun s => ⟨s.violations, rfl, ?_⟩
    rw [hrecords, List.append_nil]
  refine hmark.bind (f := fun _ => if (c.meaning e v).bit 0 then
    (c.operationsIn (.region i)).forM f else Pure.pure ()) ?_
  rintro _ more - hlog
  rw [hlog]
  have hi : i ∈ log ++ [i] := List.mem_append_right _ (List.mem_singleton_self i)
  cases hbit : (c.meaning e v).bit 0 with
  | false => exact .pure (Circuit.covers_of_closed hi (hopens.trans hbit))
  | true =>
    have hinside : ∀ j ∈ c.operationsIn (.region i), c.Within i j ∧ c.active e j = true := by
      intro j hj
      obtain ⟨p, hp, hb⟩ := Circuit.mem_operationsIn.mp hj
      refine ⟨Circuit.Within.self.inside hp hb, (Circuit.active_region hp hb).mpr ?_⟩
      exact ⟨hc.region j p i hp hb, hopens.trans hbit, hactive⟩
    refine (Advances.forM (fun j hj => hf j hj (hinside j hj).2) (hc.apart_operationsIn _)
      fun j hj => hc.fresh_inside hfresh hj).mono ?_ fun _ more' _ hcovers => ?_
    · rintro k (⟨j, hj, hk⟩ | hk)
      · exact .inl ((hinside j hj).1.trans hk)
      · exact .inr hk
    · exact Circuit.covers_of_region (List.mem_append_left _ hi) hcovers

private theorem assertion_advances (hc : c.WellTyped known) {i v : Nat} {o : Operation}
    {message : String} (ho : c.operations.get? i = some o) (hkind : o.kind = .assertion message)
    (hv : o.operands = [v]) (hresults : o.results = []) (hactive : c.active e i = true)
    (hsettled : ∀ w ∈ o.operands, c.settled log w = true) (hfresh : c.Fresh log i) :
    Executes c e (records c e path inside) before i log
      (if !(c.meaning e v).bit 0 then record { path, message } else Pure.pure ()) := by
  have hrecords : records c e path inside i =
      if (c.meaning e v).bit 0 then [] else [{ path, message }] := by
    unfold records Circuit.messages Circuit.failure Circuit.instanceAt?
    simp only [ho, hkind, hv, Option.toList_none, List.flatMap_nil, List.append_nil]
    split <;> rfl
  have hregion : o.kind.hasRegion = false := by rw [hkind]; rfl
  refine .act hc ho hresults hregion hactive hsettled hfresh fun s => ?_
  rw [hrecords]
  cases (c.meaning e v).bit 0 with
  | true => exact ⟨s.violations, rfl, by rw [if_pos rfl, List.append_nil]⟩
  | false =>
    refine ⟨s.violations.push { path, message }, rfl, ?_⟩
    rw [Array.toList_push]
    exact .refl _

private theorem result_advances (hc : c.WellTyped known) (he : e.Sized known c)
    (hcall : Serves c e call inside) {i v : Nat} {vs : List Nat} {o : Operation}
    (ho : c.operations.get? i = some o) (hresults : o.results = v :: vs)
    (hregion : o.kind.hasRegion = false) (hactive : c.active e i = true) :
    Executes c e (records c e path inside) before i log (do let _ ← value c call v) := by
  have horigin := hc.result i o 0 v ho (by rw [hresults]; rfl)
  obtain ⟨x, hx, -⟩ := Circuit.get?_of_origin? horigin
  have hasked : ∀ j n, c.origin? v = some (.result j n) → c.Runs e j := by
    intro j n h
    rw [horigin] at h
    cases h
    exact .active hactive
  refine ((value_advances hc he hcall (Circuit.lt_of_get?_values hx) hasked).widen
    fun k hk => .inr hk.hasResult).bind ?_
  rintro b more - ⟨-, hsettled⟩
  exact .pure (Circuit.covers_of_closed (Circuit.settled_iff.mp hsettled i 0 horigin)
    (Circuit.opens_of_no_region ho hregion))

private theorem instance_advances (hc : c.WellTyped known) (he : e.Sized known c)
    (hcall : Serves c e call inside) {i : Nat} {o : Operation} {callee name : String}
    (ho : c.operations.get? i = some o) (hkind : o.kind = .instantiate callee name)
    (hresults : o.results = []) (hactive : c.active e i = true) (hfresh : c.Fresh log i) :
    Executes c e (records c e path inside) before i log
      (do let operands ← o.operands.mapM (value c call)
          let _ ← perform c call o operands) := by
  have hruns : c.Runs e i := .active hactive
  have hoperands : Advances c e (records c e path inside) before
      (fun k => c.Within i k ∨ c.HasResult k) log (o.operands.mapM (value c call))
      fun bs log' => (bs = o.operands.map (c.meaning e) ∧
        ∀ w ∈ o.operands, c.settled log' w = true) ∧ c.Fresh log' i := by
    have hvalues : Advances c e (records c e path inside) before c.HasResult log
        (o.operands.mapM (value c call)) fun bs log' =>
          bs = o.operands.map (c.meaning e) ∧ ∀ w ∈ o.operands, c.settled log' w = true := by
      refine .mapM fun w hw log => ?_
      exact (value_advances hc he hcall (hc.lt_of_operand ho hw)
        (asked_of_runs hruns ho hw)).widen fun _ => Leads.hasResult
    exact hvalues.mono (fun _ => .inr) fun _ more hmore h => ⟨h, hfresh.append hmore⟩
  refine hoperands.bind ?_
  rintro _ more - ⟨⟨rfl, hsettled⟩, hfresh'⟩
  have hregion : o.kind.hasRegion = false := by rw [hkind]; rfl
  refine Executes.act hc ho hresults hregion hactive hsettled hfresh' fun s => ?_
  obtain ⟨violations, hperform, hperm⟩ :=
    perform_eq path hc he hcall ho (.inr ⟨callee, name, hkind⟩) s
  refine ⟨violations, ?_, hperm⟩
  simp only [Bind.bind, EStateM.bind, hperform]
  rfl

/-- Running an operation runs what is active within it. -/
theorem execute_advances (hc : c.WellTyped known) (he : e.Sized known c)
    (hcall : Serves c e call inside) {i : Nat} {o : Operation}
    (ho : c.operations.get? i = some o) (hactive : c.active e i = true)
    (hfresh : c.Fresh log i) :
    Executes c e (records c e path inside) before i log (execute c call path i) := by
  induction hn : c.operations.size - i using Nat.strongRecOn generalizing i o log with
  | ind n ih =>
    -- A region stands behind its owner, so ever fewer operations are left behind `i`.
    have hchildren : ∀ j ∈ c.operationsIn (.region i), c.active e j = true → ∀ log,
        c.Fresh log j → Executes c e (records c e path inside) before j log
          (if _h : i < j ∧ j < c.operations.size then execute c call path j
            else report s!"Operation {i} contains operation {j}") := by
      intro j hj hactive' log hfresh'
      obtain ⟨p, hp, hb⟩ := Circuit.mem_operationsIn.mp hj
      have hlt := hc.region j p i hp hb
      have hsize := Circuit.lt_of_get?_operations hp
      rw [dif_pos ⟨hlt, hsize⟩]
      exact ih (c.operations.size - j) (by omega) hp hactive' hfresh' rfl
    rw [execute]
    simp only [ho]
    cases hc.performs he ho with
    | @compute gate v hk hresults =>
      simp only [hk, hresults]
      exact result_advances hc he hcall ho hresults (by rw [hk]; rfl) hactive
    | @instantiate callee name hk =>
      simp only [hk]
      cases hresults : o.results with
      | cons v vs => exact result_advances hc he hcall ho hresults (by rw [hk]; rfl) hactive
      | nil => exact instance_advances hc he hcall ho hk hresults hactive hfresh
    | @observe v hk hv hresults =>
      have hcondition : Advances c e (records c e path inside) before
          (fun k => c.Within i k ∨ c.HasResult k) log (condition c call o) fun b log' =>
            b = (c.meaning e v).bit 0 ∧ (∀ w ∈ o.operands, c.settled log' w = true) ∧
              c.Fresh log' i :=
        (condition_advances hc he hcall ho hv (.active hactive) hfresh).widen fun _ => .inr
      obtain hk | hk | ⟨message, hk⟩ := hk
      · simp only [hk]
        refine hcondition.bind ?_
        rintro _ more - ⟨rfl, hsettled, hfresh'⟩
        exact region_advances hc ho (.inl hk) hv hresults hactive hsettled hfresh' hchildren
      · simp only [hk]
        refine hcondition.bind ?_
        rintro _ more - ⟨rfl, hsettled, hfresh'⟩
        exact region_advances hc ho (.inr hk) hv hresults hactive hsettled hfresh' hchildren
      · simp only [hk]
        refine hcondition.bind ?_
        rintro _ more - ⟨rfl, hsettled, hfresh'⟩
        exact assertion_advances hc ho hk hv hresults hactive hsettled hfresh'

private theorem progress_start {recs : Nat → List Violation} (hc : c.WellTyped known)
    (he : e.Sized known c) (violations : Array Violation) :
    Progress c e recs violations.toList []
      ⟨learnt (Array.replicate c.values.size none)
        ((List.range c.inputPorts.length).zip e.inputs), violations⟩ where
  known := by
    apply Array.ext_getElem?
    intro v
    rw [← hc.map_meaning_inputs he, getElem?_learnt_map, Array.size_replicate,
      Array.getElem?_replicate]
    by_cases hv : v < c.values.size
    · rw [Circuit.getElem?_table hv]
      simp only [List.mem_range, hc.settled_nil hv, hv, and_true, if_true]
      by_cases hin : v < c.inputPorts.length
      · simp only [hin, if_true]
      · simp only [hin, if_false]
    · rw [if_neg fun h => hv h.2, if_neg hv, Array.getElem?_eq_none]
      rw [Circuit.size_table]
      omega
  nodup := List.nodup_nil
  runs := List.forall_mem_nil _
  closed := List.forall_mem_nil _
  violations := by rw [List.flatMap_nil, List.append_nil]

private theorem Progress.perm_running {recs : Nat → List Violation}
    (h : Progress c e recs before log s) (hbody : ∀ i ∈ c.body, c.Covers e log i)
    (houtputs : ∀ v ∈ c.outputs, c.settled log v = true) : log.Perm (c.running e) := by
  rw [List.perm_ext_iff_of_nodup h.nodup Circuit.nodup_running]
  refine fun i => ⟨h.runs i, fun hi => ?_⟩
  have hall := (Circuit.mem_running.mp hi).2
  clear hi
  -- `Runs` is the least set that is closed under what `h`, `hbody` and `houtputs` say of `log`.
  induction hall with
  | active hactive =>
    obtain ⟨j, hj, hw⟩ := Circuit.exists_within_of_active hactive
    exact hbody j hj _ hactive hw
  | output hv horigin => exact Circuit.settled_iff.mp (houtputs _ hv) _ _ horigin
  | operand _ hget hv horigin ih =>
    exact Circuit.settled_iff.mp (h.closed _ ih _ hget _ hv) _ _ horigin

/-- An instance returns the meanings of its outputs. At its end exactly the values of operations
that run are known, and each of these has recorded what it records, once. -/
theorem instanceOutputs_runs (hc : c.WellTyped known) (he : e.Sized known c)
    (hcall : Serves c e call inside) (houtputs : ∀ v ∈ c.outputs, v < c.values.size)
    (path : List String) (violations : Array Violation) :
    Succeeds (instanceOutputs c call path e.inputs)
      { known := Array.replicate c.values.size none, violations } fun bs s =>
        bs = c.outputs.map (c.meaning e) ∧ s.known = c.table e (c.running e) ∧
          s.violations.toList.Perm
            (violations.toList ++ (c.running e).flatMap (records c e path inside)) := by
  have hbody : Advances c e (records c e path inside) violations.toList (fun _ => True) []
      (c.body.forM (execute c call path)) fun _ log' => ∀ i ∈ c.body, c.Covers e log' i := by
    refine (Advances.forM (fun i hi log hfresh => ?_) (hc.apart_operationsIn .body)
      fun _ _ => List.forall_mem_nil _).widen fun _ _ => trivial
    obtain ⟨o, ho, hb⟩ := Circuit.mem_operationsIn.mp hi
    exact execute_advances hc he hcall ho (Circuit.active_body ho hb) hfresh
  -- Outputs are asked for last. They may need operations in regions that were not opened.
  have hall : Advances c e (records c e path inside) violations.toList (fun _ => True) []
      (do c.body.forM (execute c call path)
          c.outputs.mapM (value c call)) fun bs log' => bs = c.outputs.map (c.meaning e) ∧
        (∀ i ∈ c.body, c.Covers e log' i) ∧ ∀ v ∈ c.outputs, c.settled log' v = true := by
    refine hbody.bind ?_
    rintro _ more - hcovers
    have hvalues : Advances c e (records c e path inside) violations.toList (fun _ => True)
        ([] ++ more) (c.outputs.mapM (value c call)) fun bs log' =>
          bs = c.outputs.map (c.meaning e) ∧ ∀ v ∈ c.outputs, c.settled log' v = true := by
      refine .mapM fun v hv log => ?_
      exact (value_advances hc he hcall (houtputs v hv) fun i n h => .output hv h).widen
        fun _ _ => trivial
    refine hvalues.mono (fun _ _ => trivial) ?_
    rintro bs more' - ⟨hbs, hsettled⟩
    refine ⟨hbs, fun i hi k hk hw => ?_, hsettled⟩
    exact List.mem_append_left _ (hcovers i hi k hk hw)
  unfold instanceOutputs
  refine Succeeds.step (forIn_learn _ _) ?_
  refine (hall _ (progress_start hc he violations)).mono ?_
  rintro bs s ⟨log, -, hs, hbs, hcovers, hsettled⟩
  rw [List.nil_append] at hs hcovers hsettled
  have hperm := hs.perm_running hcovers hsettled
  refine ⟨hbs, ?_, hs.violations.trans ((hperm.flatMap_right _).append_left _)⟩
  rw [hs.known]
  exact Circuit.table_congr fun i => hperm.mem_iff

end Running

end ChannelCodec.Simulation
