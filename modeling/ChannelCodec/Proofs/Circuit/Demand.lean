import ChannelCodec.Proofs.Circuit.Construction
import ChannelCodec.Proofs.Circuit.Sizes

/-! What a run of a circuit needs. An operation runs if all regions around it do, or if a value of
its is asked for; nothing here speaks of the order in which that happens. -/
namespace ChannelCodec

structure Instance where
  callee : String
  name : String
  inputs : List Bits

namespace Circuit

def opens (c : Circuit) (e : Setting) (i : Nat) : Bool :=
  match c.operations.get? i with
  | none => false
  | some o =>
    match o.operands with
    | v :: _ => o.kind.hasRegion && (c.meaning e v).bit 0
    | [] => false

def active (c : Circuit) (e : Setting) (i : Nat) : Bool :=
  match c.operations.get? i with
  | none => false
  | some o =>
    match o.block with
    | .body => true
    | .region owner => if _h : owner < i then c.opens e owner && c.active e owner else false
termination_by i
decreasing_by assumption

def messages (c : Circuit) (e : Setting) (i : Nat) : List String :=
  match c.operations.get? i with
  | none => []
  | some o => c.failure e o

def instanceAt? (c : Circuit) (e : Setting) (i : Nat) : Option Instance :=
  match c.operations.get? i with
  | none => none
  | some o =>
    match o.kind with
    | .instantiate callee name => some ⟨callee, name, o.operands.map (c.meaning e)⟩
    | _ => none

/-- Operation `i` runs in the setting `e`. -/
inductive Runs (c : Circuit) (e : Setting) : Nat → Prop
  | active {i : Nat} (active : c.active e i = true) : Runs c e i
  | output {v i n : Nat} (output : v ∈ c.outputs) (origin : c.origin? v = some (.result i n)) :
    Runs c e i
  | operand {i j n v : Nat} {o : Operation} (user : Runs c e j)
    (get : c.operations.get? j = some o) (operand : v ∈ o.operands)
    (origin : c.origin? v = some (.result i n)) : Runs c e i

open Classical in
noncomputable def running (c : Circuit) (e : Setting) : List Nat :=
  (List.range c.operations.size).filter fun i => c.Runs e i

/-- The value `v` is an input, or a result of an operation in `log`. -/
def settled (c : Circuit) (log : List Nat) (v : Nat) : Bool :=
  match c.origin? v with
  | some (.result i _) => decide (i ∈ log)
  | _ => true

def table (c : Circuit) (e : Setting) (log : List Nat) : Array (Option Bits) :=
  Array.ofFn fun v : Fin c.values.size => if c.settled log v then some (c.meaning e v) else none

inductive Within (c : Circuit) (i : Nat) : Nat → Prop
  | self : Within c i i
  | inside {j k : Nat} {o : Operation} (outer : Within c i j) (get : c.operations.get? k = some o)
    (block : o.block = .region j) : Within c i k

def Covers (c : Circuit) (e : Setting) (log : List Nat) (i : Nat) : Prop :=
  ∀ k, c.active e k = true → c.Within i k → k ∈ log

def HasResult (c : Circuit) (i : Nat) : Prop :=
  ∃ o, c.operations.get? i = some o ∧ o.results ≠ []

/-- Of the operations within `i`, only such with a result are in `log`. -/
def Fresh (c : Circuit) (log : List Nat) (i : Nat) : Prop :=
  ∀ k ∈ log, c.Within i k → c.HasResult k

variable {known : String → List Port → Prop} {c : Circuit} {e : Setting}

theorem active_body {i : Nat} {o : Operation} (ho : c.operations.get? i = some o)
    (hb : o.block = .body) : c.active e i = true := by
  rw [active]
  simp only [ho, hb]

theorem active_region {i owner : Nat} {o : Operation} (ho : c.operations.get? i = some o)
    (hb : o.block = .region owner) :
    c.active e i = true ↔ owner < i ∧ c.opens e owner = true ∧ c.active e owner = true := by
  rw [active]
  simp only [ho, hb]
  by_cases h : owner < i <;> simp [h]

theorem opens_of_operand {i v : Nat} {o : Operation} (ho : c.operations.get? i = some o)
    (hv : o.operands = [v]) : c.opens e i = (o.kind.hasRegion && (c.meaning e v).bit 0) := by
  unfold opens
  simp only [ho, hv]

theorem opens_of_no_region {i : Nat} {o : Operation} (ho : c.operations.get? i = some o)
    (h : o.kind.hasRegion = false) : c.opens e i = false := by
  unfold opens
  simp only [ho, h, Bool.false_and]
  split <;> rfl

theorem mem_running {i : Nat} : i ∈ c.running e ↔ i < c.operations.size ∧ c.Runs e i := by
  simp [running]

theorem nodup_running : (c.running e).Nodup := List.nodup_range.filter _

theorem settled_iff {log : List Nat} {v : Nat} : c.settled log v = true ↔
    ∀ i n, c.origin? v = some (.result i n) → i ∈ log := by
  unfold settled
  split
  next i n h =>
    rw [h, decide_eq_true_iff]
    constructor
    · rintro hi _ _ ⟨rfl⟩
      exact hi
    · intro hall
      exact hall i n rfl
  next h =>
    refine ⟨fun _ i n h' => ?_, fun _ => rfl⟩
    exact absurd h' (h i n)

theorem settled_mono {log more : List Nat} {v : Nat} (h : c.settled log v = true) :
    c.settled (log ++ more) v = true := by
  rw [settled_iff] at h ⊢
  exact fun i n horigin => List.mem_append_left _ (h i n horigin)

theorem getElem?_table {log : List Nat} {v : Nat} (hv : v < c.values.size) :
    (c.table e log)[v]? = some (if c.settled log v then some (c.meaning e v) else none) := by
  unfold table
  rw [Array.getElem?_ofFn, dif_pos hv]

theorem size_table {log : List Nat} : (c.table e log).size = c.values.size := Array.size_ofFn

theorem table_congr {log log' : List Nat} (h : ∀ i, i ∈ log ↔ i ∈ log') :
    c.table e log = c.table e log' := by
  unfold table settled
  simp only [h]

theorem WellTyped.settled_append (hc : c.WellTyped known) {i : Nat} {o : Operation}
    (ho : c.operations.get? i = some o) (log : List Nat) {v : Nat} (hv : v < c.values.size) :
    c.settled (log ++ [i]) v = true ↔ c.settled log v = true ∨ v ∈ o.results := by
  simp only [settled_iff]
  constructor
  · intro h
    rcases hc.origin v hv with ⟨horigin, -⟩ | ⟨j, n, p, horigin, hp, hn⟩
    · refine .inl fun j n h' => ?_
      rw [horigin] at h'
      cases h'
    · rcases List.mem_append.mp (h j n horigin) with hj | hj
      · refine .inl fun k m h' => ?_
        rw [horigin] at h'
        cases h'
        exact hj
      · obtain rfl := List.mem_singleton.mp hj
        obtain rfl := Option.some.inj (ho.symm.trans hp)
        exact .inr (List.mem_of_getElem? hn)
  · rintro (h | h) j n horigin
    · exact List.mem_append_left _ (h j n horigin)
    · obtain ⟨m, hm⟩ := List.mem_iff_getElem?.mp h
      rw [hc.result i o m v ho hm] at horigin
      cases horigin
      exact List.mem_append_right _ (List.mem_singleton_self i)

theorem WellTyped.settled_nil (hc : c.WellTyped known) {v : Nat} (hv : v < c.values.size) :
    c.settled [] v = true ↔ v < c.inputPorts.length := by
  rw [settled_iff]
  constructor
  · intro h
    rcases hc.origin v hv with ⟨-, hlt⟩ | ⟨i, n, o, horigin, -⟩
    · exact hlt
    · exact absurd (h i n horigin) List.not_mem_nil
  · intro h i n horigin
    rw [(hc.input v _ (List.getElem?_eq_getElem h)).1] at horigin
    cases horigin

theorem WellTyped.origin_of_open (hc : c.WellTyped known) {log : List Nat} {v : Nat}
    (hv : v < c.values.size) (h : c.settled log v = false) :
    ∃ i n o, c.origin? v = some (.result i n) ∧ c.operations.get? i = some o ∧
      o.results[n]? = some v ∧ i ∉ log := by
  unfold settled at h
  rcases hc.origin v hv with ⟨hinput, -⟩ | ⟨i, n, o, horigin, ho, hn⟩
  · simp [hinput] at h
  · simp only [horigin, decide_eq_false_iff_not] at h
    exact ⟨i, n, o, horigin, ho, hn, h⟩

/-! Regions. -/

theorem Within.trans {i j k : Nat} (h : c.Within i j) (h' : c.Within j k) : c.Within i k := by
  induction h' with
  | self => exact h
  | inside _ ho hb ih => exact ih.inside ho hb

theorem WellTyped.le_of_within (hc : c.WellTyped known) {i j : Nat} (h : c.Within i j) :
    i ≤ j := by
  induction h with
  | self => exact Nat.le_refl i
  | inside _ ho hb ih => exact Nat.le_trans ih (Nat.le_of_lt (hc.region _ _ _ ho hb))

private theorem Within.chain {i j k : Nat} (h : c.Within i k) (h' : c.Within j k) :
    c.Within i j ∨ c.Within j i := by
  induction h with
  | self => exact .inr h'
  | @inside m k o hm ho hb ih =>
    cases h' with
    | self => exact .inl (hm.inside ho hb)
    | @inside m' _ o' hm' ho' hb' =>
      -- Both chains pass the one owner of this operation.
      obtain rfl := Option.some.inj (ho.symm.trans ho')
      obtain ⟨rfl⟩ := hb.symm.trans hb'
      exact ih hm'

private theorem WellTyped.apart (hc : c.WellTyped known) {block : Block} {i j k : Nat}
    (hi : i ∈ c.operationsIn block) (hj : j ∈ c.operationsIn block) (hne : i ≠ j)
    (h : c.Within i k) : ¬ c.Within j k := by
  have hnever : ∀ {i j : Nat}, i ∈ c.operationsIn block → j ∈ c.operationsIn block → i ≠ j →
      ¬ c.Within i j := by
    intro i j hi hj hne hij
    obtain ⟨o, ho, hb⟩ := mem_operationsIn.mp hi
    obtain ⟨p, hp, hb'⟩ := mem_operationsIn.mp hj
    cases hij with
    | self => exact hne rfl
    | @inside m _ p' hm hp' hm' =>
      obtain rfl := Option.some.inj (hp.symm.trans hp')
      have hlt := hc.region i o m ho (by rw [hb, ← hb', hm'])
      have hle := hc.le_of_within hm
      omega
  intro h'
  rcases h.chain h' with hij | hji
  · exact hnever hi hj hne hij
  · exact hnever hj hi (Ne.symm hne) hji

theorem WellTyped.apart_operationsIn (hc : c.WellTyped known) (block : Block) :
    (c.operationsIn block).Pairwise fun i j => ∀ k, c.Within i k → ¬ c.Within j k := by
  have hnodup : (c.operationsIn block).Nodup := List.nodup_range.filter _
  refine hnodup.imp_of_mem ?_
  intro i j hi hj hne k
  exact hc.apart hi hj hne

theorem Within.active_inside {i j : Nat} (h : c.Within i j) (hactive : c.active e j = true) :
    j = i ∨ c.opens e i = true ∧ ∃ k ∈ c.operationsIn (.region i), c.Within k j := by
  induction h with
  | self => exact .inl rfl
  | @inside m j o hm ho hb ih =>
    obtain ⟨-, hopens, hm'⟩ := (active_region ho hb).mp hactive
    rcases ih hm' with rfl | ⟨hi, k, hk, hkm⟩
    · exact .inr ⟨hopens, j, mem_operationsIn.mpr ⟨o, ho, hb⟩, .self⟩
    · exact .inr ⟨hi, k, hk, hkm.inside ho hb⟩

theorem Fresh.append {log more : List Nat} {i : Nat} (h : c.Fresh log i)
    (hmore : ∀ k ∈ more, c.HasResult k) : c.Fresh (log ++ more) i := by
  intro k hk hw
  rcases List.mem_append.mp hk with hk | hk
  · exact h k hk hw
  · exact hmore k hk

theorem Fresh.not_mem {log : List Nat} {i : Nat} {o : Operation} (h : c.Fresh log i)
    (ho : c.operations.get? i = some o) (hresults : o.results = []) : i ∉ log := by
  intro hi
  obtain ⟨p, hp, hne⟩ := h i hi .self
  obtain rfl := Option.some.inj (ho.symm.trans hp)
  exact hne hresults

theorem WellTyped.fresh_inside (hc : c.WellTyped known) {log : List Nat} {i j : Nat}
    (h : c.Fresh log i) (hj : j ∈ c.operationsIn (.region i)) : c.Fresh (log ++ [i]) j := by
  obtain ⟨o, ho, hb⟩ := mem_operationsIn.mp hj
  intro k hk hw
  rcases List.mem_append.mp hk with hk | hk
  · exact h k hk ((Within.self.inside ho hb).trans hw)
  · obtain rfl := List.mem_singleton.mp hk
    have hlt := hc.region j o k ho hb
    have hle := hc.le_of_within hw
    omega

theorem covers_of_closed {log : List Nat} {i : Nat} (hi : i ∈ log) (h : c.opens e i = false) :
    c.Covers e log i := by
  intro k hk hw
  rcases hw.active_inside hk with rfl | ⟨hopens, -⟩
  · exact hi
  · rw [h] at hopens
    cases hopens

theorem covers_of_region {log : List Nat} {i : Nat} (hi : i ∈ log)
    (h : ∀ j ∈ c.operationsIn (.region i), c.Covers e log j) : c.Covers e log i := by
  intro k hk hw
  rcases hw.active_inside hk with rfl | ⟨-, j, hj, hw'⟩
  · exact hi
  · exact h j hj k hk hw'

theorem exists_within_of_active {j : Nat} (h : c.active e j = true) :
    ∃ i ∈ c.body, c.Within i j := by
  induction j using Nat.strongRecOn with
  | ind j ih =>
    cases ho : c.operations.get? j with
    | none =>
      rw [active] at h
      simp [ho] at h
    | some o =>
      cases hb : o.block with
      | body => exact ⟨j, mem_operationsIn.mpr ⟨o, ho, hb⟩, .self⟩
      | region owner =>
        obtain ⟨hlt, -, howner⟩ := (active_region ho hb).mp h
        obtain ⟨i, hi, hw⟩ := ih owner hlt howner
        exact ⟨i, hi, hw.inside ho hb⟩

theorem WellTyped.active_of_runs (hc : c.WellTyped known) {i : Nat} (h : c.Runs e i)
    (hresult : ¬ c.HasResult i) : c.active e i = true := by
  -- Nothing can be asked of an operation without results.
  have hno : ∀ {v n}, c.origin? v ≠ some (.result i n) := by
    intro v n horigin
    obtain ⟨x, hx, -⟩ := get?_of_origin? horigin
    rcases hc.origin v (lt_of_get?_values hx) with ⟨hinput, -⟩ | ⟨j, m, o, hresult', ho, hm⟩
    · rw [horigin] at hinput
      cases hinput
    · rw [horigin] at hresult'
      cases hresult'
      refine hresult ⟨o, ho, fun hnil => ?_⟩
      rw [hnil] at hm
      cases hm
  cases h with
  | active hactive => exact hactive
  | output _ horigin => exact absurd horigin hno
  | operand _ _ _ horigin => exact absurd horigin hno

end Circuit
end ChannelCodec
