import ChannelCodec.Gasket.Cache
import ChannelCodec.Proofs.Schema.Rendering
import Mathlib.Data.List.Dedup
import Mathlib.Data.List.Perm.Subperm

/-! Sharing circuits. Requests are made one after the other against one cache and one design, and go
on after a failure. What a request does depends on nothing but its key and on what earlier requests
have left: it finds the circuit of its key, or fails to generate it, or adds it under a name that
is new. -/
namespace ChannelCodec

namespace Design
variable {d : Design} {c : Circuit}

private theorem add_of_not_mem (h : c.name ∉ d.names) :
    d.add c = .ok { d with circuits := d.circuits ++ [c] } := by
  rw [add, if_neg (fun hcontains => h (contains_iff.mp hcontains))]

end Design

namespace GasketCache

private theorem numbered_injective (name : String) {m n : Nat}
    (h : name ++ "_" ++ toString (m + 1) = name ++ "_" ++ toString (n + 1)) : m = n := by
  have hdigits := congrArg String.toList h
  simp only [String.toList_append] at hdigits
  have hvalue := congrArg (Nat.ofDigitChars 10 · 0) (List.append_cancel_left hdigits)
  rw [(isDecimal_toString (m + 1)).value, (isDecimal_toString (n + 1)).value] at hvalue
  omega

theorem uniqueName_not_mem (d : Design) (name : String) : uniqueName d name ∉ d.names := by
  let numbered := (List.range (d.circuits.length + 1)).map fun n =>
    name ++ "_" ++ toString (n + 1)
  have hnodup : numbered.Nodup :=
    List.Nodup.map_on (fun m _ n _ h => numbered_injective name h) List.nodup_range
  have hunique : uniqueName d name =
    ((name :: numbered).find? fun candidate => !d.contains candidate).getD name := rfl
  rw [hunique]
  cases hfind : (name :: numbered).find? fun candidate => !d.contains candidate with
  | some candidate =>
    have hfree := List.find?_some hfind
    intro hmem
    rw [Option.getD_some, ← Design.contains_iff] at hmem
    rw [hmem] at hfree
    cases hfree
  | none =>
    -- There are more numbered names than circuits, so they cannot all be taken.
    have htaken : numbered ⊆ d.names := by
      intro candidate hcandidate
      have h := List.find?_eq_none.mp hfind candidate (List.mem_cons_of_mem name hcandidate)
      rw [Bool.not_eq_true', Bool.not_eq_false] at h
      exact Design.contains_iff.mp h
    have hle := (List.subperm_of_subset hnodup htaken).length_le
    rw [List.length_map, List.length_range, Design.names, List.length_map] at hle
    omega

end GasketCache

structure CircuitRequest where
  conversion : Conversion
  type : HwType

namespace CircuitRequest

/-- What circuits are shared by: the direction, and the type without its channel. -/
def key (r : CircuitRequest) : Conversion × HwType := (r.conversion, r.type.unwrapped)

def run (r : CircuitRequest) (w : Workshop) : Except Failure String × Workshop :=
  match Request.circuit r.conversion r.type w with
  | .ok name w => (.ok name, w)
  | .error failure w => (.error failure, w)

def runAll (w : Workshop) : List CircuitRequest → List (Except Failure String) × Workshop
  | [] => ([], w)
  | r :: requests =>
    let (answer, w) := r.run w
    let (answers, w) := runAll w requests
    (answer :: answers, w)

end CircuitRequest

/-- The cache belongs to the design, or to none yet. -/
def Workshop.Bound (w : Workshop) : Prop :=
  w.cache.design = none ∨ w.cache.design = some w.design.id

/-- Two workshops differ in nothing that a request looks at. -/
structure Workshop.Alike (w w' : Workshop) : Prop where
  design : w'.design = w.design
  circuits : w'.cache.circuits = w.cache.circuits

/-- The circuit of a key as it is generated, before it is named. -/
def generated (key : Conversion × HwType) : Except Failure Circuit :=
  ((MessageSchema.of key.2.unwrapped).converter key.1).mapError (Request.noted key.1 key.2)

def Workshop.find? (w : Workshop) (key : Conversion × HwType) : Option String :=
  w.cache.find? key.1 key.2

def Workshop.keys (w : Workshop) : List (Conversion × HwType) :=
  w.cache.circuits.map fun c => (c.conversion, c.type)

def Workshop.names (w : Workshop) : List String := w.cache.circuits.map (·.name)

/-- The outcomes of a request: the circuit of its key is found, or cannot be generated, or is added
under a new name. -/
inductive Serves (r : CircuitRequest) (w w' : Workshop) : Except Failure String → Prop
  | found (name : String) (h : w.find? r.key = some name) (alike : w.Alike w') :
    Serves r w w' (.ok name)
  | failed (failure : Failure) (h : w.find? r.key = none)
    (hmade : generated r.key = .error failure) (alike : w.Alike w') : Serves r w w' (.error failure)
  | added (c : Circuit) (name : String) (h : w.find? r.key = none) (hmade : generated r.key = .ok c)
    (hname : name = GasketCache.uniqueName w.design c.name)
    (design : w'.design = { w.design with circuits := w.design.circuits ++ [{ c with name }] })
    (circuits : w'.cache.circuits = ⟨r.key.1, r.key.2, name⟩ :: w.cache.circuits) :
    Serves r w w' (.ok name)

variable {w : Workshop} {r : CircuitRequest}

namespace Request
variable {α β : Type} {m : Request α} {f : α → Request β} {w' : Workshop} {a : α}
  {failure : Failure}

private theorem after_ok (h : m w = .ok a w') : (m >>= f) w = f a w' := by
  change EStateM.bind m f w = _
  rw [EStateM.bind, h]

private theorem after_error (h : m w = .error failure w') : (m >>= f) w = .error failure w' := by
  change EStateM.bind m f w = _
  rw [EStateM.bind, h]

theorem after_get {f : Workshop → Request β} : (get >>= f) w = f w w := rfl

private theorem bind_run (hw : w.Bound) :
    ∃ w', Request.bind w = .ok () w' ∧ w'.Bound ∧ w.Alike w' := by
  rcases hw with h | h
  · refine ⟨{ w with cache := { w.cache with design := some w.design.id } }, ?_, .inr rfl, rfl, rfl⟩
    rw [Request.bind, after_get]
    simp only [h]
    rfl
  · refine ⟨w, ?_, .inr h, rfl, rfl⟩
    rw [Request.bind, after_get]
    simp only [h, ne_eq, not_true, if_false]
    rfl

private theorem schema_run (w : Workshop) (t : HwType) : ∃ w',
    Request.schema t w = .ok (.of t.unwrapped) w' ∧ w'.design = w.design ∧
      w'.cache.design = w.cache.design ∧ w'.cache.circuits = w.cache.circuits := by
  have hrun : Request.schema t w =
    .ok (w.cache.schema t).1 { w with cache := (w.cache.schema t).2.2 } := rfl
  rw [hrun, GasketCache.schema]
  split
  · exact ⟨_, rfl, rfl, rfl, rfl⟩
  · exact ⟨_, rfl, rfl, rfl, rfl⟩

private theorem lift_ok (a : α) (w : Workshop) :
    (Request.lift (.ok a) : Request α) w = .ok a w := rfl

private theorem lift_error (failure : Failure) (w : Workshop) :
    (Request.lift (.error failure) : Request α) w = .error failure w := rfl

private theorem liftReport_ok (a : α) (w : Workshop) :
    (Request.liftReport (.ok a) : Request α) w = .ok a w := rfl

theorem circuit_serves (hw : w.Bound) (r : CircuitRequest) : ∃ w', w'.Bound ∧
    ((∃ name, Request.circuit r.conversion r.type w = .ok name w' ∧ Serves r w w' (.ok name)) ∨
      ∃ failure, Request.circuit r.conversion r.type w = .error failure w' ∧
        Serves r w w' (.error failure)) := by
  obtain ⟨w₁, hbind, hbound, halike⟩ := bind_run hw
  have hfind : w₁.cache.find? r.conversion r.type.unwrapped = w.find? r.key := by
    rw [Workshop.find?, GasketCache.find?, GasketCache.find?, halike.circuits]
    rfl
  rw [Request.circuit, after_ok hbind, after_get]
  cases hcached : w.find? r.key with
  | some name =>
    simp only [hfind, hcached]
    exact ⟨w₁, hbound, .inl ⟨name, rfl, .found name hcached halike⟩⟩
  | none =>
    -- Looking up the schema may fill the cache of schemas, of which no request can tell.
    obtain ⟨w₂, hschema, hdesign, hcache, hcircuits⟩ := schema_run w₁ r.type.unwrapped
    have hbound₂ : w₂.Bound := by
      rw [Workshop.Bound, hcache, hdesign]
      exact hbound
    have hsame : w.Alike w₂ :=
      ⟨hdesign.trans halike.design, hcircuits.trans halike.circuits⟩
    have hconverter : ((MessageSchema.of r.type.unwrapped.unwrapped).converter
      r.conversion).mapError (noted r.conversion r.type.unwrapped) = generated r.key := rfl
    simp only [hfind, hcached]
    rw [after_ok hschema, hconverter]
    cases hmade : generated r.key with
    | error failure =>
      rw [after_error (lift_error failure w₂)]
      exact ⟨w₂, hbound₂, .inr ⟨failure, rfl, .failed failure hcached hmade hsame⟩⟩
    | ok c =>
      rw [after_ok (lift_ok c w₂), after_get]
      have hadd := Design.add_of_not_mem
        (c := { c with name := GasketCache.uniqueName w₂.design c.name })
        (GasketCache.uniqueName_not_mem w₂.design c.name)
      rw [hadd, after_ok (liftReport_ok _ w₂)]
      refine ⟨_, ?_, .inl ⟨_, rfl, .added c _ hcached hmade ?_ ?_ ?_⟩⟩
      · exact hbound₂
      · rw [← hsame.design]
      · rw [← hsame.design]
      · rw [← hsame.circuits]
        rfl

end Request

theorem serves_run (hw : w.Bound) : (r.run w).2.Bound ∧ Serves r w (r.run w).2 (r.run w).1 := by
  obtain ⟨w', hbound, ⟨name, hrun, hserves⟩ | ⟨failure, hrun, hserves⟩⟩ :=
    Request.circuit_serves hw r
  · rw [CircuitRequest.run, hrun]
    exact ⟨hbound, hserves⟩
  · rw [CircuitRequest.run, hrun]
    exact ⟨hbound, hserves⟩

variable {w₁ w₂ w' : Workshop} {outcome : Except Failure String} {key : Conversion × HwType}
  {name : String}

theorem find?_eq_some_mem (h : w.find? key = some name) :
    ⟨key.1, key.2, name⟩ ∈ w.cache.circuits := by
  rw [Workshop.find?, GasketCache.find?, Option.map_eq_some_iff] at h
  obtain ⟨c, hc, rfl⟩ := h
  have hkey := List.find?_some hc
  simp only [decide_eq_true_eq] at hkey
  obtain ⟨conversion, type, name⟩ := c
  obtain ⟨rfl, rfl⟩ := hkey
  exact List.mem_of_find?_eq_some hc

private theorem find?_eq_none : w.find? key = none ↔ key ∉ w.keys := by
  rw [Workshop.find?, GasketCache.find?, Option.map_eq_none_iff, List.find?_eq_none, Workshop.keys,
    List.mem_map]
  constructor
  · rintro h ⟨c, hc, rfl⟩
    exact h c hc (by simp)
  · intro h c hc hkey
    simp only [decide_eq_true_eq] at hkey
    exact h ⟨c, hc, Prod.ext hkey.1 hkey.2⟩

theorem Workshop.Alike.find? (h : w.Alike w') (key : Conversion × HwType) :
    w'.find? key = w.find? key := by
  rw [Workshop.find?, Workshop.find?, GasketCache.find?, GasketCache.find?, h.circuits]

theorem Workshop.Alike.trans (h : w.Alike w') (h' : w'.Alike w₁) : w.Alike w₁ :=
  ⟨h'.design.trans h.design, h'.circuits.trans h.circuits⟩

theorem Workshop.Alike.symm (h : w.Alike w') : w'.Alike w :=
  ⟨h.design.symm, h.circuits.symm⟩

/-- Where nothing differs that a request looks at, its answer and what it does are the same. -/
theorem Serves.alike {outcome' : Except Failure String} (h : Serves r w w₁ outcome)
    (h' : Serves r w' w₂ outcome') (halike : w.Alike w') : outcome' = outcome ∧ w₁.Alike w₂ := by
  have hfind := halike.find? r.key
  cases h with
  | found name hfound hsame =>
    cases h' with
    | found name' hfound' hsame' =>
      rw [hfind, hfound] at hfound'
      cases hfound'
      exact ⟨rfl, hsame.symm.trans (halike.trans hsame')⟩
    | failed _ hnone | added _ _ hnone =>
      rw [hfind, hfound] at hnone
      cases hnone
  | failed failure hnone hmade hsame =>
    cases h' with
    | found name' hfound' =>
      rw [hfind, hnone] at hfound'
      cases hfound'
    | failed failure' _ hmade' hsame' =>
      rw [hmade] at hmade'
      cases hmade'
      exact ⟨rfl, hsame.symm.trans (halike.trans hsame')⟩
    | added c _ _ hmade' =>
      rw [hmade] at hmade'
      cases hmade'
  | added c name hnone hmade hname hdesign hcircuits =>
    cases h' with
    | found name' hfound' =>
      rw [hfind, hnone] at hfound'
      cases hfound'
    | failed failure' _ hmade' =>
      rw [hmade] at hmade'
      cases hmade'
    | added c' name' _ hmade' hname' hdesign' hcircuits' =>
      rw [hmade] at hmade'
      cases hmade'
      rw [halike.design, ← hname] at hname'
      subst hname'
      refine ⟨rfl, ?_, ?_⟩
      · rw [hdesign', hdesign, halike.design]
      · rw [hcircuits', hcircuits, halike.circuits]

/-- What holds between requests: the cache has one circuit for each of its keys, under names that
are new to the design, and the design has nothing besides. -/
structure Kept (d : Design) (w : Workshop) : Prop where
  bound : w.Bound
  grown : ∃ circuits, w.design.circuits = d.circuits ++ circuits ∧
    circuits.map (·.name) = w.names.reverse
  distinct : w.names.Nodup
  fresh : ∀ name ∈ w.names, name ∉ d.names
  keys : w.keys.Nodup
  made : ∀ key ∈ w.keys, ∃ c, generated key = .ok c

variable {d : Design}

theorem kept_start (d : Design) : Kept d { design := d } where
  bound := .inl rfl
  grown := ⟨[], (List.append_nil _).symm, rfl⟩
  distinct := List.nodup_nil
  fresh := by simp [Workshop.names]
  keys := List.nodup_nil
  made := by simp [Workshop.keys]

theorem Kept.mem_design (h : Kept d w) : w.design.names = d.names ++ w.names.reverse := by
  obtain ⟨circuits, hcircuits, hnames⟩ := h.grown
  rw [Design.names, hcircuits, List.map_append, hnames]
  rfl

private theorem Kept.of_alike (h : Kept d w) (halike : w.Alike w') (hbound : w'.Bound) :
    Kept d w' where
  bound := hbound
  grown := by
    rw [halike.design, Workshop.names, halike.circuits]
    exact h.grown
  distinct := by
    rw [Workshop.names, halike.circuits]
    exact h.distinct
  fresh := by
    rw [Workshop.names, halike.circuits]
    exact h.fresh
  keys := by
    rw [Workshop.keys, halike.circuits]
    exact h.keys
  made := by
    rw [Workshop.keys, halike.circuits]
    exact h.made

theorem Kept.serves (h : Kept d w) (hserves : Serves r w w' outcome) (hbound : w'.Bound) :
    Kept d w' := by
  cases hserves with
  | found _ _ halike | failed _ _ _ halike => exact h.of_alike halike hbound
  | added c name hnone hmade hname hdesign hcircuits =>
    have hnew : name ∉ d.names ++ w.names.reverse := by
      rw [← h.mem_design, hname]
      exact GasketCache.uniqueName_not_mem w.design c.name
    rw [List.mem_append, List.mem_reverse, not_or] at hnew
    have hnames : w'.names = name :: w.names := by
      rw [Workshop.names, hcircuits]
      rfl
    have hkeys : w'.keys = r.key :: w.keys := by
      rw [Workshop.keys, hcircuits]
      rfl
    obtain ⟨circuits, hgrown, hgrownNames⟩ := h.grown
    constructor
    case bound => exact hbound
    case grown =>
      refine ⟨circuits ++ [{ c with name }], ?_, ?_⟩
      · rw [hdesign, hgrown, List.append_assoc]
      · rw [List.map_append, hgrownNames, hnames, List.reverse_cons]
        rfl
    case distinct =>
      rw [hnames]
      exact List.nodup_cons.mpr ⟨hnew.2, h.distinct⟩
    case fresh =>
      rw [hnames]
      exact List.forall_mem_cons.mpr ⟨hnew.1, h.fresh⟩
    case keys =>
      rw [hkeys]
      exact List.nodup_cons.mpr ⟨find?_eq_none.mp hnone, h.keys⟩
    case made =>
      rw [hkeys]
      exact List.forall_mem_cons.mpr ⟨⟨c, hmade⟩, h.made⟩

private theorem Serves.find? (hserves : Serves r w w' outcome) (h : w.find? key = some name) :
    w'.find? key = some name := by
  cases hserves with
  | found _ _ halike | failed _ _ _ halike => rw [halike.find?, h]
  | added c new hnone _ _ _ hcircuits =>
    have hne : ¬ (r.key.1 = key.1 ∧ r.key.2 = key.2) := by
      rintro ⟨hconversion, htype⟩
      rw [Prod.ext hconversion htype, h] at hnone
      cases hnone
    rw [Workshop.find?, GasketCache.find?, hcircuits, List.find?_cons_of_neg (by simpa using hne)]
    exact h

/-- Whether a request fails, and how, is settled by its key. -/
theorem Serves.eq_error_iff {failure : Failure} (hserves : Serves r w w' outcome)
    (hkept : Kept d w) : outcome = .error failure ↔ generated r.key = .error failure := by
  cases hserves with
  | found name hfound =>
    obtain ⟨c, hc⟩ := hkept.made r.key (List.mem_map_of_mem (find?_eq_some_mem hfound))
    rw [hc]
    exact iff_of_false nofun nofun
  | failed failure' _ hmade =>
    rw [hmade]
    exact ⟨fun h => congrArg _ (Except.error.inj h), fun h => congrArg _ (Except.error.inj h)⟩
  | added c name _ hmade =>
    rw [hmade]
    exact iff_of_false nofun nofun

private theorem Serves.answered (hserves : Serves r w w' (.ok name)) :
    w'.find? r.key = some name := by
  cases hserves with
  | found _ hfound halike => rw [halike.find?, hfound]
  | added c _ _ _ _ _ hcircuits =>
    rw [Workshop.find?, GasketCache.find?, hcircuits, List.find?_cons_of_pos (by simp)]
    rfl

namespace CircuitRequest

theorem runAll_cons (w : Workshop) (r : CircuitRequest) (requests : List CircuitRequest) :
    runAll w (r :: requests) = ((r.run w).1 :: (runAll (r.run w).2 requests).1,
      (runAll (r.run w).2 requests).2) := rfl

theorem runAll_append (w : Workshop) (before later : List CircuitRequest) :
    runAll w (before ++ later) =
      ((runAll w before).1 ++ (runAll (runAll w before).2 later).1,
        (runAll (runAll w before).2 later).2) := by
  induction before generalizing w with
  | nil => rfl
  | cons r before ih =>
    rw [List.cons_append, runAll_cons, ih, runAll_cons]
    rfl

theorem runAll_keeps {P : Workshop → Prop} (hP : ∀ r w w' outcome, Kept d w →
    Serves r w w' outcome → P w → P w') (hkept : Kept d w) (hw : P w)
    (requests : List CircuitRequest) :
    Kept d (runAll w requests).2 ∧ P (runAll w requests).2 := by
  induction requests generalizing w with
  | nil => exact ⟨hkept, hw⟩
  | cons r requests ih =>
    obtain ⟨hbound, hserves⟩ := serves_run (r := r) hkept.bound
    exact ih (hkept.serves hserves hbound) (hP r w _ _ hkept hserves hw)

/-- The workshop behind requests that were made with a new cache for the design `d`. -/
def after (d : Design) (requests : List CircuitRequest) : Workshop :=
  (runAll { design := d } requests).2

def answer (d : Design) (before : List CircuitRequest) (r : CircuitRequest) :
    Except Failure String :=
  (r.run (after d before)).1

theorem after_cons (d : Design) (before : List CircuitRequest) (r : CircuitRequest)
    (later : List CircuitRequest) :
    after d (before ++ r :: later) = (runAll (r.run (after d before)).2 later).2 := by
  rw [after, runAll_append]
  rfl

theorem kept_after (d : Design) (requests : List CircuitRequest) : Kept d (after d requests) :=
  (runAll_keeps (P := fun _ => True) (fun _ _ _ _ _ _ _ => trivial) (kept_start d) trivial
    requests).1

theorem serves_after (d : Design) (before : List CircuitRequest) (r : CircuitRequest) :
    Kept d (r.run (after d before)).2 ∧
      Serves r (after d before) (r.run (after d before)).2 (answer d before r) := by
  have hkept := kept_after d before
  obtain ⟨hbound, hserves⟩ := serves_run (r := r) hkept.bound
  exact ⟨hkept.serves hserves hbound, hserves⟩

variable {before later : List CircuitRequest} {failure : Failure}

theorem after_snoc (d : Design) (before : List CircuitRequest) (r : CircuitRequest) :
    after d (before ++ [r]) = (r.run (after d before)).2 := after_cons d before r []

theorem find?_after (h : answer d before r = .ok name) (later : List CircuitRequest) :
    (after d (before ++ r :: later)).find? r.key = some name := by
  obtain ⟨hkept, hserves⟩ := serves_after d before r
  rw [h] at hserves
  rw [after_cons]
  exact (runAll_keeps (P := fun w => w.find? r.key = some name)
    (fun _ _ _ _ _ hstep hw => hstep.find? hw) hkept hserves.answered later).2

private theorem answer_eq_error :
    answer d before r = .error failure ↔ generated r.key = .error failure :=
  (serves_after d before r).2.eq_error_iff (kept_after d before)

theorem shared_by_key {r' : CircuitRequest} (hkey : r'.key = r.key)
    (between : List CircuitRequest) :
    answer d (before ++ r :: between) r' = answer d before r ∧
      (after d (before ++ r :: between ++ [r'])).design =
        (after d (before ++ r :: between)).design := by
  obtain ⟨-, hserves⟩ := serves_after d (before ++ r :: between) r'
  rw [after_snoc]
  cases hanswer : answer d before r with
  | ok name =>
    have hfind := find?_after hanswer between
    rw [← hkey] at hfind
    generalize answer d (before ++ r :: between) r' = outcome at hserves
    cases hserves with
    | found name' hfound halike =>
      rw [hfind] at hfound
      cases hfound
      exact ⟨rfl, halike.design⟩
    | failed _ hnone | added _ _ hnone =>
      rw [hfind] at hnone
      cases hnone
  | error failure =>
    -- Whether a request fails does not depend on what was asked for before.
    have hagain : answer d (before ++ r :: between) r' = .error failure := by
      rw [answer_eq_error, hkey]
      exact answer_eq_error.mp hanswer
    rw [hagain] at hserves ⊢
    cases hserves with
    | failed _ _ _ halike => exact ⟨rfl, halike.design⟩

theorem names_apart {r' : CircuitRequest} {name' : String} (hkey : r'.key ≠ r.key)
    (h : answer d before r = .ok name) (between : List CircuitRequest)
    (h' : answer d (before ++ r :: between) r' = .ok name') : name' ≠ name := by
  rintro rfl
  have hfirst := find?_after h (between ++ [r'])
  have hlast := find?_after h' []
  rw [List.append_assoc, List.cons_append] at hlast
  have hdistinct := (kept_after d (before ++ r :: (between ++ [r']))).distinct
  have hsame := List.inj_on_of_nodup_map hdistinct (find?_eq_some_mem hlast)
    (find?_eq_some_mem hfirst) rfl
  exact hkey (Prod.ext (CachedCircuit.mk.inj hsame).1 (CachedCircuit.mk.inj hsame).2.1)

end CircuitRequest
end ChannelCodec
