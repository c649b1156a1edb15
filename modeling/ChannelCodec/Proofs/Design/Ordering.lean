import ChannelCodec.Proofs.Design.Reference
import ChannelCodec.Proofs.Success

/-! The order of circuits. The search goes from callees to callers, so the circuits that are
finished always have all of their callers among them; without cycles it meets no circuit that is
still open, and it is never cut off. In the end every circuit stands behind its callees, or the
order is refused. -/
namespace ChannelCodec

def Circuit.Instantiates (c : Circuit) (callee : String) : Prop :=
  ∃ i o name, c.operations.get? i = some o ∧ o.kind = .instantiate callee name

namespace Design
variable {d : Design}

/-! Names. -/

theorem mem_names {name : String} : name ∈ d.names ↔ ∃ c ∈ d.circuits, c.name = name :=
  List.mem_map

theorem find?_of_mem (hd : d.names.Nodup) {c : Circuit} (hc : c ∈ d.circuits) :
    d.find? c.name = some c := by
  obtain ⟨c', hc'⟩ := Option.isSome_iff_exists.mp (contains_iff.mpr (mem_names.mpr ⟨c, hc, rfl⟩))
  rw [hc', List.inj_on_of_nodup_map hd (List.mem_of_find?_eq_some hc') hc (name_of_find? hc')]

private theorem mem_callers (hd : d.names.Nodup) {a b : String} :
    a ∈ d.callers b ↔ d.Calls a b := by
  simp only [callers, List.mem_map, List.mem_filter, List.contains_iff_mem]
  constructor
  · rintro ⟨c, ⟨hc, hb⟩, rfl⟩
    exact ⟨c, find?_of_mem hd hc, hb⟩
  · rintro ⟨c, hc, hb⟩
    exact ⟨c, ⟨List.mem_of_find?_eq_some hc, hb⟩, name_of_find? hc⟩

private theorem Calls.mem_names {a b : String} (h : d.Calls a b) : a ∈ d.names := by
  obtain ⟨c, hc, -⟩ := h
  exact mem_names_of_find? hc

theorem mem_callees_iff {c : Circuit} {callee : String} :
    callee ∈ c.callees ↔ c.Instantiates callee := Circuit.mem_callees

def Closed (d : Design) : Prop :=
  ∀ c ∈ d.circuits, ∀ callee, c.Instantiates callee → callee ∈ d.names

private theorem Closed.callee_mem (h : d.Closed) {a b : String} (hcalls : d.Calls a b) :
    b ∈ d.names := by
  obtain ⟨c, hc, hb⟩ := hcalls
  exact h c (List.mem_of_find?_eq_some hc) b (mem_callees_iff.mp hb)

theorem undefinedCallee?_eq_none : d.undefinedCallee? = none ↔ d.Closed := by
  simp only [undefinedCallee?, List.findSome?_eq_none_iff, Option.map_eq_none_iff,
    List.find?_eq_none, Bool.not_eq_true', Bool.not_eq_false, contains_iff, mem_callees_iff, Closed]

private theorem of_undefinedCallee? {fault : OrderFault} (h : d.undefinedCallee? = some fault) :
    ∃ c ∈ d.circuits, ∃ callee, c.Instantiates callee ∧ callee ∉ d.names ∧
      fault = .undefinedCallee c.name callee := by
  obtain ⟨c, hc, hfault⟩ := List.exists_of_findSome?_eq_some h
  obtain ⟨callee, hfind, rfl⟩ := Option.map_eq_some_iff.mp hfault
  have hcallee := mem_callees_iff.mp (List.mem_of_find?_eq_some hfind)
  refine ⟨c, hc, callee, hcallee, fun hmem => ?_, rfl⟩
  have hundefined := List.find?_some hfind
  rw [contains_iff.mpr hmem] at hundefined
  cases hundefined

/-! Orders. -/

def Ordered (d : Design) (order : List String) : Prop :=
  ∀ before name behind, order = before ++ name :: behind →
    ∀ callee, d.Calls name callee → callee ∈ before

private theorem misplaced?_cons {earlier order : List String} {first : String} :
    d.misplaced? earlier (first :: order) = none ↔
      (∀ callee, d.Calls first callee → callee ∈ earlier) ∧
        d.misplaced? (first :: earlier) order = none := by
  have hcallees : ∀ callee, callee ∈ ((d.find? first).map Circuit.callees).getD [] ↔
      d.Calls first callee := by
    intro callee
    cases hfind : d.find? first <;> simp [Calls, hfind]
  have hfind : ((((d.find? first).map Circuit.callees).getD []).find? fun callee =>
      !earlier.contains callee) = none ↔ ∀ callee, d.Calls first callee → callee ∈ earlier := by
    simp [List.find?_eq_none, hcallees]
  rw [misplaced?, ← hfind]
  cases (((d.find? first).map Circuit.callees).getD []).find? fun callee =>
    !earlier.contains callee <;> simp

private theorem misplaced?_eq_none {earlier order : List String} :
    d.misplaced? earlier order = none ↔
    ∀ before name behind, order = before ++ name :: behind →
      ∀ callee, d.Calls name callee → callee ∈ before ∨ callee ∈ earlier := by
  induction order generalizing earlier with
  | nil => simp [misplaced?]
  | cons first order ih =>
    rw [misplaced?_cons, ih]
    constructor
    · rintro ⟨hfirst, hrest⟩ before name behind hsplit callee hcalls
      cases before with
      | nil =>
        obtain ⟨rfl, rfl⟩ := List.cons.inj hsplit
        exact .inr (hfirst callee hcalls)
      | cons x before =>
        obtain ⟨rfl, htail⟩ := List.cons.inj hsplit
        have hmem := hrest before name behind htail callee hcalls
        rw [List.mem_cons] at hmem ⊢
        tauto
    · intro h
      refine ⟨fun callee hcalls => ?_, fun before name behind hsplit callee hcalls => ?_⟩
      · exact (h [] first order rfl callee hcalls).resolve_left List.not_mem_nil
      · have hmem := h (first :: before) name behind (congrArg (first :: ·) hsplit) callee hcalls
        rw [List.mem_cons] at hmem ⊢
        tauto

private theorem misplaced?_nil_eq_none {order : List String} :
    d.misplaced? [] order = none ↔ d.Ordered order := by
  simp only [misplaced?_eq_none, List.not_mem_nil, or_false, Ordered]

namespace Ordered
variable {order : List String}

private theorem idxOf_lt (h : d.Ordered order) {a b : String} (ha : a ∈ order)
    (hcalls : d.Calls a b) :
    order.idxOf b < order.idxOf a := by
  obtain ⟨before, behind, rfl, hfirst⟩ := List.eq_append_cons_of_mem ha
  have hb := h before a behind rfl b hcalls
  rw [List.idxOf_append_of_mem hb, List.idxOf_append_of_notMem hfirst, List.idxOf_cons_self]
  exact List.idxOf_lt_length_of_mem hb

theorem acyclic (h : d.Ordered order) (hall : ∀ name ∈ d.names, name ∈ order) (name : String) :
    ¬ Relation.TransGen d.Calls name name := by
  have hlower : ∀ {a b}, Relation.TransGen d.Calls a b → order.idxOf b < order.idxOf a := by
    intro a b hpath
    induction hpath with
    | single hcalls => exact h.idxOf_lt (hall _ hcalls.mem_names) hcalls
    | tail _ hcalls ih => exact (h.idxOf_lt (hall _ hcalls.mem_names) hcalls).trans ih
  intro hcycle
  exact Nat.lt_irrefl _ (hlower hcycle)

end Ordered

/-- All callers of every circuit in the list stand behind it. -/
inductive Settled (d : Design) : List String → Prop
  | nil : Settled d []
  | cons {name : String} {rest : List String} (callers : ∀ a, d.Calls a name → a ∈ rest)
    (settled : Settled d rest) : Settled d (name :: rest)

namespace Settled
variable {order : List String}

theorem suffix {before behind : List String} (h : d.Settled (before ++ behind)) :
    d.Settled behind := by
  induction before with
  | nil => exact h
  | cons name before ih =>
    cases h with
    | cons _ settled => exact ih settled

private theorem mem_behind (h : d.Settled order) {a b : String} (hb : b ∈ order)
    (hcalls : d.Calls a b) :
    ∃ before behind, order = before ++ b :: behind ∧ a ∈ behind := by
  obtain ⟨before, behind, rfl⟩ := List.append_of_mem hb
  refine ⟨before, behind, rfl, ?_⟩
  cases h.suffix with
  | cons callers _ => exact callers a hcalls

private theorem ordered (h : d.Settled order) (hnodup : order.Nodup)
    (hcallees : ∀ a b, d.Calls a b → b ∈ order) : d.Ordered order := by
  rintro before name behind rfl callee hcalls
  rcases List.mem_append.mp (hcallees name callee hcalls) with hmem | hmem
  · exact hmem
  · -- The circuit would stand behind itself.
    obtain ⟨before', behind', hsplit, hname⟩ := h.suffix.mem_behind hmem hcalls
    have hnot : name ∉ behind := (List.nodup_cons.mp (List.nodup_append'.mp hnodup).2.1).1
    cases before' with
    | nil =>
      obtain ⟨-, rfl⟩ := List.cons.inj hsplit
      exact absurd hname hnot
    | cons x before' =>
      obtain ⟨-, rfl⟩ := List.cons.inj hsplit
      exact absurd (List.mem_append_right _ (List.mem_cons_of_mem _ hname)) hnot

end Settled

/-! The search. -/

/-- Finished circuits have been seen, and are finished once. -/
structure Search.Sound (d : Design) (s : Search) : Prop where
  known : ∀ name ∈ s.seen, name ∈ d.names
  seen : ∀ name ∈ s.finished, name ∈ s.seen
  nodup : s.finished.Nodup

/-- What is seen on the way from `s` to `s'` is finished, and what was open in `s` still is. -/
structure Search.Leads (s s' : Search) : Prop where
  seen : ∀ name ∈ s.seen, name ∈ s'.seen
  finished : ∀ name ∈ s.finished, name ∈ s'.finished
  closed : ∀ name ∈ s'.seen, name ∈ s'.finished ∨ name ∈ s.seen
  kept : ∀ name ∈ s.seen, name ∈ s'.finished → name ∈ s.finished

namespace Search
variable {s s' s'' : Search} {name : String}

theorem Leads.refl (s : Search) : s.Leads s :=
  ⟨fun _ h => h, fun _ h => h, fun _ h => .inr h, fun _ _ h => h⟩

theorem Leads.trans (h : s.Leads s') (h' : s'.Leads s'') : s.Leads s'' where
  seen name hname := h'.seen name (h.seen name hname)
  finished name hname := h'.finished name (h.finished name hname)
  closed name hname := by
    rcases h'.closed name hname with hfinished | hseen
    · exact .inl hfinished
    · exact (h.closed name hseen).imp_left (h'.finished name)
  kept name hname hfinished := h.kept name hname (h'.kept name (h.seen name hname) hfinished)

theorem sound_start : Sound d {} :=
  ⟨List.forall_mem_nil _, List.forall_mem_nil _, List.nodup_nil⟩

theorem Sound.start (hs : s.Sound d) (hname : name ∈ d.names) :
    Sound d { s with seen := name :: s.seen } :=
  ⟨List.forall_mem_cons.mpr ⟨hname, hs.known⟩,
    fun x hx => List.mem_cons_of_mem name (hs.seen x hx), hs.nodup⟩

theorem Sound.finish (hs : s.Sound d) (hnew : name ∉ s.seen) (hs' : s'.Sound d)
    (hleads : Leads { s with seen := name :: s.seen } s') :
    Sound d { s' with finished := name :: s'.finished } ∧
      s.Leads { s' with finished := name :: s'.finished } := by
  have hopen : name ∈ s'.seen := hleads.seen name List.mem_cons_self
  have hunfinished : name ∉ s'.finished := fun hfinished =>
    hnew (hs.seen name (hleads.kept name List.mem_cons_self hfinished))
  refine ⟨⟨hs'.known, List.forall_mem_cons.mpr ⟨hopen, hs'.seen⟩,
    List.nodup_cons.mpr ⟨hunfinished, hs'.nodup⟩⟩, ?_⟩
  constructor
  case seen => exact fun x hx => hleads.seen x (List.mem_cons_of_mem name hx)
  case finished => exact fun x hx => List.mem_cons_of_mem name (hleads.finished x hx)
  case closed =>
    intro x hx
    rcases hleads.closed x hx with hfinished | hseen
    · exact .inl (List.mem_cons_of_mem name hfinished)
    · rcases List.mem_cons.mp hseen with rfl | hseen
      · exact .inl List.mem_cons_self
      · exact .inr hseen
  case kept =>
    intro x hx hfinished
    rcases List.mem_cons.mp hfinished with rfl | hfinished
    · exact absurd hx hnew
    · exact hleads.kept x (List.mem_cons_of_mem name hx) hfinished

end Search

section Visit
variable {depth : Nat} {s s' : Search} {name : String}

theorem visit_of_seen (h : name ∈ s.seen) : d.visit (depth + 1) s name = .ok s := by
  rw [visit, if_pos (List.contains_iff_mem.mpr h)]
  rfl

private theorem visit_of_self (h : name ∉ s.seen) (hself : name ∈ d.callers name) :
    d.visit (depth + 1) s name = .error (.selfInstance name) := by
  rw [visit, if_neg (mt List.contains_iff_mem.mp h)]
  simp only [if_pos (List.contains_iff_mem.mpr hself)]
  rfl

theorem visit_of_new (h : name ∉ s.seen) (hself : name ∉ d.callers name) :
    d.visit (depth + 1) s name =
      ((d.callers name).foldlM (d.visit depth) { s with seen := name :: s.seen }).map fun s' =>
        { s' with finished := name :: s'.finished } := by
  rw [visit, if_neg (mt List.contains_iff_mem.mp h)]
  simp only [if_neg (mt List.contains_iff_mem.mp hself)]
  rfl

/-- What a search that succeeds has done. A search that is not cut off has seen its start. -/
def Advances (d : Design) (depth : Nat) (s s' : Search) (names : List String) : Prop :=
  s'.Sound d ∧ s.Leads s' ∧ (depth ≠ 0 → ∀ name ∈ names, name ∈ s'.seen)

theorem foldlM_advances {names : List String}
    (hvisit : ∀ {s s' name}, s.Sound d → name ∈ d.names → d.visit depth s name = .ok s' →
      d.Advances depth s s' [name])
    (hs : s.Sound d) (hnames : ∀ name ∈ names, name ∈ d.names)
    (h : names.foldlM (d.visit depth) s = .ok s') : d.Advances depth s s' names := by
  induction names generalizing s with
  | nil =>
    cases h
    exact ⟨hs, .refl _, fun _ => List.forall_mem_nil _⟩
  | cons first names ih =>
    rw [List.forall_mem_cons] at hnames
    rw [List.foldlM_cons] at h
    cases hfirst : d.visit depth s first with
    | error fault =>
      rw [hfirst] at h
      cases h
    | ok s₁ =>
      rw [hfirst] at h
      obtain ⟨hs₁, hleads₁, hseen₁⟩ := hvisit hs hnames.1 hfirst
      obtain ⟨hs', hleads', hseen'⟩ := ih hs₁ hnames.2 h
      refine ⟨hs', hleads₁.trans hleads', fun hdepth => ?_⟩
      have hfirst := hleads'.seen first (hseen₁ hdepth first List.mem_cons_self)
      exact List.forall_mem_cons.mpr ⟨hfirst, hseen' hdepth⟩

theorem callers_subset (name : String) : ∀ a ∈ d.callers name, a ∈ d.names :=
  (List.filter_sublist.map _).subset

theorem visit_advances (hs : s.Sound d) (hname : name ∈ d.names)
    (h : d.visit depth s name = .ok s') : d.Advances depth s s' [name] := by
  induction depth generalizing s s' name with
  | zero =>
    cases h
    exact ⟨hs, .refl _, fun hdepth => absurd rfl hdepth⟩
  | succ depth ih =>
    by_cases hseen : name ∈ s.seen
    · rw [visit_of_seen hseen] at h
      cases h
      exact ⟨hs, .refl _, fun _ => List.forall_mem_singleton.mpr hseen⟩
    · by_cases hself : name ∈ d.callers name
      · rw [visit_of_self hseen hself] at h
        cases h
      · rw [visit_of_new hseen hself] at h
        cases hfold : (d.callers name).foldlM (d.visit depth) { s with seen := name :: s.seen } with
        | error fault =>
          rw [hfold] at h
          cases h
        | ok s₁ =>
          rw [hfold] at h
          cases h
          obtain ⟨hs₁, hleads, -⟩ :=
            foldlM_advances ih (hs.start hname) (callers_subset name) hfold
          obtain ⟨hs', hleads'⟩ := hs.finish hseen hs₁ hleads
          refine ⟨hs', hleads', fun _ => List.forall_mem_singleton.mpr ?_⟩
          exact hleads.seen name List.mem_cons_self

def unseen (d : Design) (s : Search) : Nat := (d.names.toFinset \ s.seen.toFinset).card

private theorem unseen_mono (h : s.Leads s') : d.unseen s' ≤ d.unseen s := by
  refine Finset.card_le_card (Finset.sdiff_subset_sdiff (Finset.Subset.refl _) ?_)
  intro name hname
  rw [List.mem_toFinset] at hname ⊢
  exact h.seen name hname

private theorem unseen_start (hname : name ∈ d.names) (hnew : name ∉ s.seen) :
    d.unseen { s with seen := name :: s.seen } < d.unseen s := by
  have hmem : name ∈ d.names.toFinset \ s.seen.toFinset := by
    rw [Finset.mem_sdiff, List.mem_toFinset, List.mem_toFinset]
    exact ⟨hname, hnew⟩
  rw [unseen, List.toFinset_cons, Finset.sdiff_insert]
  exact Finset.card_erase_lt_of_mem hmem

private theorem mem_seen_of_unseen_eq_zero (h : d.unseen s = 0) (hname : name ∈ d.names) :
    name ∈ s.seen := by
  rw [unseen, Finset.card_eq_zero, Finset.sdiff_eq_empty_iff_subset] at h
  exact List.mem_toFinset.mp (h (List.mem_toFinset.mpr hname))

def Under (d : Design) (s : Search) (name : String) : Prop :=
  ∀ g ∈ s.seen, g ∉ s.finished → Relation.TransGen d.Calls name g

private theorem Under.of_leads (h : d.Under s name) (hleads : s.Leads s') : d.Under s' name := by
  intro g hseen hopen
  have hbefore := (hleads.closed g hseen).resolve_left hopen
  exact h g hbefore fun hfinished => hopen (hleads.finished g hfinished)

/-- Without cycles, circuits below all open ones have been finished or not been seen. -/
theorem Under.mem_finished (h : d.Under s name)
    (hacyclic : ∀ name, ¬ Relation.TransGen d.Calls name name) (hseen : name ∈ s.seen) :
    name ∈ s.finished := by
  by_contra hopen
  exact hacyclic name (h name hseen hopen)

private theorem Under.start (h : d.Under s name) {caller : String} (hcalls : d.Calls caller name) :
    d.Under { s with seen := name :: s.seen } caller := by
  intro g hseen hopen
  rcases List.mem_cons.mp hseen with rfl | hseen
  · exact .single hcalls
  · exact .head hcalls (h g hseen hopen)

theorem exists_foldlM {names : List String}
    (hvisit : ∀ {s name}, s.Sound d → d.Settled s.finished → name ∈ d.names →
      d.unseen s ≤ depth → d.Under s name →
        ∃ s', d.visit depth s name = .ok s' ∧ d.Settled s'.finished ∧ name ∈ s'.finished)
    (hs : s.Sound d) (hsettled : d.Settled s.finished) (hnames : ∀ name ∈ names, name ∈ d.names)
    (hdepth : d.unseen s ≤ depth) (hunder : ∀ name ∈ names, d.Under s name) :
    ∃ s', names.foldlM (d.visit depth) s = .ok s' ∧ d.Settled s'.finished ∧
      ∀ name ∈ names, name ∈ s'.finished := by
  induction names generalizing s with
  | nil => exact ⟨s, rfl, hsettled, List.forall_mem_nil _⟩
  | cons first names ih =>
    rw [List.forall_mem_cons] at hnames hunder
    obtain ⟨s₁, hfirst, hsettled₁, hmem₁⟩ := hvisit hs hsettled hnames.1 hdepth hunder.1
    obtain ⟨hs₁, hleads₁, -⟩ := visit_advances hs hnames.1 hfirst
    obtain ⟨s', hrest, hsettled', hmem'⟩ := ih hs₁ hsettled₁ hnames.2
      ((unseen_mono hleads₁).trans hdepth) fun name hname =>
        (hunder.2 name hname).of_leads hleads₁
    obtain ⟨-, hleads', -⟩ := foldlM_advances visit_advances hs₁ hnames.2 hrest
    refine ⟨s', ?_, hsettled', List.forall_mem_cons.mpr ⟨hleads'.finished first hmem₁, hmem'⟩⟩
    rw [List.foldlM_cons, hfirst]
    exact hrest

private theorem exists_visit (hd : d.names.Nodup)
    (hacyclic : ∀ name, ¬ Relation.TransGen d.Calls name name) (hs : s.Sound d)
    (hsettled : d.Settled s.finished) (hname : name ∈ d.names) (hdepth : d.unseen s ≤ depth)
    (hunder : d.Under s name) :
    ∃ s', d.visit depth s name = .ok s' ∧ d.Settled s'.finished ∧ name ∈ s'.finished := by
  induction depth generalizing s name with
  | zero =>
    have hseen := mem_seen_of_unseen_eq_zero (Nat.le_zero.mp hdepth) hname
    exact ⟨s, rfl, hsettled, hunder.mem_finished hacyclic hseen⟩
  | succ depth ih =>
    by_cases hseen : name ∈ s.seen
    · exact ⟨s, visit_of_seen hseen, hsettled, hunder.mem_finished hacyclic hseen⟩
    · have hself : name ∉ d.callers name := fun hmem =>
        hacyclic name (.single ((mem_callers hd).mp hmem))
      have hless := unseen_start hname hseen
      obtain ⟨s₁, hfold, hsettled₁, hcallers⟩ := exists_foldlM ih (hs.start hname) hsettled
        (callers_subset name) (by omega) fun a ha => hunder.start ((mem_callers hd).mp ha)
      refine ⟨{ s₁ with finished := name :: s₁.finished }, ?_, ?_, List.mem_cons_self⟩
      · rw [visit_of_new hseen hself, hfold]
        rfl
      · exact .cons (fun a ha => hcallers a ((mem_callers hd).mpr ha)) hsettled₁

end Visit

/-! The result. -/

theorem order?_eq_ok {order : List String} : d.order? = .ok order ↔ d.Closed ∧
    ∃ s, d.names.foldlM (d.visit d.circuits.length) {} = .ok s ∧ d.Ordered s.finished ∧
      s.finished = order := by
  rw [← undefinedCallee?_eq_none, order?]
  cases d.undefinedCallee? with
  | some fault => exact iff_of_false nofun fun h => nomatch h.1
  | none =>
    cases d.names.foldlM (d.visit d.circuits.length) {} with
    | error fault => exact iff_of_false nofun nofun
    | ok s =>
      simp only [← misplaced?_nil_eq_none]
      constructor
      · intro h
        refine ⟨trivial, s, rfl, ?_⟩
        cases hmisplaced : d.misplaced? [] s.finished with
        | some fault =>
          simp only [Bind.bind, Except.bind, hmisplaced] at h
          cases h
        | none =>
          simp only [Bind.bind, Except.bind, hmisplaced] at h
          cases h
          exact ⟨rfl, rfl⟩
      · rintro ⟨-, s', hs, hmisplaced, rfl⟩
        cases hs
        simp only [Bind.bind, Except.bind, hmisplaced]
        rfl

private theorem dependencyOrder_of_not_closed (h : ¬ d.Closed) :
    ∃ c ∈ d.circuits, ∃ callee, c.Instantiates callee ∧ callee ∉ d.names ∧
      d.dependencyOrder = .error (.malformedStructure
        s!"Module `{c.name}' instantiates undefined module `{callee}'") := by
  cases hfault : d.undefinedCallee? with
  | none => exact absurd (undefinedCallee?_eq_none.mp hfault) h
  | some fault =>
    obtain ⟨c, hc, callee, hcallee, hundefined, rfl⟩ := of_undefinedCallee? hfault
    refine ⟨c, hc, callee, hcallee, hundefined, ?_⟩
    rw [dependencyOrder, order?, hfault]
    rfl

private theorem dependencyOrder_eq_ok {order : List String} :
    d.dependencyOrder = .ok order ↔ d.order? = .ok order := by
  rw [dependencyOrder]
  cases d.order? <;> simp [Except.mapError]

theorem perm_of_foldlM (hd : d.names.Nodup) {s : Search}
    (h : d.names.foldlM (d.visit d.circuits.length) {} = .ok s) : s.finished.Perm d.names := by
  obtain ⟨hs, hleads, hseen⟩ :=
    foldlM_advances visit_advances Search.sound_start (fun _ hname => hname) h
  refine (List.perm_ext_iff_of_nodup hs.nodup hd).mpr fun name => ⟨fun hname => ?_, fun hname => ?_⟩
  · exact hs.known name (hs.seen name hname)
  · have hdepth : d.circuits.length ≠ 0 := by
      obtain ⟨c, hc, -⟩ := mem_names.mp hname
      exact List.length_pos_of_mem hc |>.ne'
    exact (hleads.closed name (hseen hdepth name hname)).resolve_right List.not_mem_nil

/-- Without cycles the whole search succeeds, with every circuit behind its callees. -/
theorem exists_order (hd : d.names.Nodup) (hclosed : d.Closed)
    (hacyclic : ∀ name, ¬ Relation.TransGen d.Calls name name) :
    ∃ order, d.order? = .ok order := by
  have hdepth : d.unseen {} ≤ d.circuits.length := by
    rw [unseen, List.toFinset_nil, Finset.sdiff_empty]
    exact (List.toFinset_card_le d.names).trans_eq (List.length_map _)
  obtain ⟨s, hs, hsettled, hmem⟩ := exists_foldlM (exists_visit hd hacyclic) Search.sound_start
    .nil (fun _ hname => hname) hdepth fun name _ g hseen => absurd hseen List.not_mem_nil
  refine ⟨s.finished, order?_eq_ok.mpr ⟨hclosed, s, hs, ?_, rfl⟩⟩
  refine hsettled.ordered ((perm_of_foldlM hd hs).nodup_iff.mpr hd) fun a b hcalls => ?_
  exact hmem b (hclosed.callee_mem hcalls)

private theorem filterMap_find?_perm (hd : d.names.Nodup) {order : List String}
    (h : order.Perm d.names) :
    (order.filterMap d.find?).Perm d.circuits ∧
      (order.filterMap d.find?).map (·.name) = order := by
  have hcircuits : d.names.filterMap d.find? = d.circuits := by
    rw [names, List.filterMap_map]
    conv_rhs => rw [← List.filterMap_some (l := d.circuits)]
    exact List.filterMap_congr fun c hc => find?_of_mem hd hc
  refine ⟨hcircuits ▸ h.filterMap d.find?, ?_⟩
  rw [List.map_filterMap]
  conv_rhs => rw [← List.filterMap_some (l := order)]
  apply List.filterMap_congr
  intro name hname
  obtain ⟨c, hc, rfl⟩ := mem_names.mp (h.mem_iff.mp hname)
  rw [find?_of_mem hd hc]
  rfl

private theorem text_of_dependencyOrder {order : List String} (h : d.dependencyOrder = .ok order) :
    d.text = .ok (String.join ((order.filterMap d.find?).map fun c => c.text ++ "\n")) :=
  bind_of_ok h _

/-- A design has an order exactly when every circuit it has instances of is there and no circuit has
an instance of itself, directly or through others. In the order every circuit comes once and behind
its callees, and so they are written. A callee that is not there is reported as that, with cycles or
without. -/
theorem dependencyOrder_spec (hd : d.names.Nodup) :
    ((∃ order, d.dependencyOrder = .ok order) ↔
      (∀ c ∈ d.circuits, ∀ callee, c.Instantiates callee → callee ∈ d.names) ∧
      ∀ name, ¬ Relation.TransGen d.Calls name name) ∧
    (∀ order, d.dependencyOrder = .ok order → order.Perm d.names ∧
      (∀ before name behind, order = before ++ name :: behind →
        ∀ callee, d.Calls name callee → callee ∈ before) ∧
      ∃ circuits : List Circuit, circuits.Perm d.circuits ∧ circuits.map (·.name) = order ∧
        d.text = .ok (String.join (circuits.map fun c => c.text ++ "\n"))) ∧
    ((∃ c ∈ d.circuits, ∃ callee, c.Instantiates callee ∧ callee ∉ d.names) →
      ∃ c ∈ d.circuits, ∃ callee, c.Instantiates callee ∧ callee ∉ d.names ∧
        d.dependencyOrder = .error (.malformedStructure
          s!"Module `{c.name}' instantiates undefined module `{callee}'")) := by
  refine ⟨⟨?_, ?_⟩, fun order horder => ?_, ?_⟩
  · rintro ⟨order, horder⟩
    obtain ⟨hclosed, s, hs, hordered, rfl⟩ := order?_eq_ok.mp (dependencyOrder_eq_ok.mp horder)
    exact ⟨hclosed, hordered.acyclic fun name hname =>
      (perm_of_foldlM hd hs).mem_iff.mpr hname⟩
  · rintro ⟨hclosed, hacyclic⟩
    obtain ⟨order, horder⟩ := exists_order hd hclosed hacyclic
    exact ⟨order, dependencyOrder_eq_ok.mpr horder⟩
  · obtain ⟨-, s, hs, hordered, rfl⟩ := order?_eq_ok.mp (dependencyOrder_eq_ok.mp horder)
    have hperm := perm_of_foldlM hd hs
    obtain ⟨hcircuits, hnames⟩ := filterMap_find?_perm hd hperm
    exact ⟨hperm, hordered, _, hcircuits, hnames, text_of_dependencyOrder horder⟩
  · rintro ⟨c, hc, callee, hcallee, hundefined⟩
    exact dependencyOrder_of_not_closed fun hclosed => hundefined (hclosed c hc callee hcallee)

theorem monitored_dependencyOrder : monitored.names.Nodup ∧
    monitored.dependencyOrder = .ok ["Checker", "Monitor"] ∧
    (∀ name, ¬ Relation.TransGen monitored.Calls name name) ∧
    ∃ circuits : List Circuit, circuits.Perm [checker, monitor] ∧
      monitored.text = .ok (String.join (circuits.map fun c => c.text ++ "\n")) := by
  have hd : monitored.names.Nodup := by decide
  have horder : monitored.dependencyOrder = .ok ["Checker", "Monitor"] := rfl
  obtain ⟨hiff, hok, -⟩ := dependencyOrder_spec hd
  obtain ⟨-, -, circuits, hcircuits, -, htext⟩ := hok _ horder
  exact ⟨hd, horder, (hiff.mp ⟨_, horder⟩).2, circuits, hcircuits, htext⟩

end Design
end ChannelCodec
