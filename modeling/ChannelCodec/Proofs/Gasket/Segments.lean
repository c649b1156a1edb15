import ChannelCodec.Proofs.Design.Growing
import ChannelCodec.Proofs.Gasket.Inserts

/-! Segments under arbitrary use. Whatever is put into a segment and in whatever order, and whatever
else is built meanwhile, a segment takes exactly the values that have room, and the finished message
shows exactly the values that it took. -/
namespace ChannelCodec

/-- A segment of `size` bits is in use: values are put into it, with success or without, room is
taken, and the circuit grows. The inserts are those that were accepted, the last one first. -/
inductive Segment.Use (size : Nat) : Builder → List Insert → Segment → Prop
  | fresh (b : Builder) : Use size b [] { size }
  | accept {b b' : Builder} {inserts : List Insert} {s s' : Segment} {start value : Nat}
    (use : Use size b inserts s) (accepted : s.insert start value b = .ok s' b') :
    Use size b' (⟨start, value⟩ :: inserts) s'
  | refuse {b b' : Builder} {inserts : List Insert} {s : Segment} {start value : Nat}
    {failure : Failure} (use : Use size b inserts s)
    (refused : s.insert start value b = .error failure b') : Use size b' inserts s
  | alloc {b : Builder} {inserts : List Insert} {s : Segment} (use : Use size b inserts s)
    (bits : Nat) : Use size b inserts (s.alloc bits).2
  | grow {b b' : Builder} {inserts : List Insert} {s : Segment} (use : Use size b inserts s)
    (grows : b.circuit.Extends b'.circuit) : Use size b' inserts s

namespace Segment
variable {b b' : Builder} {c c' : Circuit} {s s' : Segment} {inserts inserts' : List Insert}
variable {start value : Nat} {t : HwType}

private theorem insert_of_past (ht : b.circuit.type? value = some t) (hpos : 0 < t.bitWidth)
    (hpast : s.size < start + t.bitWidth) : s.insert start value b =
      .error (.misuse (.insertPastEnd start (start + t.bitWidth) s.size)) b := by
  simp only [insert, Bind.bind, EStateM.bind, Build.widthOf_eq ht,
    if_neg (Nat.ne_of_gt hpos), Build.require, if_neg (Nat.not_le.mpr hpast)]
  rfl

private theorem insert_of_overlap {q : Placed} (ht : b.circuit.type? value = some t)
    (hpos : 0 < t.bitWidth) (hfits : start + t.bitWidth ≤ s.size)
    (hlast : s.lastBefore? (start + t.bitWidth) = some q) (hover : start < q.stop) :
    s.insert start value b =
      .error (.misuse (.insertOverlap start (start + t.bitWidth) q.start q.stop)) b := by
  simp only [insert, Bind.bind, EStateM.bind, Build.widthOf_eq ht,
    if_neg (Nat.ne_of_gt hpos), Build.require, if_pos hfits, hlast,
    if_neg (Nat.not_le.mpr hover)]
  rfl

private theorem insert_of_unknown (ht : b.circuit.type? value = none) :
    s.insert start value b = .error (.misuse (.unknownValue value)) b := by
  have htype : Build.typeOf value b = .error (.misuse (.unknownValue value)) b := by
    show Build.expect (b.circuit.type? value) _ b = _
    rw [ht]
    rfl
  simp only [insert, Bind.bind, EStateM.bind, Build.widthOf, htype]

/-- The last value in front of a position reaches as far as any other one there. -/
theorem exists_lastBefore? (hsolid : ∀ q ∈ s.placed, q.start < q.stop)
    (hsorted : s.placed.Pairwise fun q q' => q.stop ≤ q'.start) {stop : Nat} {q : Placed}
    (hq : q ∈ s.placed) (hlt : q.start < stop) :
    ∃ last, s.lastBefore? stop = some last ∧ q.stop ≤ last.stop := by
  unfold lastBefore?
  generalize s.placed = placed at *
  induction placed with
  | nil => cases hq
  | cons a placed ih =>
    rw [List.forall_mem_cons] at hsolid
    obtain ⟨hfirst, hrest⟩ := List.pairwise_cons.mp hsorted
    rcases List.mem_cons.mp hq with rfl | hq
    · rw [List.takeWhile_cons_of_pos (by simpa using hlt), List.getLast?_cons]
      refine ⟨_, rfl, ?_⟩
      cases hlast : (placed.takeWhile fun x => decide (x.start < stop)).getLast? with
      | none => exact Nat.le_refl _
      | some last =>
        have hmem := (List.takeWhile_subset _) (List.mem_of_getLast? hlast)
        have hqlast := hfirst last hmem
        have hlast := hsolid.2 last hmem
        dsimp only [Option.getD_some]
        omega
    · have haq := hfirst q hq
      have ha := hsolid.1
      obtain ⟨last, hlast, hle⟩ := ih hsolid.2 hrest hq
      refine ⟨last, ?_, hle⟩
      rw [List.takeWhile_cons_of_pos (by simp only [decide_eq_true_eq]; omega),
        List.getLast?_cons, hlast]
      rfl

namespace Tracks

theorem placed_eq (h : s.Tracks c inserts) (h' : s'.Tracks c inserts')
    (hp : inserts.Perm inserts') : s.placed = s'.placed := by
  have hperm := h.placed.trans ((hp.filterMap _).trans h'.placed.symm)
  refine hperm.eq_of_pairwise (fun q q' hq hq' hle hle' => ?_) h.sorted h'.sorted
  have hq := h.solid q hq
  have hq' := h'.solid q' hq'
  omega

private theorem fits (h : s.Tracks c inserts) : ∀ p ∈ inserts, ∃ t, c.type? p.value = some t ∧
    (0 < t.bitWidth → p.start + t.bitWidth ≤ s.size) := by
  intro p hp
  obtain ⟨t, ht⟩ := h.types p hp
  refine ⟨t, ht, fun hpos => ?_⟩
  exact h.inside _ (h.mem_placed.mpr ⟨p, hp, Insert.placed?_of_pos ht hpos⟩)

private theorem apart (h : s.Tracks c inserts) :
    inserts.Pairwise fun p p' => ¬ p.Overlaps c p' := by
  have horder : s.placed.Pairwise fun q q' => q.stop ≤ q'.start ∨ q'.stop ≤ q.start :=
    h.sorted.imp fun hle => .inl hle
  rw [h.placed.pairwise_iff (fun hq => hq.symm), List.pairwise_filterMap] at horder
  refine horder.imp fun {p p'} hplaced => ?_
  rintro ⟨i, ⟨t, ht, hle, hlt⟩, u, hu, hle', hlt'⟩
  have hq := hplaced _ (Insert.placed?_of_pos ht (by omega)) _
    (Insert.placed?_of_pos hu (by omega))
  dsimp only at hq
  omega

theorem refuses (h : s.Tracks b.circuit inserts) (ht : b.circuit.type? value = some t)
    (hpos : 0 < t.bitWidth) (hroom : s.size < start + t.bitWidth ∨
      ∃ p ∈ inserts, Insert.Overlaps b.circuit ⟨start, value⟩ p) :
    ∃ mistake, s.insert start value b = .error (.misuse mistake) b := by
  by_cases hpast : s.size < start + t.bitWidth
  · exact ⟨_, insert_of_past ht hpos hpast⟩
  · obtain ⟨q, hq, hlt, hover⟩ := (h.overlaps_iff ht hpos).mp (hroom.resolve_left hpast)
    obtain ⟨last, hlast, hle⟩ := exists_lastBefore? h.solid h.sorted hq hlt
    exact ⟨_, insert_of_overlap ht hpos (Nat.le_of_not_lt hpast) hlast
      (Nat.lt_of_lt_of_le hover hle)⟩

theorem insert_cases (h : s.Tracks b.circuit inserts) (start value : Nat) :
    (∃ s', s.insert start value b = .ok s' b ∧
      s'.Tracks b.circuit (⟨start, value⟩ :: inserts) ∧ s'.size = s.size) ∨
    ∃ failure, s.insert start value b = .error failure b := by
  cases ht : b.circuit.type? value with
  | none => exact .inr ⟨_, insert_of_unknown ht⟩
  | some t =>
    by_cases hroom : 0 < t.bitWidth ∧ (s.size < start + t.bitWidth ∨
      ∃ p ∈ inserts, Insert.Overlaps b.circuit ⟨start, value⟩ p)
    · obtain ⟨mistake, hrefused⟩ := h.refuses ht hroom.1 hroom.2
      exact .inr ⟨_, hrefused⟩
    · have hfree : ∀ p ∈ inserts, ¬ Insert.Overlaps b.circuit ⟨start, value⟩ p := by
        intro p hp hover
        refine hroom ⟨?_, .inr ⟨p, hp, hover⟩⟩
        obtain ⟨i, ⟨t', ht', hle, hlt⟩, -⟩ := hover
        obtain rfl := Option.some.inj (ht.symm.trans ht')
        omega
      obtain ⟨s', hinsert, htracks, hsize, -⟩ := h.accepts ht (by omega) hfree
      exact .inl ⟨s', hinsert, htracks, hsize⟩

theorem refill (h : s.Tracks b.circuit inserts)
    (hfits : ∀ p ∈ inserts', ∃ t, b.circuit.type? p.value = some t ∧
      (0 < t.bitWidth → p.start + t.bitWidth ≤ s.size))
    (hapart : (inserts' ++ inserts).Pairwise fun p p' => ¬ p.Overlaps b.circuit p') :
    ∃ s', inserts'.foldlM (fun s p => s.insert p.start p.value) s b = .ok s' b ∧
      s'.Tracks b.circuit (inserts'.reverse ++ inserts) ∧ s'.size = s.size := by
  induction inserts' generalizing s inserts with
  | nil => exact ⟨s, rfl, h, rfl⟩
  | cons p rest ih =>
    obtain ⟨⟨t, ht, hfit⟩, hfits⟩ := List.forall_mem_cons.mp hfits
    obtain ⟨hfirst, -⟩ := List.pairwise_cons.mp hapart
    obtain ⟨s₁, hinsert, hs₁, hsize₁, -⟩ := h.accepts ht hfit fun p' hp' =>
      hfirst p' (List.mem_append_right _ hp')
    have hapart₁ : (rest ++ p :: inserts).Pairwise fun p p' => ¬ p.Overlaps b.circuit p' :=
      (List.perm_middle.pairwise_iff fun hp hover => hp hover.symm).mpr hapart
    obtain ⟨s', hrest, hs', hsize'⟩ := ih hs₁ (hsize₁ ▸ hfits) hapart₁
    refine ⟨s', ?_, ?_, hsize'.trans hsize₁⟩
    · simp only [List.foldlM_cons, Bind.bind, EStateM.bind, hinsert]
      exact hrest
    · rwa [List.reverse_cons, List.append_assoc, List.singleton_append]

end Tracks

private theorem Use.tracks {size : Nat} (h : Use size b inserts s) :
    s.Tracks b.circuit inserts ∧ s.size = size := by
  induction h with
  | fresh b => exact ⟨tracks_fresh size 0, rfl⟩
  | accept _ accepted ih =>
    rcases ih.1.insert_cases _ _ with ⟨s'', hs, htracks, hsize⟩ | ⟨failure, hs⟩
    · rw [hs] at accepted
      cases accepted
      exact ⟨htracks, hsize.trans ih.2⟩
    · rw [hs] at accepted
      cases accepted
  | refuse _ refused ih =>
    rcases ih.1.insert_cases _ _ with ⟨s'', hs, htracks, hsize⟩ | ⟨failure, hs⟩
    · rw [hs] at refused
      cases refused
    · rw [hs] at refused
      cases refused
      exact ih
  | alloc _ bits ih => exact ⟨ih.1.alloc bits, ih.2⟩
  | grow _ grows ih => exact ⟨ih.1.mono grows, ih.2⟩

private theorem finish_congr (hsize : s.size = s'.size) (hplaced : s.placed = s'.placed) :
    s.finish = s'.finish := by
  rw [finish, finish, hsize, hplaced]

/-- In whatever order the values are put into a new segment, they are accepted and make the same
message. -/
theorem Tracks.reorder (h : s.Tracks b.circuit inserts) (hp : inserts'.Perm inserts) :
    ∃ s', inserts'.foldlM (fun s p => Segment.insert s p.start p.value) { size := s.size } b =
      .ok s' b ∧ s'.finish = s.finish := by
  have hfits : ∀ p ∈ inserts', ∃ t, b.circuit.type? p.value = some t ∧
      (0 < t.bitWidth → p.start + t.bitWidth ≤ s.size) := fun p hmem =>
    h.fits p (hp.mem_iff.mp hmem)
  have hapart : inserts'.Pairwise fun p p' => ¬ p.Overlaps b.circuit p' :=
    (hp.pairwise_iff fun hapart hover => hapart hover.symm).mpr h.apart
  obtain ⟨s', hs', htracks, hsize⟩ :=
    (tracks_fresh s.size 0).refill hfits (by rwa [List.append_nil])
  refine ⟨s', hs', finish_congr hsize (htracks.placed_eq h ?_)⟩
  rw [List.append_nil]
  exact (List.reverse_perm _).trans hp

private theorem exists_run_output {d : Design} (hd : d.WellBuilt) {name : String}
    (hc : d.find? name = some c) {given : List (String × Bits)} {inputs : List Bits}
    (hgiven : List.Forall₂ (fun port x => given.lookup port.name = some x ∧
      x.width = port.type.bitWidth) c.inputPorts inputs)
    (hnames : ∀ p ∈ given, ∃ port ∈ c.inputPorts, port.name = p.1) :
    c.WellTyped d.Has ∧ (d.setting inputs).Sized d.Has c ∧ ∃ r, d.run name given = .ok r ∧
      ∀ (k v : Nat), c.outputs[k]? = some v → ∃ port, c.outputPorts[k]? = some port ∧
        r.outputs[k]? = some (port.name, c.meaning (d.setting inputs) v) := by
  obtain ⟨r, hrun, houtputs, -⟩ := hd.run_outputs hc hgiven hnames
  refine ⟨hd.wellTyped hc, hd.sized hc (hgiven.imp fun _ _ hx => hx.2), r, hrun, fun k v hv => ?_⟩
  have hlength := (hd.drives hc).outputs.length_eq
  obtain ⟨hk, -⟩ := List.getElem?_eq_some_iff.mp hv
  have hport := List.getElem?_eq_getElem (hlength ▸ hk)
  refine ⟨_, hport, ?_⟩
  rw [houtputs, hd.reference_eq hc, List.getElem?_zip_eq_some, List.getElem?_map,
    List.getElem?_map, hport, hv]
  exact ⟨rfl, rfl⟩

/-- A segment takes exactly what has room in it, and makes a message of exactly what it took. -/
theorem Use.assembles {size : Nat} (hpos : 0 < size) (h : Use size b inserts s) :
    (∀ start value t, b.circuit.type? value = some t →
      (t.bitWidth = 0 → s.insert start value b = .ok s b) ∧
      (0 < t.bitWidth →
        ((∃ mistake, s.insert start value b = .error (.misuse mistake) b) ↔
          size < start + t.bitWidth ∨
            ∃ p ∈ inserts, Insert.Overlaps b.circuit ⟨start, value⟩ p) ∧
        ((∃ s', s.insert start value b = .ok s' b) ↔
          ¬ (size < start + t.bitWidth ∨
            ∃ p ∈ inserts, Insert.Overlaps b.circuit ⟨start, value⟩ p)))) ∧
    ∃ v b', s.finish b = .ok v b' ∧ b.Adds b' ∧ b'.circuit.type? v = some (.bitArray size) ∧
      (b'.circuit.Henceforth fun c e => (c.meaning e v).width = size ∧
        (c.meaning e v).Shows (inserts.map (Insert.piece c e))) ∧
      (∀ (d : Design) name c given inputs, d.WellBuilt → d.find? name = some c →
        b'.circuit.Extends c →
        List.Forall₂ (fun port x => given.lookup port.name = some x ∧
          x.width = port.type.bitWidth) c.inputPorts inputs →
        (∀ p ∈ given, ∃ port ∈ c.inputPorts, port.name = p.1) →
        ∃ r, d.run name given = .ok r ∧ ∀ k : Nat, c.outputs[k]? = some v →
          ∃ port m, c.outputPorts[k]? = some port ∧ r.outputs[k]? = some (port.name, m) ∧
            m.width = size ∧ m.Shows (inserts.map (Insert.piece c (d.setting inputs)))) ∧
      ∀ inserts' : List Insert, inserts'.Perm inserts → ∃ s',
        inserts'.foldlM (fun s p => Segment.insert s p.start p.value) { size } b = .ok s' b ∧
          s'.finish b = .ok v b' := by
  obtain ⟨htracks, rfl⟩ := h.tracks
  refine ⟨fun start value t ht => ⟨insert_of_zero ht, fun hpos => ?_⟩, ?_⟩
  · by_cases hroom : s.size < start + t.bitWidth ∨
      ∃ p ∈ inserts, Insert.Overlaps b.circuit ⟨start, value⟩ p
    · obtain ⟨mistake, hs⟩ := htracks.refuses ht hpos hroom
      exact ⟨iff_of_true ⟨mistake, hs⟩ hroom, iff_of_false (by simp [hs]) (not_not_intro hroom)⟩
    · rw [not_or, not_exists] at hroom
      obtain ⟨s', hs, -⟩ := htracks.accepts ht (fun _ => Nat.le_of_not_lt hroom.1)
        fun p hp hover => hroom.2 p ⟨hp, hover⟩
      rw [← not_exists, ← not_or] at hroom
      exact ⟨iff_of_false (by simp [hs]) hroom, iff_of_true ⟨s', hs⟩ hroom⟩
  · obtain ⟨v, b', hfinish, hg, htype, hshows⟩ := htracks.finish_adds hpos
    refine ⟨v, b', hfinish, hg, htype, hshows, ?_, fun inserts' hp => ?_⟩
    · intro d name c given inputs hd hc hx hgiven hnames
      obtain ⟨htyped, hsized, r, hrun, houtputs⟩ := exists_run_output hd hc hgiven hnames
      refine ⟨r, hrun, fun k hk => ?_⟩
      obtain ⟨port, hport, hr⟩ := houtputs k v hk
      exact ⟨port, _, hport, hr, hshows d.Has c _ hx htyped hsized⟩
    · obtain ⟨s', hs', hsame⟩ := htracks.reorder hp
      exact ⟨s', hs', hsame ▸ hfinish⟩

/-! A message of four bits, with an input of two bits in its middle. -/

def slotPorts : List Port := [⟨.input, "x", .bits 2⟩, ⟨.output, "y", .bitArray 4⟩]

def slotStart : Circuit where
  name := "Slot"
  ports := slotPorts
  values := ⟨#[⟨.bits 2, .input 0, some "x"⟩]⟩
  names := .reserving ["x", "y"]

def slotSegment : Segment := { size := 4, placed := [⟨1, 3, 0⟩] }

def slotCalls : List BuildCall :=
  [.constant (.bits 1) (.zero 1), .bitcast 1 (.bitArray 1), .constant (.bits 1) (.zero 1),
    .bitcast 3 (.bitArray 1), .bitcast 0 (.bitArray 2), .arrayConcat [4, 5, 2], .output [6]]

def slotCircuit : Circuit where
  name := "Slot"
  ports := slotPorts
  values := ⟨#[⟨.bits 2, .input 0, some "x"⟩, ⟨.bits 1, .result 0 0, none⟩,
    ⟨.bitArray 1, .result 1 0, none⟩, ⟨.bits 1, .result 2 0, none⟩,
    ⟨.bitArray 1, .result 3 0, none⟩, ⟨.bitArray 2, .result 4 0, none⟩,
    ⟨.bitArray 4, .result 5 0, none⟩]⟩
  operations := ⟨#[⟨.compute (.constant (.zero 1)), [], [1], .body⟩,
    ⟨.compute .bitcast, [1], [2], .body⟩, ⟨.compute (.constant (.zero 1)), [], [3], .body⟩,
    ⟨.compute .bitcast, [3], [4], .body⟩, ⟨.compute .bitcast, [0], [5], .body⟩,
    ⟨.compute .arrayConcat, [4, 5, 2], [6], .body⟩]⟩
  outputs := [6]
  names := .reserving ["x", "y"]

def slotDesign : Design := { circuits := [slotCircuit] }

private theorem wellBuilt_slotDesign : slotDesign.WellBuilt := by
  refine .of_single (⟨"Slot", slotPorts, slotStart, rfl, rfl⟩ : slotCircuit.BuiltBy slotCalls)
    ⟨[6], ?_⟩ ?_ rfl
  · exact List.getLast_mem (List.cons_ne_nil _ _)
  · simp [slotCalls, BuildCall.Respects]

theorem slotSegment_assembles :
    (∃ mistake, slotSegment.insert 2 0 { circuit := slotStart } =
      .error (.misuse mistake) { circuit := slotStart }) ∧
    ∃ r m, slotDesign.run "Slot" [("x", .ofNat 2 3)] = .ok r ∧
      r.outputs[0]? = some ("y", m) ∧ m.Shows [⟨1, .ofNat 2 3⟩] := by
  have huse : Use 4 { circuit := slotStart } [⟨1, 0⟩] slotSegment :=
    .accept (.fresh { circuit := slotStart }) rfl
  obtain ⟨hinsert, v, b', hfinish, -, -, -, hrun, -⟩ := huse.assembles (by decide)
  refine ⟨(((hinsert 2 0 (.bits 2) rfl).2 (by decide)).1).mpr (.inr ?_), ?_⟩
  · exact ⟨⟨1, 0⟩, List.mem_cons_self, 2, ⟨.bits 2, rfl, by decide⟩, ⟨.bits 2, rfl, by decide⟩⟩
  · cases hfinish
    obtain ⟨r, hr, houtputs⟩ := hrun slotDesign "Slot" slotCircuit [("x", .ofNat 2 3)]
      [.ofNat 2 3] wellBuilt_slotDesign rfl ⟨rfl, rfl, fun _ x hx => ⟨x, hx, rfl, rfl⟩,
        fun _ _ ho => ho⟩ (.cons ⟨rfl, rfl⟩ .nil) (by decide)
    obtain ⟨port, m, hport, hm, -, hshows⟩ := houtputs 0 rfl
    cases hport
    refine ⟨r, m, hr, hm, ?_⟩
    have hx : slotCircuit.meaning (slotDesign.setting [.ofNat 2 3]) 0 = .ofNat 2 3 :=
      Circuit.meaning_input (x := ⟨.bits 2, .input 0, some "x"⟩) rfl rfl
    rwa [List.map_singleton, Insert.piece, hx] at hshows

end Segment

end ChannelCodec
