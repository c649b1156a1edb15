import ChannelCodec.Gasket.Segment
import ChannelCodec.Proofs.Bits.Pieces
import ChannelCodec.Proofs.Gasket.Growing
import Mathlib.Data.List.Forall2
import Mathlib.Data.List.TakeWhile

/-! Inserting into segments. A segment keeps the values it takes in order and apart from each other,
and the finished message shows exactly these. -/
namespace ChannelCodec

structure Insert where
  start : Nat
  value : Nat
deriving DecidableEq, Repr

namespace Insert
variable {c c' : Circuit} {p p' : Insert} {q : Placed}

def Takes (c : Circuit) (p : Insert) (i : Nat) : Prop :=
  ∃ t, c.type? p.value = some t ∧ p.start ≤ i ∧ i < p.start + t.bitWidth

def Overlaps (c : Circuit) (p p' : Insert) : Prop := ∃ i, p.Takes c i ∧ p'.Takes c i

def piece (c : Circuit) (e : Setting) (p : Insert) : Piece := ⟨p.start, c.meaning e p.value⟩

/-- The value at its place, if it has bits. -/
def placed? (c : Circuit) (p : Insert) : Option Placed :=
  (c.type? p.value).bind fun t =>
    if t.bitWidth = 0 then none else some ⟨p.start, p.start + t.bitWidth, p.value⟩

theorem placed?_eq_some : p.placed? c = some q ↔ ∃ t, c.type? p.value = some t ∧
    0 < t.bitWidth ∧ q = ⟨p.start, p.start + t.bitWidth, p.value⟩ := by
  simp only [placed?, Option.bind_eq_some_iff, Option.ite_none_left_eq_some, Option.some.injEq,
    Nat.pos_iff_ne_zero, eq_comm (b := q)]

private theorem placed?_of_zero {t : HwType} (ht : c.type? p.value = some t) (hz : t.bitWidth = 0) :
    p.placed? c = none := by
  rw [placed?, ht, Option.bind_some, if_pos hz]

theorem placed?_of_pos {t : HwType} (ht : c.type? p.value = some t) (hpos : 0 < t.bitWidth) :
    p.placed? c = some ⟨p.start, p.start + t.bitWidth, p.value⟩ :=
  placed?_eq_some.mpr ⟨t, ht, hpos, rfl⟩

theorem Overlaps.symm (h : p.Overlaps c p') : p'.Overlaps c p := by
  obtain ⟨i, hp, hp'⟩ := h
  exact ⟨i, hp', hp⟩

end Insert

/-- The segment holds the values of the inserts that have bits, in order, inside its bounds and
apart from each other. -/
structure Segment.Tracks (c : Circuit) (s : Segment) (inserts : List Insert) : Prop where
  types : ∀ p ∈ inserts, ∃ t, c.type? p.value = some t
  placed : s.placed.Perm (inserts.filterMap (·.placed? c))
  sorted : s.placed.Pairwise fun q q' => q.stop ≤ q'.start
  inside : ∀ q ∈ s.placed, q.stop ≤ s.size

namespace Segment
variable {b b' : Builder} {c c' : Circuit} {s : Segment} {inserts : List Insert}
variable {start value : Nat} {t : HwType}

/-! What one insert does. -/

theorem insert_of_zero (ht : b.circuit.type? value = some t) (hz : t.bitWidth = 0) :
    s.insert start value b = .ok s b := by
  have hstep : Succeeds (s.insert start value) b fun s' b' => s' = s ∧ b' = b := by
    refine .step (Build.widthOf_eq ht) ?_
    rw [if_pos hz]
    exact .pure ⟨rfl, rfl⟩
  obtain ⟨s', b', hs, rfl, rfl⟩ := hstep
  exact hs

private theorem insert_of_free (ht : b.circuit.type? value = some t) (hpos : 0 < t.bitWidth)
    (hfits : start + t.bitWidth ≤ s.size)
    (hfree : ∀ q, s.lastBefore? (start + t.bitWidth) = some q → q.stop ≤ start) :
    s.insert start value b =
      .ok { s with placed := insertPlaced ⟨start, start + t.bitWidth, value⟩ s.placed } b := by
  have hstep : Succeeds (s.insert start value) b fun s' b' => s' =
      { s with placed := insertPlaced ⟨start, start + t.bitWidth, value⟩ s.placed } ∧ b' = b := by
    refine .step (Build.widthOf_eq ht) ?_
    rw [if_neg (Nat.ne_of_gt hpos)]
    refine .step (Build.require_eq hfits _ b) ?_
    dsimp only
    cases hlast : s.lastBefore? (start + t.bitWidth) with
    | none => exact .pure ⟨rfl, rfl⟩
    | some q => exact .step (Build.require_eq (hfree q hlast) _ b) (.pure ⟨rfl, rfl⟩)
  obtain ⟨s', b', hs, rfl, rfl⟩ := hstep
  exact hs

/-! Where the values lie. -/

private theorem insertPlaced_perm (p : Placed) (placed : List Placed) :
    (insertPlaced p placed).Perm (p :: placed) := by
  induction placed with
  | nil => exact .refl _
  | cons q placed ih =>
    rw [insertPlaced]
    split
    · exact (ih.cons q).trans (.swap p q placed)
    · exact .refl _

private theorem pairwise_insertPlaced {p : Placed} {placed : List Placed} (hp : p.start < p.stop)
    (hsolid : ∀ q ∈ placed, q.start < q.stop)
    (hsorted : placed.Pairwise fun q q' => q.stop ≤ q'.start)
    (hapart : ∀ q ∈ placed, q.stop ≤ p.start ∨ p.stop ≤ q.start) :
    (insertPlaced p placed).Pairwise fun q q' => q.stop ≤ q'.start := by
  induction placed with
  | nil => exact List.pairwise_singleton _ _
  | cons q placed ih =>
    rw [List.forall_mem_cons] at hsolid hapart
    obtain ⟨hfirst, hrest⟩ := List.pairwise_cons.mp hsorted
    rw [insertPlaced]
    by_cases hlt : q.start < p.start
    · rw [if_pos hlt]
      refine List.pairwise_cons.mpr ⟨fun x hx => ?_, ih hsolid.2 hrest hapart.2⟩
      rcases List.mem_cons.mp ((insertPlaced_perm p placed).mem_iff.mp hx) with rfl | hx
      · omega
      · exact hfirst x hx
    · rw [if_neg hlt]
      refine List.pairwise_cons.mpr ⟨fun x hx => ?_, hsorted⟩
      have hpq : p.stop ≤ q.start := by omega
      rcases List.mem_cons.mp hx with rfl | hx
      · exact hpq
      · have hqx := hfirst x hx
        omega

private theorem mem_of_lastBefore? {stop : Nat} {q : Placed} (h : s.lastBefore? stop = some q) :
    q ∈ s.placed ∧ q.start < stop := by
  have hmem : q ∈ s.placed.takeWhile (·.start < stop) := List.mem_of_getLast? h
  refine ⟨(List.takeWhile_subset _) hmem, ?_⟩
  have hlt := List.mem_takeWhile_imp hmem
  simpa using hlt

namespace Tracks

theorem mem_placed (h : s.Tracks c inserts) {q : Placed} :
    q ∈ s.placed ↔ ∃ p ∈ inserts, p.placed? c = some q := by
  rw [h.placed.mem_iff, List.mem_filterMap]

theorem solid (h : s.Tracks c inserts) : ∀ q ∈ s.placed, q.start < q.stop := by
  intro q hq
  obtain ⟨p, -, hp⟩ := h.mem_placed.mp hq
  obtain ⟨t, -, hpos, rfl⟩ := Insert.placed?_eq_some.mp hp
  exact Nat.lt_add_of_pos_right hpos

theorem mono (h : s.Tracks c inserts) (hx : c.Extends c') : s.Tracks c' inserts := by
  have htype : ∀ p ∈ inserts, c'.type? p.value = c.type? p.value := by
    intro p hp
    obtain ⟨t, ht⟩ := h.types p hp
    exact hx.type? (Circuit.lt_of_type? ht)
  refine ⟨fun p hp => htype p hp ▸ h.types p hp, ?_, h.sorted, h.inside⟩
  have hplaced : inserts.filterMap (·.placed? c') = inserts.filterMap (·.placed? c) := by
    apply List.filterMap_congr
    intro p hp
    rw [Insert.placed?, htype p hp, Insert.placed?]
  rw [hplaced]
  exact h.placed

theorem alloc (h : s.Tracks c inserts) (bits : Nat) : (s.alloc bits).2.Tracks c inserts :=
  ⟨h.types, h.placed, h.sorted, h.inside⟩

private theorem cons_of_zero (h : s.Tracks c inserts) (ht : c.type? value = some t)
    (hz : t.bitWidth = 0) :
    s.Tracks c (⟨start, value⟩ :: inserts) := by
  refine ⟨List.forall_mem_cons.mpr ⟨⟨t, ht⟩, h.types⟩, ?_, h.sorted, h.inside⟩
  rw [List.filterMap_cons_none (Insert.placed?_of_zero ht hz)]
  exact h.placed

private theorem cons_of_pos (h : s.Tracks c inserts) (ht : c.type? value = some t)
    (hpos : 0 < t.bitWidth) (hfits : start + t.bitWidth ≤ s.size)
    (hapart : ∀ q ∈ s.placed, q.stop ≤ start ∨ start + t.bitWidth ≤ q.start) :
    Tracks c { s with placed := insertPlaced ⟨start, start + t.bitWidth, value⟩ s.placed }
      (⟨start, value⟩ :: inserts) := by
  have hperm := insertPlaced_perm ⟨start, start + t.bitWidth, value⟩ s.placed
  refine ⟨List.forall_mem_cons.mpr ⟨⟨t, ht⟩, h.types⟩, ?_, ?_, fun q hq => ?_⟩
  · rw [List.filterMap_cons_some (Insert.placed?_of_pos ht hpos)]
    exact hperm.trans (h.placed.cons _)
  · exact pairwise_insertPlaced (Nat.lt_add_of_pos_right hpos) h.solid h.sorted hapart
  · rcases List.mem_cons.mp (hperm.mem_iff.mp hq) with rfl | hq
    · exact hfits
    · exact h.inside q hq

theorem overlaps_iff (h : s.Tracks c inserts) (ht : c.type? value = some t)
    (hpos : 0 < t.bitWidth) : (∃ p ∈ inserts, Insert.Overlaps c ⟨start, value⟩ p) ↔
      ∃ q ∈ s.placed, q.start < start + t.bitWidth ∧ start < q.stop := by
  constructor
  · rintro ⟨p, hp, i, ⟨t', ht', hle, hlt⟩, u, hu, hle', hlt'⟩
    obtain rfl := Option.some.inj (ht.symm.trans ht')
    have hplaced := Insert.placed?_of_pos hu (show 0 < u.bitWidth by omega)
    refine ⟨_, h.mem_placed.mpr ⟨p, hp, hplaced⟩, ?_, ?_⟩
    · exact Nat.lt_of_le_of_lt hle' hlt
    · exact Nat.lt_of_le_of_lt hle hlt'
  · rintro ⟨q, hq, hlt, hlt'⟩
    obtain ⟨p, hp, hplaced⟩ := h.mem_placed.mp hq
    obtain ⟨u, hu, hupos, rfl⟩ := Insert.placed?_eq_some.mp hplaced
    dsimp only at hlt hlt'
    refine ⟨p, hp, max start p.start, ⟨t, ht, ?_⟩, u, hu, ?_⟩
    · dsimp only
      omega
    · omega

theorem accepts (h : s.Tracks b.circuit inserts) (ht : b.circuit.type? value = some t)
    (hfits : 0 < t.bitWidth → start + t.bitWidth ≤ s.size)
    (hapart : ∀ p ∈ inserts, ¬ Insert.Overlaps b.circuit ⟨start, value⟩ p) :
    ∃ s', s.insert start value b = .ok s' b ∧
      s'.Tracks b.circuit (⟨start, value⟩ :: inserts) ∧ s'.size = s.size ∧
        s'.allocated = s.allocated := by
  obtain hz | hpos := Nat.eq_zero_or_pos t.bitWidth
  · exact ⟨s, insert_of_zero ht hz, h.cons_of_zero ht hz, rfl, rfl⟩
  · have hbounds : ∀ q ∈ s.placed, ¬ (q.start < start + t.bitWidth ∧ start < q.stop) := by
      intro q hq hover
      obtain ⟨p, hp, hoverlaps⟩ := (h.overlaps_iff ht hpos).mpr ⟨q, hq, hover⟩
      exact hapart p hp hoverlaps
    refine ⟨_, insert_of_free ht hpos (hfits hpos) fun q hlast => ?_,
      h.cons_of_pos ht hpos (hfits hpos) fun q hq => ?_, rfl, rfl⟩
    · obtain ⟨hq, hlt⟩ := mem_of_lastBefore? hlast
      exact Nat.le_of_not_lt fun hover => hbounds q hq ⟨hlt, hover⟩
    · have hq := hbounds q hq
      omega

end Tracks

theorem tracks_fresh (size allocated : Nat) : Tracks c { size, allocated } [] :=
  ⟨List.forall_mem_nil _, .nil, .nil, List.forall_mem_nil _⟩

/-! The finished message. -/

def piece (c : Circuit) (e : Setting) (q : Placed) : Piece := ⟨q.start, c.meaning e q.value⟩

def Measured (c : Circuit) (placed : List Placed) : Prop :=
  ∀ q ∈ placed, ∃ t, c.type? q.value = some t ∧ q.stop = q.start + t.bitWidth

theorem Measured.of_adds {placed : List Placed} (h : Measured b.circuit placed) (hg : b.Adds b') :
    Measured b'.circuit placed := by
  intro q hq
  obtain ⟨t, ht, hstop⟩ := h q hq
  exact ⟨t, hg.type? ht, hstop⟩

private theorem Measured.stop {placed : List Placed} (h : Measured c placed) :
    c.Henceforth fun c e => ∀ q ∈ placed, (piece c e q).stop = q.stop := by
  intro known c' e hx hc he q hq
  obtain ⟨t, ht, hstop⟩ := h q hq
  rw [Piece.stop, hstop, ← Circuit.henceforth_width ht known c' e hx hc he]
  rfl

private theorem sorted_pieces {e : Setting} {placed : List Placed}
    (hsorted : placed.Pairwise fun q q' => q.stop ≤ q'.start)
    (hstop : ∀ q ∈ placed, (piece c e q).stop = q.stop) : Sorted (placed.map (piece c e)) := by
  refine List.pairwise_map.mpr (hsorted.imp_of_mem fun {q q'} hq _ hle => ?_)
  rw [hstop q hq]
  exact hle

/-- Side by side, the values are what the placed ones are from a position on, with every result. -/
structure Laying (c : Circuit) (placed : List Placed) (size reached : Nat) (vs : List Nat) :
    Prop where
  types : ∃ types, c.Types vs types ∧ total (types.map HwType.bitWidth) = size - reached
  bits : c.Henceforth fun c e => ∀ i, (Bits.ofElements (vs.map (c.meaning e))).bit i =
    Bits.overlay (placed.map (piece c e)) (reached + i)

namespace Laying
variable {placed : List Placed} {size reached : Nat} {vs : List Nat}

theorem nil (h : size ≤ reached) : Laying c [] size reached [] :=
  ⟨⟨[], .nil, (Nat.sub_eq_zero_of_le h).symm⟩, fun _ _ _ _ _ _ i => by simp⟩

private theorem gap {v n : Nat} (h : Laying c placed size (reached + n) vs)
    (hv : c.type? v = some (.bitArray n)) (hzero : c.Henceforth fun c e => c.meaning e v = .zero n)
    (hbehind : ∀ q ∈ placed, reached + n ≤ q.start) (hle : reached + n ≤ size) :
    Laying c placed size reached (v :: vs) := by
  obtain ⟨types, hvs, htotal⟩ := h.types
  refine ⟨⟨.bitArray n :: types, .cons hv hvs, ?_⟩, (h.bits.and hzero).imp ?_⟩
  · rw [List.map_cons, total_cons, htotal, HwType.bitWidth_bitArray]
    omega
  · rintro c e ⟨hbits, hzero⟩ i
    rw [List.map_cons, Bits.ofElements_cons, hzero]
    refine Bits.bit_behind_gap ?_ hbits i
    rintro _ hmem
    obtain ⟨q, hq, rfl⟩ := List.mem_map.mp hmem
    exact hbehind q hq

theorem cons {q : Placed} (h : Laying c placed size q.stop vs) (hplaced : Measured c (q :: placed))
    (hsorted : (q :: placed).Pairwise fun q q' => q.stop ≤ q'.start) (hle : q.stop ≤ size) :
    Laying c (q :: placed) size q.start (q.value :: vs) := by
  obtain ⟨types, hvs, htotal⟩ := h.types
  obtain ⟨t, ht, hstop⟩ := hplaced q List.mem_cons_self
  refine ⟨⟨t :: types, .cons ht hvs, ?_⟩, (h.bits.and hplaced.stop).imp ?_⟩
  · rw [List.map_cons, total_cons, htotal]
    omega
  · rintro c e ⟨hbits, hstops⟩ i
    rw [List.map_cons, Bits.ofElements_cons]
    refine Bits.bit_behind_piece (p := piece c e q) (sorted_pieces hsorted hstops) (fun j => ?_) i
    rw [hbits j, hstops q List.mem_cons_self]

end Laying

/-- The parts from a position on, laid side by side, are the overlay of the values from there. -/
theorem parts_adds {size reached : Nat} {placed : List Placed} (htypes : Measured b.circuit placed)
    (hsorted : placed.Pairwise fun q q' => q.stop ≤ q'.start)
    (hfits : ∀ q ∈ placed, q.stop ≤ size) (hreached : ∀ q ∈ placed, reached ≤ q.start)
    (hle : reached ≤ size) :
    Adding (parts size reached placed) b fun vs b' =>
      Laying b'.circuit placed size reached vs := by
  induction placed generalizing b reached with
  | nil =>
    rw [parts]
    by_cases hlt : reached < size
    · rw [if_pos hlt]
      refine (Build.padding_adds (size - reached)).bind fun gap b₁ _ hgap => ?_
      have hsize : reached + (size - reached) = size := Nat.add_sub_of_le hle
      exact .pure ((Laying.nil (Nat.le_of_eq hsize.symm)).gap hgap.1 hgap.2
        (List.forall_mem_nil _) (Nat.le_of_eq hsize))
    · rw [if_neg hlt]
      exact .pure (.nil (Nat.le_of_not_lt hlt))
  | cons q placed ih =>
    obtain ⟨hfirst, hrest⟩ := List.pairwise_cons.mp hsorted
    have hqreached := hreached q List.mem_cons_self
    have hqfits := hfits q List.mem_cons_self
    have hparts : ∀ b₁, b.Adds b₁ → Adding (parts size q.stop placed) b₁ fun vs b' =>
        Laying b'.circuit (q :: placed) size q.start (q.value :: vs) := by
      intro b₁ hg₁
      have hplaced := htypes.of_adds hg₁
      refine (ih (fun x hx => hplaced x (List.mem_cons_of_mem q hx)) hrest
        (fun x hx => hfits x (List.mem_cons_of_mem q hx)) hfirst hqfits).mono fun vs b₂ hg₂ h => ?_
      exact h.cons (hplaced.of_adds hg₂) hsorted hqfits
    rw [parts]
    by_cases hlt : reached < q.start
    · rw [if_pos hlt]
      refine (Build.padding_adds (q.start - reached)).bind fun gap b₁ hg₁ hgap => ?_
      refine (hparts b₁ hg₁).bind fun vs b₂ hg₂ hlaying => ?_
      have hplace : reached + (q.start - reached) = q.start := Nat.add_sub_of_le hqreached
      rw [← hplace] at hlaying
      have hqstop : q.start ≤ q.stop := by
        obtain ⟨t, -, hstop⟩ := htypes q List.mem_cons_self
        omega
      refine .pure (hlaying.gap (hg₂.type? hgap.1) (hgap.2.mono hg₂.circuit) ?_ (by omega))
      rw [hplace, List.forall_mem_cons]
      exact ⟨Nat.le_refl _, fun x hx => by have hqx := hfirst x hx; omega⟩
    · rw [if_neg hlt]
      refine (hparts b (.refl b)).bind fun vs b₂ hg₂ hlaying => ?_
      have hplace : q.start = reached := Nat.le_antisymm (Nat.le_of_not_lt hlt) hqreached
      rw [hplace] at hlaying
      exact .pure hlaying

private theorem Tracks.shows (h : s.Tracks c inserts) : c.Henceforth fun c e => ∀ m : Bits,
    m.Shows (s.placed.map (piece c e)) → m.Shows (inserts.map (Insert.piece c e)) := by
  intro known c' e hx hc he m hm
  have hpiece : ∀ (p : Insert) (q : Placed), p.placed? c = some q →
      piece c' e q = p.piece c' e := by
    intro p q hq
    obtain ⟨t, -, -, rfl⟩ := Insert.placed?_eq_some.mp hq
    rfl
  refine ⟨fun x hmem => ?_, fun i hi => hm.outside i fun x hmem => ?_⟩
  · obtain ⟨p, hp, rfl⟩ := List.mem_map.mp hmem
    obtain ⟨t, ht⟩ := h.types p hp
    have hwidth : (p.piece c' e).bits.width = t.bitWidth :=
      Circuit.henceforth_width ht known c' e hx hc he
    obtain hz | hpos := Nat.eq_zero_or_pos t.bitWidth
    · exact Bits.eq_of_width_zero (hwidth.trans hz) (hwidth.trans hz)
    · have hq := Insert.placed?_of_pos ht hpos
      rw [← hpiece p _ hq]
      exact hm.inside _ (List.mem_map_of_mem (h.mem_placed.mpr ⟨p, hp, hq⟩))
  · obtain ⟨q, hq, rfl⟩ := List.mem_map.mp hmem
    obtain ⟨p, hp, hplaced⟩ := h.mem_placed.mp hq
    rw [hpiece p q hplaced]
    exact hi _ (List.mem_map_of_mem hp)

private theorem Tracks.measured (h : s.Tracks c inserts) : Measured c s.placed := by
  intro q hq
  obtain ⟨p, -, hplaced⟩ := h.mem_placed.mp hq
  obtain ⟨t, ht, -, rfl⟩ := Insert.placed?_eq_some.mp hplaced
  exact ⟨t, ht, rfl⟩

theorem Tracks.finish_adds (h : s.Tracks b.circuit inserts) (hpos : 0 < s.size) :
    Adding s.finish b fun v b' => b'.circuit.type? v = some (.bitArray s.size) ∧
      b'.circuit.Henceforth fun c e => (c.meaning e v).width = s.size ∧
        (c.meaning e v).Shows (inserts.map (Insert.piece c e)) := by
  refine (parts_adds h.measured h.sorted h.inside (fun _ _ => Nat.zero_le _)
    (Nat.zero_le _)).bind fun vs b₁ hg₁ hvs => ?_
  obtain ⟨⟨types, hvs, htotal⟩, hover⟩ := hvs
  have hne : vs ≠ [] := by
    rintro rfl
    obtain rfl := List.forall₂_nil_left_iff.mp hvs
    rw [List.map_nil, total_nil] at htotal
    omega
  refine (Build.pack_adds hvs hne).mono fun v b₂ hg₂ hv => ?_
  rw [htotal, Nat.sub_zero] at hv
  have hg := hg₁.trans hg₂
  have hwidth := Circuit.henceforth_width hv.1
  have htracks := h.mono hg.circuit
  refine ⟨hv.1, ((hwidth.and hv.2).and (((hover.mono hg₂.circuit).and
    htracks.measured.stop).and htracks.shows)).imp fun c e hall => ?_⟩
  obtain ⟨⟨hwidth, hmeaning⟩, ⟨hover, hstop⟩, hshows⟩ := hall
  refine ⟨hwidth.trans (HwType.bitWidth_bitArray _), hshows _ ?_⟩
  -- The values of the segment are those that it took, in the order of their places.
  rw [hmeaning]
  refine Bits.shows_of_overlay (apart_of_sorted (sorted_pieces h.sorted hstop)) fun i => ?_
  rw [hover, Nat.zero_add]

end Segment
end ChannelCodec
