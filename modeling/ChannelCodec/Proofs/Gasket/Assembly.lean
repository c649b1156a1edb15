import ChannelCodec.Proofs.Gasket.Inserts
import ChannelCodec.Proofs.Gasket.Slices

/-! Assembling messages under a fixed setting. The values put into a segment stand for pieces of the
message, the tops of which they may leave to zeros. In the end the message shows exactly the
pieces. -/
namespace ChannelCodec

variable {e : Setting} {r : Nat} {messages : List String} {b b' : Builder}

namespace Insert

/-- The value stands for the piece, whose top it may leave out. -/
structure StandsFor (e : Setting) (b : Builder) (p : Insert) (q : Piece) : Prop where
  start : p.start = q.start
  value : ∃ t x, Holds e b p.value t x ∧ x.width ≤ q.bits.width ∧
    q.bits = .ofNat q.bits.width x.toNat

variable {p : Insert} {q : Piece}

theorem StandsFor.mono (h : p.StandsFor e b q) (hg : Grows e r messages b b') :
    p.StandsFor e b' q := by
  obtain ⟨t, x, hv, hbits⟩ := h.value
  exact ⟨h.start, t, x, hv.mono hg, hbits⟩

private theorem StandsFor.covers (h : p.StandsFor e b q) {i : Nat} (hi : p.Takes b.circuit i) :
    q.Covers i := by
  obtain ⟨t, x, hv, hle, -⟩ := h.value
  obtain ⟨t', ht', hstart, hstop⟩ := hi
  obtain rfl := Option.some.inj (hv.type.symm.trans ht')
  have hplace := h.start
  have hwidth := hv.width
  refine ⟨by omega, ?_⟩
  rw [Piece.stop]
  omega

/-- What the value leaves out is zeros. -/
theorem StandsFor.bit (h : p.StandsFor e b q) (i : Nat) :
    (p.piece b.circuit e).bits.bit i = q.bits.bit i := by
  obtain ⟨t, x, hv, hle, hbits⟩ := h.value
  rw [Insert.piece, hv.meaning, hbits, Bits.bit_ofNat]
  by_cases hi : i < q.bits.width
  · rw [decide_eq_true hi, Bool.true_and]
    rfl
  · rw [decide_eq_false hi, Bool.false_and,
      Bits.bit_of_width_le (Nat.le_trans hle (Nat.le_of_not_lt hi))]

private theorem overlay_standsFor {inserts : List Insert} {pieces : List Piece}
    (h : List.Forall₂ (StandsFor e b) inserts pieces) (i : Nat) :
    Bits.overlay (inserts.map (piece b.circuit e)) i = Bits.overlay pieces i := by
  induction h with
  | nil => rfl
  | cons hp _ ih =>
    rw [List.map_cons, Bits.overlay_cons, Bits.overlay_cons, ih, hp.bit, ← hp.start]
    rfl

private theorem exists_standsFor {inserts : List Insert} {pieces : List Piece}
    (h : List.Forall₂ (StandsFor e b) inserts pieces) (hp : p ∈ inserts) :
    ∃ q ∈ pieces, p.StandsFor e b q := by
  induction h with
  | nil => cases hp
  | @cons a q inserts pieces ha _ ih =>
    rcases List.mem_cons.mp hp with rfl | hp
    · exact ⟨q, List.mem_cons_self, ha⟩
    · obtain ⟨q', hq', hstands⟩ := ih hp
      exact ⟨q', List.mem_cons_of_mem q hq', hstands⟩

end Insert

namespace Segment

/-- The segment holds exactly the pieces, those without bits left out. -/
def Holds (e : Setting) (b : Builder) (s : Segment) (pieces : List Piece) : Prop :=
  ∃ inserts kept, s.Tracks b.circuit inserts ∧
    List.Forall₂ (Insert.StandsFor e b) inserts kept ∧
    kept.Perm (pieces.filter (0 < ·.bits.width)) ∧ kept.Pairwise Piece.Apart

variable {s : Segment} {pieces : List Piece} {p : Piece}

theorem holds_fresh (e : Setting) (b : Builder) (size allocated : Nat) :
    Holds e b { size, allocated } [] :=
  ⟨[], [], tracks_fresh size allocated, .nil, .refl _, .nil⟩

theorem Holds.mono (h : s.Holds e b pieces) (hg : Grows e r messages b b') :
    s.Holds e b' pieces := by
  obtain ⟨inserts, kept, htracks, hstands, hrest⟩ := h
  exact ⟨inserts, kept, htracks.mono hg.circuit, hstands.imp fun _ _ hp => hp.mono hg, hrest⟩

theorem Holds.alloc (h : s.Holds e b pieces) (bits : Nat) :
    (s.alloc bits).2.Holds e b pieces := by
  obtain ⟨inserts, kept, htracks, hrest⟩ := h
  exact ⟨inserts, kept, htracks.alloc bits, hrest⟩

theorem Holds.of_perm {pieces' : List Piece} (h : s.Holds e b pieces)
    (hp : pieces.Perm pieces') : s.Holds e b pieces' := by
  obtain ⟨inserts, kept, htracks, hstands, hperm, hapart⟩ := h
  exact ⟨inserts, kept, htracks, hstands, hperm.trans (hp.filter _), hapart⟩

theorem Holds.cons_of_width_zero (h : s.Holds e b pieces) (hp : p.bits.width = 0) :
    s.Holds e b (p :: pieces) := by
  obtain ⟨inserts, kept, htracks, hstands, hperm, hapart⟩ := h
  refine ⟨inserts, kept, htracks, hstands, ?_, hapart⟩
  rw [List.filter_cons_of_neg (by simp [hp])]
  exact hperm

/-- A value goes in when its piece lies inside the segment and apart from all others. -/
theorem insert_builds (hb : b.Sound e) (hs : s.Holds e b pieces) {value : Nat} {t : HwType}
    {x : Bits} (hv : ChannelCodec.Holds e b value t x) (hpos : 0 < x.width)
    (hle : x.width ≤ p.bits.width) (hbits : p.bits = .ofNat p.bits.width x.toNat)
    (hfits : p.stop ≤ s.size) (hapart : ∀ q ∈ pieces, p.Apart q) :
    Builds e r [] (s.insert p.start value) b fun s' b' =>
      s'.Holds e b' (p :: pieces) ∧ s'.size = s.size ∧ s'.allocated = s.allocated := by
  obtain ⟨inserts, kept, htracks, hstands, hperm, hkept⟩ := hs
  have hnew : Insert.StandsFor e b ⟨p.start, value⟩ p := ⟨rfl, t, x, hv, hle, hbits⟩
  have hother : ∀ q ∈ kept, p.Apart q := fun q hq =>
    hapart q (List.mem_filter.mp (hperm.mem_iff.mp hq)).1
  have hfree : ∀ q ∈ inserts, ¬ Insert.Overlaps b.circuit ⟨p.start, value⟩ q := by
    rintro q hq ⟨i, hi, hi'⟩
    obtain ⟨q', hq', hstands'⟩ := Insert.exists_standsFor hstands hq
    exact hother q' hq' i (hnew.covers hi) (hstands'.covers hi')
  have hwidth := hv.width
  rw [Piece.stop] at hfits
  obtain ⟨s', hinsert, htracks', hkeeps⟩ := htracks.accepts hv.type (fun _ => by omega) hfree
  refine .of_eq hinsert ⟨.refl hb, ⟨_, p :: kept, htracks', .cons hnew hstands, ?_, ?_⟩, hkeeps⟩
  · rw [List.filter_cons_of_pos (by simp only [decide_eq_true_eq]; omega)]
    exact hperm.cons p
  · exact List.pairwise_cons.mpr ⟨hother, hkept⟩

theorem finish_builds (hb : b.Sound e) (hs : s.Holds e b pieces) (hpos : 0 < s.size) :
    Builds e r [] s.finish b fun v b' =>
      ∃ m, ChannelCodec.Holds e b' v (.bitArray s.size) m ∧ m.Shows pieces := by
  obtain ⟨inserts, kept, htracks, hstands, hperm, hapart⟩ := hs
  refine ((htracks.finish_adds hpos).builds hb).mono fun v b' hg hv => ?_
  obtain ⟨-, hvalues⟩ := hv.2.now hg.after
  refine ⟨_, .of_sound hg.after hv.1 rfl, ?_⟩
  have hshows : (b'.circuit.meaning e v).Shows kept := by
    refine Bits.shows_of_overlay hapart fun i => ?_
    rw [hvalues.bit_eq_overlay, Insert.overlay_standsFor (hstands.imp fun _ _ hp => hp.mono hg)]
  have hmem : ∀ p, p ∈ kept ↔ p ∈ pieces ∧ 0 < p.bits.width := fun p => by
    rw [hperm.mem_iff, List.mem_filter, decide_eq_true_eq]
  refine ⟨fun p hp => ?_, fun i hi => hshows.outside i fun p hp => hi p ((hmem p).mp hp).1⟩
  by_cases hz : 0 < p.bits.width
  · exact hshows.inside p ((hmem p).mpr ⟨hp, hz⟩)
  · exact Bits.eq_of_width_zero (by rw [Bits.width_slice]; omega) (by omega)

end Segment
end ChannelCodec
