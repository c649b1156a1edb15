import ChannelCodec.Proofs.Design.Growing
import ChannelCodec.Proofs.Gasket.Growing

/-! Tracking slices. Whatever parts are cut out of parts of an array, each of them knows the array
that it came from, and the place where it lies there if all offsets on the way are known. -/
namespace ChannelCodec

/-- Only an index behind all elements does not fit 64 bits, and nothing is read from there. -/
theorem Bits.slice_at_index (x : Bits) {low size length width : Nat} (hle : low + size ≤ length)
    (h64 : length ≤ 2 ^ (64 : Nat)) :
    x.slice (low % 2 ^ (64 : Nat) * width) (width * size) =
      x.slice (low * width) (width * size) := by
  obtain rfl | hpos := Nat.eq_zero_or_pos size
  · exact Bits.eq_of_width_zero (Nat.mul_zero _) (Nat.mul_zero _)
  · rw [Nat.mod_eq_of_lt (by omega)]

/-- The slice `s` has been cut out of the array `v`, the whole of which is the slice `root`. The
links on the way are the offsets that were known, the last one first; anything else may have been
built in between. -/
inductive Slice.Chain (v : Nat) (root : Slice) : Builder → List (Option Nat) → Slice → Prop
  | root {b b' : Builder} (taken : Build.rootSlice v b = .ok root b') : Chain v root b' [] root
  | slice {b b' : Builder} {links : List (Option Nat)} {s s' : Slice} {low size : Nat}
    (chain : Chain v root b links s) (cut : Build.slice s low size b = .ok s' b') :
    Chain v root b' (some low :: links) s'
  | sliceAt {b b' : Builder} {links : List (Option Nat)} {s s' : Slice} {low size : Nat}
    (chain : Chain v root b links s) (cut : Build.sliceAt s low size b = .ok s' b') :
    Chain v root b' (none :: links) s'
  | grow {b b' : Builder} {links : List (Option Nat)} {s : Slice}
    (chain : Chain v root b links s) (grows : b.circuit.Extends b'.circuit) :
    Chain v root b' links s

namespace Build
variable {b : Builder} {s : Slice} {t element : HwType} {low size : Nat}

theorem slice_ensures : Ensures (slice s low size) b fun _ _ => low + size ≤ s.size := by
  refine (require_ensures _ _).look fun _ hle => ?_
  exact fun _ _ _ => hle

theorem widthOf_ensures (v : Nat) : Ensures (widthOf v) b fun _ b' => b' = b ∧ True := by
  refine (typeOf_ensures v).look fun t _ => ?_
  exact .pure ⟨rfl, trivial⟩

theorem arraySlice_ensures (array index count : Nat) :
    Ensures (arraySlice array index count) b fun v b' => b.circuit.Extends b'.circuit ∧
      ∃ t element size, b.circuit.type? array = some t ∧ t.array? = some (element, size) ∧
        count ≤ size ∧ b'.circuit.type? v = some (.array count element) := by
  intro v b' hv
  have hchecked : Ensures (arraySlice array index count) b fun _ _ =>
      ∃ t element size, b.circuit.type? array = some t ∧ t.array? = some (element, size) ∧
        count ≤ size ∧ ∃ u, b.circuit.type? index = some u ∧ u.isSignless = true ∧
          u.bitWidth = indexWidth size := by
    refine (typeOf_ensures array).look fun t ht => ?_
    refine (expect_ensures _ _).look fun p hp => ?_
    refine (require_ensures _ _).look fun _ hle => ?_
    refine (checkIndex_ensures p.2 index).look fun _ hu => ?_
    exact fun _ _ _ => ⟨t, p.1, p.2, ht, hp, hle, hu⟩
  obtain ⟨t, element, size, ht, helement, hle, u, hu, hsignless, hwidth⟩ := hchecked v b' hv
  obtain ⟨hadds, htype, -⟩ := (arraySlice_adds ht helement hu hsignless hwidth hle).of_ok hv
  exact ⟨hadds.circuit, t, element, size, ht, helement, hle, htype⟩

theorem sliceAt_ensures (harray : b.circuit.type? s.array = some t)
    (ht : t.array? = some (element, s.size)) (low size : Nat) :
    Ensures (sliceAt s low size) b fun s' b' => b.circuit.Extends b'.circuit ∧
      (∃ index array, s' = .part index array size s none) ∧ size ≤ s.size ∧
        b'.circuit.type? s'.array = some (.array size element) := by
  have hcut : ∀ (position : Nat) (b₁ : Builder), b.circuit.Extends b₁.circuit →
      Ensures (cut s position none size) b₁ fun s' b' => b.circuit.Extends b'.circuit ∧
        (∃ index array, s' = .part index array size s none) ∧ size ≤ s.size ∧
          b'.circuit.type? s'.array = some (.array size element) := by
    intro position b₁ hx₁
    refine (arraySlice_ensures s.array position size).bind fun array b₂ h => ?_
    obtain ⟨hx₂, t', element', size', ht', helement', hle, htype⟩ := h
    rw [hx₁.type? (Circuit.lt_of_type? harray), harray] at ht'
    cases ht'
    cases ht.symm.trans helement'
    intro s' b' hs'
    cases hs'
    exact ⟨hx₁.trans hx₂, ⟨_, array, rfl⟩, hle, htype⟩
  have hstep : ∀ {b₀ : Builder} {m : Build Nat}, b.circuit.Extends b₀.circuit →
      Ensures m b₀ b₀.Gains →
      Ensures (do cut s (← m) none size) b₀ fun s' b' => b.circuit.Extends b'.circuit ∧
        (∃ index array, s' = .part index array size s none) ∧ size ≤ s.size ∧
          b'.circuit.type? s'.array = some (.array size element) := fun hx₀ hm =>
    hm.bind fun position b₁ h₁ => hcut position b₁ (hx₀.trans h₁.extends)
  refine (widthOf_ensures low).look fun own _ => ?_
  dsimp only
  split
  · exact hstep (.refl _) (extract_gains low 0 _)
  · split
    · refine (constant_gains _ _).bind fun zeros b₁ h₁ => ?_
      exact hstep h₁.extends (concat_gains _)
    · exact hcut low b (.refl _)

end Build

namespace Slice
variable {b : Builder} {c c' : Circuit} {v : Nat} {root s : Slice} {links : List (Option Nat)}
variable {element : HwType}

structure Tracked (c : Circuit) (v : Nat) (root : Slice) (element : HwType)
    (links : List (Option Nat)) (s : Slice) : Prop where
  origin : s.origin = root
  type : ∃ t, c.type? s.array = some t ∧ t.array? = some (element, s.size)
  offset : ∀ o, s.offset? = some o ↔ ∃ lows, links = lows.map some ∧ o = total lows
  size : s.size ≤ root.size
  inside : ∀ o, s.offset? = some o → o + s.size ≤ root.size
  meaning : root.size ≤ 2 ^ (64 : Nat) → ∀ o, s.offset? = some o → c.Henceforth fun c e =>
    c.meaning e s.array =
      (c.meaning e v).slice (o * element.bitWidth) (element.bitWidth * s.size)
  index : ∀ n array size parent low, s = .part n array size parent (some low) → 0 < size →
    c.ReadsAt .arraySlice parent.array parent.size low s.array

theorem Tracked.mono (h : Tracked c v root element links s) (hx : c.Extends c') :
    Tracked c' v root element links s := by
  refine ⟨h.origin, ?_, h.offset, h.size, h.inside, fun h64 o ho => (h.meaning h64 o ho).mono hx,
    fun n array size parent low hs hpos => (h.index n array size parent low hs hpos).mono hx⟩
  obtain ⟨t, ht, harray⟩ := h.type
  exact ⟨t, by rw [hx.type? (Circuit.lt_of_type? ht), ht], harray⟩

private theorem tracked_root {b b' : Builder} (h : Build.rootSlice v b = .ok root b') :
    root.origin = root ∧ root.array = v ∧ ∃ t element, b'.circuit.type? v = some t ∧
      t.array? = some (element, root.size) ∧ Tracked b'.circuit v root element [] root := by
  have htaken : Ensures (Build.rootSlice v) b fun _ _ => ∃ t element size,
      b.circuit.type? v = some t ∧ t.array? = some (element, size) := by
    refine (Build.typeOf_ensures v).look fun t ht => ?_
    refine (Build.expect_ensures _ _).look fun p hp => ?_
    exact fun _ _ _ => ⟨t, p.1, p.2, ht, hp⟩
  obtain ⟨t, element, size, ht, helement⟩ := htaken root b' h
  obtain ⟨hadds, index, rfl⟩ := (Build.rootSlice_adds ht helement).of_ok h
  have ht' := hadds.type? ht
  refine ⟨rfl, rfl, t, element, ht', helement, rfl, ⟨t, ht', helement⟩, fun o => ?_,
    Nat.le_refl _, fun o ho => ?_, fun _ o ho => ?_, fun n array size parent low hs => by cases hs⟩
  · constructor
    · rintro ⟨rfl⟩
      exact ⟨[], rfl, rfl⟩
    · rintro ⟨lows, hlows, rfl⟩
      rw [List.map_eq_nil_iff.mp hlows.symm]
      rfl
  · cases ho
    exact Nat.le_of_eq (Nat.zero_add _)
  · cases ho
    have hwidth := Circuit.henceforth_width ht'
    refine hwidth.imp fun c e h => ?_
    rw [HwType.bitWidth_of_array? helement] at h
    rw [Nat.zero_mul]
    exact (h ▸ Bits.slice_self _).symm

/-- A part from a known element on: the links add up. -/
theorem Tracked.slice {b b' : Builder} {s' : Slice} {low size : Nat}
    (h : Tracked b.circuit v root element links s) (hs' : Build.slice s low size b = .ok s' b') :
    Tracked b'.circuit v root element (some low :: links) s' := by
  have hle := Build.slice_ensures s' b' hs'
  obtain ⟨t, ht, helement⟩ := h.type
  obtain ⟨hadds, ⟨index, array, rfl⟩, htype, hreads, -, hmeaning⟩ :=
    (Build.slice_adds ht helement hle).of_ok hs'
  -- Whether the place of a part is known is decided by what it is a part of.
  have hoffset : ∀ o, (Slice.part index array size s (some low)).offset? = some o ↔
      ∃ o', s.offset? = some o' ∧ o = low + o' := by
    intro o
    rw [Slice.offset?]
    cases s.offset? with
    | none => exact ⟨nofun, nofun⟩
    | some o' =>
      refine ⟨fun ho => ⟨o', rfl, (Option.some.inj ho).symm⟩, ?_⟩
      rintro ⟨_, ⟨rfl⟩, rfl⟩
      rfl
  refine ⟨h.origin, ⟨_, htype, rfl⟩, fun o => ?_, ?_, fun o ho => ?_, fun h64 o ho => ?_,
    fun n array' size' parent low' hs hpos => ?_⟩
  · rw [hoffset]
    constructor
    · rintro ⟨o', ho', rfl⟩
      obtain ⟨lows, rfl, rfl⟩ := (h.offset o').mp ho'
      exact ⟨low :: lows, rfl, rfl⟩
    · rintro ⟨lows, hlows, rfl⟩
      obtain ⟨low', lows, rfl⟩ :=
        List.exists_cons_of_ne_nil (l := lows) (by rintro rfl; cases hlows)
      obtain ⟨hlow, hrest⟩ := List.cons.inj hlows
      cases hlow
      exact ⟨total lows, (h.offset _).mpr ⟨lows, hrest, rfl⟩, rfl⟩
  · have hsize := h.size
    exact Nat.le_trans (Nat.le_trans (Nat.le_add_left _ _) hle) hsize
  · obtain ⟨o', ho', rfl⟩ := (hoffset o).mp ho
    have hinside := h.inside o' ho'
    show low + o' + size ≤ root.size
    omega
  · obtain ⟨o', ho', rfl⟩ := (hoffset o).mp ho
    have hsize := h.size
    refine (((h.meaning h64 o' ho').mono hadds.circuit).and hmeaning).imp fun c e hc => ?_
    have hroom : low * element.bitWidth + element.bitWidth * size ≤
        element.bitWidth * s.size := by
      rw [Nat.mul_comm low, ← Nat.mul_add]
      exact Nat.mul_le_mul_left _ hle
    rw [hc.2, Bits.slice_at_index _ hle (Nat.le_trans hsize h64), hc.1, Bits.slice_slice _ hroom,
      Nat.add_mul, Nat.add_comm]
    rfl
  · cases hs
    exact hreads hpos

theorem Tracked.sliceAt {b b' : Builder} {s' : Slice} {low size : Nat}
    (h : Tracked b.circuit v root element links s)
    (hs' : Build.sliceAt s low size b = .ok s' b') :
    Tracked b'.circuit v root element (none :: links) s' := by
  obtain ⟨t, ht, helement⟩ := h.type
  obtain ⟨-, ⟨index, array, rfl⟩, hle, htype⟩ :=
    Build.sliceAt_ensures ht helement low size s' b' hs'
  have hnone : (Slice.part index array size s none).offset? = none := rfl
  refine ⟨h.origin, ⟨_, htype, rfl⟩, fun o => ?_, Nat.le_trans hle h.size, fun o ho => ?_,
    fun _ o ho => ?_, fun n array' size' parent low' hs => by cases hs⟩
  · rw [hnone]
    refine iff_of_false nofun ?_
    rintro ⟨_ | ⟨low', lows⟩, hlows, -⟩
    · cases hlows
    · cases hlows
  · rw [hnone] at ho
    cases ho
  · rw [hnone] at ho
    cases ho

private theorem Chain.tracked (h : Chain v root b links s) : root.array = v ∧
    ∃ t element, b.circuit.type? v = some t ∧ t.array? = some (element, root.size) ∧
      Tracked b.circuit v root element links s := by
  induction h with
  | root taken => exact (tracked_root taken).2
  | slice _ cut ih =>
    obtain ⟨harray, t, element, ht, helement, htracked⟩ := ih
    obtain ⟨t', ht', helement'⟩ := htracked.type
    have hadds := ((Build.slice_adds ht' helement' (Build.slice_ensures _ _ cut)).of_ok cut).1
    exact ⟨harray, t, element, hadds.type? ht, helement, htracked.slice cut⟩
  | sliceAt _ cut ih =>
    obtain ⟨harray, t, element, ht, helement, htracked⟩ := ih
    obtain ⟨t', ht', helement'⟩ := htracked.type
    have hx := (Build.sliceAt_ensures ht' helement' _ _ _ _ cut).1
    refine ⟨harray, t, element, ?_, helement, htracked.sliceAt cut⟩
    rw [hx.type? (Circuit.lt_of_type? ht), ht]
  | grow _ grows ih =>
    obtain ⟨harray, t, element, ht, helement, htracked⟩ := ih
    refine ⟨harray, t, element, ?_, helement, htracked.mono grows⟩
    rw [grows.type? (Circuit.lt_of_type? ht), ht]

/-- A slice knows where it came from. Whatever slices of slices are taken, each leads back to the
whole array that was first taken. Its offset there is known exactly when all offsets on the way
were, and is their sum; the slice then lies inside the array and is, in every run, what lies in the
array from that offset on. A part can be cut out at a known offset exactly when it lies inside, and
the index of a part with elements, like that of any element that is read, is written out in the bits
of an index. -/
theorem Chain.tracking_is_sound (h : Chain v root b links s) (h64 : root.size ≤ 2 ^ (64 : Nat)) :
    s.origin = root ∧ root.array = v ∧
    (∀ o, s.offset? = some o ↔ ∃ lows, links = lows.map some ∧ o = total lows) ∧
    (∀ n array size parent low, s = .part n array size parent (some low) → 0 < size →
      b.circuit.ReadsAt .arraySlice parent.array parent.size low s.array) ∧
    (∀ low size, (∃ s' b', Build.slice s low size b = .ok s' b') ↔ low + size ≤ s.size) ∧
    ∃ t element, b.circuit.type? v = some t ∧ t.array? = some (element, root.size) ∧
      (∀ o, s.offset? = some o → o + s.size ≤ root.size ∧ b.circuit.InRuns fun value =>
        value s.array = (value v).slice (o * element.bitWidth) (element.bitWidth * s.size)) ∧
      ∀ k < s.size, Adding (Build.element s k) b fun x b' => b'.circuit.type? x = some element ∧
        b'.circuit.ReadsAt .arrayGet s.array s.size k x ∧ b'.circuit.InRuns fun value =>
          value x = (value s.array).slice (k * element.bitWidth) element.bitWidth ∧
            ∀ o, s.offset? = some o →
              value x = (value v).slice ((o + k) * element.bitWidth) element.bitWidth := by
  obtain ⟨harray, t, element, ht, helement, htracked⟩ := h.tracked
  obtain ⟨t', ht', helement'⟩ := htracked.type
  refine ⟨htracked.origin, harray, htracked.offset, htracked.index, fun low size => ?_,
    t, element, ht, helement, fun o ho => ⟨htracked.inside o ho, ?_⟩, fun k hk => ?_⟩
  · constructor
    · rintro ⟨s', b', hs'⟩
      exact Build.slice_ensures s' b' hs'
    · intro hle
      obtain ⟨s', b', hs', -⟩ := Build.slice_adds ht' helement' hle
      exact ⟨s', b', hs'⟩
  · exact Circuit.Henceforth.inRuns (htracked.meaning h64 o ho)
  · refine (Build.element_adds ht' helement' hk).mono fun x b' hg hx => ?_
    obtain ⟨htype, hreads, hmeaning⟩ := hx
    refine ⟨htype, hreads, Circuit.Henceforth.inRuns ?_⟩
    have hsize := htracked.size
    have helem := hmeaning (by omega)
    intro known c' e hx hc he
    refine ⟨helem known c' e hx hc he, fun o ho => ?_⟩
    rw [helem known c' e hx hc he,
      htracked.meaning h64 o ho known c' e (hg.circuit.trans hx) hc he,
      Bits.slice_slice _ (element_stop_le element.bitWidth hk), Nat.add_mul]

/-! The last of five elements, cut out of the last four. -/

def tailPorts : List Port := [⟨.input, "a", .array 5 (.bits 4)⟩, ⟨.output, "y", .array 1 (.bits 4)⟩]

def tailStart : Circuit where
  name := "Tail"
  ports := tailPorts
  values := ⟨#[⟨.array 5 (.bits 4), .input 0, some "a"⟩]⟩
  names := .reserving ["a", "y"]

def tailCalls : List BuildCall :=
  [.constant (.bits 3) (.ofNat 3 1), .arraySlice 0 1 4, .constant (.bits 2) (.ofNat 2 3),
    .arraySlice 2 3 1, .output [4]]

def tailCircuit : Circuit where
  name := "Tail"
  ports := tailPorts
  values := ⟨#[⟨.array 5 (.bits 4), .input 0, some "a"⟩, ⟨.bits 3, .result 0 0, none⟩,
    ⟨.array 4 (.bits 4), .result 1 0, none⟩, ⟨.bits 2, .result 2 0, none⟩,
    ⟨.array 1 (.bits 4), .result 3 0, none⟩]⟩
  operations := ⟨#[⟨.compute (.constant (.ofNat 3 1)), [], [1], .body⟩,
    ⟨.compute .arraySlice, [0, 1], [2], .body⟩,
    ⟨.compute (.constant (.ofNat 2 3)), [], [3], .body⟩,
    ⟨.compute .arraySlice, [2, 3], [4], .body⟩]⟩
  outputs := [4]
  names := .reserving ["a", "y"]

def tailDesign : Design := { circuits := [tailCircuit] }

def tailSlice : Slice := .part 2 4 1 (.part 1 2 4 (.root 0 0 5) (some 1)) (some 3)

private theorem wellBuilt_tailDesign : tailDesign.WellBuilt := by
  refine .of_single (⟨"Tail", tailPorts, tailStart, rfl, rfl⟩ : tailCircuit.BuiltBy tailCalls)
    ⟨[4], ?_⟩ ?_ rfl
  · exact List.getLast_mem (List.cons_ne_nil _ _)
  · simp [tailCalls, BuildCall.Respects]

theorem tailSlice_tracked : tailSlice.origin = .root 0 0 5 ∧ tailSlice.offset? = some 4 ∧
    ∃ r y, tailDesign.run "Tail" [("a", .ofNat 20 0x54321)] = .ok r ∧ r.outputs = [("y", y)] ∧
      y = .ofNat 4 5 := by
  have hchain : Chain 0 (.root 0 0 5) { circuit := tailCircuit } [some 3, some 1] tailSlice := by
    have hroot : Chain 0 (.root 0 0 5) _ [] _ := .root (b := { circuit := tailStart }) rfl
    have hcut : Chain 0 (.root 0 0 5) _ [some 3, some 1] tailSlice :=
      .slice (.slice hroot (rfl : Build.slice _ 1 4 _ = .ok _ _))
        (rfl : Build.slice _ 3 1 _ = .ok _ _)
    exact hcut.grow ⟨rfl, rfl, fun _ x hx => ⟨x, hx, rfl, rfl⟩, fun _ _ ho => ho⟩
  obtain ⟨horigin, -, hoffset, -, -, t, element, ht, helement, hvalue, -⟩ :=
    hchain.tracking_is_sound (by decide)
  have hfour : tailSlice.offset? = some 4 := (hoffset 4).mpr ⟨[3, 1], rfl, rfl⟩
  obtain ⟨-, hruns⟩ := hvalue 4 hfour
  obtain ⟨r, hrun, houtputs, hinputs, hmeaning⟩ := hruns tailDesign "Tail" tailCircuit
    [("a", .ofNat 20 0x54321)] [.ofNat 20 0x54321] wellBuilt_tailDesign rfl (.refl _)
    (.cons ⟨rfl, rfl⟩ .nil) (by decide)
  obtain ⟨ha, -⟩ := List.cons.inj hinputs
  cases ht
  cases helement
  rw [ha] at hmeaning
  refine ⟨horigin, hfour, r, _, hrun, houtputs, hmeaning.trans ?_⟩
  decide

end Slice
end ChannelCodec
