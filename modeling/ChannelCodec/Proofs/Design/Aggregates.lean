import ChannelCodec.Proofs.Circuit.Aggregates
import ChannelCodec.Proofs.Design.Soundness

/-! Aggregates in runs of designs. In every circuit that a run visits, what is known of structs and
arrays follows one packing. -/
namespace ChannelCodec.Design

open Simulation

/-- An observer who only writes something down when what is known of a circuit is not part of values
that follow one packing. -/
def Content (note : Note) : Prop :=
  ∀ path (c : Circuit) known, (∃ value, c.OnePacking value ∧
    ∀ (v : Nat) x, known[v]? = some (some x) → x = value v) → note path c known = []

variable {d : Design} {name : String} {c : Circuit} {given : List (String × Bits)}

namespace WellBuilt

theorem onePacking (hd : d.WellBuilt) (hc : d.find? name = some c) {inputs : List Bits}
    (hinputs : Fit c.inputPorts inputs) : c.OnePacking (c.meaning (d.setting inputs)) :=
  (hd.wellTyped hc).onePacking (hd.sized hc hinputs)

private theorem content_note_eq_nil (hd : d.WellBuilt) {visit : Visit} (hgood : visit.Good d)
    {note : Note} (hnote : Content note) : note visit.path visit.circuit (visit.known d) = [] := by
  apply hnote
  exact ⟨_, hd.onePacking hgood.found hgood.fits, fun _ _ => eq_meaning_of_known⟩

/-- Aggregates follow one packing. The fields of a struct share out its bits; and in a run of a
well-built design, of the circuit that is run and of every instance that is visited, structs and
arrays are taken apart as they were put together: fields are those that a struct was made of, and
elements those that an array was made of, joined of or cut out of, with zeros behind the last one.
Aliases and casts that come back to the same type change nothing. -/
theorem aggregates_follow_one_packing (hd : d.WellBuilt) {inputs : List Bits}
    (hc : d.find? name = some c)
    (hgiven : List.Forall₂ (fun port x => given.lookup port.name = some x ∧
      x.width = port.type.bitWidth) c.inputPorts inputs)
    (hnames : ∀ p ∈ given, ∃ port ∈ c.inputPorts, port.name = p.1) :
    (∀ (t : HwType) (fields : List (Field HwType)), t.struct? = some fields →
      (fields.map (·.name)).Nodup →
        (∀ f ∈ fields, ∃ low, t.fieldPlace? f.name = some (low, f.type) ∧
          low + f.type.bitWidth ≤ t.bitWidth) ∧
        ∀ p < t.bitWidth, ∃! f, f ∈ fields ∧ t.HasBit f p) ∧
    c.OnePacking (c.meaning (d.setting inputs)) ∧
    ∃ r, d.run name given = .ok r ∧
      r.outputs = (c.outputPorts.map (·.name)).zip
        (c.outputs.map (c.meaning (d.setting inputs))) ∧
      ∀ note, Content note → ∃ r', d.notedRun note name given = .ok r' ∧ r'.outputs = r.outputs ∧
        r'.violations.Perm r.violations := by
  obtain ⟨r, hrun, houtputs, hnotes⟩ := hd.run_unnoted hc hgiven hnames
  rw [hd.reference_eq hc] at houtputs
  exact ⟨fun _ _ => HwType.fields_partition, hd.onePacking hc (fit_of_given hgiven), r, hrun,
    houtputs, fun note hnote => hnotes note fun _ hgood => hd.content_note_eq_nil hgood hnote⟩

end WellBuilt

/-! A circuit that joins arrays, puts them into a struct, and takes the struct apart again after
casts to bits and to an alias of it. -/

def pairType : HwType := .struct [⟨"head", .bits 4⟩, ⟨"tail", .array 3 (.bits 4)⟩]

def pairAlias : HwType :=
  .named "Pair" (.struct [⟨"head", .named "Nibble" (.bits 4)⟩, ⟨"tail", .array 3 (.bits 4)⟩])

def shapePorts : List Port :=
  [⟨.input, "x", .bits 4⟩, ⟨.input, "y", .bits 4⟩, ⟨.input, "i", .bits 2⟩,
    ⟨.output, "element", .bits 4⟩, ⟨.output, "tail", .array 3 (.bits 4)⟩]

def shapeStart : Circuit where
  name := "Shape"
  ports := shapePorts
  values := ⟨#[⟨.bits 4, .input 0, some "x"⟩, ⟨.bits 4, .input 1, some "y"⟩,
    ⟨.bits 2, .input 2, some "i"⟩]⟩
  names := .reserving (shapePorts.map (·.name))

def shapeCalls : List BuildCall :=
  [.arrayCreate [0], .arrayCreate [1, 0], .arrayConcat [3, 4], .arrayGet 5 2,
    .structCreate pairType [0, 5], .bitcast 7 (.bits 16), .bitcast 8 pairAlias,
    .structExtract 9 "tail", .output [6, 10]]

def shape : Circuit := { shapeStart with
  values := ⟨#[⟨.bits 4, .input 0, some "x"⟩, ⟨.bits 4, .input 1, some "y"⟩,
    ⟨.bits 2, .input 2, some "i"⟩, ⟨.array 1 (.bits 4), .result 0 0, none⟩,
    ⟨.array 2 (.bits 4), .result 1 0, none⟩, ⟨.array 3 (.bits 4), .result 2 0, none⟩,
    ⟨.bits 4, .result 3 0, none⟩, ⟨pairType, .result 4 0, none⟩, ⟨.bits 16, .result 5 0, none⟩,
    ⟨pairAlias, .result 6 0, none⟩, ⟨.array 3 (.bits 4), .result 7 0, none⟩]⟩
  operations := ⟨#[⟨.compute .arrayCreate, [0], [3], .body⟩,
    ⟨.compute .arrayCreate, [1, 0], [4], .body⟩, ⟨.compute .arrayConcat, [3, 4], [5], .body⟩,
    ⟨.compute .arrayGet, [5, 2], [6], .body⟩, ⟨.compute .structCreate, [0, 5], [7], .body⟩,
    ⟨.compute .bitcast, [7], [8], .body⟩, ⟨.compute .bitcast, [8], [9], .body⟩,
    ⟨.compute (.structExtract "tail"), [9], [10], .body⟩]⟩
  outputs := [6, 10] }

def shapeDesign : Design := { circuits := [shape] }

private theorem wellBuilt_shapeDesign : shapeDesign.WellBuilt := by
  refine .of_single (⟨"Shape", shapePorts, shapeStart, rfl, rfl⟩ : shape.BuiltBy shapeCalls)
    ⟨[6, 10], ?_⟩ ?_ rfl
  · exact List.getLast_mem (List.cons_ne_nil _ _)
  · simp [shapeCalls, BuildCall.Respects]

def shapeGiven : List (String × Bits) := [("x", .ofNat 4 5), ("y", .ofNat 4 9), ("i", .ofNat 2 3)]

/-- Behind the last element there are zeros, and the first element of what comes out of the struct is
the first element of the array that was joined last. -/
theorem shape_follows_one_packing : ∃ r tail, shapeDesign.run "Shape" shapeGiven = .ok r ∧
    r.outputs = [("element", .zero 4), ("tail", tail)] ∧ tail.slice 0 4 = .ofNat 4 9 := by
  have hfind : shapeDesign.find? "Shape" = some shape := rfl
  have hgiven : List.Forall₂ (fun (port : Port) x => shapeGiven.lookup port.name = some x ∧
      x.width = port.type.bitWidth) shape.inputPorts [.ofNat 4 5, .ofNat 4 9, .ofNat 2 3] :=
    .cons ⟨rfl, rfl⟩ (.cons ⟨rfl, rfl⟩ (.cons ⟨rfl, rfl⟩ .nil))
  obtain ⟨-, hlaws, r, hrun, houtputs, -⟩ :=
    wellBuilt_shapeDesign.aggregates_follow_one_packing hfind hgiven (by decide)
  generalize he : shapeDesign.setting [.ofNat 4 5, .ofNat 4 9, .ofNat 2 3] = e at hlaws houtputs
  have hself : ∀ v, shape.Restored v v := fun v => ⟨.self, rfl⟩
  have helement : shape.meaning e 6 = .zero 4 := by
    have hindex : shape.meaning e 2 = .ofNat 2 3 := by
      rw [Circuit.meaning_input (x := ⟨.bits 2, .input 2, some "i"⟩) rfl rfl, ← he]
      rfl
    have hget := hlaws.get 5 5 2 6 (hself 5) (by decide) ⟨3, _, rfl, rfl, rfl, rfl⟩
    rw [hget, hindex]
    exact hlaws.past 5 3 (by decide)
  have htail : shape.meaning e 10 = shape.meaning e 5 := by
    have hcast : shape.Restored 7 9 :=
      ⟨.cast (.cast .self ⟨5, _, rfl, rfl, rfl, rfl⟩) ⟨6, _, rfl, rfl, rfl, rfl⟩, rfl⟩
    obtain ⟨u, hu, hmeaning⟩ := hlaws.field pairType _ [0, 5] 7 9 1 ⟨"tail", .array 3 (.bits 4)⟩ 10
      rfl rfl (by decide) ⟨4, _, rfl, rfl, rfl, rfl⟩ hcast rfl ⟨7, _, rfl, rfl, rfl, rfl⟩
    cases hu
    exact hmeaning
  have hfirst : (shape.meaning e 5).slice 0 4 = .ofNat 4 9 := by
    have hjoined := (hlaws.joined [3, 4] 5 ⟨2, _, rfl, rfl, rfl, rfl⟩).2 1 4 4 rfl (hself 4) 0
      (by decide)
    have hcreated := (hlaws.created [1, 0] 4 ⟨1, _, rfl, rfl, rfl, rfl⟩).2 0 1 rfl
    have hvalue : shape.meaning e 1 = .ofNat 4 9 := by
      rw [Circuit.meaning_input (x := ⟨.bits 4, .input 1, some "y"⟩) rfl rfl, ← he]
      rfl
    exact hjoined.trans (hcreated.trans hvalue)
  refine ⟨r, shape.meaning e 10, hrun, ?_, htail ▸ hfirst⟩
  rw [houtputs, ← helement]
  rfl

end ChannelCodec.Design
