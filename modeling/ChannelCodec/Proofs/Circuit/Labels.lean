import ChannelCodec.Proofs.Circuit.Printing

/-! Naming values. Construction steps that name results only, never inputs, and only with names that
start with a letter, lead to a circuit whose written form leaves no doubt about its values. -/
namespace ChannelCodec

/-- A builder at work on a circuit with these input ports. Inputs have the names of their ports, all
names start with a letter, and the outputs, if they are set, are there. -/
structure Builder.Readable (inputs : List Port) (b : Builder) : Prop where
  orderly : b.Orderly fun _ _ => False
  inputPorts : b.circuit.inputPorts = inputs
  labels : b.circuit.Labelled
  outputs : ∀ v ∈ b.circuit.outputs, v < b.circuit.values.size

theorem Circuit.Labelled.append {c : Circuit} {block : Block} {kind : OperationKind}
    {operands : List Nat} {types : List HwType} (h : c.Labelled) :
    (c.append block kind operands types).Labelled where
  input v port hport := by
    have hname := h.input v port hport
    obtain ⟨x, hx, -⟩ := Option.bind_eq_some_iff.mp hname
    rw [get?_values_append_of_lt (lt_of_get?_values hx), hname]
  letter v x name hx hname := by
    by_cases hv : v < c.values.size
    · rw [get?_values_append_of_lt hv] at hx
      exact h.letter v x name hx hname
    · obtain ⟨n, rfl⟩ := Nat.exists_eq_add_of_le (Nat.le_of_not_lt hv)
      rw [get?_values_append_new] at hx
      obtain ⟨t, -, rfl⟩ := Option.map_eq_some_iff.mp hx
      cases hname

private theorem Circuit.labelled_ofPorts {c : Circuit} {name : String} {ports : List Port}
    (h : ofPorts name ports = .ok c)
    (hletters : ∀ port ∈ portsOf .input ports, startsWith isAsciiLetter port.name = true) :
    c.Labelled where
  input v port hport := by
    rw [inputPorts, (ofPorts_eq h).2.1] at hport
    rw [get?_values_ofPorts h, hport]
    rfl
  letter v x name hx hname := by
    rw [get?_values_ofPorts h] at hx
    obtain ⟨port, hport, rfl⟩ := Option.map_eq_some_iff.mp hx
    cases hname
    exact hletters port (List.mem_of_getElem? hport)

namespace Builder
variable {inputs : List Port} {b : Builder}

private theorem labelled_rename (h : b.circuit.Labelled) {v : Nat}
    (hv : b.circuit.inputPorts.length ≤ v) {name : String}
    (hname : startsWith isAsciiLetter name = true) :
    (b.rename v name).circuit.Labelled where
  input w port hport := by
    have hlt : w < b.circuit.inputPorts.length := (List.getElem?_eq_some_iff.mp hport).1
    rw [get?_values_rename_eq, if_neg (by omega)]
    exact h.input w port hport
  letter w x old hx hold := by
    rw [get?_values_rename_eq] at hx
    split at hx
    · obtain ⟨y, -, rfl⟩ := Option.map_eq_some_iff.mp hx
      cases hold
      obtain ⟨rest, hrest⟩ := (NameSupply.gives_fresh b.circuit.names name).starts_with
      rw [hrest]
      exact startsWith_append hname rest
    · exact h.letter w x old hx hold

namespace Readable

private theorem unambiguous (h : b.Readable inputs) : b.circuit.Unambiguous :=
  h.orderly.wellFormed.unambiguous h.labels h.outputs

private theorem of_ofPorts {c : Circuit} {name : String} {ports : List Port}
    (h : Circuit.ofPorts name ports = .ok c)
    (hletters : ∀ port ∈ portsOf .input ports, startsWith isAsciiLetter port.name = true) :
    Builder.Readable (portsOf .input ports) { circuit := c } := by
  have houtputs : c.outputs = [] := by
    unfold Circuit.ofPorts at h
    split at h
    · cases h
    · cases h
      rfl
  refine ⟨Circuit.orderly_ofPorts h, ?_, Circuit.labelled_ofPorts h hletters, ?_⟩
  · rw [Circuit.inputPorts, (Circuit.ofPorts_eq h).2.1]
  · rw [houtputs]
    exact List.forall_mem_nil _

theorem append (h : b.Readable inputs) {kind : OperationKind} {operands : List Nat}
    {types : List HwType} (hstep : b.Step (fun _ _ => False) (b.append kind operands types)) :
    (b.append kind operands types).Readable inputs where
  orderly := h.orderly.step hstep
  inputPorts := h.inputPorts
  labels := h.labels.append
  outputs v hv := Circuit.append_extends.lt (h.outputs v hv)

private theorem length_inputs_le (h : b.Readable inputs) :
    inputs.length ≤ b.circuit.values.size := by
  refine Nat.le_of_not_lt fun hlt => ?_
  rw [← h.inputPorts] at hlt
  have htype := (h.orderly.typed.circuit.input _ _ (List.getElem?_eq_getElem hlt)).2
  exact Nat.lt_irrefl _ (Circuit.lt_of_type? htype)

end Readable
end Builder

def Keeps {α : Type} (inputs : List Port) (m : Build α) (post : α → Prop) : Prop :=
  ∀ b : Builder, b.Readable inputs → Ensures m b fun a b' => b'.Readable inputs ∧ post a

namespace Keeps
variable {α β : Type} {inputs : List Port} {m : Build α} {f : α → Build β} {p : α → Prop}
variable {post : β → Prop}

theorem pure {a : α} (h : p a) : Keeps inputs (Pure.pure a) p := fun _ hb => .pure ⟨hb, h⟩

theorem throw (failure : Failure) : Keeps inputs (MonadExcept.throw failure) p :=
  fun _ _ => .throw failure

theorem mono {p' : α → Prop} (h : Keeps inputs m p) (hp : ∀ a, p a → p' a) : Keeps inputs m p' :=
  fun b hb => (h b hb).mono fun a _ ha => ⟨ha.1, hp a ha.2⟩

theorem bind (hm : Keeps inputs m p) (hf : ∀ a, p a → Keeps inputs (f a) post) :
    Keeps inputs (m >>= f) post :=
  fun b hb => (hm b hb).bind fun a b₁ ha => hf a ha.2 b₁ ha.1

theorem look (hm : ∀ b, Ensures m b fun a b' => b' = b ∧ p a)
    (hf : ∀ a, p a → Keeps inputs (f a) post) : Keeps inputs (m >>= f) post :=
  fun b hb => (hm b).look fun a ha => hf a ha b hb

theorem read (hm : Inspects m) (hf : ∀ a, Keeps inputs (f a) post) :
    Keeps inputs (m >>= f) post := by
  refine look (p := fun _ => True) (fun b a b' h => ?_) fun a _ => hf a
  rcases hm b with ⟨a', ha'⟩ | ⟨failure, hfailure⟩
  · rw [ha'] at h
    cases h
    exact ⟨rfl, trivial⟩
  · rw [hfailure] at h
    cases h

theorem mapM {f : α → Build β} {items : List α}
    (hf : ∀ a ∈ items, Keeps inputs (f a) fun _ => True) :
    Keeps inputs (items.mapM f) fun _ => True := by
  induction items with
  | nil => exact .pure trivial
  | cons a items ih =>
    rw [List.forall_mem_cons] at hf
    rw [List.mapM_cons]
    exact hf.1.bind fun _ _ => (ih hf.2).bind fun _ _ => .pure trivial

theorem foldlM {f : β → α → Build β} {items : List α}
    (hf : ∀ s, ∀ a ∈ items, Keeps inputs (f s a) fun _ => True) (s : β) :
    Keeps inputs (items.foldlM f s) fun _ => True := by
  induction items generalizing s with
  | nil => exact .pure trivial
  | cons a items ih =>
    rw [List.foldlM_cons]
    refine (hf s a List.mem_cons_self).bind fun s' _ => ?_
    exact ih (fun s x hx => hf s x (List.mem_cons_of_mem a hx)) s'

end Keeps

namespace Build
variable {inputs : List Port}

theorem gate_keeps {m : Build Nat} (hm : ∀ b, Ensures m b b.Gains) :
    Keeps inputs m (inputs.length ≤ ·) := by
  intro b hb
  refine (hm b).mono fun v b' h => ?_
  cases h with
  | gate hoperands htyped =>
    exact ⟨hb.append (.compute hoperands htyped), hb.length_inputs_le⟩

theorem observe_keeps {kind : OperationKind}
    (hkind : kind = .always ∨ kind = .branch ∨ ∃ message, kind = .assertion message) (v : Nat)
    (mistake : Misuse) :
    Keeps inputs (do
      require ((← typeOf v) = .bit) mistake
      addOperation kind [v] []) fun _ => True := by
  intro b hb
  refine (observe_ensures kind v mistake).mono ?_
  rintro _ _ ⟨htype, rfl⟩
  exact ⟨hb.append (.observe hkind htype), trivial⟩

theorem enter_keeps (block : Block) : Keeps inputs (enter block) fun _ => True := by
  intro b hb
  refine (enter_ensures block).mono ?_
  rintro _ _ ⟨hregion, rfl⟩
  exact ⟨⟨hb.orderly.step (.enter hregion), hb.inputPorts, hb.labels, hb.outputs⟩, trivial⟩

theorem setName_keeps {v : Nat} (hv : inputs.length ≤ v) {name : String}
    (hname : startsWith isAsciiLetter name = true) :
    Keeps inputs (setName v name) fun _ => True := by
  intro b hb
  refine (setName_ensures v name).mono ?_
  rintro _ _ rfl
  refine ⟨⟨hb.orderly.step (.rename v name), hb.inputPorts, ?_, fun w hw => ?_⟩, trivial⟩
  · exact Builder.labelled_rename hb.labels (hb.inputPorts ▸ hv) hname
  · exact Nat.lt_of_lt_of_eq (hb.outputs w hw) Array.size_modify.symm

theorem output_keeps (vs : List Nat) : Keeps inputs (output vs) fun _ => True := by
  intro b hb
  refine (output_ensures vs).mono ?_
  rintro _ _ ⟨htypes, rfl⟩
  have hlabels := hb.labels
  exact ⟨⟨hb.orderly.step (.output htypes), hb.inputPorts, ⟨hlabels.input, hlabels.letter⟩,
    htypes.lt⟩, trivial⟩

end Build

theorem Keeps.unambiguous {α : Type} {name : String} {ports : List Port} {start c : Circuit}
    {steps : Build α} {a : α} {p : α → Prop} (hkeeps : Keeps (portsOf .input ports) steps p)
    (hstart : Circuit.ofPorts name ports = .ok start)
    (hletters : ∀ port ∈ portsOf .input ports, startsWith isAsciiLetter port.name = true)
    (hbuild : start.build steps = .ok (a, c)) : c.Unambiguous := by
  unfold Circuit.build at hbuild
  split at hbuild
  next a' b hrun =>
    cases hbuild
    exact (hkeeps _ (.of_ofPorts hstart hletters) _ _ hrun).1.unambiguous
  next => cases hbuild

end ChannelCodec
