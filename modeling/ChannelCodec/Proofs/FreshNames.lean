import ChannelCodec.NameSupply
import Mathlib.Data.List.Count

/-! Names from a supply are new. A request tries names until one is free. An attempt that fails with
the stem itself has a number behind it the next time, and one that fails with a number meets a taken
name longer than the stem, so there are fewer and fewer longer ones to meet. A stem is given out
itself as long as nobody has taken it: whatever has been tried is taken. -/
namespace ChannelCodec.NameSupply

variable {s : NameSupply} {stem : String} {r : String × NameSupply}

/-- What a request gives, without a bound on the attempts. -/
inductive Gives : NameSupply → String → String × NameSupply → Prop
  | found {s : NameSupply} {stem : String} (hfree : (s.attempt stem).1 ∉ s.taken) :
      Gives s stem ((s.attempt stem).1, (s.attempt stem).2.take (s.attempt stem).1)
  | again {s : NameSupply} {stem : String} {r : String × NameSupply}
      (htaken : (s.attempt stem).1 ∈ s.taken)
      (hrest : Gives (s.attempt stem).2 (s.attempt stem).1 r) : Gives s stem r

@[simp] theorem taken_attempt (s : NameSupply) (stem : String) :
    (s.attempt stem).2.taken = s.taken := by
  unfold attempt
  split <;> rfl

private theorem attempt_starts_with (s : NameSupply) (stem : String) :
    ∃ rest, (s.attempt stem).1 = stem ++ rest := by
  unfold attempt
  split
  · exact ⟨"", String.append_empty.symm⟩
  · exact ⟨_, rfl⟩

theorem lookup_setNext (s : NameSupply) (stem other : String) (n : Nat) :
    (s.setNext stem n).next.lookup other =
      if other = stem then some n else s.next.lookup other := by
  by_cases hother : other = stem
  · simp [setNext, hother]
  have hfilter : (s.next.filter (·.1 ≠ stem)).lookup other = s.next.lookup other := by
    induction s.next with
    | nil => rfl
    | cons entry entries ih =>
      by_cases hentry : entry.1 = stem
      · have hskip : (other == entry.1) = false := by simp [hentry, hother]
        rw [List.filter_cons_of_neg (by simp [hentry]), ih, List.lookup_cons, hskip]
      · rw [List.filter_cons_of_pos (by simp [hentry]), List.lookup_cons, List.lookup_cons, ih]
  have hskip : (other == stem) = false := by simp [hother]
  rw [setNext, List.lookup_cons, hskip, if_neg hother]
  exact hfilter

def longer (s : NameSupply) (stem : String) : Nat :=
  s.taken.countP fun name => stem.length < name.length

private theorem longer_lt_of_mem {s : NameSupply} {stem name : String} (h : name ∈ s.taken)
    (hlength : stem.length < name.length) : s.longer name < s.longer stem := by
  obtain ⟨before, behind, htaken⟩ := List.append_of_mem h
  have hmono : ∀ names : List String, names.countP (fun n => name.length < n.length) ≤
      names.countP fun n => stem.length < n.length := by
    intro names
    apply List.countP_mono_left
    intro n _ hn
    simp only [decide_eq_true_eq] at hn ⊢
    omega
  have hbefore := hmono before
  have hbehind := hmono behind
  unfold longer
  simp only [htaken, List.countP_append, List.countP_cons, hlength, Nat.lt_irrefl, decide_true,
    decide_false, if_true, if_false, Bool.false_eq_true]
  omega

private theorem length_lt_append_toString (stem : String) (n : Nat) :
    stem.length < (stem ++ toString n).length := by
  have hdigits : (toString n).toList ≠ [] := by
    rw [Nat.toString_eq_repr, Nat.toList_repr]
    exact Nat.toDigits_ne_nil
  have hpos : 0 < (toString n).length := by
    rw [← String.length_toList]
    exact List.length_pos_iff.mpr hdigits
  rw [String.length_append]
  omega

/-- A bound on the attempts with `stem` that can fail: two for every longer name that is taken, and
one for the stem itself if it has not been tried. -/
def remaining (s : NameSupply) (stem : String) : Nat :=
  2 * s.longer stem + if (s.next.lookup stem).isNone then 1 else 0

private theorem remaining_attempt_lt (h : (s.attempt stem).1 ∈ s.taken) :
    (s.attempt stem).2.remaining (s.attempt stem).1 < s.remaining stem := by
  have hlonger : ∀ name, (s.attempt stem).2.longer name = s.longer name := by
    intro name
    rw [longer, taken_attempt, longer]
  rw [remaining, remaining, hlonger]
  cases htried : s.next.lookup stem with
  | none =>
    have hattempt : s.attempt stem = (stem, s.setNext stem 0) := by rw [attempt, htried]
    simp [hattempt, lookup_setNext]
  | some n =>
    have hname : (s.attempt stem).1 = stem ++ toString n := by rw [attempt, htried]
    -- The name that is met is not longer than itself, but is longer than `stem`.
    have hless : s.longer (s.attempt stem).1 < s.longer stem :=
      longer_lt_of_mem h (hname ▸ length_lt_append_toString stem n)
    split <;> simp <;> omega

theorem gives_freshFrom {attempts : Nat} (h : s.remaining stem < attempts) :
    s.Gives stem (s.freshFrom stem attempts) := by
  induction attempts generalizing s stem with
  | zero => omega
  | succ attempts ih =>
    unfold freshFrom
    by_cases hname : (s.attempt stem).1 ∈ s.taken
    · have hless := remaining_attempt_lt hname
      simpa [hname] using Gives.again hname (ih (by omega))
    · simpa [hname] using Gives.found hname

theorem gives_fresh (s : NameSupply) (stem : String) : s.Gives stem (s.fresh stem) := by
  have hlonger : s.longer stem ≤ s.taken.length := List.countP_le_length
  apply gives_freshFrom
  unfold remaining
  split <;> omega

theorem Gives.unique (h : s.Gives stem r) {r' : String × NameSupply} (h' : s.Gives stem r') :
    r = r' := by
  induction h with
  | found hfree =>
    cases h' with
    | found => rfl
    | again htaken => contradiction
  | again htaken _ ih =>
    cases h' with
    | found hfree => contradiction
    | again _ hrest => exact ih hrest

theorem gives_iff : s.Gives stem r ↔ r = s.fresh stem :=
  ⟨fun h => h.unique (gives_fresh s stem), fun h => h ▸ gives_fresh s stem⟩

theorem Gives.takes (h : s.Gives stem r) : r.1 ∉ s.taken ∧ r.2.taken = r.1 :: s.taken := by
  induction h with
  | found hfree => exact ⟨hfree, by simp [take]⟩
  | again _ _ ih => simpa using ih

theorem Gives.starts_with (h : s.Gives stem r) : ∃ rest, r.1 = stem ++ rest := by
  induction h with
  | found => exact attempt_starts_with _ _
  | @again s stem r _ _ ih =>
    obtain ⟨middle, hmiddle⟩ := attempt_starts_with s stem
    obtain ⟨rest, hrest⟩ := ih
    exact ⟨middle ++ rest, by rw [hrest, hmiddle, String.append_assoc]⟩

def TriedTaken (s : NameSupply) : Prop := ∀ stem ∉ s.taken, s.next.lookup stem = none

theorem TriedTaken.attempt_of_free (h : s.TriedTaken) (hstem : stem ∉ s.taken) :
    (s.attempt stem).1 = stem := by
  rw [attempt, h stem hstem]

private theorem lookup_attempt_of_ne (s : NameSupply) {stem other : String} (h : other ≠ stem) :
    (s.attempt stem).2.next.lookup other = s.next.lookup other := by
  unfold attempt
  split <;> simp [lookup_setNext, h]

private theorem Gives.triedTaken (h : s.Gives stem r) (hs : s.TriedTaken) : r.2.TriedTaken := by
  induction h with
  | @found s stem hfree =>
    intro other hother
    simp only [take, taken_attempt, List.mem_cons, not_or] at hother
    have hne : other ≠ stem := by
      rintro rfl
      exact hother.1 (hs.attempt_of_free hother.2).symm
    exact (lookup_attempt_of_ne s hne).trans (hs other hother.2)
  | @again s stem r htaken _ ih =>
    apply ih
    intro other hother
    rw [taken_attempt] at hother
    have hne : other ≠ stem := by
      rintro rfl
      rw [hs.attempt_of_free hother] at htaken
      exact hother htaken
    exact (lookup_attempt_of_ne s hne).trans (hs other hother)

private theorem Gives.eq_stem_iff (h : s.Gives stem r) (hs : s.TriedTaken) :
    r.1 = stem ↔ stem ∉ s.taken := by
  constructor
  · intro heq
    exact heq ▸ h.takes.1
  · intro hstem
    have hfirst := hs.attempt_of_free hstem
    cases h with
    | found => exact hfirst
    | again htaken => exact absurd (hfirst ▸ htaken) hstem

theorem fresh_spec (s : NameSupply) (stem : String) :
    (s.fresh stem).1 ∉ s.taken ∧ (s.fresh stem).2.taken = (s.fresh stem).1 :: s.taken :=
  (gives_fresh s stem).takes

def after (s : NameSupply) : List String → NameSupply
  | [] => s
  | stem :: stems => (s.fresh stem).2.after stems

private theorem TriedTaken.after (hs : s.TriedTaken) (stems : List String) :
    (s.after stems).TriedTaken := by
  induction stems generalizing s with
  | nil => exact hs
  | cons stem stems ih => exact ih ((gives_fresh s stem).triedTaken hs)

private theorem mem_taken_after (s : NameSupply) (stems : List String) (name : String) :
    name ∈ (s.after stems).taken ↔ name ∈ s.taken ∨ name ∈ s.freshAll stems := by
  induction stems generalizing s with
  | nil => simp [after, freshAll]
  | cons stem stems ih =>
    rw [after, ih, (s.fresh_spec stem).2, freshAll, List.mem_cons, List.mem_cons, or_assoc,
      or_left_comm]

private theorem freshAll_append (s : NameSupply) (stems : List String) (stem : String) :
    s.freshAll (stems ++ [stem]) = s.freshAll stems ++ [((s.after stems).fresh stem).1] := by
  induction stems generalizing s with
  | nil => rfl
  | cons first stems ih => simp [freshAll, after, ih]

/-- After any requests, whatever names were reserved before the first one, a request for any stem
tries names until one is free, and ends. The name starts with the stem, is not a reserved one and was
not given out before; it is the stem itself just if that was neither reserved nor given out. -/
theorem requests_end_with_new_names (reserved earlier : List String) (stem : String) :
    ∃ name s, (∀ r, ((reserving reserved).after earlier).Gives stem r ↔ r = (name, s)) ∧
      (reserving reserved).freshAll (earlier ++ [stem]) =
        (reserving reserved).freshAll earlier ++ [name] ∧
      (∃ rest, name = stem ++ rest) ∧ name ∉ reserved ∧
      name ∉ (reserving reserved).freshAll earlier ∧
      (name = stem ↔ stem ∉ reserved ∧ stem ∉ (reserving reserved).freshAll earlier) := by
  have hstart : (reserving reserved).TriedTaken := fun _ _ => rfl
  have hgives := gives_fresh ((reserving reserved).after earlier) stem
  have hmem := mem_taken_after (reserving reserved) earlier
  have hnew := hgives.takes.1
  have hstem := hgives.eq_stem_iff (hstart.after earlier)
  rw [hmem, not_or] at hnew hstem
  exact ⟨_, _, fun r => gives_iff, freshAll_append _ _ _, hgives.starts_with, hnew.1, hnew.2, hstem⟩

example : (reserving ["clk", "a0"]).freshAll ["clk", "a", "a", "a", "clk0"] =
    ["clk0", "a", "a00", "a1", "clk00"] := by
  decide +kernel

end ChannelCodec.NameSupply
