import ChannelCodec.Message.Schema
import Mathlib.Logic.Function.Basic

/-! Fingerprints as chains. What is hashed are the bytes of a text with spaces behind them. A block
of 64 bytes changes the running hash by a map that can be undone, so that what follows two texts
neither brings their hashes together nor parts them. -/
namespace ChannelCodec
namespace Fingerprint

private theorem toList_loop (bytes : ByteArray) (i : Nat) (front : List UInt8) :
    ByteArray.toList.loop bytes i front = front.reverse ++ bytes.data.toList.drop i := by
  fun_induction ByteArray.toList.loop bytes i front with
  | case1 i front hi ih =>
    have hlist : i < bytes.data.toList.length := by simpa using hi
    have hbyte : bytes.get! i = bytes.data.toList[i] := by
      simp [ByteArray.get!, getElem!_pos, hi]
    rw [ih, List.drop_eq_getElem_cons hlist, hbyte, List.reverse_cons, List.append_assoc,
      List.singleton_append]
  | case2 i front hi =>
    have hlist : bytes.data.toList.length ≤ i := by simpa using hi
    rw [List.drop_eq_nil_of_le hlist, List.append_nil]

theorem toList_eq (bytes : ByteArray) : bytes.toList = bytes.data.toList := by
  rw [ByteArray.toList, toList_loop]
  rfl

theorem bytes_append (text back : String) :
    (text ++ back).toUTF8.toList = text.toUTF8.toList ++ back.toUTF8.toList := by
  simp only [toList_eq, String.toUTF8, String.toByteArray_append, ByteArray.data_append,
    Array.toList_append]

theorem bytes_injective {text text' : String} (h : text.toUTF8.toList = text'.toUTF8.toList) :
    text = text' := by
  rw [toList_eq, toList_eq] at h
  exact String.toByteArray_inj.mp (ByteArray.ext (Array.toList_inj.mp h))

private theorem bytes_spaces (n : Nat) :
    (String.ofList (List.replicate n ' ')).toUTF8.toList = List.replicate n 0x20 := by
  have hspace : (String.ofList [' ']).toUTF8.toList = [0x20] := by
    rw [toList_eq]
    decide
  induction n with
  | zero => simp [toList_eq]
  | succ n ih =>
    rw [List.replicate_succ, ← List.singleton_append, String.ofList_append, bytes_append, ih,
      hspace]
    rfl

theorem exists_padded_eq (text : String) : ∃ n, padded text.toUTF8.toList =
    (text ++ String.ofList (List.replicate n ' ')).toUTF8.toList :=
  ⟨_, by rw [bytes_append, bytes_spaces]; rfl⟩

private theorem length_bytes (text : String) : text.toUTF8.toList.length = text.utf8ByteSize := by
  rw [toList_eq]
  rfl

private theorem padded_append {front : List UInt8} (back : List UInt8) (h : 64 ∣ front.length) :
    padded (front ++ back) = front ++ padded back := by
  rw [padded, padded, List.append_assoc, List.length_append, Nat.add_mod,
    Nat.mod_eq_zero_of_dvd h, Nat.zero_add, Nat.mod_mod]

private theorem padded_eq_self {bytes : List UInt8} (h : 64 ∣ bytes.length) :
    padded bytes = bytes := by
  rw [padded, Nat.mod_eq_zero_of_dvd h]
  exact List.append_nil bytes

/-- A function that makes one value out of each eight elements and drops what is left over. -/
structure ByEights {α β : Type} (f : List α → List β) : Prop where
  short : ∀ xs, xs.length < 8 → f xs = []
  step : ∀ eight, eight.length = 8 → ∃ y, ∀ rest, f (eight ++ rest) = y :: f rest

namespace ByEights
variable {α β : Type} {f : List α → List β}

theorem exists_first (hf : ByEights f) {xs : List α} (hlength : 8 ≤ xs.length) :
    ∃ y, f xs = y :: f (xs.drop 8) ∧ ∀ back, f (xs ++ back) = y :: f (xs.drop 8 ++ back) := by
  obtain ⟨y, hy⟩ := hf.step (xs.take 8) (List.length_take_of_le hlength)
  refine ⟨y, ?_, fun back => ?_⟩
  · rw [← hy, List.take_append_drop]
  · rw [← hy, ← List.append_assoc, List.take_append_drop]

-- Both inductions are on the length, since each step takes eight elements and not one.
theorem length (hf : ByEights f) (xs : List α) : (f xs).length = xs.length / 8 := by
  induction hn : xs.length using Nat.strongRecOn generalizing xs with
  | ind n ih =>
    subst hn
    by_cases hshort : xs.length < 8
    · rw [hf.short xs hshort, Nat.div_eq_of_lt hshort, List.length_nil]
    · obtain ⟨y, hself, -⟩ := hf.exists_first (Nat.le_of_not_lt hshort)
      have hdrop : (xs.drop 8).length = xs.length - 8 := List.length_drop
      rw [hself, List.length_cons, ih _ (by omega) _ rfl]
      omega

theorem append (hf : ByEights f) {front : List α} (back : List α) (hfront : 8 ∣ front.length) :
    f (front ++ back) = f front ++ f back := by
  induction hn : front.length using Nat.strongRecOn generalizing front with
  | ind n ih =>
    subst hn
    by_cases hshort : front.length < 8
    · obtain rfl := List.eq_nil_of_length_eq_zero (Nat.eq_zero_of_dvd_of_lt hfront hshort)
      rw [hf.short [] hshort, List.nil_append, List.nil_append]
    · obtain ⟨y, hself, hback⟩ := hf.exists_first (Nat.le_of_not_lt hshort)
      have hdrop : (front.drop 8).length = front.length - 8 := List.length_drop
      rw [hback, hself, List.cons_append, ih _ (by omega) (by omega) rfl]

end ByEights

theorem wordsOf_byEights : ByEights wordsOf where
  short xs h := by
    rw [wordsOf]
    rintro a b c d e f g i rest rfl
    simp only [List.length_cons] at h
    omega
  step eight h :=
    match eight, h with
    | [_, _, _, _, _, _, _, _], _ => ⟨_, fun _ => rfl⟩

theorem blocksOf_byEights : ByEights blocksOf where
  short xs h := by
    rw [blocksOf]
    rintro a b c d e f g i rest rfl
    simp only [List.length_cons] at h
    omega
  step eight h :=
    match eight, h with
    | [_, _, _, _, _, _, _, _], _ => ⟨_, fun _ => rfl⟩

private theorem exists_block {bytes : List UInt8} (h : bytes.length = 64) :
    ∃ block, blocksOf (wordsOf bytes) = [block] := by
  rw [← List.length_eq_one_iff, blocksOf_byEights.length, wordsOf_byEights.length, h]

theorem runningHash_append {front : List UInt8} (back : List UInt8) (h : 64 ∣ front.length) :
    runningHash (front ++ back) = (blocksOf (wordsOf back)).foldl mix (runningHash front) := by
  have hbytes : 8 ∣ front.length := Nat.dvd_trans (by decide) h
  have hwords : 8 ∣ (wordsOf front).length := by
    rw [wordsOf_byEights.length]
    omega
  rw [runningHash, wordsOf_byEights.append back hbytes, blocksOf_byEights.append _ hwords,
    List.foldl_append]
  rfl

theorem folded_folded (x : UInt64) : folded (folded x) = x := by
  -- Two shifts by more than half of the bits leave none of them.
  have hshift : x >>> 47 >>> 47 = 0 := by
    apply UInt64.toNat_inj.mp
    have hlt := x.toNat_lt
    simp only [UInt64.toNat_shiftRight, Nat.shiftRight_eq_div_pow]
    change x.toNat / 2 ^ 47 / 2 ^ 47 = 0
    omega
  rw [folded, folded, UInt64.shiftRight_xor, hshift, UInt64.xor_zero, UInt64.xor_assoc,
    UInt64.xor_self, UInt64.xor_zero]

/-- The number that undoes a multiplication by `k2`, which is odd. -/
def k2Inverse : UInt64 := 0xb5a360ae14bed6af

theorem k2_mul_inverse : k2 * k2Inverse = 1 := by decide

/-- The running hash from before the block was mixed into it. -/
def unmix (hash : UInt64) (block : Block) : UInt64 :=
  (folded (hash * k2Inverse) - (core block).2) ^^^ (core block).1

theorem mix_eq (hash : UInt64) (block : Block) :
    mix hash block = folded ((hash ^^^ (core block).1) + (core block).2) * k2 :=
  rfl

private theorem unmix_mix (hash : UInt64) (block : Block) :
    unmix (mix hash block) block = hash := by
  rw [unmix, mix_eq, UInt64.mul_assoc, k2_mul_inverse, UInt64.mul_one, folded_folded,
    UInt64.add_sub_cancel, UInt64.xor_assoc, UInt64.xor_self, UInt64.xor_zero]

private theorem mix_unmix (hash : UInt64) (block : Block) :
    mix (unmix hash block) block = hash := by
  rw [mix_eq, unmix, UInt64.xor_assoc, UInt64.xor_self, UInt64.xor_zero, UInt64.sub_add_cancel,
    folded_folded, UInt64.mul_assoc, UInt64.mul_comm k2Inverse, k2_mul_inverse, UInt64.mul_one]

theorem mix_bijective (block : Block) : Function.Bijective fun hash => mix hash block :=
  Function.bijective_iff_has_inverse.mpr
    ⟨fun hash => unmix hash block, fun hash => unmix_mix hash block,
      fun hash => mix_unmix hash block⟩

private theorem foldl_mix_bijective (blocks : List Block) :
    Function.Bijective fun hash => blocks.foldl mix hash := by
  induction blocks with
  | nil => exact Function.bijective_id
  | cons block blocks ih => exact ih.comp (mix_bijective block)

/-- The running hash at the end of a text. The fingerprint is this hash with a tag. -/
def untagged (text : String) : UInt64 := runningHash (padded text.toUTF8.toList)

def Collide (text text' : String) : Prop := text ≠ text' ∧ untagged text = untagged text'

instance (text text' : String) : Decidable (Collide text text') :=
  inferInstanceAs (Decidable (_ ∧ _))

section Tail
variable {text text' : String} (tail : String)

private theorem untagged_append (h : 64 ∣ text.utf8ByteSize) : untagged (text ++ tail) =
    (blocksOf (wordsOf (padded tail.toUTF8.toList))).foldl mix (untagged text) := by
  rw [← length_bytes] at h
  rw [untagged, bytes_append, padded_append _ h, runningHash_append _ h, untagged,
    padded_eq_self h]

theorem untagged_append_eq_iff (h : 64 ∣ text.utf8ByteSize) (h' : 64 ∣ text'.utf8ByteSize) :
    untagged (text ++ tail) = untagged (text' ++ tail) ↔ untagged text = untagged text' := by
  rw [untagged_append tail h, untagged_append tail h']
  exact (foldl_mix_bijective _).injective.eq_iff

private theorem collide_append_iff (h : 64 ∣ text.utf8ByteSize) (h' : 64 ∣ text'.utf8ByteSize) :
    Collide (text ++ tail) (text' ++ tail) ↔ Collide text text' := by
  rw [Collide, Collide, ne_eq, ne_eq, String.append_left_inj, untagged_append_eq_iff tail h h']

end Tail

/-- Chaining loses nothing before the tag is set. Mixing in a block of 64 bytes is a bijection of
running hashes. So a tail behind two texts of whole blocks leaves their hashes equal or different
as they were, and neither makes a collision nor mends one. The identifier of a type is such a hash
of its text, with the tag. -/
theorem chaining_loses_nothing :
    (∀ bytes : List UInt8, bytes.length = 64 → ∃ block, blocksOf (wordsOf bytes) = [block] ∧
      Function.Bijective fun hash => mix hash block) ∧
    (∀ text text' tail : String, 64 ∣ text.utf8ByteSize → 64 ∣ text'.utf8ByteSize →
      (untagged (text ++ tail) = untagged (text' ++ tail) ↔ untagged text = untagged text') ∧
      (Collide (text ++ tail) (text' ++ tail) ↔ Collide text text')) ∧
    ∀ s : MessageSchema, s.id = (untagged s.type.text ||| idTag).toNat := by
  refine ⟨fun bytes h => ?_, fun text text' tail h h' => ?_, fun s => rfl⟩
  · obtain ⟨block, hblock⟩ := exists_block h
    exact ⟨block, hblock, mix_bijective block⟩
  · exact ⟨untagged_append_eq_iff tail h h', collide_append_iff tail h h'⟩

def byteNamed (name : String) : HwType := .struct [⟨name, .int .unsigned 8⟩]

def resetName : String := "number_of_the_first_sample_after_the_last_clock_reset"

/-- A name like `resetName`, found by solving for the two words that differ. -/
def twinName : String := "number_of_the_first_sample_afynuwrhkdlast_clokEtZvy5j"

/-- Two types with one identifier. Their texts collide in the first block, where the names end, and
the tail that they share changes nothing about it. -/
theorem twinNames_collide :
    (∃ block, blocksOf (wordsOf ("!hw.struct<" ++ resetName).toUTF8.toList) = [block] ∧
      Function.Bijective fun hash => mix hash block) ∧
    Collide (byteNamed resetName).text (byteNamed twinName).text ∧
    (MessageSchema.of (byteNamed resetName)).id = (MessageSchema.of (byteNamed twinName)).id := by
  have hblocks : 64 ∣ ("!hw.struct<" ++ resetName).utf8ByteSize ∧
      64 ∣ ("!hw.struct<" ++ twinName).utf8ByteSize := by decide +kernel
  have hheads : Collide ("!hw.struct<" ++ resetName) ("!hw.struct<" ++ twinName) := by
    decide +kernel
  have htexts : (byteNamed resetName).text = "!hw.struct<" ++ resetName ++ ": ui8>" ∧
      (byteNamed twinName).text = "!hw.struct<" ++ twinName ++ ": ui8>" := by decide +kernel
  obtain ⟨hblock, htail, hid⟩ := chaining_loses_nothing
  have hcollide := (htail _ _ ": ui8>" hblocks.1 hblocks.2).2.mpr hheads
  rw [← htexts.1, ← htexts.2] at hcollide
  refine ⟨hblock _ (by decide +kernel), hcollide, ?_⟩
  rw [hid, hid]
  exact congrArg (fun hash => (hash ||| idTag).toNat) hcollide.2

end Fingerprint
end ChannelCodec
