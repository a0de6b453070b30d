import Mathlib
import PackageRecipe.Proofs.Completion.Versions
import PackageRecipe.Proofs.Sdl.Scanning

/-!
# Sort keys of versions

An editor compares the keys of versions byte by byte.  This file shows what that comparison
says of the versions, for all texts.

## Main Definitions

* `Completion.bytes` — a text as it is sent
* `Completion.Unnumbered` — a version in which no three numbers stand with points between

## Design Notes

Keys are nine ASCII digits (`digit_of_mem_versionKey`), and for ASCII texts the order of the bytes
is the order of the characters (`bytes_lt_iff`).  What is left is `versionKey_lt_iff` for versions
with numbers.  A version without them has the key of the version `0.0.0`, and no key is behind
that one (`le_versionKey_of_unnumbered`).
-/

namespace PackageRecipe.Completion

open PackageRecipe.Text

variable {version other : String} {a b c text : List Char} {xs ys : List ℕ}

/-! ## Bytes -/

/-- The bytes of a text in UTF-8. -/
def bytes (s : String) : List UInt8 :=
  s.toUTF8.data.toList

/-- A text of ASCII characters has one byte for each of them. -/
theorem bytes_ofList (ascii : ∀ ch ∈ text, ch.toNat < 128) :
    bytes (String.ofList text) = text.map Char.toUInt8 := by
  have encoded : text.flatMap String.utf8EncodeChar = text.map Char.toUInt8 := by
    rw [List.map_eq_flatMap]
    refine List.flatMap_congr fun ch member => ?_
    have small : ch.utf8Size = 1 := by
      rw [Char.utf8Size_eq_one_iff, UInt32.le_iff_toNat_le]
      exact Nat.le_of_lt_succ (ascii ch member)
    exact String.utf8EncodeChar_eq_singleton small
  rw [bytes, String.toUTF8_eq_toByteArray, String.toByteArray_ofList, List.utf8Encode,
    List.data_toByteArray, List.toList_toArray, encoded]

/-- ASCII texts are ordered by their bytes as they are by their characters. -/
theorem map_toUInt8_lt_iff (left : ∀ ch ∈ a, ch.toNat < 128) (right : ∀ ch ∈ b, ch.toNat < 128) :
    a.map Char.toUInt8 < b.map Char.toUInt8 ↔ a < b := by
  have code {ch : Char} (small : ch.toNat < 128) : ch.toUInt8.toNat = ch.toNat :=
    Nat.mod_eq_of_lt (small.trans (by decide))
  induction a generalizing b with
  | nil => cases b <;> simp
  | cons ch a ih =>
      cases b with
      | nil => simp
      | cons dh b =>
          obtain ⟨ch_small, left⟩ := List.forall_mem_cons.1 left
          obtain ⟨dh_small, right⟩ := List.forall_mem_cons.1 right
          have lower : ch.toUInt8 < dh.toUInt8 ↔ ch < dh := by
            rw [UInt8.lt_iff_toNat_lt, code ch_small, code dh_small]
            exact UInt32.lt_iff_toNat_lt.symm
          have same : ch.toUInt8 = dh.toUInt8 ↔ ch = dh := by
            rw [← UInt8.toNat_inj, code ch_small, code dh_small]
            exact Char.toNat_inj
          rw [List.map_cons, List.map_cons, List.cons_lt_cons_iff, List.cons_lt_cons_iff, lower,
            same]
          simp only [ih left right]

/-! ## The characters of keys -/

theorem isDigit_of_mem_threeDigits (n : ℕ) : ∀ d ∈ threeDigits n, d.isDigit = true := by
  have each : ∀ d < 10, (Char.ofNat ('0'.toNat + d)).isDigit = true := by decide
  intro d member
  obtain ⟨k, inside, rfl⟩ := List.mem_map.1 member
  refine each k ?_
  simp only [List.mem_cons, List.not_mem_nil, or_false] at inside
  omega

/-- A key is three times three digits. -/
theorem toList_versionKey (version : String) : ∃ k l m : ℕ, k < 1000 ∧ l < 1000 ∧ m < 1000 ∧
    (versionKey version).toList = threeDigits k ++ (threeDigits l ++ threeDigits m) := by
  have small (ds : List Char) : maxComponent - componentValue ds < 1000 := by
    unfold maxComponent
    omega
  rw [versionKey]
  cases triple? version.toList with
  | none => exact ⟨999, 999, 999, by decide, by decide, by decide, by decide⟩
  | some abc =>
      refine ⟨_, _, _, small abc.1, small abc.2.1, small abc.2.2, ?_⟩
      rw [String.toList_ofList, List.append_assoc]
      rfl

theorem digit_of_mem_versionKey (version : String) :
    ∀ d ∈ (versionKey version).toList, d.isDigit = true := by
  obtain ⟨k, l, m, -, -, -, spelled⟩ := toList_versionKey version
  simp only [spelled, List.mem_append]
  rintro d (member | member | member)
  · exact isDigit_of_mem_threeDigits k d member
  · exact isDigit_of_mem_threeDigits l d member
  · exact isDigit_of_mem_threeDigits m d member

/-- Keys are ordered by their bytes as they are by their characters. -/
theorem bytes_versionKey_lt_iff (version other : String) :
    bytes (versionKey version) < bytes (versionKey other) ↔
      versionKey version < versionKey other := by
  have ascii (v : String) : ∀ ch ∈ (versionKey v).toList, ch.toNat < 128 := fun ch member =>
    Sdl.Piece.toNat_lt_of_isDigit (digit_of_mem_versionKey v ch member)
  have spelled (v : String) : bytes (versionKey v) = (versionKey v).toList.map Char.toUInt8 := by
    rw [← bytes_ofList (ascii v), String.ofList_toList]
  rw [spelled, spelled, map_toUInt8_lt_iff (ascii _) (ascii _), String.lt_iff_toList_lt]

/-! ## Versions with numbers and versions without -/

/-- A version whose first digits begin three runs of digits has their numbers. -/
theorem numbered_behind (before behind : List Char)
    (whole : version.toList = before ++ (a ++ '.' :: (b ++ '.' :: (c ++ behind))))
    (noDigits : ∀ d ∈ before, isDecimalDigit d = false) (filled : a ≠ [] ∧ b ≠ [] ∧ c ≠ [])
    (ascii : (a ++ b ++ c).all Char.isDigit = true)
    (ends : ∀ d ∈ behind.head?, isDecimalDigit d = false) :
    Numbered version [numberOf a, numberOf b, numberOf c] := by
  rw [List.all_eq_true] at ascii
  have decimal (d : Char) (member : d ∈ a ++ b ++ c) : isDecimalDigit d = true :=
    isDecimalDigit_of_isDigit (ascii d member)
  simp only [List.mem_append, or_imp, forall_and] at decimal
  refine ⟨a, b, c, ⟨before, behind, ⟨whole, ⟨filled.1, decimal.1.1⟩, ⟨filled.2.1, decimal.1.2⟩,
    ⟨filled.2.2, decimal.2⟩⟩, ends, ?_⟩, ascii, rfl⟩
  -- A run that began earlier would have its first digit among the characters in front.
  rintro before' a' b' c' behind' ⟨split, ⟨nonempty, digits⟩, -⟩
  by_contra shorter
  obtain ⟨d, a', rfl⟩ := List.exists_cons_of_ne_nil nonempty
  have found : (before ++ (a ++ '.' :: (b ++ '.' :: (c ++ behind))))[before'.length]? = some d := by
    rw [← whole, split]
    simp
  rw [List.getElem?_append_left (not_le.1 shorter)] at found
  have digit := digits d List.mem_cons_self
  rw [noDigits d (List.mem_of_getElem? found)] at digit
  exact absurd digit (by decide)

/-- Nowhere in a version do three runs of digits stand with points between. -/
def Unnumbered (version : String) : Prop :=
  ∀ before a b c behind, ¬ StandsAt version.toList before a b c behind

theorem triple?_eq_none (nowhere : ∀ before a b c behind, ¬ StandsAt text before a b c behind) :
    triple? text = none := by
  induction text with
  | nil => rfl
  | cons ch text ih =>
      have here : tripleAt? (ch :: text) = none := by
        cases found : tripleAt? (ch :: text) with
        | none => rfl
        | some abc =>
            obtain ⟨behind, stands⟩ := standsAt_of_tripleAt? (a := abc.1) (b := abc.2.1) found
            exact absurd stands (nowhere _ _ _ _ _)
      rw [triple?, here, Option.none_or]
      apply ih
      intro before a b c behind stands
      exact nowhere (ch :: before) a b c behind ⟨by rw [stands.1, List.cons_append], stands.2⟩

/-- No key is behind that of a version without numbers. -/
theorem le_versionKey_of_unnumbered (nowhere : Unnumbered version) (other : String) :
    ¬ versionKey version < versionKey other := by
  obtain ⟨k, l, m, first, second, third, spelled⟩ := toList_versionKey other
  have last : (versionKey version).toList =
      threeDigits 999 ++ (threeDigits 999 ++ threeDigits 999) := by
    rw [versionKey, triple?_eq_none nowhere]
    decide
  have size (m n : ℕ) : (threeDigits m).length = (threeDigits n).length := rfl
  rw [String.lt_iff_toList_lt, last, spelled, append_lt_append_iff (size _ _),
    append_lt_append_iff (size _ _), threeDigits_lt_iff (by decide) first,
    threeDigits_lt_iff (by decide) second, threeDigits_lt_iff (by decide) third]
  omega

/-! ## The order of the keys -/

theorem versionKey_eq_iff (left : Numbered version xs) (right : Numbered other ys) :
    versionKey version = versionKey other ↔ capped xs = capped ys := by
  rw [le_antisymm_iff, versionKey_le_iff left right, versionKey_le_iff right left,
    le_antisymm_iff, and_comm]

/-- **Keys order versions by their capped numbers.**  A key is nine ASCII digits, for any text.
Of two versions with numbers, the key of the first one has the lower bytes exactly if its numbers
are the larger ones when those above 999 count as 999, and both have the same key exactly if the
numbers are then the same.  The key of a version without numbers is in front of no key. -/
theorem versionKey_ordered :
    (∀ version, (versionKey version).length = 9 ∧
      ∀ d ∈ (versionKey version).toList, d.isDigit = true) ∧
    (∀ version other xs ys, Numbered version xs → Numbered other ys →
      (bytes (versionKey version) < bytes (versionKey other) ↔ capped ys < capped xs) ∧
      (versionKey version = versionKey other ↔ capped xs = capped ys)) ∧
    ∀ version other, Unnumbered version →
      ¬ bytes (versionKey version) < bytes (versionKey other) := by
  refine ⟨fun version => ⟨?_, digit_of_mem_versionKey version⟩,
    fun version other xs ys left right => ⟨?_, versionKey_eq_iff left right⟩,
    fun version other nowhere => ?_⟩
  · obtain ⟨k, l, m, -, -, -, spelled⟩ := toList_versionKey version
    rw [← String.length_toList, spelled]
    rfl
  · rw [bytes_versionKey_lt_iff, versionKey_lt_iff left right]
  · rw [bytes_versionKey_lt_iff]
    exact le_versionKey_of_unnumbered nowhere other

/-- Versions with a text around the numbers, leading zeros and a number of more than 32 bits, and
a version without numbers. -/
theorem versionKey_ordered_long :
    Numbered "v1.5000000000.0" [1, 5000000000, 0] ∧ Numbered "~>1.0998.7.2" [1, 998, 7] ∧
      Unnumbered "~master" ∧
      bytes (versionKey "v1.5000000000.0") < bytes (versionKey "~>1.0998.7.2") ∧
      ¬ bytes (versionKey "~master") < bytes (versionKey "v1.5000000000.0") := by
  have newer : Numbered "v1.5000000000.0" [1, 5000000000, 0] :=
    numbered_behind ['v'] [] (a := ['1']) (b := "5000000000".toList) (c := ['0'])
      rfl (by simp; decide) (by decide) (by decide) (by simp)
  have older : Numbered "~>1.0998.7.2" [1, 998, 7] :=
    numbered_behind ['~', '>'] ['.', '2'] (a := ['1']) (b := "0998".toList) (c := ['7'])
      rfl (by simp; decide) (by decide) (by decide) (by simp; decide)
  have nowhere : Unnumbered "~master" := by
    rintro before a b c behind ⟨split, -⟩
    have point : '.' ∈ "~master".toList := by simp [split]
    exact absurd point (by decide)
  obtain ⟨-, byNumbers, last⟩ := versionKey_ordered
  exact ⟨newer, older, nowhere, (byNumbers _ _ _ _ newer older).1.2 (by decide), last _ _ nowhere⟩

end PackageRecipe.Completion
