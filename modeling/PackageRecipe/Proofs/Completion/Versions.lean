import Mathlib
import PackageRecipe.Completion

/-!
# The order of versions

Released versions are offered newest first, each with a key to sort by.  This file compares the
order of the keys with the order of the versions.

## Main Definitions

* `Completion.Numbered` — the three numbers of a version
* `Completion.capped` — numbers in which those above 999 count as 999
* `Completion.ListedBefore` — the order of the keys

## Design Notes

A key has three digits for each number, so keys are compared number by number
(`append_lt_append_iff`), and the larger number has the lower digits
(`componentKey_lt_iff`).  Numbers above 999 have no digits of their own.  They compare as 999
does, and then what follows decides: `0.1000.0` is listed behind the older `0.999.1`
(`not_listed_by_key_of_large`).  So the keys are in order exactly if the capped numbers are
(`versionKey_le_iff`), whatever the size of the numbers is.
-/

namespace PackageRecipe.Completion

open PackageRecipe.Text PackageRecipe.Sdl

variable {version other : String} {a b c text before behind : List Char} {xs ys : List ℕ}

/-! ## Numbers in versions -/

/-- A run of decimal digits of any script. -/
def Digits (ds : List Char) : Prop :=
  ds ≠ [] ∧ ∀ d ∈ ds, isDecimalDigit d = true

/-- Three runs of digits with points between stand in a text behind some of it. -/
def StandsAt (text before a b c behind : List Char) : Prop :=
  text = before ++ (a ++ '.' :: (b ++ '.' :: (c ++ behind))) ∧ Digits a ∧ Digits b ∧ Digits c

/-- The first three runs of digits with points between in a text, with all digits of the last
run. -/
def First (text a b c : List Char) : Prop :=
  ∃ before behind, StandsAt text before a b c behind ∧
    (∀ d ∈ behind.head?, isDecimalDigit d = false) ∧
    ∀ before' a' b' c' behind', StandsAt text before' a' b' c' behind' →
      before.length ≤ before'.length

/-- The number that ASCII digits write. -/
def numberOf (ds : List Char) : ℕ :=
  ds.foldl (fun n d => n * 10 + (d.toNat - '0'.toNat)) 0

/-- The first three numbers with points between in a version, written in ASCII digits. -/
def Numbered (version : String) (xs : List ℕ) : Prop :=
  ∃ a b c, First version.toList a b c ∧ (∀ d ∈ a ++ b ++ c, d.isDigit = true) ∧
    xs = [numberOf a, numberOf b, numberOf c]

/-! ## Finding the numbers -/

theorem digitRun?_append (digits : Digits a) (ends : ∀ d ∈ behind.head?, isDecimalDigit d = false) :
    digitRun? (a ++ behind) = some (a, behind) := by
  have cut : (a ++ behind).span isDecimalDigit = (a, behind) := by
    rw [List.span_eq_takeWhile_dropWhile, List.takeWhile_append_of_pos digits.2,
      List.dropWhile_append_of_pos digits.2]
    cases behind with
    | nil => simp
    | cons d behind =>
        have stop : ¬ isDecimalDigit d = true := by simp [ends d rfl]
        simp [List.takeWhile_cons_of_neg stop, List.dropWhile_cons_of_neg stop]
  rw [digitRun?, cut]
  cases a with
  | nil => exact absurd rfl digits.1
  | cons d a => rfl

/-- A run of digits is taken off the text. -/
theorem of_digitRun? (found : digitRun? text = some (a, behind)) :
    text = a ++ behind ∧ Digits a := by
  rw [digitRun?, List.span_eq_takeWhile_dropWhile] at found
  split at found
  · simp at found
  · rename_i ds rest nonempty cut
    obtain ⟨rfl, rfl⟩ : ds = a ∧ rest = behind := by simpa using found
    obtain ⟨rfl, rfl⟩ := Prod.mk.inj cut
    exact ⟨List.takeWhile_append_dropWhile.symm, nonempty, fun d => List.mem_takeWhile_imp⟩

theorem behindPoint?_eq_some_iff : behindPoint? text = some behind ↔ text = '.' :: behind := by
  unfold behindPoint?
  split <;> simp_all

theorem tripleAt?_of_standsAt (stands : StandsAt text [] a b c behind)
    (ends : ∀ d ∈ behind.head?, isDecimalDigit d = false) :
    tripleAt? text = some (a, b, c) := by
  obtain ⟨rfl, first, second, third⟩ := stands
  have point (r : List Char) : ∀ d ∈ ('.' :: r).head?, isDecimalDigit d = false := by
    rintro _ ⟨⟩
    decide
  simp [tripleAt?, digitRun?_append first (point _), digitRun?_append second (point _),
    digitRun?_append third ends, behindPoint?]

theorem standsAt_of_tripleAt? (found : tripleAt? text = some (a, b, c)) :
    ∃ behind, StandsAt text [] a b c behind := by
  simp only [tripleAt?, Option.bind_eq_bind, Option.bind_eq_some_iff, Prod.exists,
    Option.some.injEq, Prod.mk.injEq] at found
  obtain ⟨a', r, one, r', point, b', s, two, s', point', c', behind, three, rfl, rfl, rfl⟩ := found
  obtain ⟨rfl, first⟩ := of_digitRun? one
  obtain rfl := behindPoint?_eq_some_iff.1 point
  obtain ⟨rfl, second⟩ := of_digitRun? two
  obtain rfl := behindPoint?_eq_some_iff.1 point'
  obtain ⟨rfl, third⟩ := of_digitRun? three
  exact ⟨behind, rfl, first, second, third⟩

/-- **The first three runs of digits are found.** -/
theorem triple?_of_first (first : First text a b c) : triple? text = some (a, b, c) := by
  obtain ⟨before, behind, stands, ends, leftmost⟩ := first
  induction before generalizing text with
  | nil =>
      have found := tripleAt?_of_standsAt stands ends
      cases text with
      | nil => simp [tripleAt?, digitRun?] at found
      | cons d text => rw [triple?, found, Option.some_or]
  | cons d before ih =>
      obtain ⟨rfl, digits⟩ := stands
      rw [List.cons_append, triple?]
      have nothing : tripleAt? (d :: (before ++ (a ++ '.' :: (b ++ '.' :: (c ++ behind))))) = none := by
        cases found : tripleAt? (d :: (before ++ (a ++ '.' :: (b ++ '.' :: (c ++ behind))))) with
        | none => rfl
        | some abc =>
            obtain ⟨behind', earlier⟩ := standsAt_of_tripleAt? (a := abc.1) (b := abc.2.1) found
            exact absurd (leftmost _ _ _ _ _ earlier) (by simp)
      rw [nothing, Option.none_or]
      refine ih ⟨rfl, digits⟩ fun before' a' b' c' behind' ⟨split, digits'⟩ => ?_
      have shifted := leftmost (d :: before') a' b' c' behind' ⟨by simp [split], digits'⟩
      simpa using shifted

/-- A version that begins with three runs of digits has their numbers. -/
theorem numbered_of_digits {r : List Char}
    (whole : version.toList = a ++ '.' :: (b ++ '.' :: (c ++ r)))
    (filled : a ≠ [] ∧ b ≠ [] ∧ c ≠ []) (ascii : (a ++ b ++ c).all Char.isDigit = true)
    (ends : ∀ d ∈ r.head?, isDecimalDigit d = false) :
    Numbered version [numberOf a, numberOf b, numberOf c] := by
  rw [List.all_eq_true] at ascii
  have decimal (d : Char) (member : d ∈ a ++ b ++ c) : isDecimalDigit d = true :=
    isDecimalDigit_of_isDigit (ascii d member)
  simp only [List.mem_append, or_imp, forall_and] at decimal
  have stands : StandsAt version.toList [] a b c r :=
    ⟨whole, ⟨filled.1, decimal.1.1⟩, ⟨filled.2.1, decimal.1.2⟩, ⟨filled.2.2, decimal.2⟩⟩
  exact ⟨a, b, c, ⟨[], r, stands, ends, fun _ _ _ _ _ _ => Nat.zero_le _⟩, ascii, rfl⟩

/-- A version has no other numbers. -/
theorem Numbered.unique (left : Numbered version xs) (right : Numbered version ys) : xs = ys := by
  obtain ⟨a, b, c, first, -, rfl⟩ := left
  obtain ⟨a', b', c', first', -, rfl⟩ := right
  have same := (triple?_of_first first).symm.trans (triple?_of_first first')
  obtain ⟨rfl, rfl, rfl⟩ : a = a' ∧ b = b' ∧ c = c' := by simpa using same
  rfl

/-! ## Keys -/

/-- Numbers in which those above the largest that a key tells apart count as that one. -/
def capped (xs : List ℕ) : List ℕ :=
  xs.map (min maxComponent)

/-- Texts are compared part by part if their first parts are of one length. -/
theorem append_lt_append_iff {us vs : List Char} (size : a.length = b.length) :
    a ++ us < b ++ vs ↔ a < b ∨ a = b ∧ us < vs := by
  induction a generalizing b with
  | nil =>
      obtain rfl := List.length_eq_zero_iff.1 size.symm
      simp
  | cons c a ih =>
      cases b with
      | nil => simp at size
      | cons d b =>
          rw [List.cons_append, List.cons_append, List.cons_lt_cons_iff, List.cons_lt_cons_iff,
            ih (by simpa using size), List.cons.injEq]
          tauto

/-- Three digits are ordered as the numbers that they write. -/
theorem threeDigits_lt_iff {m n : ℕ} (left : m < 1000) (right : n < 1000) :
    threeDigits m < threeDigits n ↔ m < n := by
  have lower : ∀ d < 10, ∀ e < 10,
      (Char.ofNat ('0'.toNat + d) < Char.ofNat ('0'.toNat + e) ↔ d < e) ∧
        (Char.ofNat ('0'.toNat + d) = Char.ofNat ('0'.toNat + e) ↔ d = e) := by
    decide
  have digit (k : ℕ) : k % 10 < 10 := Nat.mod_lt _ (by decide)
  simp only [threeDigits, List.map_cons, List.map_nil, List.cons_lt_cons_iff,
    (lower _ (digit _) _ (digit _)).1, (lower _ (digit _) _ (digit _)).2, List.not_lt_nil,
    and_false, or_false]
  omega

theorem threeDigits_eq_iff {m n : ℕ} (left : m < 1000) (right : n < 1000) :
    threeDigits m = threeDigits n ↔ m = n := by
  have less := threeDigits_lt_iff left right
  have greater := threeDigits_lt_iff right left
  constructor
  · intro same
    rw [same] at less greater
    have notLess : ¬ m < n := fun before => lt_irrefl _ (less.2 before)
    have notGreater : ¬ n < m := fun before => lt_irrefl _ (greater.2 before)
    omega
  · rintro rfl
    rfl

theorem componentValue_eq {ds : List Char} (ascii : ∀ d ∈ ds, d.isDigit = true) :
    componentValue ds = min maxComponent (numberOf ds) := by
  rw [componentValue, if_pos (List.all_eq_true.2 ascii), numberOf]

theorem componentValue_le (ds : List Char) : componentValue ds ≤ maxComponent := by
  unfold componentValue
  split
  · exact min_le_left _ _
  · exact le_rfl

/-- The larger of two numbers has the lower digits. -/
theorem componentKey_lt_iff {ds es : List Char} :
    componentKey ds < componentKey es ↔ componentValue es < componentValue ds := by
  have small := componentValue_le ds
  have small' := componentValue_le es
  rw [componentKey, componentKey, threeDigits_lt_iff] <;> unfold maxComponent at * <;> omega

theorem componentKey_eq_iff {ds es : List Char} :
    componentKey ds = componentKey es ↔ componentValue es = componentValue ds := by
  have small := componentValue_le ds
  have small' := componentValue_le es
  rw [componentKey, componentKey, threeDigits_eq_iff] <;> unfold maxComponent at * <;> omega

/-- **Keys are ordered as capped numbers are**, the larger ones first. -/
theorem versionKey_lt_iff (left : Numbered version xs) (right : Numbered other ys) :
    versionKey version < versionKey other ↔ capped ys < capped xs := by
  obtain ⟨a, b, c, first, ascii, rfl⟩ := left
  obtain ⟨a', b', c', first', ascii', rfl⟩ := right
  simp only [List.mem_append, or_imp, forall_and] at ascii ascii'
  have size (ds es : List Char) : (componentKey ds).length = (componentKey es).length := rfl
  have key (a b c : List Char) : (String.ofList (componentKey a ++ componentKey b ++
      componentKey c)).toList = componentKey a ++ (componentKey b ++ componentKey c) := by
    rw [String.toList_ofList, List.append_assoc]
  rw [versionKey, versionKey, triple?_of_first first, triple?_of_first first',
    String.lt_iff_toList_lt, key, key, append_lt_append_iff (size _ _),
    append_lt_append_iff (size _ _)]
  simp only [componentKey_lt_iff, componentKey_eq_iff, componentValue_eq ascii.1.1,
    componentValue_eq ascii.1.2, componentValue_eq ascii.2, componentValue_eq ascii'.1.1,
    componentValue_eq ascii'.1.2, componentValue_eq ascii'.2, capped, List.map_cons, List.map_nil,
    List.cons_lt_cons_iff, List.not_lt_nil]
  simp

theorem versionKey_le_iff (left : Numbered version xs) (right : Numbered other ys) :
    versionKey version ≤ versionKey other ↔ capped ys ≤ capped xs := by
  rw [← not_lt, ← not_lt, versionKey_lt_iff right left]

theorem capped_eq_self (small : ∀ x ∈ xs, x ≤ 999) : capped xs = xs := by
  have same : ∀ x ∈ xs, min maxComponent x = x := fun x member => min_eq_right (small x member)
  rw [capped, List.map_congr_left same, List.map_id']

/-! ## Lists of versions -/

/-- The key of an item is not behind that of another one, compared character by character. -/
def ListedBefore (i j : Item) : Prop :=
  ∃ k l, i.sortText = some k ∧ j.sortText = some l ∧ k ≤ l

/-- No item stands above one of a newer version, as far as numbers count. -/
def NewestFirst (count : List ℕ → List ℕ) (items : List Item) : Prop :=
  items.Pairwise fun i j => ∀ xs ys, Numbered i.label xs → Numbered j.label ys →
    count ys ≤ count xs

/-- An item offers a version. -/
structure Offers (r : Release) (i : Item) : Prop where
  label : i.label = r.version
  insertText : i.insertText = some r.version

theorem listedBefore_releaseItem_iff {r s : Release} :
    ListedBefore (releaseItem r) (releaseItem s) ↔ versionKey r.version ≤ versionKey s.version := by
  simp [ListedBefore, releaseItem]

/-- The versions of a package are offered whenever the look-up succeeds. -/
theorem releaseItems_eq {m : Type → Type} [Monad m] [LawfulMonad m] (index : PackageIndex m)
    (package : Value) : releaseItems index [package] =
      (fun found => found.elim [] fun releases => releases.reverse.map releaseItem) <$>
        index.releases package.text := by
  rw [map_eq_pure_bind, releaseItems]
  refine bind_congr fun found => ?_
  cases found <;> rfl

/-- Items of releases that are sorted by key are newest first, as far as keys tell. -/
theorem newestFirst_of_listedBefore {releases : List Release} {shown : List Item}
    (perm : shown.Perm (releases.map releaseItem)) (ordered : shown.Pairwise ListedBefore) :
    NewestFirst capped shown := by
  refine ordered.imp_of_mem fun {i j} left right before xs ys first second => ?_
  obtain ⟨r, -, rfl⟩ := List.mem_map.1 (perm.subset left)
  obtain ⟨s, -, rfl⟩ := List.mem_map.1 (perm.subset right)
  exact (versionKey_le_iff first second).1 (listedBefore_releaseItem_iff.1 before)

/-- Lists that are related one by one are in order together. -/
theorem pairwise_iff_of_forall₂ {α β : Type} {related : α → β → Prop} {r : α → α → Prop}
    {s : β → β → Prop} {as : List α} {bs : List β} (each : List.Forall₂ related as bs)
    (same : ∀ a a' b b', related a b → related a' b' → (r a a' ↔ s b b')) :
    as.Pairwise r ↔ bs.Pairwise s := by
  obtain ⟨size, at_⟩ := List.forall₂_iff_get.1 each
  rw [List.pairwise_iff_getElem, List.pairwise_iff_getElem]
  constructor
  · intro ordered i j left right before
    exact (same _ _ _ _ (at_ i (by omega) left) (at_ j (by omega) right)).1
      (ordered i j (by omega) (by omega) before)
  · intro ordered i j left right before
    exact (same _ _ _ _ (at_ i left (by omega)) (at_ j right (by omega))).2
      (ordered i j (by omega) (by omega) before)

/-- An element of the first list is related to one of the second. -/
theorem exists_mem_of_forall₂ {α β : Type} {related : α → β → Prop} {as : List α} {bs : List β}
    (each : List.Forall₂ related as bs) {x : α} (member : x ∈ as) : ∃ y ∈ bs, related x y := by
  induction each with
  | nil => simp at member
  | cons first _ ih =>
      obtain rfl | member := List.mem_cons.1 member
      · exact ⟨_, List.mem_cons_self, first⟩
      · obtain ⟨y, inside, found⟩ := ih member
        exact ⟨y, List.mem_cons_of_mem _ inside, found⟩

/-- **Versions are listed newest first, and by key as far as keys tell them apart.**  Where a
look-up answers versions with three numbers, oldest first, there is an item for each version,
newest first.  The keys of the items are in order exactly if the versions are still oldest first
when numbers above 999 count as 999, and whoever sorts the items by key shows none above one
that is newer when numbers count so.  Without numbers above 999 the keys are in order, and none
is shown above one that is newer. -/
theorem listed_newest_first {m : Type → Type} [Monad m] [LawfulMonad m] (index : PackageIndex m)
    (package : Value) : ∃ listing : List Release → List Item,
      releaseItems index [package] =
        (fun found => found.elim [] listing) <$> index.releases package.text ∧
      ∀ (releases : List Release) (numbers : List (List ℕ)),
        List.Forall₂ (fun r xs => Numbered r.version xs) releases numbers →
        numbers.Pairwise (· ≤ ·) →
          List.Forall₂ Offers releases.reverse (listing releases) ∧
          ((listing releases).Pairwise ListedBefore ↔ (numbers.map capped).Pairwise (· ≤ ·)) ∧
          (∀ shown, shown.Perm (listing releases) → shown.Pairwise ListedBefore →
            NewestFirst capped shown) ∧
          ((∀ xs ∈ numbers, ∀ x ∈ xs, x ≤ 999) → (listing releases).Pairwise ListedBefore ∧
            ∀ shown, shown.Perm (listing releases) → shown.Pairwise ListedBefore →
              NewestFirst id shown) := by
  refine ⟨fun releases => releases.reverse.map releaseItem, releaseItems_eq index package,
    fun releases numbers numbered oldestFirst => ?_⟩
  have byKey : (releases.reverse.map releaseItem).Pairwise ListedBefore ↔
      (numbers.map capped).Pairwise (· ≤ ·) := by
    rw [List.pairwise_map, List.pairwise_reverse, List.pairwise_map]
    refine pairwise_iff_of_forall₂ numbered fun r s xs ys left right => ?_
    rw [listedBefore_releaseItem_iff, versionKey_le_iff right left]
  refine ⟨?_, byKey, fun shown perm ordered => newestFirst_of_listedBefore perm ordered,
    fun small => ⟨?_, fun shown perm ordered => ?_⟩⟩
  · rw [List.forall₂_map_right_iff, List.forall₂_same]
    exact fun r _ => ⟨rfl, rfl⟩
  · rw [byKey, List.map_congr_left fun xs member => capped_eq_self (small xs member), List.map_id']
    exact oldestFirst
  · have known {i : Item} {xs : List ℕ} (member : i ∈ shown) (read : Numbered i.label xs) :
        capped xs = xs := by
      obtain ⟨r, inside, rfl⟩ := List.mem_map.1 (perm.subset member)
      obtain ⟨ys, listed, read'⟩ :=
        exists_mem_of_forall₂ numbered (List.mem_reverse.1 inside)
      exact read.unique read' ▸ capped_eq_self (small ys listed)
    refine (newestFirst_of_listedBefore perm ordered).imp_of_mem
      fun {i j} left right newer xs ys first second => ?_
    have capOrder := newer xs ys first second
    rwa [known left first, known right second] at capOrder

/-- Two releases whose last numbers are ordered against the middle ones. -/
theorem listed_newest_first_two :
    let releases : List Release := [⟨"1.2.30", none⟩, ⟨"1.10.0-rc.1", none⟩]
    let numbers := [[1, 2, 30], [1, 10, 0]]
    let index : PackageIndex Id := ⟨none, fun _ => some releases, fun _ => none⟩
    let package : Value := ⟨.string, "p", ⟨0, 0⟩⟩
    List.Forall₂ (fun r xs => Numbered r.version xs) releases numbers ∧
      numbers.Pairwise (· ≤ ·) ∧ (∀ xs ∈ numbers, ∀ x ∈ xs, x ≤ 999) ∧
      List.Forall₂ Offers releases.reverse (releaseItems index [package]) ∧
      (releaseItems index [package]).Pairwise ListedBefore := by
  intro releases numbers index package
  have older : Numbered "1.2.30" [1, 2, 30] :=
    numbered_of_digits (a := ['1']) (b := ['2']) (c := ['3', '0']) (r := [])
      rfl (by simp) rfl (by simp)
  have newer : Numbered "1.10.0-rc.1" [1, 10, 0] :=
    numbered_of_digits (a := ['1']) (b := ['1', '0']) (c := ['0']) (r := "-rc.1".toList)
      rfl (by simp) rfl (by simp; decide)
  have numbered : List.Forall₂ (fun r xs => Numbered r.version xs) releases numbers :=
    .cons older (.cons newer .nil)
  have ordered : numbers.Pairwise (· ≤ ·) := by decide
  have small : ∀ xs ∈ numbers, ∀ x ∈ xs, x ≤ 999 := by decide
  obtain ⟨listing, answer, listed⟩ := listed_newest_first index package
  obtain ⟨offered, -, -, byKey⟩ := listed releases numbers numbered ordered
  have items : releaseItems index [package] = listing releases := answer
  rw [items]
  exact ⟨numbered, ordered, small, offered, (byKey small).1⟩

/-- A number above 999 is not told apart from 999, so the older release comes first by key. -/
theorem not_listed_by_key_of_large :
    let releases : List Release := [⟨"0.999.1", none⟩, ⟨"0.1000.0", none⟩]
    let numbers := [[0, 999, 1], [0, 1000, 0]]
    let index : PackageIndex Id := ⟨none, fun _ => some releases, fun _ => none⟩
    let package : Value := ⟨.string, "p", ⟨0, 0⟩⟩
    List.Forall₂ (fun r xs => Numbered r.version xs) releases numbers ∧
      numbers.Pairwise (· ≤ ·) ∧ (∀ xs ∈ numbers, ∀ x ∈ xs, x < 2 ^ 32) ∧
      ¬ (releaseItems index [package]).Pairwise ListedBefore := by
  intro releases numbers index package
  have older : Numbered "0.999.1" [0, 999, 1] :=
    numbered_of_digits (a := ['0']) (b := ['9', '9', '9']) (c := ['1']) (r := [])
      rfl (by simp) rfl (by simp)
  have newer : Numbered "0.1000.0" [0, 1000, 0] :=
    numbered_of_digits (a := ['0']) (b := ['1', '0', '0', '0']) (c := ['0']) (r := [])
      rfl (by simp) rfl (by simp)
  have items : releaseItems index [package] = releases.reverse.map releaseItem := rfl
  have keys : ¬ versionKey "0.1000.0" ≤ versionKey "0.999.1" := by decide
  refine ⟨.cons older (.cons newer .nil), by decide, by decide, ?_⟩
  rw [items]
  simpa [releases, listedBefore_releaseItem_iff] using keys

end PackageRecipe.Completion
