import Mathlib
import PackageRecipe.Completion.Ranking

/-!
# The best names

Which names are offered for a query, and in which order, whatever the names score.

## Main Definitions

* `Completion.Entry` — a name with its place in a list
* `Completion.matching` — the entries that match a query
* `Completion.Ahead` — the order in which entries are offered

## Design Notes

A list may hold a name twice, so its names are told apart by their places.  `Ahead` compares all
places: no two of them tie.  The sort compares scores alone and is stable, so what it yields is in
the order `Ahead` (`pairwise_sort`).  The names that are left out stand behind those that are
offered in the sorted list, and all else follows from its order.
-/

namespace PackageRecipe.Completion

variable {score : String → ℕ} {names : List String}

/-- A name with its place in a list of names. -/
abbrev Entry := String × ℕ

/-- The entries of a list whose names have a positive score. -/
def matching (score : String → ℕ) (names : List String) : List Entry :=
  names.zipIdx.filter fun e => 0 < score e.1

/-- An entry is offered ahead of another one: it has the higher score or, with equal scores,
comes first in the list. -/
def Ahead (score : String → ℕ) (e f : Entry) : Prop :=
  score f.1 < score e.1 ∨ score f.1 = score e.1 ∧ e.2 < f.2

/-- The order by score alone, in which entries with equal scores tie. -/
def byScore (score : String → ℕ) (e f : Entry) : Bool :=
  score f.1 ≤ score e.1

/-- The entries that match, sorted by score. -/
def sorted (score : String → ℕ) (names : List String) : List Entry :=
  (matching score names).mergeSort (byScore score)

/-- The names that match are those of the matching entries, in the same order. -/
theorem map_fst_matching :
    (matching score names).map (·.1) = names.filter (0 < score ·) := by
  conv_rhs => rw [← List.zipIdx_map_fst 0 names, List.filter_map]
  rfl

/-- Matching entries stand in the order of their places. -/
theorem pairwise_matching : (matching score names).Pairwise (·.2 < ·.2) := by
  have places : (names.zipIdx.map Prod.snd).Pairwise (· < ·) := by
    rw [List.zipIdx_map_snd]
    exact List.pairwise_lt_range'
  exact (List.pairwise_map.1 places).filter _

theorem perm_sort (score : String → ℕ) (names : List String) :
    (sorted score names).Perm (matching score names) :=
  List.mergeSort_perm _ _

/-- What is ranked are the names of the sorted entries. -/
theorem rank_eq (limit : ℕ) :
    rank score limit names = ((sorted score names).take limit).map (·.1) := by
  have scored : (names.map fun name => (score name, name)).filter (0 < ·.1) =
      (matching score names).map fun e => (score e.1, e.1) := by
    rw [List.filter_map]
    change (names.filter (0 < score ·)).map _ = _
    rw [← map_fst_matching, List.map_map]
    rfl
  have sort : (sorted score names).map (fun e => (score e.1, e.1)) =
      ((matching score names).map fun e => (score e.1, e.1)).mergeSort fun a b => b.1 ≤ a.1 :=
    List.map_mergeSort fun _ _ _ _ => rfl
  rw [rank, scored, ← sort, List.map_map, List.map_take]
  rfl

theorem byScore_trans (e f g : Entry) (first : byScore score e f) (second : byScore score f g) :
    byScore score e g := by
  simp only [byScore, decide_eq_true_eq] at *
  exact second.trans first

theorem byScore_total (e f : Entry) : byScore score e f || byScore score f e := by
  simpa [byScore] using Nat.le_total (score f.1) (score e.1)

/-- **Sorting keeps the order of entries with equal scores.** -/
theorem filter_sort (s : ℕ) : (sorted score names).filter (score ·.1 = s) =
    (matching score names).filter (score ·.1 = s) := by
  have tied : ((matching score names).filter (score ·.1 = s)).Pairwise (byScore score · ·) := by
    refine List.pairwise_of_forall_mem_list fun e left f right => ?_
    simp only [List.mem_filter, decide_eq_true_eq] at left right
    simp [byScore, left.2, right.2]
  have kept : ((matching score names).filter (score ·.1 = s)).Sublist (sorted score names) :=
    List.sublist_mergeSort byScore_trans byScore_total tied List.filter_sublist
  have inside := kept.filter (score ·.1 = s)
  simp only [List.filter_filter, Bool.and_self] at inside
  exact (inside.eq_of_length ((perm_sort score names).filter _).length_eq.symm).symm

/-- **Sorted entries stand in the order in which they are offered.** -/
theorem pairwise_sort (score : String → ℕ) (names : List String) :
    (sorted score names).Pairwise (Ahead score) := by
  have ordered : (sorted score names).Pairwise (byScore score · ·) :=
    List.pairwise_mergeSort byScore_trans byScore_total _
  rw [List.pairwise_iff_forall_sublist] at ordered ⊢
  intro e f pair
  have higher : score f.1 ≤ score e.1 := by simpa [byScore] using ordered pair
  refine higher.lt_or_eq.imp id fun tie => ⟨tie, ?_⟩
  have kept : [e, f].Sublist ((sorted score names).filter (score ·.1 = score e.1)) := by
    simpa [tie] using pair.filter (score ·.1 = score e.1)
  rw [filter_sort] at kept
  exact List.pairwise_iff_forall_sublist.1 pairwise_matching (kept.trans List.filter_sublist)

/-- **The best names are offered, best first.**  Without a query the first names are offered.  For
a query these are names of distinct matching entries, all of them or as many as the limit allows,
in the order `Ahead`, and each of them is ahead of all matching entries that are left out. -/
theorem matchingNames_best (score : String → String → ℕ) (limit : ℕ) (names : List String) :
    matchingNames score limit "" names = names.take limit ∧
    ∀ typed, typed ≠ "" →
      (matchingNames score limit typed names).Subperm (names.filter (0 < score typed ·)) ∧
      (matchingNames score limit typed names).length =
        min limit (names.countP (0 < score typed ·)) ∧
      ∃ offered leftOut : List Entry,
        offered.map (·.1) = matchingNames score limit typed names ∧
        (offered ++ leftOut).Perm (matching (score typed) names) ∧
        offered.Pairwise (Ahead (score typed)) ∧
        ∀ e ∈ offered, ∀ f ∈ leftOut, Ahead (score typed) e f := by
  refine ⟨by simp [matchingNames], fun typed query => ?_⟩
  have shown : matchingNames score limit typed names =
      ((sorted (score typed) names).take limit).map (·.1) := by
    rw [matchingNames, if_neg (by simpa using query), rank_eq]
  have entries := perm_sort (score typed) names
  have cut := List.take_append_drop limit (sorted (score typed) names)
  have ordered := pairwise_sort (score typed) names
  rw [← cut, List.pairwise_append] at ordered
  refine ⟨?_, ?_, (sorted (score typed) names).take limit, (sorted (score typed) names).drop limit,
    shown.symm, cut.symm ▸ entries, ordered.1, ordered.2.2⟩
  · rw [shown, ← map_fst_matching]
    exact ((List.take_sublist _ _).map _).subperm.trans (entries.map _).subperm
  · rw [shown, List.length_map, List.length_take, entries.length_eq, List.countP_eq_length_filter,
      ← map_fst_matching, List.length_map]

/-- A name that stands twice in the list ties with itself and with a third one. -/
theorem matchingNames_best_ties :
    let score (typed name : String) : ℕ :=
      if typed.toList <+: name.toList then name.length else 0
    let names := ["vd", "ab", "vibe", "vd", "va"]
    "v" ≠ "" ∧ matchingNames score 3 "v" names = ["vibe", "vd", "vd"] ∧
      ∃ offered leftOut : List Entry, offered.map (·.1) = ["vibe", "vd", "vd"] ∧
        (offered ++ leftOut).Perm (matching (score "v") names) ∧
        offered.Pairwise (Ahead (score "v")) ∧
        ∀ e ∈ offered, ∀ f ∈ leftOut, Ahead (score "v") e f := by
  intro score names
  have query : "v" ≠ "" := by decide
  have lengths : "vd".length = 2 ∧ "vibe".length = 4 ∧ "va".length = 2 := by decide
  have shown : matchingNames score 3 "v" names = ["vibe", "vd", "vd"] := by
    simp [matchingNames, rank, names, score, lengths, List.mergeSort]
  have best := ((matchingNames_best score 3 names).2 "v" query).2.2
  rw [shown] at best
  exact ⟨query, shown, best⟩

end PackageRecipe.Completion
