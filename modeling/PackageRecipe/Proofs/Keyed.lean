import Mathlib
import PackageRecipe.Keyed

/-!
# Keyed lists

What a list of pairs and the list that is ordered by its keys have in common.

## Main Definitions

* `Keyed.Sorted` — pairs in the order of their keys, of which none is there twice

## Design Notes

Ordering pairs never makes new ones (`mem_of_mem_ofList`), and it loses none if no key is there
twice (`ofList_perm`).  Two lists with the same pairs are then the same list
(`Sorted.eq_of_perm`), so that ordering twice is ordering once.  A group holds the pairs of its key
as they come in the list (`get?_group_eq_some_iff`), and all groups together hold each pair once
(`flatten_group_perm`).
-/

namespace PackageRecipe

namespace Keyed

variable {α β : Type} {p : String × α} {pairs : List (String × α)} {key : String} {a : α}

/-! ## Look-up -/

section Lookup

variable {κ : Type} [BEq κ] [LawfulBEq κ] {pairs : List (κ × α)} {key : κ}

/-- Where no key is there twice, the key of a pair leads to it. -/
theorem lookup_eq_some_iff_mem (nodup : (pairs.map Prod.fst).Nodup) :
    pairs.lookup key = some a ↔ (key, a) ∈ pairs := by
  induction pairs with
  | nil => simp
  | cons q pairs ih =>
      obtain ⟨k, b⟩ := q
      obtain ⟨fresh, rest⟩ := List.nodup_cons.1 nodup
      rw [List.lookup_cons, List.mem_cons]
      by_cases same : key = k
      · subst same
        have behind : (key, a) ∉ pairs := fun member =>
          fresh (List.mem_map.2 ⟨_, member, rfl⟩)
        simp [behind, eq_comm]
      · rw [beq_false_of_ne same, ← ih rest]
        simp [same]

theorem mem_of_lookup (found : pairs.lookup key = some a) : (key, a) ∈ pairs := by
  obtain ⟨before, after, rfl, -⟩ := List.lookup_eq_some_iff.1 found
  simp

end Lookup

/-- Where no key is there twice, the order of the pairs does not matter. -/
theorem lookup_eq_of_perm {qs : List (String × α)} (perm : pairs.Perm qs)
    (nodup : (pairs.map Prod.fst).Nodup) (key : String) : pairs.lookup key = qs.lookup key := by
  apply Option.ext
  intro a
  rw [lookup_eq_some_iff_mem nodup, perm.mem_iff,
    ← lookup_eq_some_iff_mem ((perm.map Prod.fst).nodup_iff.1 nodup)]

theorem mem_of_get? {m : Keyed α} (found : m.get? key = some a) : (key, a) ∈ m :=
  mem_of_lookup found

theorem has_iff {m : Keyed α} : m.has key ↔ ∃ p ∈ m, key = p.1 := by
  simp [has, get?]

theorem has_alter {k : String} {f : Option α → α} {m : Keyed α} :
    (m.alter k f).has key ↔ key = k ∨ m.has key := by
  simp only [has_iff]
  induction m with
  | nil => simp [alter]
  | cons p m ih =>
      obtain ⟨k', a⟩ := p
      rw [alter]
      split
      · simp_all
      · split
        · simp
        · simp [ih, or_left_comm]

/-- The keys of a group are those of its pairs. -/
theorem has_group : (group pairs).has key ↔ ∃ p ∈ pairs, key = p.1 := by
  induction pairs with
  | nil => simp [group, has, get?]
  | cons p pairs ih =>
      have rest : group (p :: pairs) = (group pairs).alter p.1 fun as => p.2 :: as.getD [] := rfl
      rw [rest, has_alter, ih]
      simp

/-! ## The pairs of an ordered list -/

/-- A changed list holds the changed entry and pairs that were there before. -/
theorem mem_of_mem_alter {f : Option α → α} {m : Keyed α} (member : p ∈ m.alter key f) :
    (∃ found, p = (key, f found)) ∨ p ∈ m := by
  induction m with
  | nil => exact .inl ⟨none, by simpa [alter] using member⟩
  | cons q m ih =>
      rw [alter] at member
      split_ifs at member with same
      · rw [List.mem_cons, ← same] at member
        exact member.imp (fun here => ⟨_, here⟩) (List.mem_cons_of_mem _)
      · exact (List.mem_cons.1 member).imp_left fun here => ⟨_, here⟩
      · rcases List.mem_cons.1 member with rfl | member
        · exact .inr List.mem_cons_self
        · exact (ih member).imp_right (List.mem_cons_of_mem _)

theorem mem_of_mem_insert {m : Keyed α} (member : p ∈ m.insert key a) :
    p = (key, a) ∨ p ∈ m :=
  (mem_of_mem_alter member).imp_left fun ⟨_, here⟩ => here

theorem mem_of_mem_ofList (member : p ∈ ofList pairs) : p ∈ pairs := by
  have all (m : Keyed α) :
      p ∈ pairs.foldl (fun m q => m.insert q.1 q.2) m → p ∈ m ∨ p ∈ pairs := by
    clear member
    induction pairs generalizing m with
    | nil => exact .inl
    | cons q pairs ih =>
        intro member
        rcases ih _ member with member | member
        · rcases mem_of_mem_insert member with same | member
          · exact .inr (same ▸ List.mem_cons_self)
          · exact .inl member
        · exact .inr (List.mem_cons_of_mem _ member)
  exact (all [] member).resolve_left List.not_mem_nil

theorem insert_perm {m : Keyed α} (fresh : key ∉ m.map Prod.fst) (a : α) :
    (m.insert key a).Perm ((key, a) :: m) := by
  induction m with
  | nil => exact .refl _
  | cons q m ih =>
      obtain ⟨k, b⟩ := q
      obtain ⟨different, fresh⟩ := not_or.1 (mt List.mem_cons.2 fresh)
      rw [insert, alter, if_neg different]
      split_ifs
      · exact .refl _
      · exact ((ih fresh).cons _).trans (.swap _ _ _)

/-- Ordering loses no pair if no key is there twice. -/
theorem ofList_perm (nodup : (pairs.map Prod.fst).Nodup) : (ofList pairs).Perm pairs := by
  have all (m : Keyed α) (nodup : ((m ++ pairs).map Prod.fst).Nodup) :
      (pairs.foldl (fun m q => m.insert q.1 q.2) m).Perm (m ++ pairs) := by
    clear * - nodup
    induction pairs generalizing m with
    | nil => simp
    | cons q pairs ih =>
        have front : (m ++ q :: pairs).Perm (q :: m ++ pairs) := List.perm_middle
        have nodup := (front.map Prod.fst).nodup_iff.1 nodup
        have fresh : q.1 ∉ m.map Prod.fst := by
          have fresh := (List.nodup_cons.1 nodup).1
          exact fun member => fresh ((List.map_subset _ (List.subset_append_left _ _)) member)
        have inserted : (m.insert q.1 q.2 ++ pairs).Perm (q :: m ++ pairs) :=
          (insert_perm fresh q.2).append_right pairs
        rw [List.foldl_cons]
        exact ((ih _ ((inserted.map Prod.fst).nodup_iff.2 nodup)).trans inserted).trans front.symm
  exact all [] nodup

/-! ## The order -/

/-- Pairs are ordered by key, and no key is there twice. -/
def Sorted (m : Keyed α) : Prop :=
  m.Pairwise fun p q => p.1 < q.1

theorem Sorted.alter {m : Keyed α} (sorted : m.Sorted) (key : String) (f : Option α → α) :
    (m.alter key f).Sorted := by
  induction m with
  | nil => exact List.pairwise_singleton _ _
  | cons q m ih =>
      obtain ⟨ahead, rest⟩ := List.pairwise_cons.1 sorted
      have behind := @mem_of_mem_alter α
      rw [Keyed.alter]
      split_ifs with same before
      · exact List.pairwise_cons.2 ⟨ahead, rest⟩
      · refine List.pairwise_cons.2 ⟨fun p member => ?_, sorted⟩
        rcases List.mem_cons.1 member with rfl | member
        · exact before
        · exact before.trans (ahead p member)
      · refine List.pairwise_cons.2 ⟨fun p member => ?_, ih rest⟩
        rcases behind member with ⟨found, rfl⟩ | member
        · exact lt_of_le_of_ne (not_lt.1 before) (Ne.symm same)
        · exact ahead p member

theorem Sorted.insert {m : Keyed α} (sorted : m.Sorted) (key : String) (a : α) :
    (m.insert key a).Sorted :=
  sorted.alter key fun _ => a

theorem sorted_ofList (pairs : List (String × α)) : (ofList pairs).Sorted := by
  have all (m : Keyed α) (sorted : m.Sorted) :
      (pairs.foldl (fun m q => m.insert q.1 q.2) m).Sorted := by
    induction pairs generalizing m with
    | nil => exact sorted
    | cons q pairs ih => exact ih _ (sorted.insert q.1 q.2)
  exact all [] List.Pairwise.nil

theorem Sorted.nodup {m : Keyed α} (sorted : m.Sorted) : (m.map Prod.fst).Nodup :=
  List.pairwise_map.2 (List.Pairwise.imp (fun before => before.ne) sorted)

/-- In an ordered list the key of a pair leads to it. -/
theorem Sorted.get?_eq_some_iff {m : Keyed α} (sorted : m.Sorted) :
    m.get? key = some a ↔ (key, a) ∈ m :=
  lookup_eq_some_iff_mem sorted.nodup

/-- Ordered lists with the same pairs are the same. -/
theorem Sorted.eq_of_perm {m n : Keyed α} (left : m.Sorted) (right : n.Sorted) (perm : m.Perm n) :
    m = n := by
  refine perm.eq_of_pairwise (fun p q _ _ before after => ?_) left right
  exact absurd after before.asymm

/-- An ordered list is not changed by ordering it. -/
theorem Sorted.ofList_eq {m : Keyed α} (sorted : m.Sorted) : ofList m = m :=
  (sorted_ofList m).eq_of_perm sorted (ofList_perm sorted.nodup)

/-! ## What belongs to the keys -/

theorem insert_map (f : α → β) (m : Keyed α) (key : String) (a : α) :
    Keyed.insert key (f a) (m.map fun p => (p.1, f p.2)) =
      (m.insert key a).map fun p => (p.1, f p.2) := by
  induction m with
  | nil => rfl
  | cons q m ih =>
      rw [List.map_cons, insert, insert, alter, alter]
      split_ifs
      · rfl
      · rfl
      · rw [List.map_cons]
        exact congrArg _ ih

/-- The order does not look at what belongs to the keys. -/
theorem ofList_map (f : α → β) (pairs : List (String × α)) :
    ofList (pairs.map fun p => (p.1, f p.2)) = (ofList pairs).map fun p => (p.1, f p.2) := by
  have all (m : Keyed α) :
      (pairs.map fun p => (p.1, f p.2)).foldl (fun m q => Keyed.insert q.1 q.2 m)
          (m.map fun p => (p.1, f p.2)) =
        (pairs.foldl (fun m q => m.insert q.1 q.2) m).map fun p => (p.1, f p.2) := by
    induction pairs generalizing m with
    | nil => rfl
    | cons q pairs ih =>
        rw [List.map_cons, List.foldl_cons, List.foldl_cons, ← ih, ← insert_map]
  exact all []

/-! ## Groups -/

theorem get?_cons (k : String) (m : Keyed α) :
    get? key ((k, a) :: m) = if key = k then some a else m.get? key := by
  rw [get?, List.lookup_cons]
  by_cases same : key = k
  · simp [same]
  · rw [beq_false_of_ne same, if_neg same]
    rfl

/-- Only the entry of the key is changed. -/
theorem Sorted.get?_alter {m : Keyed α} (sorted : m.Sorted) (k : String) (f : Option α → α) :
    (m.alter k f).get? key = if key = k then some (f (m.get? k)) else m.get? key := by
  induction m with
  | nil => exact get?_cons k []
  | cons q m ih =>
      obtain ⟨l, b⟩ := q
      obtain ⟨ahead, rest⟩ := List.pairwise_cons.1 sorted
      by_cases here : k = l
      · subst here
        rw [Keyed.alter, if_pos rfl, get?_cons, get?_cons, get?_cons, if_pos rfl]
        split_ifs <;> rfl
      · rw [Keyed.alter, if_neg here]
        by_cases before : k < l
        · -- The key is new and stands in front of all others.
          have absent : get? k ((l, b) :: m) = none := by
            refine List.lookup_eq_none_iff.2 fun p member => bne_iff_ne.2 ?_
            rcases List.mem_cons.1 member with rfl | member
            · exact here
            · exact (before.trans (ahead p member)).ne
          rw [if_pos before, get?_cons, absent]
        · rw [if_neg before, get?_cons, ih rest, get?_cons, get?_cons, if_neg here]
          by_cases same : key = k
          · rw [if_pos same, if_neg (same ▸ here), if_pos same]
          · rw [if_neg same, if_neg same]

/-- Groups stand in the order of their keys. -/
theorem sorted_group (pairs : List (String × α)) : (group pairs).Sorted := by
  induction pairs with
  | nil => exact List.Pairwise.nil
  | cons p pairs ih => exact ih.alter p.1 _

/-- A group holds what belongs to its key, in the order of the pairs, and no group is empty. -/
theorem get?_group_eq_some_iff {as : List α} : (group pairs).get? key = some as ↔
    as ≠ [] ∧ as = (pairs.filter fun p => p.1 = key).map Prod.snd := by
  induction pairs generalizing as with
  | nil => simp [group, get?]
  | cons p pairs ih =>
      have rest : group (p :: pairs) = (group pairs).alter p.1 fun as => p.2 :: as.getD [] := rfl
      rw [rest, (sorted_group pairs).get?_alter]
      by_cases same : key = p.1
      · subst same
        have behind : ((group pairs).get? p.1).getD [] =
            (pairs.filter fun q => q.1 = p.1).map Prod.snd := by
          cases found : (group pairs).get? p.1 with
          | none =>
              by_contra nonempty
              rw [ih.2 ⟨Ne.symm nonempty, rfl⟩] at found
              simp at found
          | some as => exact (ih.1 found).2
        rw [if_pos rfl, behind, List.filter_cons_of_pos (by simp), List.map_cons]
        constructor
        · rintro ⟨⟩
          exact ⟨List.cons_ne_nil _ _, rfl⟩
        · rintro ⟨-, rfl⟩
          rfl
      · rw [if_neg same, ih, List.filter_cons_of_neg (by simpa using Ne.symm same)]

/-- Each pair is in one group. -/
theorem flatten_group_perm (pairs : List (String × α)) :
    ((group pairs).map Prod.snd).flatten.Perm (pairs.map Prod.snd) := by
  have alter (k : String) (a : α) (m : Keyed (List α)) :
      ((m.alter k fun as => a :: as.getD []).map Prod.snd).flatten.Perm
        (a :: (m.map Prod.snd).flatten) := by
    induction m with
    | nil => exact .refl _
    | cons q m ih =>
        rw [Keyed.alter]
        split_ifs
        · exact .refl _
        · exact .refl _
        · exact (ih.append_left q.2).trans List.perm_middle
  induction pairs with
  | nil => exact .refl _
  | cons p pairs ih => exact (alter p.1 p.2 (group pairs)).trans (ih.cons p.2)

theorem get?_map (f : α → β) (m : Keyed α) :
    get? key (m.map fun p => (p.1, f p.2)) = (m.get? key).map f := by
  induction m with
  | nil => rfl
  | cons p m ih =>
      rw [List.map_cons, get?_cons, ih, get?_cons]
      split_ifs <;> rfl

theorem Sorted.map {m : Keyed α} (sorted : m.Sorted) (f : α → β) :
    Sorted (m.map fun p => (p.1, f p.2)) :=
  List.pairwise_map.2 sorted

end Keyed

end PackageRecipe
