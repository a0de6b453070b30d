import Mathlib
import PackageRecipe.FileTree
import PackageRecipe.Proofs.Keyed
import PackageRecipe.Proofs.RawText

/-!
# Paths and walks in file trees

What a path leads to when a name is put behind it or when it is brought into a shorter form, and
what a walk finds.

## Main Definitions

* `RawText.IsAbsolute` — a path that begins at the root of a tree
* `FileTree.Proper` — a tree with names that paths can spell, none of which is there twice
* `FileTree.Reaches` — what names lead to from a tree

## Design Notes

A path is followed part by part (`Trail.follow?`), so that everything about paths follows from
what their parts are.  Parts that stay where they are change nothing once a folder is reached
(`foldlM_follow?_still`): they may be dropped at the end of a path, and it does not matter
whether a path ends with a slash when a name is put behind it.  A walk is described by the names
on the way (`mem_walk_iff`) and not by the order in which it goes.

Paths are cut at the bytes of slashes.  In UTF-8 no other character has such a byte, so the parts
of a text are texts again (`parts_ofString`).
-/

namespace PackageRecipe

/-! ## Cuts -/

namespace Text

variable {α : Type} [DecidableEq α]

/-- The parts of a text are those that the library cuts it into. -/
theorem splitOn_eq (separator : α) (text : List α) :
    splitOn separator text = text.splitOn separator := by
  induction text with
  | nil => rfl
  | cons c text ih =>
      rw [splitOn, List.splitOn_cons_eq_if_modifyHead, ih]
      cases parts : text.splitOn separator with
      | nil => exact absurd parts (List.splitOn_ne_nil _ _)
      | cons part parts => simp

/-- A text without separators in front belongs to the first part. -/
theorem splitOn_append {separator : α} {front : List α} (absent : separator ∉ front)
    (text : List α) : splitOn separator (front ++ text) =
      (splitOn separator text).modifyHead (front ++ ·) := by
  induction front with
  | nil =>
      cases cut : splitOn separator text with
      | nil => exact absurd cut (splitOn_ne_nil _ _)
      | cons part parts => simp [cut]
  | cons c front ih =>
      obtain ⟨other, absent⟩ := not_or.1 (mt List.mem_cons.2 absent)
      rw [List.cons_append, splitOn, if_neg (Ne.symm other), ih absent]
      cases cut : splitOn separator text with
      | nil => exact absurd cut (splitOn_ne_nil _ _)
      | cons part parts => rfl

/-- No part has a separator in it. -/
theorem notMem_of_mem_splitOn {separator : α} {text part : List α}
    (member : part ∈ splitOn separator text) : separator ∉ part := by
  induction text generalizing part with
  | nil => simp_all [splitOn]
  | cons c text ih =>
      rw [splitOn] at member
      split_ifs at member with same
      · rcases List.mem_cons.1 member with rfl | member
        · simp
        · exact ih member
      · cases cut : splitOn separator text with
        | nil => exact absurd cut (splitOn_ne_nil _ _)
        | cons first others =>
            rw [cut] at member ih
            rcases List.mem_cons.1 member with rfl | member
            · simp [ih List.mem_cons_self, Ne.symm same]
            · exact ih (List.mem_cons_of_mem _ member)

end Text

namespace RawText

variable {path name part front back : RawText} {kept : List RawText}

/-! ## Parts of paths -/

theorem bytes_append (front back : RawText) :
    (front ++ back).bytes = front.bytes ++ back.bytes := rfl

theorem parts_append_slash (front back : RawText) :
    (front ++ "/" ++ back).parts = front.parts ++ back.parts := by
  have whole : (front ++ "/" ++ back).bytes = front.bytes ++ slash :: back.bytes :=
    List.append_assoc front.bytes [slash] back.bytes
  simp only [parts, Text.splitOn_eq, whole, List.splitOn_append_cons_self, List.map_append]

theorem parts_of_noSlash (noSlash : slash ∉ name.bytes) : name.parts = [name] := by
  rw [parts, Text.splitOn_eq, List.splitOn_eq_singleton noSlash, List.map_singleton]

theorem noSlash_of_mem_parts (member : part ∈ path.parts) : slash ∉ part.bytes := by
  obtain ⟨bytes, inside, rfl⟩ := List.mem_map.1 member
  exact Text.notMem_of_mem_splitOn inside

theorem ofParts_singleton (part : RawText) : ofParts [part] = part := by
  rw [ofParts, List.map_singleton, List.intercalate_singleton]

theorem ofParts_cons_cons (part next : RawText) (kept : List RawText) :
    ofParts (part :: next :: kept) = part ++ "/" ++ ofParts (next :: kept) := by
  rw [ofParts, List.map_cons, List.map_cons, List.intercalate_cons_cons]
  rfl

/-- The parts of a path that is put together from parts. -/
theorem parts_ofParts (nonempty : kept ≠ []) (noSlash : ∀ p ∈ kept, slash ∉ p.bytes) :
    (ofParts kept).parts = kept := by
  induction kept with
  | nil => exact absurd rfl nonempty
  | cons p kept ih =>
      obtain ⟨first, others⟩ := List.forall_mem_cons.1 noSlash
      cases kept with
      | nil => rw [ofParts_singleton, parts_of_noSlash first]
      | cons q kept =>
          rw [ofParts_cons_cons, parts_append_slash, parts_of_noSlash first,
            ih (List.cons_ne_nil _ _) others, List.singleton_append]

/-- Of the bytes of characters only that of a slash is a slash. -/
theorem slash_mem_encode {c : Char} (member : slash ∈ String.utf8EncodeChar c) : c = '/' := by
  have byte {n : ℕ} (small : n < 256) : slash = UInt8.ofNat n ↔ n = 0x2F := by
    rw [← UInt8.toNat_inj, toNat_ofNat small]
    exact eq_comm
  have valid : c.val.toNat < 0x110000 := by
    have bounds : c.val.toNat < 0xD800 ∨ 0xDFFF < c.val.toNat ∧ c.val.toNat < 0x110000 := c.valid
    omega
  have back : Char.ofNat c.val.toNat = c := Char.ofNat_toNat c
  rw [String.utf8EncodeChar] at member
  generalize c.val.toNat = v at valid back member
  split_ifs at member with one two three
  · rw [List.mem_singleton, byte (by omega)] at member
    rw [← back, member]
  all_goals
    simp only [List.mem_cons, List.not_mem_nil, or_false] at member
    repeat rw [byte (by omega)] at member
    omega

/-- **The parts of a text are those of its bytes.** -/
theorem parts_ofString (path : String) :
    (ofString path).parts = (FileTree.parts path).map ofString := by
  have all (cs : List Char) : Text.splitOn slash (cs.flatMap String.utf8EncodeChar) =
      (Text.splitOn '/' cs).map (List.flatMap String.utf8EncodeChar) := by
    induction cs with
    | nil => rfl
    | cons c cs ih =>
        by_cases same : c = '/'
        · subst same
          have one : String.utf8EncodeChar '/' = [slash] := by decide
          rw [List.flatMap_cons, one, List.singleton_append, Text.splitOn, if_pos rfl, ih,
            Text.splitOn, if_pos rfl]
          rfl
        · rw [List.flatMap_cons, Text.splitOn_append fun member => same (slash_mem_encode member),
            ih, Text.splitOn, if_neg same]
          cases cut : Text.splitOn '/' cs with
          | nil => exact absurd cut (Text.splitOn_ne_nil _ _)
          | cons part others => rfl
  rw [parts, FileTree.parts, ofString, all, List.map_map, List.map_map]
  refine List.map_congr_left fun part _ => ?_
  simp [ofString]

/-! ## Paths that are texts -/

theorem IsText.ofParts (texts : ∀ p ∈ kept, p.IsText) : (ofParts kept).IsText := by
  induction kept with
  | nil => exact ⟨"", rfl⟩
  | cons p kept ih =>
      obtain ⟨first, others⟩ := List.forall_mem_cons.1 texts
      cases kept with
      | nil => rwa [ofParts_singleton]
      | cons q kept =>
          rw [ofParts_cons_cons]
          exact (first.append ⟨"/", rfl⟩).append (ih others)

theorem IsText.join (isText : path.IsText) (isText' : name.IsText) : (path.join name).IsText := by
  rw [RawText.join]
  split_ifs
  · exact isText.append isText'
  · exact (isText.append ⟨"/", rfl⟩).append isText'

theorem trimmed_eq (path : RawText) : path.trimmed =
    if path.parts.rdropWhile isStill = [] then ofString "/"
    else ofParts (path.parts.rdropWhile isStill) := by
  have same : (path.parts.reverse.dropWhile isStill).reverse = path.parts.rdropWhile isStill := rfl
  rw [trimmed, same]
  cases path.parts.rdropWhile isStill <;> rfl

theorem IsText.trimmed (isText : path.IsText) : path.trimmed.IsText := by
  rw [trimmed_eq]
  split_ifs
  · exact ⟨"/", rfl⟩
  · refine IsText.ofParts fun p member => ?_
    obtain ⟨text, rfl⟩ := isText
    have part := (List.rdropWhile_prefix _ _).subset member
    rw [parts_ofString] at part
    obtain ⟨word, -, rfl⟩ := List.mem_map.1 part
    exact ⟨word, rfl⟩

/-! ## Paths from the root -/

/-- A path from the root of a tree begins with a slash. -/
def IsAbsolute (path : RawText) : Prop :=
  path.bytes.head? = some slash

instance (path : RawText) : Decidable path.IsAbsolute :=
  inferInstanceAs (Decidable (_ = _))

theorem IsAbsolute.append (absolute : front.IsAbsolute) (back : RawText) :
    (front ++ back).IsAbsolute := by
  rw [IsAbsolute, bytes_append, List.head?_append, absolute]
  rfl

theorem IsAbsolute.join (absolute : path.IsAbsolute) (name : RawText) :
    (path.join name).IsAbsolute := by
  rw [RawText.join]
  split_ifs
  · exact absolute.append name
  · exact (absolute.append "/").append name

theorem IsAbsolute.trimmed (absolute : path.IsAbsolute) : path.trimmed.IsAbsolute := by
  have empty : ∃ others, path.parts = ofString "" :: others := by
    obtain ⟨rest, begins⟩ := List.head?_eq_some_iff.1 absolute
    exact ⟨_, by rw [parts, begins, Text.splitOn, if_pos rfl]; rfl⟩
  rw [trimmed_eq]
  split_ifs with still
  · rfl
  · have last := List.rdropWhile_last_not isStill path.parts still
    obtain ⟨others, same⟩ := empty
    obtain ⟨dropped, whole⟩ := List.rdropWhile_prefix isStill path.parts
    cases kept : path.parts.rdropWhile isStill with
    | nil => exact absurd kept still
    | cons p kept' =>
        rw [kept, same, List.cons_append, List.cons.injEq] at whole
        obtain ⟨rfl, -⟩ := whole
        cases kept' with
        | nil => simp [kept, isStill] at last
        | cons q kept' => rw [ofParts_cons_cons]; rfl

end RawText

namespace FileTree

open RawText

variable {root tree inner found : FileTree} {path name part : RawText} {names kept : List RawText}
  {entries : List (RawText × FileTree)} {trail : Trail}

/-! ## Names -/

/-- A name that a path can spell: no slash is in it, and it neither stays nor leads back. -/
def IsName (name : RawText) : Prop :=
  slash ∉ name.bytes ∧ name.isStill = false ∧ name ≠ ".."

instance (name : RawText) : Decidable (IsName name) :=
  inferInstanceAs (Decidable (_ ∧ _))

theorem IsName.ne_empty (isName : IsName name) : name ≠ "" := by
  rintro rfl
  exact absurd isName.2.1 (by decide)

/-- A tree in which paths can spell all names, and no folder has two entries of one name. -/
inductive Proper : FileTree → Prop
  | file (content : String) : Proper (.file content)
  | folder {entries : List (RawText × FileTree)} : (∀ e ∈ entries, IsName e.1) →
      (entries.map Prod.fst).Nodup → (∀ e ∈ entries, Proper e.2) → Proper (.folder entries)

theorem Proper.of_mem (proper : (FileTree.folder entries).Proper)
    (member : (name, inner) ∈ entries) : inner.Proper := by
  cases proper with
  | folder _ _ each => exact each _ member

theorem Proper.isName (proper : (FileTree.folder entries).Proper)
    (member : (name, inner) ∈ entries) : IsName name := by
  cases proper with
  | folder spelled _ _ => exact spelled _ member

/-- In a proper folder the name of an entry leads to it. -/
theorem Proper.lookup (proper : (FileTree.folder entries).Proper)
    (member : (name, inner) ∈ entries) : entries.lookup name = some inner := by
  cases proper with
  | folder _ nodup _ => exact (Keyed.lookup_eq_some_iff_mem nodup).2 member

/-! ## Building proper trees -/

theorem mem_alterEntry {f : Option FileTree → FileTree} {e : RawText × FileTree}
    (member : e ∈ alterEntry name f entries) :
    e ∈ entries ∨ e.1 = name ∧ ∃ old, (∀ tree ∈ old, (name, tree) ∈ entries) ∧ e.2 = f old := by
  induction entries with
  | nil =>
      obtain rfl := List.mem_singleton.1 member
      exact .inr ⟨rfl, none, by simp, rfl⟩
  | cons entry entries ih =>
      obtain ⟨key, tree⟩ := entry
      rw [alterEntry] at member
      split_ifs at member with same
      · subst same
        rcases List.mem_cons.1 member with rfl | member
        · exact .inr ⟨rfl, some tree, by simp, rfl⟩
        · exact .inl (List.mem_cons_of_mem _ member)
      · rcases List.mem_cons.1 member with rfl | member
        · exact .inl List.mem_cons_self
        · rcases ih member with member | ⟨named, old, known, changed⟩
          · exact .inl (List.mem_cons_of_mem _ member)
          · exact .inr ⟨named, old, fun t given => List.mem_cons_of_mem _ (known t given), changed⟩

theorem nodup_alterEntry {f : Option FileTree → FileTree} (nodup : (entries.map Prod.fst).Nodup) :
    ((alterEntry name f entries).map Prod.fst).Nodup := by
  induction entries with
  | nil => simp [alterEntry]
  | cons entry entries ih =>
      obtain ⟨key, tree⟩ := entry
      rw [alterEntry]
      split_ifs with same
      · exact nodup
      · obtain ⟨fresh, others⟩ := List.nodup_cons.1 nodup
        refine List.nodup_cons.2 ⟨fun member => ?_, ih others⟩
        obtain ⟨e, altered, named⟩ := List.mem_map.1 member
        rcases mem_alterEntry altered with old | ⟨new, -⟩
        · exact fresh (List.mem_map.2 ⟨e, old, named⟩)
        · exact same (named.symm.trans new)

section Building

variable {texts : List String} {word : String}

/-- Putting a proper tree at a place that proper names lead to leaves a tree proper. -/
theorem Proper.insert {new : FileTree} (proper : tree.Proper) (spelled : ∀ n ∈ texts, IsName n)
    (fits : new.Proper) : (tree.insert texts new).Proper := by
  induction texts generalizing tree with
  | nil =>
      unfold FileTree.insert
      split
      · exact proper
      · exact fits
  | cons name names ih =>
      obtain ⟨first, others⟩ := List.forall_mem_cons.1 spelled
      have inside : (FileTree.folder (tree.entries?.getD [])).Proper := by
        cases tree with
        | file content =>
            exact .folder (by simp [entries?]) (by simp [entries?]) (by simp [entries?])
        | folder entries => exact proper
      have nodup : ((tree.entries?.getD []).map Prod.fst).Nodup := by
        cases inside with
        | folder _ nodup _ => exact nodup
      rw [FileTree.insert]
      refine .folder (fun e member => ?_) (nodup_alterEntry nodup) (fun e member => ?_)
      · rcases mem_alterEntry member with old | ⟨named, -⟩
        · exact inside.isName old
        · exact named ▸ first
      · rcases mem_alterEntry member with old | ⟨-, old, known, changed⟩
        · exact inside.of_mem old
        · rw [changed]
          refine ih ?_ others
          cases old with
          | none => exact .folder (by simp) (by simp) (by simp)
          | some inner => exact inside.of_mem (known inner rfl)

theorem isName_of_mem_step (spelled : ∀ n ∈ texts, IsName n)
    (noSlash : slash ∉ (ofString word).bytes) : ∀ n ∈ step texts word, IsName n := by
  unfold step
  split_ifs with still back
  · exact spelled
  · exact fun n member => spelled n (List.mem_of_mem_dropLast member)
  · intro n member
    rcases List.mem_append.1 member with member | member
    · exact spelled n member
    · obtain rfl := List.mem_singleton.1 member
      exact ⟨noSlash, by simpa using still, fun same => back (ofString_inj.1 same)⟩

/-- **Trees that are put together along paths are proper**, whatever the paths are. -/
theorem Proper.graft {new : FileTree} (proper : tree.Proper) (fits : new.Proper) (path : String) :
    (tree.graft path new).Proper := by
  have all (words : List String) (noSlash : ∀ p ∈ words, slash ∉ (ofString p).bytes)
      (start : FileTree) (texts : List String) (proper : start.Proper)
      (spelled : ∀ n ∈ texts, IsName n) :
      let made := words.foldl (fun (made : FileTree × List String) word =>
        (made.1.insert (step made.2 word) empty, step made.2 word)) (start, texts)
      made.1.Proper ∧ ∀ n ∈ made.2, IsName n := by
    induction words generalizing start texts with
    | nil => exact ⟨proper, spelled⟩
    | cons p words ih =>
        obtain ⟨first, others⟩ := List.forall_mem_cons.1 noSlash
        have next := isName_of_mem_step spelled first
        exact ih others _ _ (proper.insert next (.folder (by simp) (by simp) (by simp))) next
  have noSlash : ∀ p ∈ parts path, slash ∉ (ofString p).bytes := fun p member =>
    noSlash_of_mem_parts (parts_ofString path ▸ List.mem_map_of_mem member)
  obtain ⟨made, spelled⟩ := all (parts path) noSlash tree [] proper (by simp)
  exact made.insert spelled fits

end Building

/-! ## Following parts -/

theorem Trail.follow?_still (still : isStill part = true)
    (folder : trail.place root = .folder entries) :
    Trail.follow? root trail part = some trail := by
  simp [Trail.follow?, folder, entries?, still]

theorem Trail.follow?_name (isName : IsName name) (folder : trail.place root = .folder entries) :
    Trail.follow? root trail name =
      (entries.lookup name).map fun tree => (name, tree) :: trail := by
  simp [Trail.follow?, folder, entries?, isName.2.1, isName.2.2]

/-- Only a folder can be left. -/
theorem Trail.exists_folder_of_follow? {next : Trail}
    (followed : Trail.follow? root trail part = some next) :
    ∃ entries, trail.place root = .folder entries := by
  cases place : trail.place root with
  | file content => simp [Trail.follow?, place, entries?] at followed
  | folder entries => exact ⟨entries, rfl⟩

/-- Parts that stay where they are change nothing. -/
theorem foldlM_follow?_still {next : Trail} (still : ∀ p ∈ kept, isStill p = true)
    (followed : kept.foldlM (Trail.follow? root) trail = some next) : next = trail := by
  induction kept with
  | nil => exact (Option.some.inj followed).symm
  | cons p kept ih =>
      obtain ⟨first, others⟩ := List.forall_mem_cons.1 still
      rw [List.foldlM_cons] at followed
      obtain ⟨middle, step, rest⟩ := Option.bind_eq_some_iff.1 followed
      obtain ⟨entries, folder⟩ := Trail.exists_folder_of_follow? step
      obtain rfl : trail = middle :=
        Option.some.inj ((Trail.follow?_still first folder).symm.trans step)
      exact ih others rest

/-- What holds of the trees on a trail, and of the entries of such trees, holds further on. -/
theorem Proper.follow (proper : root.Proper) {kept : List RawText} {next : Trail}
    (before : ∀ e ∈ trail, e.2.Proper)
    (followed : kept.foldlM (Trail.follow? root) trail = some next) : ∀ e ∈ next, e.2.Proper := by
  induction kept generalizing trail with
  | nil => exact Option.some.inj followed ▸ before
  | cons p kept ih =>
      rw [List.foldlM_cons] at followed
      obtain ⟨middle, step, rest⟩ := Option.bind_eq_some_iff.1 followed
      refine ih (fun e member => ?_) rest
      obtain ⟨entries, folder⟩ := Trail.exists_folder_of_follow? step
      have place : (FileTree.folder entries).Proper := by
        rw [← folder]
        cases trail with
        | nil => exact proper
        | cons e trail => exact before e List.mem_cons_self
      simp only [Trail.follow?, folder, entries?, Option.bind_eq_bind, Option.bind_some] at step
      split_ifs at step
      · exact before e (Option.some.inj step ▸ member)
      · exact before e (List.mem_of_mem_tail (Option.some.inj step ▸ member))
      · obtain ⟨inner, found, rfl⟩ := Option.map_eq_some_iff.1 step
        rcases List.mem_cons.1 member with rfl | member
        · exact place.of_mem (Keyed.mem_of_lookup found)
        · exact before e member

/-- What a path leads to in a proper tree is proper. -/
theorem Proper.at? (proper : root.Proper) (found : root.at? path = some tree) : tree.Proper := by
  obtain ⟨trail, followed, rfl⟩ := Option.map_eq_some_iff.1 found
  have all := proper.follow (List.forall_mem_nil _) followed
  cases trail with
  | nil => exact proper
  | cons e trail => exact all e List.mem_cons_self

/-! ## Names behind a path -/

/-- A name behind the path of a folder leads to the entry of that name. -/
theorem trail?_join (isName : IsName name) (followed : root.trail? path = some trail)
    (folder : trail.place root = .folder entries) (entry : entries.lookup name = some inner) :
    root.trail? (path.join name) = some ((name, inner) :: trail) := by
  have step : Trail.follow? root trail name = some ((name, inner) :: trail) := by
    rw [Trail.follow?_name isName folder, entry, Option.map_some]
  unfold trail? at followed ⊢
  rw [join]
  split_ifs with last
  · -- The empty part behind the last slash gives way to the name.
    obtain ⟨front, split⟩ := List.getLast?_eq_some_iff.1 last
    obtain rfl : path = ⟨front⟩ ++ "/" := congrArg mk split
    have empty : (⟨front⟩ ++ "/" : RawText) = ⟨front⟩ ++ "/" ++ ⟨[]⟩ :=
      congrArg mk (List.append_nil _).symm
    rw [empty, parts_append_slash, List.foldlM_append] at followed
    obtain ⟨middle, first, rest⟩ := Option.bind_eq_some_iff.1 followed
    obtain rfl := foldlM_follow?_still (by decide) rest
    rw [parts_append_slash, parts_of_noSlash isName.1, List.foldlM_append, first]
    simpa using step
  · rw [parts_append_slash, parts_of_noSlash isName.1, List.foldlM_append, followed]
    simpa using step

theorem names?_join (isName : IsName name) (named : root.names? path = some names)
    (reached : root.at? path = some (.folder entries)) (entry : entries.lookup name = some inner) :
    root.names? (path.join name) = some (names ++ [name]) := by
  obtain ⟨trail, followed, rfl⟩ := Option.map_eq_some_iff.1 named
  rw [at?, followed, Option.map_some, Option.some.injEq] at reached
  rw [names?, trail?_join isName followed reached entry]
  simp

/-- The parts at the end of the path of a folder that stay where they are can be left out. -/
theorem trail?_trimmed (followed : root.trail? path = some trail)
    (folder : trail.place root = .folder entries) : root.trail? path.trimmed = some trail := by
  have split : path.parts.rdropWhile isStill ++ path.parts.rtakeWhile isStill = path.parts :=
    List.rdropWhile_append_rtakeWhile
  rw [trail?, ← split, List.foldlM_append] at followed
  obtain ⟨middle, first, rest⟩ := Option.bind_eq_some_iff.1 followed
  obtain rfl := foldlM_follow?_still (fun p member => List.mem_rtakeWhile_imp member) rest
  have noSlash : ∀ p ∈ path.parts.rdropWhile isStill, slash ∉ p.bytes := fun p member =>
    noSlash_of_mem_parts ((List.rdropWhile_prefix _ _).subset member)
  rw [trimmed_eq]
  split_ifs with still
  · rw [still] at first
    obtain rfl := Option.some.inj first
    have empty : (ofString "/").parts = [ofString "", ofString ""] := by decide
    rw [trail?, empty, List.foldlM_cons, Trail.follow?_still rfl folder,
      Option.bind_eq_bind, Option.bind_some, List.foldlM_cons, Trail.follow?_still rfl folder]
    rfl
  · rw [trail?, parts_ofParts still noSlash, first]

theorem names?_trimmed (named : root.names? path = some names)
    (reached : root.at? path = some (.folder entries)) :
    root.names? path.trimmed = some names := by
  obtain ⟨trail, followed, rfl⟩ := Option.map_eq_some_iff.1 named
  rw [at?, followed, Option.map_some, Option.some.injEq] at reached
  rw [names?, trail?_trimmed followed reached, Option.map_some]

/-! ## Walks -/

/-- What names lead to from a tree, one folder after the other. -/
inductive Reaches : FileTree → List RawText → FileTree → Prop
  | here (tree : FileTree) : Reaches tree [] tree
  | step {entries : List (RawText × FileTree)} {name : RawText} {names : List RawText}
      {inner found : FileTree} : (name, inner) ∈ entries → Reaches inner names found →
      Reaches (.folder entries) (name :: names) found

theorem reaches_nil_iff : Reaches tree [] found ↔ found = tree := by
  constructor
  · rintro ⟨⟩
    rfl
  · rintro rfl
    exact .here _

theorem reaches_cons_iff : Reaches tree (name :: names) found ↔
    ∃ e ∈ tree.entries?.getD [], e.1 = name ∧ Reaches e.2 names found := by
  constructor
  · rintro ⟨⟩
    exact ⟨_, ‹_›, rfl, ‹_›⟩
  · rintro ⟨⟨name, inner⟩, member, rfl, rest⟩
    cases tree with
    | file content => simp [entries?] at member
    | folder entries => exact .step member rest

/-- A name of a folder leads to the entries of that name. -/
theorem reaches_entry_iff : Reaches (.folder entries) [name] found ↔ (name, found) ∈ entries := by
  simp [reaches_cons_iff, reaches_nil_iff, entries?]

/-- **A walk finds what kept names lead to**, as far as it goes. -/
theorem mem_walk_iff {keep : RawText → Bool} {depth : Nat} :
    (names, found) ∈ tree.walk keep depth ↔
      names.length ≤ depth ∧ (∀ n ∈ names, keep n = true) ∧ Reaches tree names found := by
  induction depth generalizing tree names with
  | zero =>
      rw [walk, List.mem_singleton, Prod.mk.injEq, Nat.le_zero, List.length_eq_zero_iff]
      constructor
      · rintro ⟨rfl, rfl⟩
        exact ⟨rfl, by simp, .here _⟩
      · rintro ⟨rfl, -, reached⟩
        exact ⟨rfl, reaches_nil_iff.1 reached⟩
  | succ depth ih =>
      rw [walk, List.mem_cons, Prod.mk.injEq, List.mem_flatMap]
      cases names with
      | nil =>
          have inner : ∀ e : RawText × FileTree, ([], found) ∉
              (if keep e.1 then (walk keep depth e.2).map fun p => (e.1 :: p.1, p.2) else []) := by
            intro e
            split <;> simp
          simp [reaches_nil_iff, inner]
      | cons name names =>
          have inner : ∀ e : RawText × FileTree, (name :: names, found) ∈
              (if keep e.1 then (walk keep depth e.2).map fun p => (e.1 :: p.1, p.2) else []) ↔
                keep name = true ∧ e.1 = name ∧ (names, found) ∈ walk keep depth e.2 := by
            intro e
            split_ifs <;> grind
          simp only [inner, ih, reaches_cons_iff, List.length_cons, Nat.add_le_add_iff_right,
            List.forall_mem_cons]
          constructor
          · rintro (⟨⟨⟩, -⟩ | ⟨e, member, kept, rfl, short, others, reached⟩)
            exact ⟨short, ⟨kept, others⟩, e, member, rfl, reached⟩
          · rintro ⟨short, ⟨kept, others⟩, e, member, rfl, reached⟩
            exact .inr ⟨e, member, kept, rfl, short, others, reached⟩

end FileTree

end PackageRecipe
