import Mathlib
import PackageRecipe.Proofs.FileTree
import PackageRecipe.Url

/-!
# URLs below a directory

What a web address leads to when a path and a query are put behind it.

## Main Results

* `Url.exists_directory` — what is put behind the address of a directory is read apart from it

## Design Notes

An address is read from the left to the right, and each cut is made at the first of its marks
(`cutAt_append_cons`).  So a text without marks goes through all cuts as it stands, and the path
behind a slash is taken apart at its own slashes (`addSegments_append`).
-/

namespace PackageRecipe.Url

open PackageRecipe.Text

variable {mark c : Char} {xs ys front back text body : List Char} {scheme : String}

/-! ## Cuts -/

theorem cutAt_of_notMem (absent : mark ∉ xs) : cutAt mark xs = (xs, none) := by
  have all : ∀ c ∈ xs, (c != mark) = true := fun c member =>
    bne_iff_ne.2 (ne_of_mem_of_not_mem member absent)
  rw [cutAt, List.dropWhile_eq_nil_iff.2 all]

/-- A text is cut in front of its first mark. -/
theorem span_append_cons (absent : mark ∉ front) (back : List Char) :
    (front ++ mark :: back).takeWhile (· != mark) = front ∧
      (front ++ mark :: back).dropWhile (· != mark) = mark :: back := by
  have all : ∀ c ∈ front, (c != mark) = true := fun c member =>
    bne_iff_ne.2 (ne_of_mem_of_not_mem member absent)
  rw [List.takeWhile_append_of_pos all, List.dropWhile_append_of_pos all]
  simp

theorem cutAt_append_cons (absent : mark ∉ front) (back : List Char) :
    cutAt mark (front ++ mark :: back) = (front, some back) := by
  obtain ⟨ahead, behind⟩ := span_append_cons absent back
  rw [cutAt, ahead, behind]

theorem cutAt_snd_eq_none_iff : (cutAt mark xs).2 = none ↔ mark ∉ xs := by
  refine ⟨fun none member => ?_, fun absent => by rw [cutAt_of_notMem absent]⟩
  obtain ⟨front, back, rfl, absent⟩ := List.eq_append_cons_of_mem member
  simp [cutAt_append_cons absent] at none

/-- A scheme is read whatever stands behind it. -/
theorem cutScheme?_append (noColon : ':' ∉ ys) :
    cutScheme? (xs ++ ys) = (cutScheme? xs).map fun (scheme, rest) => (scheme, rest ++ ys) := by
  by_cases member : ':' ∈ xs
  · obtain ⟨front, back, rfl, absent⟩ := List.eq_append_cons_of_mem member
    rw [List.append_assoc, List.cons_append, cutScheme?, cutScheme?, cutAt_append_cons absent,
      cutAt_append_cons absent]
    cases front with
    | nil => rfl
    | cons first front =>
        dsimp only
        split_ifs <;> rfl
  · have absent : ':' ∉ xs ++ ys := by simp [member, noColon]
    rw [cutScheme?, cutScheme?, cutAt_of_notMem absent, cutAt_of_notMem member]
    cases xs <;> cases ys <;> rfl

/-- Only what stands in front of an address is trimmed if it does not end in a blank. -/
theorem trimControls_append (visible : ∀ c ∈ ys, ' ' < c) (nonempty : ys ≠ []) :
    trimControls (xs ++ ys) = xs.dropWhile (· ≤ ' ') ++ ys := by
  have stays {zs : List Char} (inside : ∀ c ∈ zs, ' ' < c) (some : zs ≠ []) (more : List Char) :
      (zs ++ more).dropWhile (· ≤ ' ') = zs ++ more := by
    obtain ⟨c, zs, rfl⟩ := List.exists_cons_of_ne_nil some
    have late : ¬ c ≤ ' ' := not_le_of_gt (inside c List.mem_cons_self)
    simp [late]
  have front : (xs ++ ys).dropWhile (· ≤ ' ') = xs.dropWhile (· ≤ ' ') ++ ys := by
    have whole := stays visible nonempty []
    rw [List.append_nil] at whole
    rw [List.dropWhile_append, whole]
    split_ifs with empty
    · rw [List.isEmpty_iff.1 empty, List.nil_append]
    · rfl
  rw [trimControls, front, List.reverse_append,
    stays (by simpa using visible) (by simpa using nonempty), List.reverse_append,
    List.reverse_reverse, List.reverse_reverse]

/-! ## Paths -/

/-- The segments of a path are read from the left to the right. -/
theorem addSegments_append (isFile : Bool) (names : List String) (parts others : List (List Char))
    (nonempty : others ≠ []) : addSegments isFile names (parts ++ others) =
      addSegments isFile (parts.foldl (addSegment isFile false) names) others := by
  induction parts generalizing names with
  | nil => rfl
  | cons part parts ih =>
      rw [List.cons_append, List.foldl_cons, ← ih]
      cases parts with
      | nil =>
          obtain ⟨other, others, rfl⟩ := List.exists_cons_of_ne_nil nonempty
          rfl
      | cons => rfl

theorem addSegments_nil (names : List String) :
    addSegments false names (splitOn '/' []) = names ++ [""] := by
  have noDots : isDoubleDot [] = false ∧ isSingleDot [] = false := by decide
  simp [splitOn, addSegments, addSegment, noDots, encoded, Percent.encode]

theorem parts?_web (web : scheme = "http" ∨ scheme = "https") (text : List Char) :
    parts? scheme text =
      let rest := (text.map fun c => if c = '\\' then '/' else c).dropWhile (· == '/')
      (authority? scheme (rest.takeWhile (· != '/'))).map fun a =>
        (some a, pathOf true (rest.dropWhile (· != '/'))) := by
  have isWeb : (scheme == "file") = false ∧ (webSchemes.lookup scheme).isSome = true := by
    obtain rfl | rfl := web <;> decide
  simp only [parts?, isWeb, Bool.false_eq_true, if_false, if_true, Option.map_eq_bind]
  rfl

/-- The path behind a slash is taken apart by itself. -/
theorem exists_host (text : List Char) : ∃ host parts, ∀ body, ∃ tail,
    text ++ '/' :: body = host ++ '/' :: tail ∧ '/' ∉ host ∧
      splitOn '/' tail = parts ++ splitOn '/' body := by
  by_cases member : '/' ∈ text
  · obtain ⟨host, inner, rfl, absent⟩ := List.eq_append_cons_of_mem member
    refine ⟨host, splitOn '/' inner, fun body => ⟨inner ++ '/' :: body, by simp, absent, ?_⟩⟩
    rw [splitOn_eq, splitOn_eq, splitOn_eq, List.splitOn_append_cons_self]
  · exact ⟨text, [], fun body => ⟨body, rfl, member, rfl⟩⟩

/-- What stands behind the address of a directory belongs to the path, and is read by itself. -/
theorem parts?_directory (web : scheme = "http" ∨ scheme = "https") {authority : Option Authority}
    {path : Path} (address : parts? scheme (xs ++ ['/']) = some (authority, path)) :
    ∃ dir, path = .segments (dir ++ [""]) ∧ ∀ body, '\\' ∉ body →
      parts? scheme (xs ++ '/' :: body) =
        some (authority, .segments (addSegments false dir (splitOn '/' body))) := by
  obtain ⟨slashed, same⟩ : ∃ s, s = xs.map fun c => if c = '\\' then '/' else c := ⟨_, rfl⟩
  have slashes (body : List Char) (plain : '\\' ∉ body) :
      ((xs ++ '/' :: body).map fun c => if c = '\\' then '/' else c) = slashed ++ '/' :: body := by
    have kept : ∀ c ∈ '/' :: body, (if c = '\\' then '/' else c) = c := by
      rintro c member
      rw [if_neg]
      rintro rfl
      simp [plain] at member
    rw [List.map_append, ← same, List.map_congr_left kept, List.map_id']
  -- Without a host the added slash would be one more of those at the start.
  have named : slashed.dropWhile (· == '/') ≠ [] := by
    intro empty
    have all : (slashed ++ ['/']).dropWhile (· == '/') = [] := by
      rw [List.dropWhile_append, if_pos (List.isEmpty_iff.2 empty)]
      rfl
    have noHost : authority? scheme [] = none := by
      obtain rfl | rfl := web <;> rfl
    rw [parts?_web web, slashes [] (by simp), all] at address
    simp [noHost] at address
  obtain ⟨host, parts, cut⟩ := exists_host (slashed.dropWhile (· == '/'))
  have read (body : List Char) (plain : '\\' ∉ body) : parts? scheme (xs ++ '/' :: body) =
      (authority? scheme host).map fun a => (some a, .segments
        (addSegments false (parts.foldl (addSegment false false) []) (splitOn '/' body))) := by
    obtain ⟨tail, whole, noSlash, inner⟩ := cut body
    obtain ⟨front, back⟩ := span_append_cons noSlash tail
    have behind : (slashed ++ '/' :: body).dropWhile (· == '/') = host ++ '/' :: tail := by
      rw [List.dropWhile_append, if_neg (by simpa using named), whole]
    rw [parts?_web web, slashes body plain, behind]
    dsimp only
    rw [front, back, pathOf, segmentsOf, inner, addSegments_append _ _ _ _ (splitOn_ne_nil _ _)]
  rw [read [] (by simp), addSegments_nil, Option.map_eq_some_iff] at address
  obtain ⟨a, known, same⟩ := address
  obtain ⟨rfl, rfl⟩ := Prod.mk.inj same
  exact ⟨_, rfl, fun body plain => by rw [read body plain, known, Option.map_some]⟩

/-! ## Addresses -/

/-- Whether a character may stand behind an address without changing what stands in front. -/
def isInner (c : Char) : Bool :=
  ' ' < c && !([':', '#', '\\'].contains c)

theorem isInner_iff : isInner c = true ↔ ' ' < c ∧ c ≠ ':' ∧ c ≠ '#' ∧ c ≠ '\\' := by
  simp [isInner]

/-- Whether a character of an address counts. -/
def counts (c : Char) : Bool :=
  !(['\t', '\n', '\r'].contains c)

/-- What is read behind a scheme. -/
def ofRest? (scheme : String) (rest : List Char) : Option Url := do
  let (rest, fragment) := cutAt '#' rest
  let (rest, query) := cutAt '?' rest
  let (authority, path) ← parts? scheme rest
  let isWeb := scheme == "file" || (webSchemes.lookup scheme).isSome
  pure { scheme, authority, path
         query := query.map (encoded (isPlainInQuery isWeb))
         fragment := fragment.map (encoded isPlainInFragment) }

/-- What is put behind an address is read behind its scheme. -/
theorem parse?_append {text : String} (whole : text.toList = xs ++ ys)
    (inner : ∀ c ∈ ys, isInner c = true) (nonempty : ys ≠ []) : parse? text =
      (cutScheme? ((xs.dropWhile (· ≤ ' ')).filter counts)).bind fun (scheme, rest) =>
        ofRest? scheme (rest ++ ys) := by
  have kept : ys.filter counts = ys := by
    refine List.filter_eq_self.2 fun c member => ?_
    have visible := (isInner_iff.1 (inner c member)).1
    simp only [counts, List.contains_eq_mem, List.mem_cons, List.not_mem_nil, or_false,
      Bool.not_eq_true', decide_eq_false_iff_not, not_or]
    refine ⟨?_, ?_, ?_⟩ <;> (rintro rfl; revert visible; decide)
  have noColon : ':' ∉ ys := fun member => (isInner_iff.1 (inner _ member)).2.1 rfl
  have read : parse? text = (cutScheme? ((trimControls text.toList).filter counts)).bind
      fun (scheme, rest) => ofRest? scheme rest := rfl
  have visible : ∀ c ∈ ys, ' ' < c := fun c member => (isInner_iff.1 (inner c member)).1
  rw [read, whole, trimControls_append visible nonempty, List.filter_append, kept,
    cutScheme?_append noColon, Option.bind_map]
  rfl

/-- Without a fragment an address is cut at its first question mark alone. -/
theorem ofRest?_of_cutAt {query : Option (List Char)} (noFragment : '#' ∉ text)
    (cut : cutAt '?' text = (front, query)) : ofRest? scheme text =
      (parts? scheme front).map fun (authority, path) =>
        { scheme, authority, path
          query := query.map (encoded (isPlainInQuery
            (scheme == "file" || (webSchemes.lookup scheme).isSome))) } := by
  unfold ofRest?
  rw [cutAt_of_notMem noFragment]
  dsimp only
  rw [cut]
  cases parts? scheme front <;> rfl

/-- An address without a query and a fragment is all authority and path. -/
theorem ofRest?_eq_some {root : Url} (address : ofRest? scheme text = some root)
    (plain : root.query = none ∧ root.fragment = none) :
    root.scheme = scheme ∧ '#' ∉ text ∧ '?' ∉ text ∧
      parts? scheme text = some (root.authority, root.path) := by
  simp only [ofRest?, Option.bind_eq_bind, Option.bind_eq_some_iff, Option.pure_def,
    Option.some.injEq] at address
  obtain ⟨⟨authority, path⟩, read, rfl⟩ := address
  simp only [Option.map_eq_none_iff, cutAt_snd_eq_none_iff] at plain
  obtain ⟨noQuery, noFragment⟩ := plain
  rw [cutAt_of_notMem noFragment] at noQuery read
  rw [cutAt_of_notMem noQuery] at read
  exact ⟨rfl, noFragment, noQuery, read⟩

/-- **What is put behind the address of a directory is read apart from it**, as the segments of a
path and a query. -/
theorem exists_directory {base : String} {root : Url}
    (web : root.scheme = "http" ∨ root.scheme = "https")
    (address : parse? (base ++ "/") = some root)
    (plain : root.query = none ∧ root.fragment = none) :
    ∃ dir, root.path = .segments (dir ++ [""]) ∧ ∀ (behind : String) (body : List Char)
      (query : Option (List Char)), behind.toList = body ++ query.elim [] ('?' :: ·) →
      (∀ c ∈ behind.toList, isInner c = true) → '?' ∉ body →
        parse? (base ++ "/" ++ behind) = some
          { root with
            path := .segments (addSegments false dir (splitOn '/' body))
            query := query.map (encoded (isPlainInQuery true)) } := by
  have slash : ∀ c ∈ ['/'], isInner c = true := List.forall_mem_singleton.2 (by decide)
  have start : (base ++ "/").toList = base.toList ++ ['/'] := by simp
  rw [parse?_append start slash (by simp), Option.bind_eq_some_iff] at address
  obtain ⟨⟨scheme, rest⟩, front, address⟩ := address
  obtain ⟨rfl, noFragment, noQuery, read⟩ := ofRest?_eq_some address plain
  obtain ⟨dir, same, inside⟩ := parts?_directory web read
  refine ⟨dir, same, fun behind body query whole inner noMark => ?_⟩
  have text : (base ++ "/" ++ behind).toList = base.toList ++ '/' :: behind.toList := by simp
  have visible : ∀ c ∈ '/' :: behind.toList, isInner c = true :=
    List.forall_mem_cons.2 ⟨by decide, inner⟩
  have noHash : '#' ∉ rest ++ '/' :: behind.toList := fun member =>
    (List.mem_append.1 member).elim (fun inside => noFragment (by simp [inside]))
      fun inside => (isInner_iff.1 (visible _ inside)).2.2.1 rfl
  have noBackslash : '\\' ∉ body := fun member =>
    (isInner_iff.1 (inner _ (by simp [whole, member]))).2.2.2 rfl
  have cut : cutAt '?' (rest ++ '/' :: behind.toList) = (rest ++ '/' :: body, query) := by
    have ahead : '?' ∉ rest ++ '/' :: body := by
      simpa [noMark] using fun member => noQuery (by simp [member])
    cases query with
    | none => simpa [whole] using cutAt_of_notMem ahead
    | some query => simpa [whole] using cutAt_append_cons ahead query
  have isWeb : (webSchemes.lookup root.scheme).isSome = true := by
    obtain http | https := web
    · rw [http]; decide
    · rw [https]; decide
  rw [parse?_append text visible (by simp), front, Option.bind_some]
  dsimp only
  rw [ofRest?_of_cutAt noHash cut, inside body noBackslash, isWeb, Bool.or_true,
    Option.map_some, plain.2]

end PackageRecipe.Url
