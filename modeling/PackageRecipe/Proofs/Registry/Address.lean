import Mathlib
import PackageRecipe.Proofs.Registry.Keeping
import PackageRecipe.Proofs.Url.Component
import PackageRecipe.Proofs.Url.Directory

/-!
# Addresses of packages

What is asked for when a package is looked up, and which look-ups ask for the same.

## Main Definitions

* `Registry.Endpoint` — a look-up in a registry
* `Registry.Endpoint.asked` — the addresses that are asked for during a look-up
* `Registry.Endpoint.reached` — the segments below the registry that a look-up leads to
* `Registry.Inside` — a name that is one segment of what is asked for

## Design Notes

All that is written behind the address of a registry are components (`url_eq`), so no mark of an
address is among it, and each of them is read by itself (`target?_url`).  Dots stand for themselves
in a component.  So a name of one or two dots is written as it is, but read as a step through the
segments (`below`).  All other names are one segment, which decodes to the name and so tells them
apart.
-/

namespace PackageRecipe.Registry

open PackageRecipe.Url PackageRecipe.Url.Percent

variable {r : Registry} {root : Url} {v : Visit} {name other : String}

/-- A look-up in a registry. -/
inductive Endpoint where
  | search (query : String)
  | list
  | history (name : String)
  | latest (name : String)
deriving DecidableEq, Repr

namespace Endpoint

/-- The address of a look-up, as it is written. -/
def url (r : Registry) : Endpoint → String
  | .search query => r.searchUrl query
  | .list => r.listUrl
  | .history name => r.historyUrl name
  | .latest name => r.latestUrl name

/-- The addresses that are asked for during a look-up. -/
def asked (v : Visit) (r : Registry) : Endpoint → List Url
  | .search query => ((Registry.search v.transport r query).run []).2
  | .list => (((names v.transport).run r).run []).2
  | .history name => ((Registry.history v.transport r name).run []).2
  | .latest name => ((Registry.latest v.transport r name).run []).2

/-- The texts whose components are written behind the address of the registry. -/
def texts : Endpoint → List String
  | .search _ => ["api", "packages", "search"]
  | .list => ["packages", "index.json"]
  | .history name => ["api", "packages", name, "info"]
  | .latest name => ["api", "packages", name, "latest", "info"]

/-- The query of an address. -/
def question : Endpoint → Option String
  | .search query => some ("q=" ++ component query)
  | _ => none

/-- The segments for a package.  One dot is none, and two dots take away the one in front. -/
def below (name : String) (rest : List String) : List String :=
  if name = ".." then "api" :: rest
  else if name = "." then "api" :: "packages" :: rest
  else "api" :: "packages" :: component name :: rest

/-- The segments that a look-up leads to. -/
def reached : Endpoint → List String
  | .history name => below name ["info"]
  | .latest name => below name ["latest", "info"]
  | e => e.texts

/-- The releases of one package and the latest version of another one that have one address. -/
def Clash (e e' : Endpoint) : Prop :=
  e = .history "latest" ∧ e' = .latest "."

end Endpoint

open Endpoint

variable {e e' : Endpoint}

/-! ## What is written -/

/-- The words of addresses are components as they stand. -/
theorem component_words : component "api" = "api" ∧ component "packages" = "packages" ∧
    component "search" = "search" ∧ component "index.json" = "index.json" ∧
    component "info" = "info" ∧ component "latest" = "latest" := by
  decide

theorem url_eq (r : Registry) (e : Endpoint) : e.url r = r.base ++ "/" ++
    ("/".intercalate (e.texts.map component) ++ e.question.elim "" ("?" ++ ·)) := by
  have slash : "/api/packages/" = "/" ++ "api" ++ "/" ++ "packages" ++ "/" := by decide
  have info : "/info" = "/" ++ "info" ∧ "/latest/info" = "/" ++ "latest" ++ "/" ++ "info" := by
    decide
  have search : "/api/packages/search?q=" =
      "/" ++ "api" ++ "/" ++ "packages" ++ "/" ++ "search" ++ "?" ++ "q=" := by decide
  have list : "/packages/index.json" = "/" ++ "packages" ++ "/" ++ "index.json" := by decide
  cases e <;>
    simp only [Endpoint.url, searchUrl, listUrl, historyUrl, latestUrl, slash, info, search, list,
      texts, question, List.map_cons, List.map_nil, String.intercalate_cons_cons,
      String.intercalate_singleton, component_words, Option.elim_some, Option.elim_none,
      String.append_empty, String.append_assoc]

/-- What is written behind the address of the registry, with its path and its query. -/
theorem toList_behind (e : Endpoint) :
    ("/".intercalate (e.texts.map component) ++ e.question.elim "" ("?" ++ ·)).toList =
      ['/'].intercalate (e.texts.map fun text => (component text).toList) ++
        (e.question.map String.toList).elim [] ('?' :: ·) := by
  rw [String.toList_append, String.toList_intercalate, List.map_map]
  cases e.question <;> simp <;> rfl

theorem eq_or_mem_of_mem_intercalate {mark c : Char} {parts : List (List Char)}
    (member : c ∈ [mark].intercalate parts) : c = mark ∨ ∃ part ∈ parts, c ∈ part := by
  induction parts with
  | nil => simp at member
  | cons part parts ih =>
      cases parts with
      | nil => exact .inr ⟨part, by simp, by simpa using member⟩
      | cons other parts =>
          rw [List.intercalate_cons_cons, List.mem_append, List.mem_append] at member
          obtain (first | sep) | others := member
          · exact .inr ⟨part, by simp, first⟩
          · exact .inl (List.mem_singleton.1 sep)
          · exact (ih others).imp_right fun ⟨p, inside, found⟩ =>
              ⟨p, List.mem_cons_of_mem _ inside, found⟩

/-- The path is written in characters of components, between its slashes. -/
theorem of_mem_path {c : Char} {texts : List String}
    (member : c ∈ ['/'].intercalate (texts.map fun text => (component text).toList)) :
    c = '/' ∨ isComponentChar c = true := by
  refine (eq_or_mem_of_mem_intercalate member).imp_right fun ⟨part, inside, found⟩ => ?_
  obtain ⟨text, -, rfl⟩ := List.mem_map.1 inside
  exact isComponentChar_of_mem found

theorem of_mem_question {c : Char} {question : String} (member : c ∈ question.toList)
    (asks : e.question = some question) : c = '=' ∨ isComponentChar c = true := by
  cases e with
  | search query =>
      obtain rfl := Option.some.inj asks
      rw [String.toList_append, List.mem_append] at member
      obtain first | inside := member
      · have both : c = 'q' ∨ c = '=' := by simpa using first
        obtain rfl | rfl := both
        · exact .inr (by decide)
        · exact .inl rfl
      · exact .inr (isComponentChar_of_mem inside)
  | _ => simp [Endpoint.question] at asks

/-- Nothing that is written changes what stands in front of it. -/
theorem isInner_of_mem {c : Char} (member : c ∈ ("/".intercalate (e.texts.map component) ++
    e.question.elim "" ("?" ++ ·)).toList) : isInner c = true := by
  have inner (part : isComponentChar c = true) : isInner c = true :=
    of_isComponentChar part (by decide)
  rw [toList_behind, List.mem_append] at member
  obtain member | member := member
  · obtain rfl | part := of_mem_path member
    · decide
    · exact inner part
  · cases asks : e.question with
    | none => simp [asks] at member
    | some question =>
        simp only [asks, Option.map_some, Option.elim_some, List.mem_cons] at member
        obtain rfl | member := member
        · decide
        · obtain rfl | part := of_mem_question member asks
          · decide
          · exact inner part

/-! ## What is read -/

/-- A component contains no mark of an address. -/
theorem notMem_component {mark : Char} (outside : isComponentChar mark = false) (text : String) :
    mark ∉ (component text).toList := fun member => by
  simp [isComponentChar_of_mem member] at outside

theorem splitOn_path (e : Endpoint) :
    Text.splitOn '/' (['/'].intercalate (e.texts.map fun text => (component text).toList)) =
      e.texts.map fun text => (component text).toList := by
  rw [Text.splitOn_eq, List.splitOn_intercalate]
  · simpa using fun text _ => notMem_component (by decide) text
  · cases e <;> simp [texts]

theorem encoded_question (e : Endpoint) :
    (e.question.map String.toList).map (encoded (isPlainInQuery true)) = e.question := by
  cases asks : e.question with
  | none => rfl
  | some question =>
      have plain : ∀ c ∈ question.toList, isPlainInQuery true c = true := by
        intro c member
        obtain rfl | part := of_mem_question member asks
        · decide
        · exact of_isComponentChar part (by decide)
      simp [encoded, encode_eq_self plain]

/-- Each text is read as one segment, unless it is a name of dots. -/
theorem addSegments_texts (dir : List String) (e : Endpoint) :
    addSegments false dir (e.texts.map fun text => (component text).toList) =
      dir ++ e.reached := by
  cases e with
  | search | list =>
      simp only [texts, List.map_cons, List.map_nil, addSegments, addSegment_component]
      simp [reached, texts, component_words]
  | history name | latest name =>
      simp only [texts, List.map_cons, List.map_nil, addSegments, addSegment_component]
      by_cases two : name = ".."
      · simp [reached, below, two, component_words]
      · by_cases one : name = "."
        · simp [reached, below, one, component_words]
        · simp [reached, below, two, one, component_words]

/-- **All that is asked for lies below the registry**, at the segments that `reached` tells. -/
theorem target?_url (address : target? (r.base ++ "/") = some root)
    (plain : root.query = none ∧ root.fragment = none) :
    ∃ dir, root.path = .segments (dir ++ [""]) ∧ ∀ e : Endpoint, target? (e.url r) =
      some { root with path := .segments (dir ++ e.reached), query := e.question } := by
  rw [target?, Option.filter_eq_some_iff] at address
  obtain ⟨address, web⟩ := address
  have named : root.scheme = "http" ∨ root.scheme = "https" := by simpa using web
  obtain ⟨dir, path, inside⟩ := exists_directory named address plain
  refine ⟨dir, path, fun e => ?_⟩
  have noQuery : '?' ∉ ['/'].intercalate (e.texts.map fun text => (component text).toList) := by
    intro member
    obtain slash | part := of_mem_path member
    · simp at slash
    · exact absurd part (by decide)
  rw [url_eq, target?, inside _ _ _ (toList_behind e) (fun _ => isInner_of_mem) noQuery,
    splitOn_path, addSegments_texts, encoded_question, Option.filter_some, if_pos web]

/-! ## What is asked for -/

theorem asked_list (v : Visit) (r : Registry) : Endpoint.list.asked v r =
    if (r.kept? v.start).isSome then [] else (target? r.listUrl).toList := by
  change (call v r).1.asked = _
  rw [call_eq]
  cases r.kept? v.start <;> rfl

theorem asked_of_ne (v : Visit) (r : Registry) (other : e ≠ .list) :
    e.asked v r = (target? (e.url r)).toList := by
  cases e with
  | list => exact absurd rfl other
  | search query => exact asked_fetch v _ _
  | history name => exact asked_fetch v _ _
  | latest name => exact asked_fetch v _ _

/-- A look-up asks for its address, unless what it looks for is kept. -/
theorem asked_eq (v : Visit) (r : Registry) (e : Endpoint) : e.asked v r =
    if e = .list ∧ (r.kept? v.start).isSome then [] else (target? (e.url r)).toList := by
  by_cases same : e = .list
  · subst same
    simp only [asked_list, true_and]
    rfl
  · rw [asked_of_ne v r same, if_neg fun both => same both.1]

/-- There is a time when nothing is kept any more. -/
theorem exists_kept?_eq_none (r : Registry) : ∃ now, r.kept? now = none := by
  cases stored : r.stored with
  | none => exact ⟨0, by simp [kept?, stored]⟩
  | some list => exact ⟨list.1 + nanoseconds * r.ttl, by simp [kept?, stored]⟩

/-- Some look-ups at two endpoints ask for one address exactly if the two addresses are one. -/
theorem exists_asked_iff {u u' : Url} (address : target? (e.url r) = some u)
    (address' : target? (e'.url r) = some u') :
    (∃ v w, ∃ x ∈ e.asked v r, x ∈ e'.asked w r) ↔ u = u' := by
  constructor
  · rintro ⟨v, w, x, member, member'⟩
    have known {v : Visit} {e : Endpoint} (member : x ∈ e.asked v r) :
        target? (e.url r) = some x := by
      rw [asked_eq] at member
      split_ifs at member
      · simp at member
      · exact Option.mem_toList.1 member
    rw [known member, Option.some.injEq] at address
    rw [known member', Option.some.injEq] at address'
    exact address.symm.trans address'
  · rintro rfl
    obtain ⟨now, nothing⟩ := exists_kept?_eq_none r
    have asks {e : Endpoint} (address : target? (e.url r) = some u) :
        u ∈ e.asked ⟨now, none, now⟩ r := by
      simp [asked_eq, nothing, address]
    exact ⟨_, _, u, asks address, asks address'⟩

/-! ## Which addresses are one -/

theorem component_eq_iff {word : String} (plain : component word = word) :
    component name = word ↔ name = word := by
  conv_lhs => rw [← plain]
  exact component_inj

theorem below_inj {rest : List String} : below name rest = below other rest ↔ name = other := by
  refine ⟨fun same => ?_, fun same => same ▸ rfl⟩
  have size := congrArg List.length same
  unfold below at same size
  -- Names of dots make the list shorter, each by its own number of segments.
  split_ifs at same size with two two' one' one two' one' two' one' <;>
    try (simp only [List.length_cons] at size; omega)
  · rw [two, two']
  · rw [one, one']
  · simpa [component_inj] using same

theorem below_info_eq_iff : below name ["info"] = below other ["latest", "info"] ↔
    name = "latest" ∧ other = "." := by
  have latest : component name = "latest" ↔ name = "latest" :=
    component_eq_iff component_words.2.2.2.2.2
  unfold below
  split_ifs <;> simp_all

theorem below_ne (name : String) (rest : List String) (last : "info" ∈ rest) :
    below name rest ≠ ["api", "packages", "search"] ∧
      below name rest ≠ ["packages", "index.json"] := by
  have inside : "info" ∈ below name rest := by
    unfold below
    split_ifs <;> simp [last]
  constructor <;> (intro same; simp [same] at inside)

/-- **Two look-ups lead to one place only if they are one look-up**, up to the clash. -/
theorem reached_eq_iff : e.reached = e'.reached ∧ e.question = e'.question ↔
    e = e' ∨ Clash e e' ∨ Clash e' e := by
  have history (name : String) := below_ne name ["info"] (by simp)
  have latest (name : String) := below_ne name ["latest", "info"] (by simp)
  have swapped (name other : String) : below name ["latest", "info"] = below other ["info"] ↔
      other = "latest" ∧ name = "." := by
    rw [eq_comm, below_info_eq_iff]
  cases e <;> cases e' <;>
    simp [reached, texts, Endpoint.question, Clash, below_inj, below_info_eq_iff, swapped,
      component_inj, history, latest, (history _).1.symm, (history _).2.symm, (latest _).1.symm,
      (latest _).2.symm]

/-! ## Names in addresses -/

/-- A name is one segment of the only address that is asked for. -/
def Inside (root : Url) (dir rest : List String) (name : String) (asked : List Url) : Prop :=
  ∃ part, (∀ c ∈ part.toList, c ≠ '/' ∧ c ≠ '?' ∧ c ≠ '#') ∧
    text? (Percent.decode part.toList) = some name ∧
    asked = [{ root with path := .segments (dir ++ "api" :: "packages" :: part :: rest) }]

theorem inside_below_iff {dir rest : List String} :
    Inside root dir rest name [{ root with path := .segments (dir ++ below name rest) }] ↔
      name ≠ "." ∧ name ≠ ".." := by
  constructor
  · rintro ⟨part, -, -, same⟩
    simp only [List.cons.injEq, Url.mk.injEq, Path.segments.injEq, List.append_cancel_left_eq,
      true_and, and_true] at same
    have size := congrArg List.length same
    constructor <;> (rintro rfl; simp [below] at size)
  · rintro ⟨one, two⟩
    refine ⟨component name, fun c inside => ⟨?_, ?_, ?_⟩, text?_component name, ?_⟩
    · exact ne_of_mem_of_not_mem inside (notMem_component (by decide) name)
    · exact ne_of_mem_of_not_mem inside (notMem_component (by decide) name)
    · exact ne_of_mem_of_not_mem inside (notMem_component (by decide) name)
    · rw [below, if_neg two, if_neg one]

/-- **A name is one segment of what is asked for, unless it consists of one or two dots**, and no
other look-up asks for the same.  Only the latest version of the package that is named by one dot
has the address of another look-up, which is that for the releases of the package `latest`. -/
theorem names_stay_apart (r : Registry) {root : Url} (address : target? (r.base ++ "/") = some root)
    (plain : root.query = none ∧ root.fragment = none) :
    ∃ dir, root.path = .segments (dir ++ [""]) ∧
      (∀ name v,
        (Inside root dir ["info"] name ((Endpoint.history name).asked v r) ↔
          name ≠ "." ∧ name ≠ "..") ∧
        (Inside root dir ["latest", "info"] name ((Endpoint.latest name).asked v r) ↔
          name ≠ "." ∧ name ≠ "..")) ∧
      ∀ e e' : Endpoint, (∃ v w, ∃ u ∈ e.asked v r, u ∈ e'.asked w r) ↔
        e = e' ∨ Clash e e' ∨ Clash e' e := by
  obtain ⟨dir, path, leads⟩ := target?_url address plain
  have named (e : Endpoint) (quiet : e.question = none) : target? (e.url r) =
      some { root with path := .segments (dir ++ e.reached) } := by
    rw [leads, quiet, ← plain.1]
  refine ⟨dir, path, fun name v => ⟨?_, ?_⟩, fun e e' => ?_⟩
  · rw [asked_of_ne v r (by simp), named _ rfl]
    exact inside_below_iff
  · rw [asked_of_ne v r (by simp), named _ rfl]
    exact inside_below_iff
  · rw [exists_asked_iff (leads e) (leads e'), ← reached_eq_iff]
    simp

/-- Marks of addresses in a name are encoded, also below a directory. -/
theorem names_stay_apart_marks :
    let r := ofSettings { registryUrl := "HTTPS://Example.org/./dub//" }
    let root : Url := ⟨"https", some ⟨"", "example.org", none⟩, .segments ["dub", ""], none, none⟩
    target? (r.base ++ "/") = some root ∧ (root.query = none ∧ root.fragment = none) ∧
      Inside root ["dub"] ["info"] "../a?#" ((Endpoint.history "../a?#").asked ⟨0, none, 0⟩ r) := by
  intro r root
  have address : target? (r.base ++ "/") = some root := by decide +kernel
  have plain : root.query = none ∧ root.fragment = none := ⟨rfl, rfl⟩
  obtain ⟨dir, path, segment, -⟩ := names_stay_apart r address plain
  obtain rfl : ["dub"] = dir := List.append_cancel_right (Path.segments.inj path)
  exact ⟨address, plain, (segment _ _).1.2 (by decide)⟩

/-- Two dots lead out of the packages, and one dot leads to another package. -/
theorem dots_lead_elsewhere :
    let r := ofSettings { registryUrl := "https://example.org" }
    let root : Url := ⟨"https", some ⟨"", "example.org", none⟩, .segments [""], none, none⟩
    let v : Visit := ⟨0, none, 0⟩
    target? (r.base ++ "/") = some root ∧
      (Endpoint.history "..").asked v r = [{ root with path := .segments ["api", "info"] }] ∧
      ¬ Inside root [] ["info"] ".." ((Endpoint.history "..").asked v r) ∧
      (Endpoint.latest ".").asked v r = (Endpoint.history "latest").asked v r := by
  intro r root v
  have out : (Endpoint.history "..").asked v r =
      [{ root with path := .segments ["api", "info"] }] := by
    rw [asked_of_ne v r (by simp)]
    decide +kernel
  refine ⟨by decide +kernel, out, ?_, ?_⟩
  · rintro ⟨part, -, -, same⟩
    simp [out] at same
  · rw [asked_of_ne v r (by simp), asked_of_ne v r (by simp)]
    decide +kernel

end PackageRecipe.Registry
