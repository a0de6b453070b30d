import Mathlib
import PackageRecipe.Editor.Hover
import PackageRecipe.Proofs.Sdl.Lineage
import PackageRecipe.Proofs.Sdl.Origin

/-!
# The name that is hovered over

At each offset of a text there is at most one name, and a hover describes it.

## Main Definitions

* `Hover.names` — all names in a tree, in the order in which they are searched
* `Hover.Under` — a name that contains an offset, with the tags that lead to it
* `Hover.Tells` — the text of a hover by its paragraphs
* `Hover.Shown` — what the schema has to say about a name

## Design Notes

The search for a name goes down the tree and comes back, and it keeps the path to the tag that it
looks at.  `locate?_eq_find?` says that it finds the first of `names`, each of which carries its
own path.  No two names of a text have a place in common (`pairwise_nameSpans`), so the first name
that contains an offset is the only one.

What is told about a name is stated word by word, apart from the function that puts the text
together.  A title, a kind and a list of members have one spelling each, so that the paragraphs
determine the text (`tells_iff`).
-/

namespace PackageRecipe.Editor.Hover

open PackageRecipe.Sdl PackageRecipe.Text

/-- The place of a name. -/
def Target.span : Target → Span
  | .tag t => t.nameSpan
  | .attribute a => a.nameSpan

/-- The names that a tag holds, its own and those of its attributes. -/
def targets (t : Tag) : List Target :=
  .tag t :: t.attributes.map .attribute

/-- The names in a tree, in the order in which they are searched, each with the tags that lead to
the tag that it belongs to. -/
def names (ts : List Tag) : List (List Tag × Target) :=
  (Tag.lineages ts).flatMap fun line => (line.getLast?.toList.flatMap targets).map (line, ·)

theorem span_of_ofTarget? {n : Node} {target : Target} {markdown : String} {s : Span}
    (shown : ofTarget? n target = some (markdown, s)) : s = target.span := by
  rcases target with t | a
  · exact (Prod.mk.inj (Option.some.inj shown)).2.symm
  · obtain ⟨rule, -, same⟩ := Option.bind_eq_some_iff.1 shown
    exact (Prod.mk.inj (Option.some.inj same)).2.symm

section Names

variable {ts : List Tag} {line : List Tag} {target : Target} {offset : Nat}

theorem span_targets (t : Tag) : (targets t).map Target.span = t.nameSpans := by
  simp [targets, Tag.nameSpans, Target.span, Function.comp_def]

theorem mem_names_iff : (line, target) ∈ names ts ↔
    line ∈ Tag.lineages ts ∧ ∃ t, line.getLast? = some t ∧ target ∈ targets t := by
  simp [names]

theorem names_cons (t : Tag) (ts : List Tag) :
    names (t :: ts) = (targets t).map ([t], ·) ++
      ((names t.children).map fun name => (t :: name.1, name.2)) ++ names ts := by
  have below : ((Tag.lineages t.children).map (t :: ·)).flatMap
      (fun line => (line.getLast?.toList.flatMap targets).map (line, ·)) =
        (names t.children).map fun name => (t :: name.1, name.2) := by
    rw [names, List.flatMap_map, List.map_flatMap]
    refine List.flatMap_congr fun line member => ?_
    obtain ⟨u, rest, rfl⟩ := List.exists_cons_of_ne_nil (Tag.ne_nil_of_mem_lineages member)
    rw [List.getLast?_cons_cons, List.map_map]
    rfl
  rw [names, Tag.lineages_cons, List.flatMap_append, List.map_cons, List.flatMap_cons, below]
  simp [names]

/-- The first of the names that a tag holds itself. -/
theorem find?_targets (offset : Nat) (t : Tag) :
    ((targets t).map fun target => ([t], target)).find? (fun name => covers name.2.span offset) =
      if covers t.nameSpan offset then some ([t], .tag t)
      else (t.attributes.find? fun a => covers a.nameSpan offset).map ([t], .attribute ·) := by
  rw [targets, List.map_cons, List.map_map, List.find?_cons, List.find?_map]
  by_cases here : covers t.nameSpan offset
  · rw [if_pos here]
    simp only [Target.span, here]
  · rw [if_neg here]
    simp only [Target.span, here]
    rfl

/-- **The search for a name finds the first one** that contains the offset, with the path to it. -/
theorem locate?_eq_find? (offset : Nat) : ∀ ts : List Tag,
    locate? offset ts = ((names ts).find? fun name => covers name.2.span offset).map fun name =>
      (name.1.map Tag.step, name.2)
  | [] => rfl
  | ⟨space, name, nameSpan, span, values, attributes, children⟩ :: ts => by
      have below := locate?_eq_find? offset children
      have behind := locate?_eq_find? offset ts
      rw [names_cons, locate?, locateTag?, behind, below, List.find?_append, List.find?_append,
        find?_targets, List.find?_map]
      -- The name of the tag comes first, then its attributes, its children, and what follows it.
      by_cases here : covers nameSpan offset
      · simp [here]
      · cases held : attributes.find? fun a => covers a.nameSpan offset with
        | some a => simp [here]
        | none =>
            cases deeper : (names children).find? fun name => covers name.2.span offset with
            | some found => simp [here, deeper, Tag.step]
            | none => simp [here, deeper]

theorem map_span_names (ts : List Tag) :
    (names ts).map (fun name => name.2.span) = (Tag.preorder ts).flatMap Tag.nameSpans := by
  have spans (line : List Tag) :
      ((line.getLast?.toList.flatMap targets).map (line, ·)).map (fun name => name.2.span) =
        line.getLast?.toList.flatMap Tag.nameSpans := by
    rw [List.map_map, List.map_flatMap]
    exact List.flatMap_congr fun t _ => span_targets t
  calc (names ts).map (fun name => name.2.span)
      = ((Tag.lineages ts).map List.getLast?).flatMap fun last =>
          last.toList.flatMap Tag.nameSpans := by
        rw [names, List.map_flatMap, List.flatMap_map]
        exact List.flatMap_congr fun line _ => spans line
    _ = (Tag.preorder ts).flatMap Tag.nameSpans := by
        rw [Tag.map_getLast?_lineages, List.flatMap_map]
        simp

end Names

/-! ## Names apart from each other -/

/-- Two places that have no character in common. -/
def Apart (a b : Span) : Prop :=
  a.stop ≤ b.start ∨ b.stop ≤ a.start

theorem not_apart_of_covers {a b : Span} {offset : Nat} (first : covers a offset)
    (second : covers b offset) : ¬ Apart a b := by
  simp only [covers, Bool.and_eq_true, decide_eq_true_eq] at first second
  rw [Apart]
  omega

/-- Of places that are apart from each other at most one contains an offset. -/
theorem countP_covers_le_one {spans : List Span} (apart : spans.Pairwise Apart) (offset : Nat) :
    spans.countP (covers · offset) ≤ 1 := by
  have covered := apart.filter (covers · offset)
  have each : ∀ s ∈ spans.filter (covers · offset), covers s offset := fun s member =>
    (List.mem_filter.1 member).2
  rw [List.countP_eq_length_filter]
  cases found : spans.filter (covers · offset) with
  | nil => simp
  | cons a rest =>
      cases rest with
      | nil => simp
      | cons b rest =>
          rw [found] at covered each
          exact absurd (List.rel_of_pairwise_cons covered List.mem_cons_self)
            (not_apart_of_covers (each a (by simp)) (each b (by simp)))

section Text

variable {text : List Char} {line : List Tag} {target : Target} {offset : Nat}

/-- **The names of a text are apart from each other**, whatever is wrong with the text. -/
theorem pairwise_nameSpans (text : List Char) :
    ((Tag.preorder (Document.ofText text).root.children).flatMap Tag.nameSpans).Pairwise Apart := by
  have arranged := Document.arranged text
  have ahead := Tag.pairwise_preorder arranged.each (List.pairwise_map.1 arranged.row.pairwise)
  rw [List.pairwise_flatMap]
  constructor
  · exact fun t member => (List.pairwise_append.1 (arranged.each t member).apart).1
  · -- The names of a tag lie in front of the tag's end, and so in front of all names behind it.
    refine ahead.imp_of_mem fun {a b} _ member before s held s' held' => .inl ?_
    have within := (arranged.each b member).parts s' (List.mem_append_left _ held')
    exact (before s (List.mem_append_left _ held)).trans within.2.1

/-- A name of a text that contains an offset, with the tags that lead to the tag it belongs to. -/
inductive Under (text : List Char) (offset : Nat) : List Tag → Target → Prop where
  | tag {line : List Tag} {t : Tag} :
      line ++ [t] ∈ Tag.lineages (Document.ofText text).root.children →
        t.nameSpan.start ≤ offset → offset < t.nameSpan.stop →
          Under text offset (line ++ [t]) (.tag t)
  | held {line : List Tag} {t : Tag} {a : Attribute} :
      line ++ [t] ∈ Tag.lineages (Document.ofText text).root.children → a ∈ t.attributes →
        a.nameSpan.start ≤ offset → offset < a.nameSpan.stop →
          Under text offset (line ++ [t]) (.attribute a)

theorem under_iff : Under text offset line target ↔
    (line, target) ∈ names (Document.ofText text).root.children ∧ covers target.span offset := by
  rw [mem_names_iff]
  constructor
  · intro under
    cases under with
    | tag member low high =>
        exact ⟨⟨member, _, List.getLast?_concat, List.mem_cons_self⟩, by
          simp [covers, Target.span, low, high]⟩
    | held member inside low high =>
        exact ⟨⟨member, _, List.getLast?_concat,
          List.mem_cons_of_mem _ (List.mem_map_of_mem inside)⟩, by
          simp [covers, Target.span, low, high]⟩
  · rintro ⟨⟨member, t, last, held⟩, covered⟩
    obtain ⟨front, rfl⟩ := List.getLast?_eq_some_iff.1 last
    rw [covers, Bool.and_eq_true, decide_eq_true_eq, decide_eq_true_eq] at covered
    rcases List.mem_cons.1 held with rfl | held
    · exact .tag member covered.1 covered.2
    · obtain ⟨a, inside, rfl⟩ := List.mem_map.1 held
      exact .held member inside covered.1 covered.2

/-- At most one name contains an offset. -/
theorem under_unique {line' : List Tag} {target' : Target} (first : Under text offset line target)
    (second : Under text offset line' target') : (line, target) = (line', target') := by
  obtain ⟨member, covered⟩ := under_iff.1 first
  obtain ⟨member', covered'⟩ := under_iff.1 second
  have apart := pairwise_nameSpans text
  rw [← map_span_names, List.pairwise_map] at apart
  have : Std.Symm fun x y : List Tag × Target => Apart x.2.span y.2.span := ⟨fun _ _ => Or.symm⟩
  by_contra different
  exact not_apart_of_covers covered covered' (apart.forall member member' different)

/-- The search finds the name that contains the offset. -/
theorem locate?_eq_some_iff {path : List QualifiedName} :
    locate? offset (Document.ofText text).root.children = some (path, target) ↔
      ∃ line, Under text offset line target ∧ path = line.map Tag.step := by
  rw [locate?_eq_find?, Option.map_eq_some_iff]
  constructor
  · rintro ⟨⟨line, target⟩, found, same⟩
    obtain ⟨rfl, rfl⟩ := Prod.mk.inj same
    have covered := List.find?_some found
    exact ⟨line, under_iff.2 ⟨List.mem_of_find?_eq_some found, covered⟩, rfl⟩
  · rintro ⟨line, under, rfl⟩
    obtain ⟨member, covered⟩ := under_iff.1 under
    have some : ((names (Document.ofText text).root.children).find? fun name =>
        covers name.2.span offset).isSome := List.find?_isSome.2 ⟨_, member, covered⟩
    obtain ⟨⟨line', target'⟩, found⟩ := Option.isSome_iff_exists.1 some
    have covered' := List.find?_some found
    have under' := under_iff.2 ⟨List.mem_of_find?_eq_some found, covered'⟩
    obtain ⟨rfl, rfl⟩ := Prod.mk.inj (under_unique under under')
    exact ⟨_, found, rfl⟩

/-! ## What is shown -/

/-- The title of a hover: a name, behind its namespace and a colon if it has a namespace. -/
inductive Titled : Option String → String → String → Prop where
  | plain {name : String} : Titled none name name
  | unspaced {name : String} : Titled (some "") name name
  | spaced {space name : String} : space ≠ "" → Titled (some space) name (space ++ ":" ++ name)

/-- The words for the kinds of values. -/
def kindWords : List (ValueKind × String) :=
  [(.string, "string"), (.number, "number"), (.boolean, "boolean"), (.null, "null"),
    (.date, "date"), (.duration, "duration"), (.binary, "binary")]

/-- Members of a rule, each of them set as code, with a comma and a blank between two. -/
inductive MemberRow : List String → String → Prop where
  | none : MemberRow [] ""
  | one (member : String) : MemberRow [member] ("\u0060" ++ member ++ "\u0060")
  | more (member : String) {members : List String} {row : String} : members ≠ [] →
      MemberRow members row →
        MemberRow (member :: members) ("\u0060" ++ member ++ "\u0060, " ++ row)

/-- The paragraphs about the values that are to be given: the word for their kind, and the members
if there is a list of them. -/
inductive ValueParagraphs : Option ValueRule → List String → Prop where
  | none : ValueParagraphs none []
  | kind {rule : ValueRule} {word : String} : rule.members = none →
      (rule.kind, word) ∈ kindWords →
        ValueParagraphs (some rule) ["Type: \u0060" ++ word ++ "\u0060"]
  | members {rule : ValueRule} {word row : String} {members : List String} :
      rule.members = some members → (rule.kind, word) ∈ kindWords → MemberRow members row →
        ValueParagraphs (some rule) ["Type: \u0060" ++ word ++ "\u0060", "One of: " ++ row]

/-- The text of a hover: the title in bold, the description, and the paragraphs about the values,
with an empty line between two of them. -/
def Tells (title description : String) (values : Option ValueRule) (markdown : String) : Prop :=
  ∃ rest, ValueParagraphs values rest ∧
    markdown = "\n\n".intercalate (("**" ++ title ++ "**") :: description :: rest)

theorem titled_iff {space : Option String} {name title : String} :
    Titled space name title ↔ title = qualify space name := by
  constructor
  · rintro (_ | _ | named)
    · rfl
    · rfl
    · simp [qualify, named]
  · rintro rfl
    rcases space with _ | space
    · exact .plain
    · by_cases empty : space = ""
      · subst empty
        exact .unspaced
      · simpa [qualify, empty] using Titled.spaced empty

theorem mem_kindWords_iff {kind : ValueKind} {word : String} :
    (kind, word) ∈ kindWords ↔ word = kind.name := by
  cases kind <;> simp [kindWords, ValueKind.name]

theorem memberRow_iff {members : List String} {row : String} :
    MemberRow members row ↔ row = ", ".intercalate (members.map code) := by
  constructor
  · intro written
    induction written with
    | none => rfl
    | one member => simp [code, String.intercalate_singleton]
    | @more member members row further _ ih =>
        obtain ⟨next, others, rfl⟩ := List.exists_cons_of_ne_nil further
        simp [ih, code, String.intercalate_cons_cons, String.append_assoc]
  · rintro rfl
    induction members with
    | nil => exact .none
    | cons member members ih =>
        cases members with
        | nil => simpa [code, String.intercalate_singleton] using MemberRow.one member
        | cons next others =>
            simpa [code, String.intercalate_cons_cons, String.append_assoc] using
              MemberRow.more member (List.cons_ne_nil next others) ih

/-- The paragraphs about the values that are to be given. -/
def valueParagraphs : Option ValueRule → List String
  | none => []
  | some rule => ("Type: " ++ code rule.kind.name) ::
      (rule.members.map fun members => "One of: " ++ ", ".intercalate (members.map code)).toList

theorem valueParagraphs_iff {values : Option ValueRule} {rest : List String} :
    ValueParagraphs values rest ↔ rest = valueParagraphs values := by
  have kind (word : String) : "Type: \u0060" ++ word ++ "\u0060" = "Type: " ++ code word :=
    String.toList_inj.1 (by simp [code])
  constructor
  · intro paragraphs
    cases paragraphs with
    | none => rfl
    | kind unlisted known =>
        obtain rfl := mem_kindWords_iff.1 known
        simp [valueParagraphs, unlisted, kind]
    | members listed known row =>
        obtain rfl := mem_kindWords_iff.1 known
        obtain rfl := memberRow_iff.1 row
        simp [valueParagraphs, listed, kind]
  · rintro rfl
    rcases values with _ | rule
    · exact .none
    · cases listed : rule.members with
      | none =>
          simpa [valueParagraphs, listed, kind] using
            ValueParagraphs.kind listed (mem_kindWords_iff.2 rfl)
      | some members =>
          simpa [valueParagraphs, listed, kind] using
            ValueParagraphs.members listed (mem_kindWords_iff.2 rfl) (memberRow_iff.2 rfl)

theorem describe_eq (title description : String) (values : Option ValueRule) :
    describe title description values =
      "\n\n".intercalate (("**" ++ title ++ "**") :: description :: valueParagraphs values) := by
  rcases values with _ | rule
  · exact String.toList_inj.1 (by
      simp [describe, valueParagraphs, String.intercalate_cons_cons, String.intercalate_singleton])
  · cases listed : rule.members <;>
      exact String.toList_inj.1 (by
        simp [describe, describeValues, valueParagraphs, listed, String.intercalate_cons_cons,
          String.intercalate_singleton])

/-- The text about a name is made of the paragraphs. -/
theorem tells_iff {title description markdown : String} {values : Option ValueRule} :
    Tells title description values markdown ↔ markdown = describe title description values := by
  simp only [Tells, valueParagraphs_iff, exists_eq_left, describe_eq]

/-- What a schema has to say about a name, if the path to its tag leads to a node: the description
of the node or of its attribute, and the values that are to be given. -/
inductive Shown (schema : Schema) (path : List QualifiedName) : Target → String → Prop where
  | tag {t : Tag} {n : Node} {title markdown : String} : schema.resolve? path = some n →
      Titled t.space t.name title → Tells title n.description n.values markdown →
        Shown schema path (.tag t) markdown
  | held {a : Attribute} {n : Node} {rule : AttributeRule} {title markdown : String} :
      schema.resolve? path = some n → n.attributes.get? a.qualifiedName = some rule →
        Titled a.space a.name title → Tells title rule.description (some rule.values) markdown →
          Shown schema path (.attribute a) markdown

theorem shown_iff {schema : Schema} {path : List QualifiedName} {markdown : String} :
    Shown schema path target markdown ↔
      ∃ n, schema.resolve? path = some n ∧ ofTarget? n target = some (markdown, target.span) := by
  constructor
  · intro shown
    cases shown with
    | tag known titled told =>
        obtain rfl := titled_iff.1 titled
        obtain rfl := tells_iff.1 told
        exact ⟨_, known, rfl⟩
    | held known held titled told =>
        obtain rfl := titled_iff.1 titled
        obtain rfl := tells_iff.1 told
        exact ⟨_, known, by simp only [ofTarget?, held]; rfl⟩
  · rintro ⟨n, known, told⟩
    cases target with
    | tag t =>
        obtain ⟨rfl, -⟩ := Prod.mk.inj (Option.some.inj told)
        exact .tag known (titled_iff.2 rfl) (tells_iff.2 rfl)
    | «attribute» a =>
        obtain ⟨rule, held, same⟩ := Option.bind_eq_some_iff.1 told
        obtain ⟨rfl, -⟩ := Prod.mk.inj (Option.some.inj same)
        exact .held known held (titled_iff.2 rfl) (tells_iff.2 rfl)

variable {schema : Schema} {settings : Settings} {path : List QualifiedName}

/-- There is nothing to say about a name if the path to its tag leads nowhere, or if it is the name
of an attribute that the node does not have. -/
theorem forall_not_shown_iff : (∀ markdown, ¬ Shown schema path target markdown) ↔
    schema.resolve? path = none ∨ ∃ a n, target = .attribute a ∧ schema.resolve? path = some n ∧
      n.attributes.get? a.qualifiedName = none := by
  cases known : schema.resolve? path with
  | none => simp [shown_iff, known]
  | some n =>
      cases target with
      | tag t => simp [shown_iff, known, ofTarget?, Target.span]
      | «attribute» a =>
          cases held : n.attributes.get? a.qualifiedName <;>
            simp [shown_iff, known, ofTarget?, Target.span, held]

/-- A hover is shown exactly where there is a name that the schema knows. -/
theorem at?_eq_some_iff {h : Hover} : at? schema settings text offset = some h ↔
    settings.hover = true ∧ ∃ line target, Under text offset line target ∧
      Shown schema (line.map Tag.step) target h.markdown ∧
        h.region = Region.ofSpan text target.span := by
  rw [at?, Option.ite_none_right_eq_some]
  refine and_congr Iff.rfl ?_
  simp only [shown_iff]
  constructor
  · intro shown
    obtain ⟨⟨path, target⟩, found, shown⟩ := Option.bind_eq_some_iff.1 shown
    obtain ⟨n, known, shown⟩ := Option.bind_eq_some_iff.1 shown
    obtain ⟨⟨markdown, s⟩, told, same⟩ := Option.bind_eq_some_iff.1 shown
    obtain ⟨line, under, rfl⟩ := locate?_eq_some_iff.1 found
    obtain rfl := span_of_ofTarget? told
    obtain rfl := Option.some.inj same
    exact ⟨line, target, under, ⟨n, known, told⟩, rfl⟩
  · rintro ⟨line, target, under, ⟨n, known, told⟩, place⟩
    have found := locate?_eq_some_iff.2 ⟨line, under, rfl⟩
    cases h
    subst place
    simp [found, known, told]

theorem at?_eq_none_iff : at? schema settings text offset = none ↔ settings.hover = false ∨
    (¬ ∃ line target, Under text offset line target) ∨
    ∃ line target, Under text offset line target ∧
      ∀ markdown, ¬ Shown schema (line.map Tag.step) target markdown := by
  rw [Option.eq_none_iff_forall_ne_some]
  constructor
  · intro none
    rcases Bool.eq_false_or_eq_true settings.hover with enabled | disabled
    · refine .inr (Classical.or_iff_not_imp_left.2 fun some => ?_)
      obtain ⟨line, target, under⟩ := Classical.not_not.1 some
      refine ⟨line, target, under, fun markdown shown => ?_⟩
      exact none ⟨markdown, _⟩ (at?_eq_some_iff.2 ⟨enabled, line, target, under, shown, rfl⟩)
    · exact .inl disabled
  · intro cause h found
    obtain ⟨enabled, line, target, under, shown, -⟩ := at?_eq_some_iff.1 found
    rcases cause with disabled | none | ⟨line', target', under', none⟩
    · rw [enabled] at disabled
      cases disabled
    · exact none ⟨line, target, under⟩
    · obtain ⟨rfl, rfl⟩ := Prod.mk.inj (under_unique under under')
      exact none h.markdown shown

/-- **A hover describes the one name under the cursor.**  At most one name in the tree of a text
contains an offset.  With hovers enabled none is shown exactly if there is no such name, if the
names of the tags that lead to it do not lead to a node, or if it is the name of an attribute that
the node does not have.  All other hovers describe the name, at its own place. -/
theorem describes_name (schema : Schema) (settings : Settings) (text : List Char) (offset : Nat) :
    let root := (Document.ofText text).root
    ((root :: root.descendants).flatMap Tag.nameSpans).countP (covers · offset) ≤ 1 ∧
    (at? schema settings text offset = none ↔ settings.hover = false ∨
      (¬ ∃ line target, Under text offset line target) ∨
      ∃ line target, Under text offset line target ∧
        (schema.resolve? (line.map Tag.step) = none ∨
          ∃ a n, target = .attribute a ∧ schema.resolve? (line.map Tag.step) = some n ∧
            n.attributes.get? a.qualifiedName = none)) ∧
    ∀ h, at? schema settings text offset = some h ↔ settings.hover = true ∧
      ∃ line target, Under text offset line target ∧
        Shown schema (line.map Tag.step) target h.markdown ∧
          h.region = Region.ofSpan text target.span := by
  intro root
  refine ⟨?_, ?_, fun h => at?_eq_some_iff⟩
  · -- The root has no name of its own.
    have apart := countP_covers_le_one (pairwise_nameSpans text) offset
    rw [Tag.descendants_eq]
    have none : covers ⟨0, 0⟩ offset = false := by simp [covers]
    simpa [root, Document.ofText, Tag.root, Tag.nameSpans, none] using apart
  · simp only [← forall_not_shown_iff]
    exact at?_eq_none_iff

/-- The names of a tag with a namespace and of an attribute below it, each with its own text. -/
theorem describes_name_nested :
    let level : Node := { attributes := [("deep", ⟨"How deep.", { kind := .boolean }⟩)] }
    let kind : Node :=
      { description := "What kind.", values := some { members := some ["a", "b"] },
        content := .own [("level", level)], space := some "x" }
    let schema : Schema := ⟨"", { content := .own [("kind", kind)] }, ["x"], []⟩
    let text := "x:kind \"a\" \x7b\n  level deep=on\n\x7d".toList
    at? schema {} text 2 = some ⟨"**x:kind**\n\nWhat kind.\n\nType: \u0060string\u0060\n\n" ++
      "One of: \u0060a\u0060, \u0060b\u0060", ⟨⟨0, 0⟩, ⟨0, 6⟩⟩⟩ ∧
    at? schema {} text 21 = some ⟨"**deep**\n\nHow deep.\n\nType: \u0060boolean\u0060",
      ⟨⟨1, 8⟩, ⟨1, 12⟩⟩⟩ := by
  intro level kind schema text
  let deep : Attribute := ⟨none, "deep", ⟨21, 25⟩, ⟨.boolean, "true", ⟨26, 28⟩⟩⟩
  let inner : Tag := ⟨none, "level", ⟨15, 20⟩, some ⟨15, 28⟩, [], [deep], []⟩
  let outer : Tag :=
    ⟨some "x", "kind", ⟨0, 6⟩, some ⟨0, 30⟩, [⟨.string, "a", ⟨7, 10⟩⟩], [], [inner]⟩
  have document : Document.ofText "x:kind \"a\" \x7b\n  level deep=on\n\x7d".toList =
      ⟨Tag.root [⟨some "x", "kind", ⟨0, 6⟩, some ⟨0, 30⟩, [⟨.string, "a", ⟨7, 10⟩⟩], [],
        [⟨none, "level", ⟨15, 20⟩, some ⟨15, 28⟩, [],
          [⟨none, "deep", ⟨21, 25⟩, ⟨.boolean, "true", ⟨26, 28⟩⟩⟩], []⟩]⟩], []⟩ := by cbv
  have tree : (Document.ofText text).root.children = [outer] :=
    congrArg (fun d => d.root.children) document
  have top : [outer] ∈ Tag.lineages (Document.ofText text).root.children := by
    simp [tree, Tag.lineages_cons]
  have below : [outer, inner] ∈ Tag.lineages (Document.ofText text).root.children := by
    simp [tree, Tag.lineages_cons, outer]
  obtain ⟨-, -, first⟩ := describes_name schema {} text 2
  obtain ⟨-, -, second⟩ := describes_name schema {} text 21
  constructor
  · refine (first _).2 ⟨rfl, [outer], .tag outer, ?_, ?_, ?_⟩
    · exact @Under.tag text 2 [] outer top (Nat.zero_le 2) (by decide)
    · have row := MemberRow.more "a" (List.cons_ne_nil "b" []) (.one "b")
      have values := @ValueParagraphs.members { members := some ["a", "b"] } _ _ _ rfl
        (mem_kindWords_iff.2 rfl) row
      exact .tag rfl (.spaced (by decide)) ⟨_, values, by decide⟩
    · decide
  · refine (second _).2 ⟨rfl, [outer, inner], .attribute deep, ?_, ?_, ?_⟩
    · exact @Under.held text 21 [outer] inner deep below List.mem_cons_self (by decide) (by decide)
    · exact .held rfl rfl .plain ⟨_, .kind rfl (mem_kindWords_iff.2 rfl), by decide⟩
    · decide

end Text

end PackageRecipe.Editor.Hover
