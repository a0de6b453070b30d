import PackageRecipe.Proofs.Sdl.Escaping
import PackageRecipe.Proofs.Sdl.Spacing
import PackageRecipe.Sdl.Descent

/-!
# Tokens around a place

What reading token by token sees of a text: the tokens that it has not taken, and what
the text holds where they stand.

## Main Definitions

* `Fits` — tokens at which a text can be cut
* `Delimited` — a text that keeps a byte in front, and one at the end if it is closed
* `ahead` — the tokens that have not been taken
* `State.after` — a state behind some tokens

## Design Notes

The reader knows a number, its place among the tokens.  `ahead` turns this number into
a list, as which all statements about the reader see its state: `ahead ts s = used ++ left`
says what is taken next, and `s.after used ps` is the state in which `left` is ahead.
Every check that a function makes is settled by the one lemma about it in this module.
-/

namespace PackageRecipe.Sdl.Descent

open PackageRecipe.Text

@[simp] theorem ok_bind {ε α β : Type} (a : α) (f : α → Except ε β) : Except.ok a >>= f = f a :=
  rfl

/-! ## Checks -/

/-- A counter steps down to the number below it, so not below zero. -/
theorem down_eq_ok_iff {n m : Nat} : down n = .ok m ↔ n = m + 1 := by
  unfold down
  split
  · simp only [reduceCtorEq, false_iff]
    omega
  · simp only [Except.ok.injEq]
    omega

/-- A token is looked up by a number that it has. -/
theorem tokenAt_eq_ok_iff {ts : List Token} {i : Nat} {t : Token} :
    tokenAt ts i = .ok t ↔ ts[i]? = some t := by
  unfold tokenAt
  cases ts[i]? <;> simp

theorem takeBytes_add_append (before rest : List Char) (n : Nat) :
    takeBytes (width before + n) (before ++ rest) = before ++ takeBytes n rest := by
  induction before with
  | nil => simp
  | cons c before ih =>
      have fits : c.utf8Size ≤ c.utf8Size + width before + n := by omega
      have left : c.utf8Size + width before + n - c.utf8Size = width before + n := by omega
      rw [List.cons_append, width_cons, takeBytes, if_pos fits, left, ih, List.cons_append]

/-- A place between two others can be cut out. -/
theorem cut_append (before inside after : List Char) {s : Span} (start : s.start = width before)
    (stop : s.stop = width before + width inside) :
    cut (before ++ (inside ++ after)) s = .ok inside := by
  have front : takeBytes s.start (before ++ (inside ++ after)) = before := by
    rw [start, takeBytes_width_append]
  have upTo : takeBytes s.stop (before ++ (inside ++ after)) = before ++ inside := by
    rw [stop, takeBytes_add_append, takeBytes_width_append]
  have even : s.start ≤ s.stop ∧ width (takeBytes s.start (before ++ (inside ++ after))) = s.start ∧
      width (takeBytes s.stop (before ++ (inside ++ after))) = s.stop := by
    rw [front, upTo, width_append, start, stop]
    exact ⟨Nat.le_add_right _ _, rfl, rfl⟩
  rw [cut, if_pos even]
  exact congrArg Except.ok (slice_append before inside after start stop)

/-- What is cut out of a text stands there between two characters each. -/
theorem cut_eq_ok_iff {text inside : List Char} {s : Span} : cut text s = .ok inside ↔
    ∃ before after, text = before ++ (inside ++ after) ∧ s.start = width before ∧
      s.stop = width before + width inside := by
  constructor
  · intro taken
    unfold cut at taken
    split at taken
    · rename_i even
      obtain ⟨order, start, stop⟩ := even
      obtain ⟨length, reaches⟩ := Nat.exists_eq_add_of_le order
      have split := takeBytes_append_dropBytes s.start text
      have rest := takeBytes_append_dropBytes (s.stop - s.start) (dropBytes s.start text)
      rw [Except.ok.inj taken] at rest
      have upTo := takeBytes_add_append (takeBytes s.start text) (dropBytes s.start text) length
      rw [split, start, ← reaches] at upTo
      have same : takeBytes length (dropBytes s.start text) = inside := by
        rw [← Except.ok.inj taken, reaches, Nat.add_sub_cancel_left]
      refine ⟨takeBytes s.start text, dropBytes (s.stop - s.start) (dropBytes s.start text),
        by rw [rest, split], start.symm, ?_⟩
      rw [← same, ← width_append, ← upTo, stop]
    · cases taken
  · rintro ⟨before, after, rfl, start, stop⟩
    exact cut_append before inside after start stop

/-! ## Cuts of a text -/

/-- Tokens in a row can be cut out. -/
theorem cut_row {text : List Char} {first last : Token} {ts us : List Token}
    (part : first :: ts <:+: (Lexing.ofText text).tokens) (ends : first :: ts = us ++ [last]) :
    cut text ⟨first.start, last.stop⟩ = .ok (first.text ++ ts.flatMap Token.spelled) := by
  obtain ⟨before, after, spelled, start, stop⟩ := exists_row part ends
  conv => lhs; rw [spelled]
  exact cut_append before _ after start stop

/-- Tokens that stand in a text: at one of them, and from one to the second behind it, the text
can be cut and holds what they spell. -/
structure Fits (text : List Char) (ts : List Token) : Prop where
  lexed : ∀ {t}, t ∈ ts → t.Lexed
  token : ∀ {t}, t ∈ ts → cut text t.span = .ok t.text
  row : ∀ {s c n}, [s, c, n] <:+: ts →
    cut text ⟨s.start, n.stop⟩ = .ok (s.text ++ (c.gap ++ c.text ++ n.gap ++ n.text))

theorem fits_tokens (text : List Char) : Fits text (Lexing.ofText text).tokens where
  lexed member := (Lexing.placed_tokens text).lexed _ member
  token {t} member := by
    obtain ⟨before, after, tokens⟩ := List.append_of_mem member
    have part : [t] <:+: (Lexing.ofText text).tokens := ⟨before, after, by simp [tokens]⟩
    simpa [Token.span] using cut_row part (List.nil_append [t]).symm
  row {s c n} part := by
    simpa [Token.spelled] using cut_row part (show [s, c, n] = [s, c] ++ [n] from rfl)

/-- The text of a delimited token: one byte in front, and one at the end if it is closed. -/
inductive Delimited : Bool → List Char → Prop where
  | closed {first last : Char} {inside : List Char} : first.utf8Size = 1 → last.utf8Size = 1 →
      Delimited true (first :: (inside ++ [last]))
  | «open» {first : Char} {inside : List Char} : first.utf8Size = 1 →
      Delimited false (first :: inside)

/-- The delimiters can be cut off. -/
theorem Delimited.body_eq {terminated : Bool} {chars : List Char}
    (delimited : Delimited terminated chars) :
    body terminated chars = .ok (Token.body terminated chars) := by
  cases delimited with
  | @closed first last inside one one' =>
      have stop : max (width (first :: (inside ++ [last])) - 1) 1 =
          width [first] + width inside := by
        simp [one, one']
        omega
      have positive : width (first :: (inside ++ [last])) ≠ 0 := by simp [one]
      have inner : cut (first :: (inside ++ [last])) ⟨1, width [first] + width inside⟩ =
          .ok inside := cut_append [first] inside [last] (by simp [one]) rfl
      simp only [body, if_true, down, if_neg positive, ok_bind, stop, inner]
      simp [Token.body]
  | @«open» first inside one =>
      have stop : max (width (first :: inside)) 1 = width [first] + width inside := by
        simp [one]
      have inner : cut (first :: inside) ⟨1, width [first] + width inside⟩ = .ok inside := by
        have cut := cut_append [first] inside [] (s := ⟨1, width [first] + width inside⟩)
          (by simp [one]) rfl
        rwa [List.append_nil] at cut
      simp only [body, Bool.false_eq_true, if_false, ok_bind, stop, inner]
      rfl

/-- A scan up to a character ends with it. -/
theorem take_of_upTo {last : Char} {s : List Char} (closed : (Piece.upTo last s).2 = true) :
    ∃ inside, s.take (Piece.upTo last s).1 = inside ++ [last] := by
  induction s with
  | nil => simp [Piece.upTo] at closed
  | cons c s ih =>
      by_cases found : c = last
      · exact ⟨[], by simp [Piece.upTo, found]⟩
      · simp only [Piece.upTo, found, if_false] at closed ⊢
        obtain ⟨inside, taken⟩ := ih closed
        exact ⟨c :: inside, by rw [List.take_succ_cons, taken, List.cons_append]⟩

theorem delimited_of_scan {first last : Char} {s : List Char} {scan : Nat × Bool}
    (one : first.utf8Size = 1) (one' : last.utf8Size = 1)
    (ends : scan.2 = true → ∃ inside, s.take scan.1 = inside ++ [last]) :
    Delimited scan.2 (first :: s.take scan.1) := by
  obtain ⟨n, terminated⟩ := scan
  cases terminated with
  | false => exact .open one
  | true =>
      obtain ⟨inside, taken⟩ := ends rfl
      rw [taken]
      exact .closed one one'

/-- Strings and binary literals are delimited. -/
theorem delimited_of_lexed {t : Token} (lexed : t.Lexed) {terminated : Bool}
    (kind : (∃ raw, t.kind = .string raw terminated) ∨ t.kind = .binary terminated) :
    Delimited terminated t.text := by
  obtain ⟨c, s, n, begun, text⟩ := lexed
  have quoted (closed : (Piece.quoted s).2 = true) :
      ∃ inside, s.take (Piece.quoted s).1 = inside ++ ['"'] := by
    obtain ⟨m, found⟩ := Escape.exists_quoted_eq s closed
    rw [found]
    exact ⟨s.take m, Escape.take_of_quoted found⟩
  rw [text]
  generalize same : PieceKind.token t.kind = k at begun
  cases begun with
  | quoted quote =>
      obtain rfl : (Piece.quoted s).2 = terminated := by simp_all
      subst quote
      exact delimited_of_scan rfl rfl quoted
  | raw quote =>
      obtain rfl : (Piece.upTo '\x60' s).2 = terminated := by simp_all
      subst quote
      exact delimited_of_scan rfl rfl take_of_upTo
  | binary bracket =>
      obtain rfl : (Piece.upTo ']' s).2 = terminated := by simp_all
      subst bracket
      exact delimited_of_scan rfl rfl take_of_upTo
  | mark marked =>
      cases same
      rcases kind with ⟨raw, kind⟩ | kind <;> simp [kind, TokenKind.mark?] at marked
  | numeral =>
      rcases Piece.numeral_kind c s with numeral | numeral | numeral <;> simp_all
  | _ => simp_all

/-! ## Tokens and their values -/

section Tokens

variable {text : List Char} {ts : List Token} (fits : Fits text ts)

include fits

theorem word_eq {t : Token} (member : t ∈ ts) : word text t = .ok t.word := by
  rw [word, fits.token member]
  rfl

/-- Each literal can be decoded. -/
theorem value?_eq {t : Token} (member : t ∈ ts) : value? text t = .ok t.value? := by
  have inner {terminated : Bool}
      (kind : (∃ raw, t.kind = .string raw terminated) ∨ t.kind = .binary terminated) :
      body terminated t.text = .ok (Token.body terminated t.text) :=
    (delimited_of_lexed (fits.lexed member) kind).body_eq
  have literal : literal? t.kind t.text = .ok t.literal? := by
    cases kind : t.kind with
    | string raw terminated =>
        rw [literal?, inner (.inl ⟨raw, kind⟩), ok_bind, Token.literal?, kind]
        cases raw <;> rfl
    | binary terminated =>
        rw [literal?, inner (.inr kind), ok_bind, Token.literal?, kind]
    | _ => simp [literal?, Token.literal?, kind, Token.word]
  rw [value?, fits.token member, ok_bind, literal, ok_bind, Token.value?]

end Tokens

/-! ## Tokens ahead -/

/-- The tokens that have not been taken. -/
def ahead (ts : List Token) (s : State) : List Token :=
  ts.drop s.place

/-- A state behind some tokens, in which problems have been reported. -/
def State.after (s : State) (used : List Token) (ps : List Problem) : State :=
  (s.take used.length).report ps

namespace State

variable (s : State) (used us : List Token) (ps qs : List Problem)

@[simp] theorem after_depth : (s.after used ps).depth = s.depth := rfl

@[simp] theorem after_place : (s.after used ps).place = s.place + used.length := rfl

@[simp] theorem after_problems : (s.after used ps).problems = s.problems ++ ps := rfl

@[simp] theorem after_nil : s.after [] [] = s := by
  simp [after, take, report]

@[simp] theorem after_after :
    (s.after used ps).after us qs = s.after (used ++ us) (ps ++ qs) := by
  simp [after, take, report, Nat.add_assoc]

theorem report_eq_after : s.report ps = s.after [] ps := rfl

@[simp] theorem after_report : (s.after used ps).report qs = s.after used (ps ++ qs) := by
  simp [after, report]

theorem take_eq_after : s.take used.length = s.after used [] := by
  simp [after, take, report]

/-- Leaving a block that was entered, behind its content. -/
theorem leave_enter (o : Token) :
    { s.enter.after used ps with depth := s.depth } = s.after (o :: used) ps := by
  simp [after, take, report, enter, Nat.add_comm, Nat.add_left_comm]

end State

section Ahead

variable {ts : List Token} {s : State} {used left rest : List Token} {t : Token}

theorem getElem?_add (stands : ahead ts s = rest) (count : Nat) :
    ts[s.place + count]? = rest[count]? := by
  rw [← stands, ahead, List.getElem?_drop]

theorem getElem?_place (stands : ahead ts s = rest) : ts[s.place]? = rest.head? := by
  rw [← stands, ahead, List.head?_drop]

theorem isInfix_ahead (stands : ahead ts s = used ++ left) : used <:+: ts :=
  (List.prefix_append used left).isInfix.trans (stands ▸ (List.drop_suffix s.place ts).isInfix)

theorem mem_of_ahead (stands : ahead ts s = rest) (member : t ∈ rest) : t ∈ ts :=
  List.mem_of_mem_drop (stands ▸ member)

theorem ahead_after (stands : ahead ts s = used ++ left) (ps : List Problem) :
    ahead ts (s.after used ps) = left := by
  rw [ahead, State.after_place, ← List.drop_drop]
  rw [ahead] at stands
  rw [stands, List.drop_left]

/-- A reader that has taken a token stands further on, and not behind the end. -/
theorem further (stands : ahead ts s = used ++ left) (nonempty : used ≠ []) (ps : List Problem) :
    s.place < (s.after used ps).place ∧ (s.after used ps).place ≤ ts.length := by
  have length := congrArg List.length stands
  have positive := List.length_pos_iff.2 nonempty
  rw [ahead, List.length_drop, List.length_append] at length
  rw [State.after_place]
  omega

/-- A reader that has taken all tokens stands at the end. -/
theorem place_after (stands : ahead ts s = used) (nonempty : used ≠ []) (ps : List Problem) :
    (s.after used ps).place = ts.length := by
  have length := congrArg List.length stands
  have positive := List.length_pos_iff.2 nonempty
  rw [ahead, List.length_drop] at length
  rw [State.after_place]
  omega

theorem last_after (used : List Token) (stands : ahead ts s = (used ++ [t]) ++ left)
    (ps : List Problem) : last ts (s.after (used ++ [t]) ps) = .ok t := by
  have here : ts[s.place + used.length]? = some t := by
    rw [getElem?_add stands, List.append_assoc, List.getElem?_append_right (Nat.le_refl _)]
    simp
  simp [last, down, tokenAt, ← Nat.add_assoc, here]

theorem tokenAt_eq (stands : ahead ts s = rest) {count : Nat} (found : rest[count]? = some t) :
    tokenAt ts (s.place + count) = .ok t := by
  rw [tokenAt, getElem?_add stands, found]

theorem kindAhead_eq (stands : ahead ts s = rest) (count : Nat) (kind : TokenKind) :
    kindAhead ts s count kind = rest[count]?.any (·.kind == kind) := by
  rw [kindAhead, getElem?_add stands]

variable {text : List Char} (fits : Fits text ts)

include fits

theorem nameAhead_eq (stands : ahead ts s = rest) (count : Nat) :
    nameAhead text ts s count = .ok (rest[count]?.any Token.isName) := by
  rw [nameAhead, getElem?_add stands]
  cases found : rest[count]? with
  | none => rfl
  | some t =>
      have member := mem_of_ahead stands (List.mem_of_getElem? found)
      by_cases identifier : t.kind = .identifier <;>
        simp [identifier, word_eq fits member, Token.isName]

theorem spaceAhead_eq {first : Token} (stands : ahead ts s = first :: rest) :
    ∃ spaced, spaceAhead text ts s = .ok spaced ∧ (spaced = true ↔ OpensSpace rest) := by
  refine ⟨rest[0]?.any (·.kind == .colon) && rest[1]?.any Token.isName, ?_, ?_⟩
  · rw [spaceAhead, kindAhead_eq stands, nameAhead_eq fits stands, List.getElem?_cons_succ,
      List.getElem?_cons_succ]
    cases rest[0]?.any (·.kind == .colon) <;> rfl
  · rcases rest with _ | ⟨c, _ | ⟨n, rest⟩⟩ <;> simp [OpensSpace]

end Ahead

end PackageRecipe.Sdl.Descent
