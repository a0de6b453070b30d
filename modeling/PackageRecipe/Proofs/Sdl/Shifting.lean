import PackageRecipe.Proofs.Sdl.Grammar

/-!
# Texts that stand further behind

What is read from pieces does not depend on the place where they begin, but for the
places of all that is read.

## Main Definitions

* `Span.shift`, `Token.shift`, `Tag.shift`, `Problem.shift` — the same further behind

## Design Notes

Each step from pieces to tags and problems commutes with `shift`, by one lemma for each
step (`ofPieces_shift`, `items_shift`, `read?_shift` and so on).  They come together in
`tagsOf_shift`.
-/

namespace PackageRecipe.Text

/-- The place `k` bytes further behind. -/
def Span.shift (k : Nat) (s : Span) : Span := ⟨s.start + k, s.stop + k⟩

end PackageRecipe.Text

namespace PackageRecipe.Sdl

open PackageRecipe.Text

/-! ## Places that are shifted -/

def Token.shift (k : Nat) (t : Token) : Token := { t with start := t.start + k }

def Value.shift (k : Nat) (v : Value) : Value := { v with span := v.span.shift k }

def Attribute.shift (k : Nat) (a : Attribute) : Attribute :=
  { a with nameSpan := a.nameSpan.shift k, value := a.value.shift k }

def Problem.shift (k : Nat) (p : Problem) : Problem := { p with span := p.span.shift k }

namespace Tag

mutual

/-- A tag with all its places shifted, and all tags below it. -/
def shift (k : Nat) : Tag → Tag
  | ⟨space, name, nameSpan, span, values, attributes, children⟩ =>
    ⟨space, name, nameSpan.shift k, span.map (Span.shift k), values.map (Value.shift k),
      attributes.map (Attribute.shift k), shiftAll k children⟩

def shiftAll (k : Nat) : List Tag → List Tag
  | [] => []
  | t :: ts => shift k t :: shiftAll k ts

end

theorem shiftAll_eq_map (k : Nat) (ts : List Tag) : shiftAll k ts = ts.map (shift k) := by
  induction ts with
  | nil => rfl
  | cons t ts ih => rw [shiftAll, ih, List.map_cons]

end Tag

/-- Problems keep their order. -/
theorem Problem.sort_shift (k : Nat) (ps : List Problem) :
    sort (ps.map (shift k)) = (sort ps).map (shift k) := by
  rw [sort, sort, List.map_mergeSort]
  intro p _ q _
  simp [shift, Span.shift]

/-! ## Pieces -/

section Pieces

variable (k start : Nat) (ps : List Piece)

theorem Token.ofPieces_shift (gap : List Char) :
    ofPieces (start + k) gap ps = (ofPieces start gap ps).map (shift k) := by
  induction ps generalizing start gap with
  | nil => rfl
  | cons p ps ih =>
      rw [ofPieces, ofPieces]
      split <;> simp [← ih, Token.shift, Nat.add_right_comm]

theorem Piece.problem?_shift (p : Piece) :
    p.problem? (start + k) = (p.problem? start).map (Problem.shift k) := by
  unfold problem?
  simp only
  split
  all_goals try simp [Problem.shift, Span.shift, Nat.add_right_comm]
  · split <;> simp [Problem.shift, Span.shift, Nat.add_right_comm]
  · cases p.text.head? <;> simp [Problem.shift, Span.shift, Nat.add_right_comm]

theorem Piece.problems_shift :
    Piece.problems (start + k) ps = (Piece.problems start ps).map (Problem.shift k) := by
  induction ps generalizing start with
  | nil => rfl
  | cons p ps ih =>
      rw [problems, problems, List.map_append, ← ih, problem?_shift, Nat.add_right_comm]
      cases p.problem? start <;> rfl

end Pieces

/-! ## Words -/

section Words

variable (k : Nat)

namespace Token

variable (t : Token)

@[simp] theorem shift_kind : (t.shift k).kind = t.kind := rfl

@[simp] theorem shift_word : (t.shift k).word = t.word := rfl

@[simp] theorem shift_isName : (t.shift k).isName = t.isName := rfl

@[simp] theorem shift_start : (t.shift k).start = t.start + k := rfl

@[simp] theorem shift_stop : (t.shift k).stop = t.stop + k := by
  simp [stop, shift, Nat.add_right_comm]

@[simp] theorem shift_span : (t.shift k).span = t.span.shift k := by
  simp [span, Span.shift]

@[simp] theorem shift_value? : (t.shift k).value? = t.value?.map (Value.shift k) := by
  have literal : (t.shift k).literal? = t.literal? := rfl
  rw [value?, value?, literal, Option.map_map, shift_span]
  rfl

end Token

namespace Head

/-- A tag read so far, with its places shifted. -/
def shift (h : Head) : Head :=
  { h with nameSpan := h.nameSpan.shift k, values := h.values.map (Value.shift k),
           attributes := h.attributes.map (Attribute.shift k), stop := h.stop + k }

/-- A part of a statement with its places shifted. -/
def Item.shift : Item → Item
  | .word t => .word (t.shift k)
  | .attribute space name nameSpan e value =>
    .attribute space name (nameSpan.shift k) (e.shift k)
      (value.map fun p => (p.1.shift k, p.2.shift k))

theorem takeValue_shift (ts : List Token) :
    takeValue (ts.map (Token.shift k)) =
      ((takeValue ts).1.map (fun p => (p.1.shift k, p.2.shift k)),
        (takeValue ts).2.map (Token.shift k)) := by
  cases ts with
  | nil => rfl
  | cons t ts => cases value : t.value? <;> simp [takeValue, value]

theorem takeItem_shift (t : Token) (rest : List Token) :
    takeItem (t.shift k) (rest.map (Token.shift k)) =
      ((takeItem t rest).1.shift k, (takeItem t rest).2.map (Token.shift k)) := by
  rcases rest with _ | ⟨a, rest⟩
  · rfl
  · by_cases named : (t.isName && a.kind == .equals) = true
    · simp [takeItem, named, takeValue_shift, Item.shift]
    · rcases rest with _ | ⟨b, _ | ⟨c, rest⟩⟩
      · simp [takeItem, named, Item.shift]
      · simp [takeItem, named, Item.shift]
      · by_cases spaced :
            (t.isName && a.kind == .colon && b.isName && c.kind == .equals) = true
        · simp [takeItem, named, spaced, takeValue_shift, Item.shift, Span.shift]
          rfl
        · simp [takeItem, named, spaced, Item.shift]

theorem items_shift (ts : List Token) :
    items (ts.map (Token.shift k)) = (items ts).map (Item.shift k) := by
  induction ts using items.induct with
  | case1 => simp [items_nil]
  | case2 t rest ih =>
      rw [List.map_cons, items, items, takeItem_shift, ih, List.map_cons]

theorem addItem_shift (h : Head) (i : Item) :
    (h.shift k).addItem (i.shift k) =
      ((h.addItem i).1.shift k, (h.addItem i).2.map (Problem.shift k)) := by
  cases i with
  | «attribute» space name nameSpan e value =>
      cases value <;>
        simp [addItem, Item.shift, shift, Problem.shift, Span.shift, Attribute.shift]
  | word t =>
      cases value : t.value? with
      | none =>
          simp only [addItem, Item.shift, Token.shift_value?, value, Option.map_none,
            Token.shift_kind, Token.shift_stop, Token.shift_span, Token.shift_word]
          refine Prod.ext rfl ?_
          split <;> rfl
      | some v =>
          cases attributes : h.attributes <;>
            simp [addItem, Item.shift, value, shift, attributes, Problem.shift]

theorem addItems_shift (h : Head) (is : List Item) :
    (h.shift k).addItems (is.map (Item.shift k)) =
      ((h.addItems is).1.shift k, (h.addItems is).2.map (Problem.shift k)) := by
  induction is generalizing h with
  | nil => rfl
  | cons i is ih => simp [addItems, addItem_shift, ih]

theorem ofWords?_shift (ws : List Token) :
    ofWords? (ws.map (Token.shift k)) =
      (ofWords? ws).map fun p => (p.1.shift k, p.2.map (Token.shift k)) := by
  rcases ws with _ | ⟨first, rest⟩
  · rfl
  · by_cases name : first.isName
    · rcases rest with _ | ⟨c, _ | ⟨n, rest⟩⟩
      · simp [ofWords?, name, shift]
      · simp [ofWords?, name, shift]
      · by_cases spaced : (c.kind == .colon && n.isName) = true
        · simp [ofWords?, name, spaced, shift, Span.shift]
        · simp [ofWords?, name, spaced, shift]
    · cases literal : first.value? <;> simp [ofWords?, name, literal, shift, Span.shift]

/-- **The tag that is read from words** stands where they stand. -/
theorem read?_shift (ws : List Token) :
    read? (ws.map (Token.shift k)) =
      (read? ws).map fun p => (p.1.shift k, p.2.map (Problem.shift k)) := by
  rw [read?, read?, ofWords?_shift, Option.map_map, Option.map_map]
  cases ofWords? ws with
  | none => rfl
  | some p => simp [items_shift, addItems_shift]

theorem toTag_shift (h : Head) (start stop : Nat) (children : List Tag) :
    (h.shift k).toTag (start + k) (stop + k) (children.map (Tag.shift k)) =
      (h.toTag start stop children).shift k := by
  simp [toTag, shift, Tag.shift, Span.shift, Tag.shiftAll_eq_map]

end Head

end Words

/-! ## Statements -/

theorem Statement.ofTokens_shift (k : Nat) (ts : List Token) :
    ofTokens (ts.map (Token.shift k)) = mapAll (Token.shift k) (ofTokens ts) :=
  ofTokens_map (Token.shift_kind k) ts

theorem unclosed_shift (k : Nat) (o : Token) (c : Option Token) :
    unclosed (o.shift k) (c.map (Token.shift k)) = (unclosed o c).map (Problem.shift k) := by
  cases c <;> simp [unclosed, Problem.shift]

mutual

theorem tagsOf_shift_singleton (k textStop depth : Nat) : ∀ s : Statement,
    tagsOf (textStop + k) depth [s.map (Token.shift k)] =
      ((tagsOf textStop depth [s]).1.map (Tag.shift k),
        (tagsOf textStop depth [s]).2.map (Problem.shift k))
  | .separator _ => by simp [Statement.map, tagsOf]
  | .stray _ => by simp [Statement.map, tagsOf, Problem.shift]
  | .line [] => by simp [Statement.map, tagsOf]
  | .line (first :: ws) => by
      have same := Head.read?_shift k (first :: ws)
      rw [List.map_cons] at same
      cases read : Head.read? (first :: ws) with
      | none => simp [Statement.map, tagsOf, same, read, Problem.shift]
      | some p => simp [Statement.map, tagsOf, same, read, ← Head.toTag_shift, Head.shift]
  | .block [] o _ c => by simp [Statement.map, tagsOf, Problem.shift, unclosed_shift]
  | .block (first :: ws) o b c => by
      have same := Head.read?_shift k (first :: ws)
      rw [List.map_cons] at same
      have body := tagsOf_shift k textStop (depth + 1) b
      have kept : ((c.map (Token.shift k)).map Token.stop).getD (max (o.stop + k) (textStop + k)) =
          (c.map Token.stop).getD (max o.stop textStop) + k := by
        cases c <;> simp [Nat.add_max_add_right]
      have skipped : ((c.map (Token.shift k)).map Token.stop).getD (o.stop + k) =
          (c.map Token.stop).getD o.stop + k := by
        cases c <;> simp
      cases read : Head.read? (first :: ws) with
      | none => simp [Statement.map, tagsOf, same, read, Problem.shift, unclosed_shift]
      | some p =>
          by_cases shallow : depth < maxDepth
          · simp only [Statement.map, List.map_cons, tagsOf, same, read, Option.map_some, shallow,
              if_true, body, Token.shift_stop, Token.shift_start, kept, Head.toTag_shift,
              unclosed_shift, List.map_append, List.map_nil]
          · simp only [Statement.map, List.map_cons, tagsOf, same, read, Option.map_some, shallow,
              if_false, Token.shift_stop, Token.shift_start, skipped, ← Head.toTag_shift,
              unclosed_shift, List.map_append, List.map_nil, Token.shift_span, Problem.shift]

/-- **The tags and the problems of statements** stand where their tokens stand. -/
theorem tagsOf_shift (k textStop depth : Nat) : ∀ ss : List Statement,
    tagsOf (textStop + k) depth (Statement.mapAll (Token.shift k) ss) =
      ((tagsOf textStop depth ss).1.map (Tag.shift k),
        (tagsOf textStop depth ss).2.map (Problem.shift k))
  | [] => by simp [Statement.mapAll, tagsOf]
  | s :: r => by
      rw [Statement.mapAll, tagsOf_cons_append, tagsOf_cons_append textStop depth s r,
        tagsOf_shift_singleton k textStop depth s, tagsOf_shift k textStop depth r,
        List.map_append, List.map_append]

end

end PackageRecipe.Sdl
