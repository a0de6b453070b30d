import Mathlib
import PackageRecipe.Proofs.Sdl.Grammar
import PackageRecipe.Editor.Cursor

/-!
# The tags around a cursor

A cursor is understood from the text before it alone, by a stack of open blocks;
the tree of the document is read from the whole text.  This file shows that both
agree: in a document without errors the stack holds the tags whose blocks enclose
the cursor.

## Main Definitions

* `Tag.encloses` — the block of a tag encloses a byte offset
* `Tag.chain` — the tags that enclose an offset, from the outermost on
* `Standing` — what the tokens of the statement at an offset are, and which tag
  they belong to
* `Agrees` — the stack behind some statements holds the tags around the offset
* `tagsAround`, `tagBefore?` — the tags of a text around an offset, and the last
  one that begins before it

## Design Notes

The text before the cursor has the tokens that end before it, and what the cut
leaves over (`Lexing.tokens_append`).  `agrees_tokensOfList` runs the stack over
the former, by induction over the statements of the document, and `Standing` keeps
what is known about the statement that is still open; `headName_of_prefix` then
says that the first words of a statement fix the name of its tag, whatever the cut
leaves over.
-/

namespace PackageRecipe.Sdl

open PackageRecipe.Text

/-! ## Enclosing blocks -/

namespace Tag

/-- The brace that opens the block of a tag: the first one in its place. -/
def opening? (tokens : List Token) (t : Tag) : Option Token :=
  t.span.bind fun s => tokens.find? fun b => b.kind == .leftBrace && decide (b.span.Within s)

/-- The block of a tag encloses the byte offset `o`. -/
def encloses (tokens : List Token) (o : Nat) (t : Tag) : Bool :=
  (t.opening? tokens).any (·.stop ≤ o) && t.span.any (o ≤ ·.stop - 1)

/-- Of some tags and all tags below them, those whose blocks enclose an offset. -/
def chain (tokens : List Token) (o : Nat) (tags : List Tag) : List Tag :=
  (preorder tags).filter (encloses tokens o)

/-- The tags of the innermost block around an offset. -/
def innermost (tokens : List Token) (o : Nat) (tags : List Tag) : List Tag :=
  ((chain tokens o tags).getLast?.map children).getD tags

theorem chain_cons_of_encloses {tokens : List Token} {o : Nat} {t : Tag}
    (encloses : t.encloses tokens o = true) (ts : List Tag) :
    chain tokens o (t :: ts) = t :: (chain tokens o t.children ++ chain tokens o ts) := by
  rw [chain, preorder_cons, List.filter_cons_of_pos encloses, List.filter_append, chain, chain]

theorem chain_cons_of_not_encloses {tokens : List Token} {o : Nat} {t : Tag}
    (encloses : t.encloses tokens o = false) (ts : List Tag) :
    chain tokens o (t :: ts) = chain tokens o t.children ++ chain tokens o ts := by
  rw [chain, preorder_cons, List.filter_cons_of_neg (by simp [encloses]), List.filter_append,
    chain, chain]

theorem innermost_of_chain_eq_nil {tokens : List Token} {o : Nat} {ts : List Tag}
    (none : chain tokens o ts = []) : innermost tokens o ts = ts := by
  simp [innermost, none]

theorem innermost_cons_of_encloses {tokens : List Token} {o : Nat} {t : Tag} {ts : List Tag}
    (encloses : t.encloses tokens o = true) (none : chain tokens o ts = []) :
    innermost tokens o (t :: ts) = innermost tokens o t.children := by
  rw [innermost, innermost, chain_cons_of_encloses encloses, none, List.append_nil]
  cases inner : (chain tokens o t.children).getLast? <;> simp [List.getLast?_cons, inner]

/-- The tag begins in front of the byte offset `o`. -/
def startsBefore (o : Nat) (t : Tag) : Bool :=
  t.span.any (·.start < o)

end Tag

theorem Head.children_toTag (h : Head) (start stop : Nat) (children : List Tag) :
    (h.toTag start stop children).children = children := rfl

/-- The parts of a statement with a block, and what follows it. -/
theorem parts_of_block {T ws body rest : List Token} {b c : Token}
    (part : ws ++ b :: (body ++ c :: rest) <:+: T) :
    ws ++ b :: (body ++ [c]) <:+: T ∧ body <:+: T ∧ rest <:+: T := by
  have whole : ws ++ b :: (body ++ [c]) <:+: ws ++ b :: (body ++ c :: rest) := ⟨[], rest, by simp⟩
  have inner : body <:+: ws ++ b :: (body ++ c :: rest) := ⟨ws ++ [b], c :: rest, by simp⟩
  have behind : rest <:+: ws ++ b :: (body ++ c :: rest) :=
    ⟨ws ++ b :: (body ++ [c]), [], by simp⟩
  exact ⟨whole.trans part, inner.trans part, behind.trans part⟩

section Enclosing

variable {T U : List Token} {o : Nat}

/-- What stands within a part of the text is found among the tokens of that part. -/
theorem find?_within (placed : Placed T) (part : U <:+: T) {s : Span} {a b : Token} (first : a ∈ U)
    (last : b ∈ U) (start : a.start ≤ s.start) (stop : s.stop ≤ b.stop) (p : Token → Bool) :
    T.find? (fun t => p t && decide (t.span.Within s)) =
      U.find? (fun t => p t && decide (t.span.Within s)) := by
  obtain ⟨pre, post, rfl⟩ := part
  have before : pre.find? (fun t => p t && decide (t.span.Within s)) = none := by
    rw [List.find?_eq_none]
    intro t member found
    have within : s.start ≤ t.start := by
      simp only [Bool.and_eq_true, decide_eq_true_eq] at found
      exact found.2.1
    have apart := placed.left.stop_le_start member first
    have nonempty := placed.left.left.start_lt_stop member
    omega
  have behind : post.find? (fun t => p t && decide (t.span.Within s)) = none := by
    rw [List.find?_eq_none]
    intro t member found
    have within : t.stop ≤ s.stop := by
      simp only [Bool.and_eq_true, decide_eq_true_eq] at found
      exact found.2.2
    have apart := placed.stop_le_start (List.mem_append_right _ last) member
    have nonempty := placed.right.start_lt_stop member
    omega
  rw [List.find?_append, List.find?_append, before, behind, Option.none_or, Option.or_none]

/-- Words hold no brace. -/
theorem kind_ne_leftBrace_of_words {ws : List Token} (words : Statement.Words ws) :
    ∀ w ∈ ws, w.kind ≠ .leftBrace := by
  intro w member kind
  have word := words w member
  simp [Token.endsStatement, kind] at word

variable {first : Token} {words : List Token} {h : Head} {ps : List Problem}

/-- A tag without a block encloses nothing. -/
theorem encloses_line (placed : Placed T) (part : first :: words <:+: T)
    (phrase : Phrase (first :: words)) (read : Head.read? (first :: words) = some (h, ps))
    (children : List Tag) :
    (h.toTag first.start h.stop children).encloses T o = false := by
  obtain ⟨b, last, stop⟩ := Head.stop_of_read? read
  have opening : (h.toTag first.start h.stop children).opening? T = none := by
    rw [Tag.opening?, Head.toTag, Option.bind_some,
      find?_within placed part List.mem_cons_self (List.mem_of_getLast? last) (Nat.le_refl _)
        (Nat.le_of_eq stop)]
    rw [List.find?_eq_none]
    intro t member
    simp [kind_ne_leftBrace_of_words phrase.words t member]
  simp [Tag.encloses, opening]

/-- A tag with a block encloses what stands between its braces. -/
theorem encloses_block {c b : Token} {body : List Token} (placed : Placed T)
    (part : first :: words ++ b :: (body ++ [c]) <:+: T) (phrase : Phrase (first :: words))
    (opening : b.kind = .leftBrace) (children : List Tag) :
    (h.toTag first.start c.stop children).encloses T o = true ↔ b.stop ≤ o ∧ o ≤ c.stop - 1 := by
  have placedPart := placed.part part
  have afterFirst : first.start ≤ b.start := by
    have apart := placedPart.stop_le_start (t := first) (u := b) (by simp) (by simp)
    have nonempty := placedPart.start_lt_stop (t := first) (by simp)
    omega
  have beforeLast : b.stop ≤ c.stop := by
    have apart := placedPart.right.head_stop_le_start (u := c) (by simp)
    have nonempty := placedPart.start_lt_stop (t := c) (by simp)
    omega
  have found : (h.toTag first.start c.stop children).opening? T = some b := by
    rw [Tag.opening?, Head.toTag, Option.bind_some,
      find?_within placed part (a := first) (b := c) (by simp) (by simp) (Nat.le_refl _)
        (Nat.le_refl _),
      List.find?_append, List.find?_eq_none.2, Option.none_or, List.find?_cons_of_pos]
    · simpa [opening] using ⟨afterFirst, beforeLast⟩
    · intro t member
      simp [kind_ne_leftBrace_of_words phrase.words t member]
  rw [Tag.encloses, found]
  simp [Head.toTag]

end Enclosing

/-! ## Tokens that end before a place -/

section Cut

variable {o : Nat} {ts us : List Token}

/-- The tokens that end at or before the byte offset `o`. -/
def ended (o : Nat) (ts : List Token) : List Token :=
  ts.filter (·.stop ≤ o)

/-- The tokens that end behind the byte offset `o`. -/
def pending (o : Nat) (ts : List Token) : List Token :=
  ts.filter (o < ·.stop)

theorem ended_append : ended o (ts ++ us) = ended o ts ++ ended o us :=
  List.filter_append ..

theorem pending_append : pending o (ts ++ us) = pending o ts ++ pending o us :=
  List.filter_append ..

theorem ended_cons {t : Token} (early : t.stop ≤ o) (ts : List Token) :
    ended o (t :: ts) = t :: ended o ts :=
  List.filter_cons_of_pos (by simpa using early)

theorem pending_cons {t : Token} (early : t.stop ≤ o) (ts : List Token) :
    pending o (t :: ts) = pending o ts :=
  List.filter_cons_of_neg (by simpa using early)

theorem ended_of_all (all : ∀ t ∈ ts, t.stop ≤ o) : ended o ts = ts ∧ pending o ts = [] := by
  simpa [ended, pending] using all

theorem pending_of_all (all : ∀ t ∈ ts, o < t.stop) : pending o ts = ts ∧ ended o ts = [] := by
  simpa [ended, pending] using all

/-- All tokens behind one that has not ended have not ended either. -/
theorem pending_behind (placed : Placed (ts ++ us)) {t : Token} (member : t ∈ ts)
    (late : o < t.stop) : ∀ u ∈ us, o < u.stop ∧ o ≤ u.start := by
  intro u behind
  have apart := placed.stop_le_start member behind
  have nonempty := placed.right.start_lt_stop behind
  omega

theorem pending_tail {t : Token} (placed : Placed (t :: ts)) (late : o < t.stop) :
    ∀ u ∈ ts, o < u.stop ∧ o ≤ u.start :=
  pending_behind (show Placed ([t] ++ ts) from placed) List.mem_cons_self late

/-- Behind a mark that has not ended, nothing begins in front of the offset. -/
theorem le_start_of_late {t : Token} (placed : Placed (t :: ts)) (ends : t.endsStatement)
    (late : o < t.stop) : ∀ u ∈ t :: ts, o ≤ u.start := by
  obtain ⟨a, -, marked⟩ := Token.endsStatement_iff.1 ends
  have := (placed.lexed t List.mem_cons_self).stop_eq marked
  refine List.forall_mem_cons.2 ⟨by omega, fun u member => ?_⟩
  exact (pending_tail placed late u member).2

/-- All tokens in front of one that has ended have ended too. -/
theorem ended_before (placed : Placed (ts ++ us)) {u : Token} (member : u ∈ us)
    (early : u.stop ≤ o) : ∀ t ∈ ts, t.stop ≤ o := by
  intro t before
  have apart := placed.stop_le_start before member
  have nonempty := placed.right.start_lt_stop member
  omega

/-- The tokens that have ended stand in front of the others. -/
theorem ended_append_pending (placed : Placed ts) : ended o ts ++ pending o ts = ts := by
  induction ts with
  | nil => rfl
  | cons t ts ih =>
      by_cases early : t.stop ≤ o
      · simpa [ended, pending, early, Nat.not_lt.2 early] using ih placed.tail
      · have late := Nat.not_le.1 early
        have behind : ∀ u ∈ t :: ts, o < u.stop :=
          List.forall_mem_cons.2 ⟨late, fun u member => (pending_tail placed late u member).1⟩
        obtain ⟨all, none⟩ := pending_of_all behind
        rw [all, none, List.nil_append]

end Cut

/-- The offset has all of the tokens on one side. -/
def Uncut (o : Nat) (ts : List Token) : Prop :=
  (∀ t ∈ ts, t.stop ≤ o) ∨ (∀ t ∈ ts, o < t.stop)

theorem Uncut.mono {o : Nat} {ts us : List Token} (uncut : Uncut o ts) (inside : ∀ u ∈ us, u ∈ ts) :
    Uncut o us :=
  uncut.imp (fun all u member => all u (inside u member))
    fun all u member => all u (inside u member)

/-- Where no brace in front of the offset is closed behind it, no tag encloses it. -/
theorem chain_eq_nil {T : List Token} {o : Nat} (placed : Placed T) {ss : List Statement}
    {tags : List Tag} (reads : Statement.Reads ss tags) (part : Statement.tokensOfList ss <:+: T)
    (uncut : Uncut o (Statement.tokensOfList ss)) : Tag.chain T o tags = [] := by
  induction reads with
  | nil => rfl
  | separator _ _ ih =>
      exact ih ((List.suffix_append _ _).isInfix.trans part)
        (uncut.mono fun t member => List.mem_append_right _ member)
  | @line first words h ps r tags phrase _ read _ ih =>
      have here := encloses_line (o := o) placed ((List.prefix_append _ _).isInfix.trans part)
        phrase read []
      rw [Tag.chain_cons_of_not_encloses here]
      refine ih ((List.suffix_append _ _).isInfix.trans part)
        (uncut.mono fun t member => List.mem_append_right _ member)
  | @block first words h ps b c body r children tags phrase read opening _ _ _ ihBody ihRest =>
      rw [Statement.tokensOfList_block] at part uncut
      obtain ⟨whole, inner, rest⟩ := parts_of_block part
      have here : (h.toTag first.start c.stop children).encloses T o = false := by
        rw [Bool.eq_false_iff]
        intro encloses
        obtain ⟨early, late⟩ := (encloses_block placed whole phrase opening children).1 encloses
        have nonempty := (placed.part part).start_lt_stop (t := c) (by simp)
        rcases uncut with all | all
        · have := all c (by simp)
          omega
        · have := all b (by simp)
          omega
      rw [Tag.chain_cons_of_not_encloses here, Head.children_toTag,
        ihBody inner (uncut.mono (by simp +contextual)),
        ihRest rest (uncut.mono (by simp +contextual))]
      rfl

/-- Where nothing begins in front of the offset, no tag encloses it. -/
theorem chain_eq_nil_of_le_start {T : List Token} {o : Nat} (placed : Placed T)
    {ss : List Statement} {tags : List Tag} (reads : Statement.Reads ss tags)
    (part : Statement.tokensOfList ss <:+: T)
    (behind : ∀ t ∈ Statement.tokensOfList ss, o ≤ t.start) : Tag.chain T o tags = [] := by
  apply chain_eq_nil placed reads part
  right
  intro t member
  have nonempty := (placed.part part).start_lt_stop member
  have := behind t member
  omega

/-! ## The statement at a place -/

/-- What is known about the statement at the byte offset `o`, where `todo` are the
tokens of its level that end behind `o`, `tags` the tags of that level and the last
argument the tokens of the statement that have ended.  Either no statement is open,
or the offset stands behind the beginning of a tag, and its words are cut there. -/
inductive Standing (o : Nat) (todo : List Token) : List Tag → List Token → Prop where
  | between {tags : List Tag} : (∀ t ∈ todo.head?, o ≤ t.start) → Standing o todo tags []
  | inside (earlier : List Tag) {first : Token} {words st more : List Token} {h : Head}
      {ps : List Problem} {stop : Nat} {later children : List Tag} :
      Placed (first :: words) → Phrase (first :: words) →
      Head.read? (first :: words) = some (h, ps) → first.start < o →
      (∀ t ∈ later, t.startsBefore o = false) → first :: words = st ++ more →
      (∀ t ∈ more, o < t.stop) → (∀ t ∈ todo.head?, t.start < o → t ∈ more.head?) →
      Standing o todo (earlier ++ h.toTag first.start stop children :: later) st

namespace Standing

variable {o : Nat} {todo rest : List Token} {tags : List Tag} {st : List Token}

/-- Tokens that do not begin in front of the offset may follow. -/
theorem append (standing : Standing o todo tags st) (behind : ∀ t ∈ rest, o ≤ t.start) :
    Standing o (todo ++ rest) tags st := by
  have head : ∀ t ∈ (todo ++ rest).head?, t ∈ todo.head? ∨ o ≤ t.start := by
    intro t member
    cases todo with
    | nil => exact .inr (behind t (List.mem_of_mem_head? member))
    | cons u todo => exact .inl member
  cases standing with
  | between early => exact .between fun t member => (head t member).elim (early t) id
  | inside earlier placed phrase read start late split pending cut =>
      apply Standing.inside earlier placed phrase read start late split pending
      intro t member before
      rcases head t member with member | later
      · exact cut t member before
      · omega

/-- Tags that come before those of the statement may be added. -/
theorem cons (standing : Standing o todo tags st) (tag : Tag) :
    Standing o todo (tag :: tags) st := by
  cases standing with
  | between early => exact .between early
  | inside earlier placed phrase read start late split pending cut =>
      exact .inside (tag :: earlier) placed phrase read start late split pending cut

theorem innermost_cons {T : List Token} {tag : Tag}
    (standing : Standing o todo (Tag.innermost T o tags) st)
    (outside : Tag.chain T o (tag :: tags) = Tag.chain T o tags) :
    Standing o todo (Tag.innermost T o (tag :: tags)) st := by
  cases inner : Tag.chain T o tags with
  | nil =>
      rw [Tag.innermost_of_chain_eq_nil inner] at standing
      rw [Tag.innermost_of_chain_eq_nil (outside.trans inner)]
      exact standing.cons tag
  | cons t ts =>
      rw [Tag.innermost, outside, inner, List.getLast?_eq_some_getLast (List.cons_ne_nil t ts)]
      rwa [Tag.innermost, inner, List.getLast?_eq_some_getLast (List.cons_ne_nil t ts)] at standing

/-- The last tag that begins in front of the offset is the one of the statement. -/
theorem getLast?_startsBefore {first : Token} {h : Head} {stop : Nat}
    {earlier later children : List Tag} (start : first.start < o)
    (late : ∀ t ∈ later, t.startsBefore o = false) :
    ((earlier ++ h.toTag first.start stop children :: later).filter (Tag.startsBefore o)).getLast? =
      some (h.toTag first.start stop children) := by
  have here : (h.toTag first.start stop children).startsBefore o = true := by
    simpa [Tag.startsBefore, Head.toTag] using start
  have none : later.filter (Tag.startsBefore o) = [] :=
    List.filter_eq_nil_iff.2 fun t member => by simp [late t member]
  rw [List.filter_append, List.filter_cons_of_pos here, none, List.getLast?_concat]

end Standing

/-- The words of a statement whose end, a separator or a brace, is still pending. -/
theorem standing_words {o : Nat} {first : Token} {words rest : List Token} {h : Head}
    {ps : List Problem} (placed : Placed (first :: words)) (phrase : Phrase (first :: words))
    (read : Head.read? (first :: words) = some (h, ps)) (behind : ∀ t ∈ rest, o ≤ t.start)
    {later : List Tag} (late : ∀ t ∈ later, t.startsBefore o = false) (stop : Nat)
    (children : List Tag) :
    Standing o (pending o (first :: words) ++ rest) (h.toTag first.start stop children :: later)
      (ended o (first :: words)) := by
  by_cases start : first.start < o
  · refine .append ?_ behind
    refine .inside [] placed phrase read start late (ended_append_pending placed).symm ?_ ?_
    · simp [pending]
    · exact fun t member _ => member
  · have late : o < first.stop := by
      have := placed.start_lt_stop (List.mem_cons_self (a := first))
      omega
    have behind : ∀ t ∈ first :: words, o < t.stop :=
      List.forall_mem_cons.2 ⟨late, fun t member => (pending_tail placed late t member).1⟩
    rw [(pending_of_all behind).1, (pending_of_all behind).2]
    refine .between ?_
    simpa using start

/-- The tags of statements that have not ended begin behind the offset. -/
theorem startsBefore_eq_false {o : Nat} {ss : List Statement} {tags : List Tag}
    (reads : Statement.Reads ss tags) (behind : ∀ t ∈ Statement.tokensOfList ss, o ≤ t.start) :
    ∀ t ∈ tags, t.startsBefore o = false := by
  induction reads with
  | nil => simp
  | separator _ _ ih => exact ih fun t member => behind t (List.mem_append_right _ member)
  | @line first words h ps r tags _ _ _ _ ih =>
      refine List.forall_mem_cons.2
        ⟨?_, ih fun t member => behind t (List.mem_append_right _ member)⟩
      simpa [Tag.startsBefore, Head.toTag] using behind first
        (by simp [Statement.tokensOfList, Statement.tokens])
  | @block first words h ps b c body r children tags _ _ _ _ _ _ _ ih =>
      refine List.forall_mem_cons.2
        ⟨?_, ih fun t member => behind t (List.mem_append_right _ member)⟩
      simpa [Tag.startsBefore, Head.toTag] using behind first
        (by simp [Statement.tokensOfList, Statement.tokens])

end PackageRecipe.Sdl

namespace PackageRecipe.Editor.Cursor

open PackageRecipe.Sdl PackageRecipe.Text

/-! ## Names of statements -/

section Names

variable {ws st more tail : List Token} {h : Head} {ps : List Problem}

theorem headLength_plain {n : Token} (name : n.isName) (plain : ∀ t ∈ tail.head?, t.kind ≠ .colon) :
    headLength (n :: tail) = 1 := by
  rcases tail with _ | ⟨c, _ | ⟨t, tail⟩⟩
  · simp [headLength, name]
  · simp [headLength, name, plain c rfl]
  · simp [headLength, name, plain c rfl]

theorem headLength_spaced {s c n : Token} (space : s.isName) (colon : c.kind = .colon)
    (name : n.isName) (tail : List Token) : headLength (s :: c :: n :: tail) = 3 := by
  simp [headLength, space, colon, name]

theorem headLength_anonymous {v : Token} (noName : v.isName = false) (tail : List Token) :
    headLength (v :: tail) = 0 := by
  rcases tail with _ | ⟨c, _ | ⟨t, tail⟩⟩ <;> simp [headLength, noName]

theorem headName_plain {n : Token} (name : n.isName) (plain : ∀ t ∈ tail.head?, t.kind ≠ .colon) :
    headName (n :: tail) = .plain n.word := by
  simp only [headName, headLength_plain name plain]

theorem headName_spaced {s c n : Token} (space : s.isName) (colon : c.kind = .colon)
    (name : n.isName) (tail : List Token) :
    headName (s :: c :: n :: tail) = ⟨s.word, n.word⟩ := by
  simp only [headName, headLength_spaced space colon name]

theorem headName_anonymous {v : Token} (noName : v.isName = false) (tail : List Token) :
    headName (v :: tail) = .plain anonymousName := by
  simp only [headName, headLength_anonymous noName]

/-- **The first words of a statement fix the name of its tag**, if the name is
complete and no colon follows them, whatever else stands in place of the words that
are missing. -/
theorem headName_of_prefix (phrase : Phrase ws) (read : Head.read? ws = some (h, ps))
    (split : ws = st ++ more) (nonempty : st ≠ []) (complete : ∀ t ∈ more, h.nameSpan.stop < t.stop)
    (plain : ∀ t ∈ tail.head?, t.kind ≠ .colon) :
    headName (st ++ tail) = ⟨h.space.getD "", h.name⟩ := by
  obtain ⟨first, st, rfl⟩ := List.exists_cons_of_ne_nil nonempty
  cases phrase with
  | @plain n ts name _ items =>
      obtain ⟨stop, rfl⟩ := Head.eq_of_read? (Head.ofWords?_plain name ‹_›) read
      obtain ⟨rfl, rfl⟩ := List.cons.inj split
      apply headName_plain name
      intro t member
      cases st with
      | nil => exact plain t member
      | cons u st => exact items.head?_ne_colon t member
  | @spaced s c n ts space colon name items =>
      obtain ⟨stop, rfl⟩ := Head.eq_of_read? (Head.ofWords?_spaced space colon name ts) read
      -- The end of the name has been read, so the words reach beyond it.
      have noName : n ∉ more := fun member => Nat.lt_irrefl _ (complete n member)
      rcases st with _ | ⟨c', _ | ⟨n', st⟩⟩ <;> simp only [List.cons_append, List.nil_append,
        List.cons.injEq] at split
      · exact absurd (by simp [← split.2]) noName
      · exact absurd (by simp [← split.2.2]) noName
      · obtain ⟨rfl, rfl, rfl, -⟩ := split
        exact headName_spaced space colon name _
  | @anonymous v ts literal _ =>
      obtain ⟨value, literal'⟩ := Token.isLiteral_iff.1 literal
      obtain ⟨stop, rfl⟩ := Head.eq_of_read? (Head.ofWords?_anonymous literal' ts) read
      obtain ⟨rfl, -⟩ := List.cons.inj split
      exact headName_anonymous literal.isName_eq_false _

/-- The name that the stack gives a complete statement is the one of its tag. -/
theorem headName_eq_step (phrase : Phrase ws) (read : Head.read? ws = some (h, ps))
    (start stop : Nat) (children : List Tag) :
    headName ws = (h.toTag start stop children).step := by
  have named : headName (ws ++ []) = ⟨h.space.getD "", h.name⟩ :=
    headName_of_prefix phrase read (List.append_nil ws).symm phrase.ne_nil (by simp) (by simp)
  rwa [List.append_nil] at named

/-- A statement of which no word has ended where its name ends has no name. -/
theorem anonymous_of_late (phrase : Phrase ws) (read : Head.read? ws = some (h, ps))
    (late : ∀ t ∈ ws, h.nameSpan.stop < t.stop) :
    (⟨h.space.getD "", h.name⟩ : QualifiedName) = .plain anonymousName := by
  cases phrase with
  | @plain n ts name plain _ =>
      obtain ⟨stop, rfl⟩ := Head.eq_of_read? (Head.ofWords?_plain name plain) read
      exact absurd (late n List.mem_cons_self) (Nat.lt_irrefl _)
  | @spaced s c n ts space colon name _ =>
      obtain ⟨stop, rfl⟩ := Head.eq_of_read? (Head.ofWords?_spaced space colon name ts) read
      exact absurd (late n (by simp)) (Nat.lt_irrefl _)
  | @anonymous v ts literal _ =>
      obtain ⟨value, literal'⟩ := Token.isLiteral_iff.1 literal
      obtain ⟨stop, rfl⟩ := Head.eq_of_read? (Head.ofWords?_anonymous literal' ts) read
      rfl

end Names

/-! ## The stack of blocks -/

section Stack

variable {c : Context} {t : Token}

theorem Context.add_separator (separator : t.IsSeparator) :
    c.add t = { c with statement := [] } := by
  unfold Context.add
  rcases separator with kind | kind <;> rw [kind]

theorem Context.add_leftBrace (kind : t.kind = .leftBrace) :
    c.add t = ⟨c.blocks ++ [headName c.statement], []⟩ := by
  unfold Context.add
  rw [kind]

theorem Context.add_rightBrace (kind : t.kind = .rightBrace) :
    c.add t = ⟨c.blocks.dropLast, []⟩ := by
  unfold Context.add
  rw [kind]

theorem Context.add_word (word : t.endsStatement = false) :
    c.add t = { c with statement := c.statement ++ [t] } := by
  unfold Context.add
  cases kind : t.kind <;> simp [Token.endsStatement, kind] at word ⊢

/-- Words lengthen the statement. -/
theorem foldl_add_words {ws : List Token} (words : Statement.Words ws) (c : Context) :
    ws.foldl Context.add c = { c with statement := c.statement ++ ws } := by
  induction ws generalizing c with
  | nil => simp
  | cons w ws ih =>
      obtain ⟨word, words⟩ := Statement.words_cons.1 words
      rw [List.foldl_cons, ih words, Context.add_word word]
      simp

end Stack

/-- The stack behind the tokens that have ended agrees with the tree, and the
statement at the offset is known. -/
def Agrees (T : List Token) (o : Nat) (ts : List Token) (tags : List Tag)
    (blocks : List QualifiedName) : Prop :=
  ∃ st, (ended o ts).foldl Context.add ⟨blocks, []⟩ =
      ⟨blocks ++ (Tag.chain T o tags).map Tag.step, st⟩ ∧
    Standing o (pending o ts) (Tag.innermost T o tags) st

section Agrees

variable {T : List Token} {o : Nat} {tags later : List Tag} {blocks : List QualifiedName}

/-- Tokens of which none begins in front of the offset. -/
theorem agrees_of_le_start {ts : List Token} (placed : Placed ts) (behind : ∀ t ∈ ts, o ≤ t.start)
    (none : Tag.chain T o tags = []) : Agrees T o ts tags blocks := by
  have late : ∀ t ∈ ts, o < t.stop := fun t member =>
    Nat.lt_of_le_of_lt (behind t member) (placed.start_lt_stop member)
  refine ⟨[], ?_, .between fun t member => ?_⟩
  · simp [(pending_of_all late).2, none]
  · rw [(pending_of_all late).1] at member
    exact behind t (List.mem_of_mem_head? member)

/-- The statement whose end is the first to come behind the offset. -/
theorem agrees_words {first : Token} {words rest : List Token} {h : Head} {ps : List Problem}
    (placed : Placed (first :: words ++ rest)) (phrase : Phrase (first :: words))
    (read : Head.read? (first :: words) = some (h, ps)) (behind : ∀ t ∈ rest, o ≤ t.start)
    {stop : Nat} {children : List Tag}
    (none : Tag.chain T o (h.toTag first.start stop children :: later) = [])
    (late : ∀ t ∈ later, t.startsBefore o = false) :
    Agrees T o (first :: words ++ rest) (h.toTag first.start stop children :: later) blocks := by
  have ends : ∀ t ∈ rest, o < t.stop := fun t member =>
    Nat.lt_of_le_of_lt (behind t member) (placed.right.start_lt_stop member)
  have words' : Statement.Words (ended o (first :: words)) := fun w member =>
    phrase.words w (List.mem_filter.1 member).1
  refine ⟨ended o (first :: words), ?_, ?_⟩
  · rw [ended_append, (pending_of_all ends).2, List.append_nil, foldl_add_words words', none]
    simp
  · rw [Tag.innermost_of_chain_eq_nil none, pending_append, (pending_of_all ends).1]
    exact standing_words placed.left phrase read behind late stop children

/-- A separator that has ended starts afresh. -/
theorem Agrees.separator {t : Token} {ts : List Token} (agrees : Agrees T o ts tags blocks)
    (separator : t.IsSeparator) (early : t.stop ≤ o) : Agrees T o (t :: ts) tags blocks := by
  obtain ⟨st, run, standing⟩ := agrees
  refine ⟨st, ?_, ?_⟩
  · rw [← run, ended_cons early, List.foldl_cons, Context.add_separator separator]
  · rwa [pending_cons early]

/-- A statement that has ended leaves the stack as it was. -/
theorem Agrees.line {ws : List Token} {t : Token} {ts : List Token} {tag : Tag}
    (agrees : Agrees T o (t :: ts) tags blocks) (placed : Placed (ws ++ t :: ts))
    (words : Statement.Words ws) (separator : t.IsSeparator) (early : t.stop ≤ o)
    (outside : Tag.chain T o (tag :: tags) = Tag.chain T o tags) :
    Agrees T o (ws ++ t :: ts) (tag :: tags) blocks := by
  obtain ⟨st, run, standing⟩ := agrees
  obtain ⟨all, none⟩ := ended_of_all (ended_before placed List.mem_cons_self early)
  refine ⟨st, ?_, ?_⟩
  · rw [outside, ← run, ended_append, all, List.foldl_append, foldl_add_words words,
      ended_cons early, List.foldl_cons, List.foldl_cons, Context.add_separator separator,
      Context.add_separator separator]
  · rw [pending_append, none, List.nil_append]
    exact standing.innermost_cons outside

/-- Within a block that is open, the name of its tag lies on the stack. -/
theorem Agrees.inside {ws body rest : List Token} {b c : Token} {tag : Tag}
    (agrees : Agrees T o body tag.children (blocks ++ [tag.step]))
    (placed : Placed (ws ++ b :: (body ++ c :: rest))) (words : Statement.Words ws)
    (named : headName ws = tag.step) (opening : b.kind = .leftBrace)
    (closing : c.kind = .rightBrace) (encloses : tag.encloses T o = true)
    (early : b.stop ≤ o) (late : o < c.stop) (none : Tag.chain T o later = []) :
    Agrees T o (ws ++ b :: (body ++ c :: rest)) (tag :: later) blocks := by
  obtain ⟨st, run, standing⟩ := agrees
  obtain ⟨all, nothing⟩ := ended_of_all (ended_before placed List.mem_cons_self early)
  have inner := placed.right.tail.right
  have behind := le_start_of_late inner (by simp [Token.endsStatement, closing]) late
  have pending_ : ∀ t ∈ c :: rest, o < t.stop := fun t member =>
    Nat.lt_of_le_of_lt (behind t member) (inner.start_lt_stop member)
  obtain ⟨open_, closed⟩ := pending_of_all pending_
  refine ⟨st, ?_, ?_⟩
  · rw [ended_append, all, List.foldl_append, foldl_add_words words, ended_cons early,
      List.foldl_cons, Context.add_leftBrace opening, List.nil_append, named, ended_append, closed,
      List.append_nil, run, Tag.chain_cons_of_encloses encloses, none]
    simp
  · rw [Tag.innermost_cons_of_encloses encloses none, pending_append, nothing, List.nil_append,
      pending_cons early, pending_append, open_]
    exact standing.append behind

/-- A block that is closed again leaves the stack as it was. -/
theorem Agrees.block {ws body rest : List Token} {b c : Token} {tag : Tag}
    (agreesBody : Agrees T o body tag.children (blocks ++ [tag.step]))
    (agreesRest : Agrees T o rest tags blocks) (placed : Placed (ws ++ b :: (body ++ c :: rest)))
    (words : Statement.Words ws) (named : headName ws = tag.step) (opening : b.kind = .leftBrace)
    (closing : c.kind = .rightBrace) (early : c.stop ≤ o) (none : Tag.chain T o tag.children = [])
    (outside : tag.encloses T o = false) :
    Agrees T o (ws ++ b :: (body ++ c :: rest)) (tag :: tags) blocks := by
  obtain ⟨stBody, runBody, -⟩ := agreesBody
  obtain ⟨st, run, standing⟩ := agreesRest
  have shape : ws ++ b :: (body ++ c :: rest) = (ws ++ b :: body) ++ c :: rest := by simp
  have before := ended_before (shape ▸ placed) List.mem_cons_self early
  obtain ⟨all, nothing⟩ := ended_of_all before
  have body_ : ended o body = body := (ended_of_all fun t member => before t (by simp [member])).1
  have outside' : Tag.chain T o (tag :: tags) = Tag.chain T o tags := by
    rw [Tag.chain_cons_of_not_encloses outside, none, List.nil_append]
  rw [none, body_] at runBody
  refine ⟨st, ?_, ?_⟩
  · rw [shape, ended_append, all, List.foldl_append, List.foldl_append, foldl_add_words words,
      List.foldl_cons, Context.add_leftBrace opening, List.nil_append, named, runBody,
      ended_cons early, List.foldl_cons, Context.add_rightBrace closing, outside']
    simpa using run
  · rw [shape, pending_append, nothing, List.nil_append, pending_cons early]
    exact standing.innermost_cons outside'

end Agrees

/-- **The stack holds the tags whose blocks enclose the offset**, and the statement
at the offset is known. -/
theorem agrees_tokensOfList {T : List Token} (placed : Placed T) (o : Nat) {ss : List Statement}
    {tags : List Tag} (reads : Statement.Reads ss tags) (part : Statement.tokensOfList ss <:+: T)
    (blocks : List QualifiedName) : Agrees T o (Statement.tokensOfList ss) tags blocks := by
  have placedPart := placed.part part
  induction reads generalizing blocks with
  | nil => exact agrees_of_le_start placedPart (by simp [Statement.tokensOfList]) rfl
  | @separator t r tags separator reads ih =>
      have rest : Statement.tokensOfList r <:+: T := (List.suffix_cons _ _).isInfix.trans part
      by_cases early : t.stop ≤ o
      · exact (ih rest blocks (placed.part rest)).separator separator early
      · have behind := le_start_of_late placedPart separator.endsStatement (Nat.not_le.1 early)
        apply agrees_of_le_start placedPart behind
        exact chain_eq_nil_of_le_start placed reads rest fun t member =>
          behind t (List.mem_cons_of_mem _ member)
  | @line first words h ps r tags phrase separated read reads ih =>
      have rest : Statement.tokensOfList r <:+: T := (List.suffix_append _ _).isInfix.trans part
      have outside : (h.toTag first.start h.stop []).encloses T o = false :=
        encloses_line placed ((List.prefix_append _ _).isInfix.trans part) phrase read []
      have same := Tag.chain_cons_of_not_encloses outside tags
      -- The statement is the one at the offset unless a separator behind it has ended.
      have last (behind : ∀ t ∈ Statement.tokensOfList r, o ≤ t.start) :
          Agrees T o (first :: words ++ Statement.tokensOfList r)
            (h.toTag first.start h.stop [] :: tags) blocks := by
        refine agrees_words placedPart phrase read behind ?_ (startsBefore_eq_false reads behind)
        rw [same, chain_eq_nil_of_le_start placed reads rest behind]
        rfl
      rcases reads.eq_nil_or_separator separated with rfl | ⟨t, r, rfl, separator⟩
      · exact last (by simp [Statement.tokensOfList])
      · by_cases early : t.stop ≤ o
        · exact (ih rest blocks (placed.part rest)).line placedPart phrase.words separator early
            same
        · exact last (le_start_of_late placedPart.right separator.endsStatement
            (Nat.not_le.1 early))
  | @block first words h ps b c body r children tags phrase read opening closing readsBody
      readsRest ihBody ihRest =>
      rw [Statement.tokensOfList_block] at part placedPart ⊢
      obtain ⟨whole, inner, rest⟩ := parts_of_block part
      have encloses := encloses_block (o := o) (h := h) placed whole phrase opening children
      have named := headName_eq_step phrase read first.start c.stop children
      have apart : b.stop ≤ c.start :=
        placedPart.right.head_stop_le_start (by simp)
      have nonempty := placedPart.start_lt_stop (t := c) (by simp)
      have agreesBody := ihBody inner (blocks ++ [(h.toTag first.start c.stop children).step])
        (placed.part inner)
      by_cases begun : b.stop ≤ o
      · by_cases passed : c.stop ≤ o
        -- The block is closed in front of the offset.
        · refine agreesBody.block (ihRest rest blocks (placed.part rest)) placedPart phrase.words
            named opening closing passed ?_ ?_
          · exact chain_eq_nil placed readsBody inner (.inl fun t member =>
              ended_before placedPart.right.tail List.mem_cons_self passed t member)
          · rw [Bool.eq_false_iff]
            intro around
            have := (encloses.1 around).2
            omega
        -- The offset stands in the block.
        · have late := Nat.not_le.1 passed
          have behind := le_start_of_late placedPart.right.tail.right
            (by simp [Token.endsStatement, closing]) late
          refine agreesBody.inside placedPart phrase.words named opening closing
            (encloses.2 ⟨begun, by omega⟩) begun late ?_
          exact chain_eq_nil_of_le_start placed readsRest rest fun t member =>
            behind t (List.mem_cons_of_mem _ member)
      -- The offset stands in front of the block, so the words are those at the offset.
      · have behind := le_start_of_late placedPart.right (by simp [Token.endsStatement, opening])
          (Nat.not_le.1 begun)
        have outside : (h.toTag first.start c.stop children).encloses T o = false := by
          rw [Bool.eq_false_iff]
          intro around
          exact begun (encloses.1 around).1
        refine agrees_words placedPart phrase read behind ?_ ?_
        · rw [Tag.chain_cons_of_not_encloses outside, Head.children_toTag,
            chain_eq_nil_of_le_start placed readsBody inner fun t member =>
              behind t (by simp [member]),
            chain_eq_nil_of_le_start placed readsRest rest fun t member =>
              behind t (by simp [member])]
          rfl
        · exact startsBefore_eq_false readsRest fun t member => behind t (by simp [member])

/-! ## The cursor -/

/-- The forms of a cursor outside of comments. -/
theorem ofContext_cases (stop : Nat) (tail : List Char) (c : Context) :
    ((ofContext stop tail c).kind = .block ∧ (ofContext stop tail c).path = c.blocks) ∨
    (((ofContext stop tail c).kind = .value ∨ (ofContext stop tail c).kind = .attribute) ∧
      (ofContext stop tail c).path = c.blocks ++ [headName c.statement] ∧ c.statement ≠ [] ∧
      ¬ (headLength c.statement = c.statement.length ∧
        ∃ last, c.statement.getLast? = some last ∧ last.stop = stop)) := by
  cases reversed : c.statement.reverse with
  | nil => exact .inl (by simp [ofContext, reversed])
  | cons last before =>
      have ends : c.statement.getLast? = some last := by
        rw [List.getLast?_eq_head?_reverse, reversed, List.head?_cons]
      have nonempty : c.statement ≠ [] := by
        rintro none
        simp [none] at ends
      by_cases name : headLength c.statement = c.statement.length ∧
          (last.stop = stop ∨ last.kind = .colon)
      · exact .inl (by simp [ofContext, reversed, name])
      · have apart : ¬ (headLength c.statement = c.statement.length ∧
            ∃ last, c.statement.getLast? = some last ∧ last.stop = stop) := by
          rintro ⟨whole, last', ends', touching⟩
          obtain rfl : last = last' := Option.some.inj (ends.symm.trans ends')
          exact name ⟨whole, .inl touching⟩
        refine .inr ⟨?_, ?_, nonempty, apart⟩
        · simp only [ofContext, reversed, if_neg name]
          repeat' split
          all_goals simp
        · simp only [ofContext, reversed, if_neg name]
          repeat' split
          all_goals rfl

/-- The statement at the offset, with what a cut leaves over, has the name of the
last tag that begins in front of the offset. -/
theorem headName_of_standing {text : List Char} {o : Nat} {todo left st : List Token}
    {tags : List Tag} (standing : Standing o todo tags st) (leftover : Leftover text o todo left)
    (noComment : ¬ InsideComment text o) (nonempty : st ++ left ≠ [])
    (apart : ¬ (headLength (st ++ left) = (st ++ left).length ∧
      ∃ last, (st ++ left).getLast? = some last ∧ last.stop = o)) :
    ∃ tag, (tags.filter (Tag.startsBefore o)).getLast? = some tag ∧
      (¬ (tag.nameSpan.start < o ∧ o < tag.nameSpan.stop) → headName (st ++ left) = tag.step) := by
  cases standing with
  | between early =>
      cases leftover with
      | nothing _ => exact absurd rfl nonempty
      | comment inside _ _ => exact absurd inside noComment
      | token todo before _ _ _ _ _ =>
          have := early _ (by rw [todo]; rfl)
          omega
  | @inside earlier first words st more h ps stop later children _ phrase read start late split
      pending cut =>
      refine ⟨_, Standing.getLast?_startsBefore start late, fun outside => ?_⟩
      have complete : h.nameSpan.stop ≤ o := by
        refine Nat.not_lt.1 fun inside => outside ⟨?_, inside⟩
        change h.nameSpan.start < o
        rwa [Head.nameSpan_start read]
      have complete' : ∀ t ∈ more, h.nameSpan.stop < t.stop := fun t member =>
        Nat.lt_of_le_of_lt complete (pending t member)
      cases leftover with
      | nothing _ =>
          rw [List.append_nil] at nonempty
          exact headName_of_prefix phrase read split nonempty complete' (by simp)
      | comment inside _ _ => exact absurd inside noComment
      | @token t u rest left todo before behind noMark same whole _ =>
          by_cases none : st = []
          · subst none
            obtain rfl : more = first :: words := split.symm
            obtain rfl : first = t := Option.some.inj (cut t (by rw [todo]; rfl) before)
            have unnamed : (h.toTag first.start stop children).step = .plain anonymousName :=
              anonymous_of_late phrase read complete'
            rw [List.nil_append, unnamed]
            apply headName_anonymous
            rw [Bool.eq_false_iff]
            intro name
            -- What is left of a keyword may be a name, but then the cursor touches it.
            obtain ⟨rfl, touching⟩ := whole (same.1 (Token.kind_of_isName name))
            exact apart ⟨by simp [headLength, name], u, rfl, touching⟩
          · apply headName_of_prefix phrase read split none complete'
            rintro v found colon
            obtain rfl : u = v := Option.some.inj found
            simp [colon, TokenKind.mark?] at noMark

/-- The tags of a text whose blocks enclose the byte offset `o`, from the outermost
on. -/
def tagsAround (text : List Char) (o : Nat) : List Tag :=
  (Document.ofText text).root.descendants.filter (Tag.encloses (Lexing.ofText text).tokens o)

/-- The last child of the innermost of these tags, or of the root if there is none,
that begins in front of the offset. -/
def tagBefore? (text : List Char) (o : Nat) : Option Tag :=
  (((tagsAround text o).getLast?.getD (Document.ofText text).root).children.filter
    (Tag.startsBefore o)).getLast?

/-- What a cut leaves over ends no statement. -/
theorem words_of_leftover {text : List Char} {o : Nat} {todo left : List Token}
    (leftover : Leftover text o todo left) : Statement.Words left := by
  cases leftover with
  | nothing _ => simp [Statement.Words]
  | comment _ _ words => exact words
  | @token t u rest left todo _ _ noMark _ _ words =>
      rw [Statement.words_cons, Bool.eq_false_iff]
      refine ⟨fun ends => ?_, words⟩
      obtain ⟨a, -, marked⟩ := Token.endsStatement_iff.1 ends
      simp [marked] at noMark

/-- What the stack says behind the tokens of a document without errors that end before a
place. -/
theorem standing_of_errorFree {text : List Char} {o : Nat} {done todo : List Token}
    (errorFree : ErrorFree (Document.ofText text).problems)
    (whole : (Lexing.ofText text).tokens = done ++ todo) (early : ∀ t ∈ done, t.stop ≤ o)
    (late : ∀ t ∈ todo, o < t.stop) :
    ∃ st, done.foldl Context.add ⟨[], []⟩ = ⟨(tagsAround text o).map Tag.step, st⟩ ∧
      Standing o todo
        (((tagsAround text o).getLast?.getD (Document.ofText text).root).children) st := by
  have reads := Document.reads errorFree
  have tokens : Statement.tokensOfList (Statement.ofText text) = done ++ todo := by
    rw [← whole]
    exact Statement.tokens_ofTokens _
  obtain ⟨st, run, standing⟩ := agrees_tokensOfList (Lexing.placed_tokens text) o reads
    (by simp only [tokens, whole, List.infix_rfl]) []
  have ends : ended o (done ++ todo) = done := by
    rw [ended_append, (ended_of_all early).1, (pending_of_all late).2, List.append_nil]
  have comes : pending o (done ++ todo) = todo := by
    rw [pending_append, (ended_of_all early).2, (pending_of_all late).1, List.nil_append]
  rw [tokens, ends] at run
  rw [tokens, comes] at standing
  have around : tagsAround text o =
      Tag.chain (Lexing.ofText text).tokens o (Document.ofText text).root.children := by
    rw [tagsAround, Tag.descendants_eq, Tag.chain]
  refine ⟨st, ?_, ?_⟩
  · rw [run, around, List.nil_append]
  · rw [around]
    rw [Tag.innermost] at standing
    cases inner : (Tag.chain (Lexing.ofText text).tokens o
        (Document.ofText text).root.children).getLast? with
    | none => simpa [inner] using standing
    | some tag => simpa [inner] using standing

/-- What the stack says in front of a place of a document without errors. -/
theorem context_of_errorFree {before after : List Char}
    (errorFree : ErrorFree (Document.ofText (before ++ after)).problems) :
    ∃ st todo left, Context.ofTokens (Lexing.ofText before).tokens =
        ⟨(tagsAround (before ++ after) (width before)).map Tag.step, st ++ left⟩ ∧
      Standing (width before) todo (((tagsAround (before ++ after) (width before)).getLast?.getD
        (Document.ofText (before ++ after)).root).children) st ∧
      Leftover (before ++ after) (width before) todo left := by
  obtain ⟨done, todo, left, whole, part, early, late, leftover⟩ := Lexing.tokens_append before after
  obtain ⟨st, run, standing⟩ := standing_of_errorFree errorFree whole early late
  refine ⟨st, todo, left, ?_, standing, leftover⟩
  rw [Context.ofTokens, part, List.foldl_append, run, foldl_add_words (words_of_leftover leftover)]

/-- **The cursor and the tree agree on nesting.**  In a document without errors the
path of a cursor consists of the tags whose blocks enclose it.  Where a value or an
attribute is typed, one more entry follows: unless the cursor stands in a comment or
inside of a name, the last tag of the innermost block that begins before it. -/
theorem path_ofOffset (before after : List Char)
    (errorFree : ErrorFree (Document.ofText (before ++ after)).problems) :
    let text := before ++ after
    let o := width before
    let cursor := ofOffset text o
    let path := (tagsAround text o).map Tag.step
    ((cursor.kind = .block ∨ cursor.kind = .comment) → cursor.path = path) ∧
    ((cursor.kind = .value ∨ cursor.kind = .attribute) →
      ∃ entry, cursor.path = path ++ [entry] ∧
        (¬ InsideComment text o →
          ∃ tag, tagBefore? text o = some tag ∧
            (¬ (tag.nameSpan.start < o ∧ o < tag.nameSpan.stop) → entry = tag.step))) := by
  intro text o cursor path
  obtain ⟨st, todo, left, context, standing, leftover⟩ := context_of_errorFree errorFree
  have read : cursor =
      if (Lexing.ofText before).endsInComment then { kind := .comment, path := path }
      else ofContext o (dropBytes
        (((Lexing.ofText before).tokens.getLast?.map Token.stop).getD 0) before)
        ⟨path, st ++ left⟩ := by
    simp only [cursor, ofOffset, text, o, takeBytes_width_append, context, path]
  by_cases comment : (Lexing.ofText before).endsInComment
  · rw [if_pos comment] at read
    simp [read]
  · rw [if_neg comment] at read
    rw [read]
    rcases ofContext_cases o (dropBytes
        (((Lexing.ofText before).tokens.getLast?.map Token.stop).getD 0) before)
        ⟨path, st ++ left⟩ with ⟨kind, same⟩ | ⟨kind, same, nonempty, apart⟩
    · refine ⟨fun _ => same, fun other => ?_⟩
      simp [kind] at other
    · refine ⟨fun other => ?_, fun _ => ⟨_, same, fun noComment => ?_⟩⟩
      · rcases kind with kind | kind <;> simp [kind] at other
      · exact headName_of_standing standing leftover noComment nonempty apart

/-- The name of an attribute is typed in a tag within a block. -/
theorem path_ofOffset_nested :
    (Document.ofText ("a \x7b\n b:c 1 d".toList ++ "=2\n\x7d\n".toList)).problems = [] ∧
      ∃ entry, (ofOffset ("a \x7b\n b:c 1 d".toList ++ "=2\n\x7d\n".toList)
        (width "a \x7b\n b:c 1 d".toList)).path =
          (tagsAround ("a \x7b\n b:c 1 d".toList ++ "=2\n\x7d\n".toList)
            (width "a \x7b\n b:c 1 d".toList)).map Tag.step ++ [entry] := by
  have clean :
      (Document.ofText ("a \x7b\n b:c 1 d".toList ++ "=2\n\x7d\n".toList)).problems = [] := by
    cbv
  have kind : (ofOffset ("a \x7b\n b:c 1 d".toList ++ "=2\n\x7d\n".toList)
      (width "a \x7b\n b:c 1 d".toList)).kind = .attribute := by
    cbv
  obtain ⟨entry, path, -⟩ := (path_ofOffset _ _ (clean.symm ▸ errorFree_nil)).2 (.inr kind)
  exact ⟨clean, entry, path⟩

end PackageRecipe.Editor.Cursor
