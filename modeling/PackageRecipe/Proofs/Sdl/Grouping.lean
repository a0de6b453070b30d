import PackageRecipe.Sdl.Statement

/-!
# How tokens group into statements

`Statement.ofTokens` matches braces from the right; a reader goes from the left.
This file shows that both see the same groups.

## Main Definitions

* `Token.IsSeparator` — a newline or a semicolon
* `Grouped` — the shape of all groups that `ofTokens` builds: words that end no
  statement, and something that ends it behind every line of words
* `Balanced` — groups in which every brace has its partner
* `mapAll` — groups with all their tokens changed

## Design Notes

`grouped_ofTokens` says what grouping gives for every token sequence, and
`ofTokens_tokensOfList` that balanced groups are the only balanced reading of
their tokens.  With `tokens_ofTokens` the groups of a text can be exchanged for
its tokens and back.
-/

namespace PackageRecipe.Sdl

/-- A newline or a semicolon. -/
def Token.IsSeparator (t : Token) : Prop :=
  t.kind = .newline ∨ t.kind = .semicolon

theorem Token.IsSeparator.endsStatement {t : Token} (separator : t.IsSeparator) :
    t.endsStatement = true := by
  rcases separator with kind | kind <;> simp [Token.endsStatement, kind]

namespace Statement

/-- Tokens that end no statement. -/
def Words (ws : List Token) : Prop :=
  ∀ w ∈ ws, w.endsStatement = false

/-- What may follow a statement that no block ends: nothing that begins with a
further word. -/
def Separated : List Statement → Prop
  | [] => True
  | separator _ :: _ => True
  | stray _ :: _ => True
  | line _ :: _ => False
  | block .. :: _ => False

/-- The shape of groups. -/
inductive Grouped : List Statement → Prop where
  | nil : Grouped []
  | separator {t : Token} {r : List Statement} :
      t.IsSeparator → Grouped r → Grouped (separator t :: r)
  | stray {t : Token} {r : List Statement} :
      t.kind = .rightBrace → Grouped r → Grouped (stray t :: r)
  | line {ws : List Token} {r : List Statement} :
      ws ≠ [] → Words ws → Separated r → Grouped r → Grouped (line ws :: r)
  | block {ws : List Token} {o : Token} {b r : List Statement} {c : Option Token} :
      Words ws → o.kind = .leftBrace → Grouped b → (∀ t ∈ c, t.kind = .rightBrace) →
      Grouped r → Grouped (block ws o b c :: r)

/-- Groups in which no brace is without its partner. -/
inductive Balanced : List Statement → Prop where
  | nil : Balanced []
  | separator {t : Token} {r : List Statement} :
      t.IsSeparator → Balanced r → Balanced (separator t :: r)
  | line {ws : List Token} {r : List Statement} :
      ws ≠ [] → Words ws → Separated r → Balanced r → Balanced (line ws :: r)
  | block {ws : List Token} {o c : Token} {b r : List Statement} :
      Words ws → o.kind = .leftBrace → Balanced b → c.kind = .rightBrace →
      Balanced r → Balanced (block ws o b (some c) :: r)

theorem words_cons {w : Token} {ws : List Token} :
    Words (w :: ws) ↔ w.endsStatement = false ∧ Words ws := by
  simp [Words]

theorem tokensOfList_block (ws : List Token) (o c : Token) (b r : List Statement) :
    tokensOfList (block ws o b (some c) :: r) =
      ws ++ o :: (tokensOfList b ++ c :: tokensOfList r) := by
  simp [tokensOfList, tokens]

theorem Separated.append {a b : List Statement} (left : Separated a) (right : Separated b) :
    Separated (a ++ b) := by
  cases a with
  | nil => exact right
  | cons s r => cases s <;> exact left

/-! ## Adding a token on the left -/

section Cons

variable {t : Token} {s : Suffix}

theorem Suffix.cons_of_separator (separator_ : t.IsSeparator) :
    s.cons t = ⟨separator t :: s.here, s.outer⟩ := by
  unfold Suffix.cons
  rcases separator_ with kind | kind <;> rw [kind]

theorem Suffix.cons_of_rightBrace (kind : t.kind = .rightBrace) :
    s.cons t = ⟨[], (t, s.here) :: s.outer⟩ := by
  unfold Suffix.cons
  rw [kind]

theorem Suffix.cons_of_leftBrace (kind : t.kind = .leftBrace) {c : Token} {r : List Statement}
    {outer : List (Token × List Statement)} (partner : s.outer = (c, r) :: outer) :
    s.cons t = ⟨Statement.block [] t s.here (some c) :: r, outer⟩ := by
  unfold Suffix.cons
  rw [kind, partner]

theorem Suffix.cons_of_word (word : t.endsStatement = false) :
    s.cons t = ⟨consWord t s.here, s.outer⟩ := by
  unfold Suffix.cons
  cases kind : t.kind <;> simp [Token.endsStatement, kind] at word ⊢

end Cons

/-- Before something that ends a statement, a word begins a line of its own. -/
theorem consWord_of_separated {r : List Statement} (separated : Separated r) (t : Token) :
    consWord t r = line [t] :: r := by
  cases r with
  | nil => rfl
  | cons s r =>
      cases s with
      | separator | stray => rfl
      | line | block => exact separated.elim

/-- Words before something that ends a statement become one line. -/
theorem foldr_cons_line {ws : List Token} (words : Words ws) (nonempty : ws ≠ [])
    {r : List Statement} (separated : Separated r) (outer : List (Token × List Statement)) :
    ws.foldr Suffix.cons ⟨r, outer⟩ = ⟨line ws :: r, outer⟩ := by
  induction ws with
  | nil => exact absurd rfl nonempty
  | cons w ws ih =>
      obtain ⟨word, words⟩ := words_cons.1 words
      rw [List.foldr_cons]
      cases ws with
      | nil =>
          rw [List.foldr_nil, Suffix.cons_of_word word]
          simp only [consWord_of_separated separated]
      | cons v vs =>
          rw [ih words (by simp), Suffix.cons_of_word word]
          rfl

/-- Words before a block become its head. -/
theorem foldr_cons_block {ws : List Token} (words : Words ws) (us : List Token) (o : Token)
    (b r : List Statement) (c : Option Token) (outer : List (Token × List Statement)) :
    ws.foldr Suffix.cons ⟨block us o b c :: r, outer⟩ = ⟨block (ws ++ us) o b c :: r, outer⟩ := by
  induction ws with
  | nil => rfl
  | cons w ws ih =>
      obtain ⟨word, words⟩ := words_cons.1 words
      rw [List.foldr_cons, ih words, Suffix.cons_of_word word]
      rfl

/-! ## Balanced groups are read back -/

/-- The tokens of balanced groups add these groups to what follows them. -/
theorem Balanced.foldr_cons {ss : List Statement} (balanced : Balanced ss) {s : Suffix}
    (separated : Separated s.here) :
    (tokensOfList ss).foldr Suffix.cons s = ⟨ss ++ s.here, s.outer⟩ := by
  induction balanced generalizing s with
  | nil => rfl
  | separator isSeparator _ ih =>
      rw [tokensOfList, tokens, List.singleton_append, List.foldr_cons, ih separated,
        Suffix.cons_of_separator isSeparator]
      rfl
  | line nonempty words separated' _ ih =>
      rw [tokensOfList, tokens, List.foldr_append, ih separated]
      exact foldr_cons_line words nonempty (separated'.append separated) _
  | block words opening _ closing _ ihBody ihRest =>
      -- From the right: what follows, the closing brace, the body, the opening
      -- brace, and the words in front of it.
      rw [tokensOfList_block, List.foldr_append, List.foldr_cons, List.foldr_append,
        List.foldr_cons, ihRest separated, Suffix.cons_of_rightBrace closing,
        ihBody (s := ⟨[], _⟩) trivial, Suffix.cons_of_leftBrace opening rfl, foldr_cons_block words]
      simp

/-- **Balanced groups are what their tokens group into.** -/
theorem ofTokens_tokensOfList {ss : List Statement} (balanced : Balanced ss) :
    ofTokens (tokensOfList ss) = ss := by
  rw [ofTokens, Suffix.ofTokens, balanced.foldr_cons (s := ⟨[], []⟩) trivial]
  simp [Suffix.close]

/-! ## The groups of any tokens -/

theorem Balanced.grouped {ss : List Statement} (balanced : Balanced ss) : Grouped ss := by
  induction balanced with
  | nil => exact .nil
  | separator isSeparator _ ih => exact .separator isSeparator ih
  | line nonempty words separated _ ih => exact .line nonempty words separated ih
  | block words opening _ closing _ ihBody ihRest =>
      exact .block words opening ihBody (by simpa using closing) ihRest

theorem Grouped.append {a b : List Statement} (left : Grouped a) (right : Grouped b)
    (separated : Separated b) : Grouped (a ++ b) := by
  induction left with
  | nil => exact right
  | separator isSeparator _ ih => exact .separator isSeparator ih
  | stray brace _ ih => exact .stray brace ih
  | line nonempty words separated' _ ih =>
      exact .line nonempty words (separated'.append separated) ih
  | block words opening body closing _ _ ihRest =>
      exact .block words opening body closing ihRest

theorem Grouped.consWord {t : Token} (word : t.endsStatement = false) {r : List Statement}
    (grouped : Grouped r) : Grouped (consWord t r) := by
  cases grouped with
  | nil => exact .line (by simp) (by simpa [Words] using word) trivial .nil
  | separator isSeparator rest =>
      exact .line (by simp) (by simpa [Words] using word) trivial (.separator isSeparator rest)
  | stray brace rest =>
      exact .line (by simp) (by simpa [Words] using word) trivial (.stray brace rest)
  | line _ words separated rest =>
      exact .line (by simp) (words_cons.2 ⟨word, words⟩) separated rest
  | block words opening body closing rest =>
      exact .block (words_cons.2 ⟨word, words⟩) opening body closing rest

/-- The groups on the right of a place in a token sequence. -/
structure Suffix.Grouped (s : Suffix) : Prop where
  here : Statement.Grouped s.here
  outer : ∀ p ∈ s.outer, p.1.kind = .rightBrace ∧ Statement.Grouped p.2

theorem Suffix.Grouped.cons {s : Suffix} (grouped : s.Grouped) (t : Token) :
    (s.cons t).Grouped := by
  by_cases word : t.endsStatement = false
  · rw [cons_of_word word]
    exact ⟨grouped.here.consWord word, grouped.outer⟩
  · have ends : t.IsSeparator ∨ t.kind = .rightBrace ∨ t.kind = .leftBrace := by
      cases kind : t.kind <;> simp_all [Token.endsStatement, Token.IsSeparator]
    rcases ends with isSeparator | kind | kind
    · rw [cons_of_separator isSeparator]
      exact ⟨.separator isSeparator grouped.here, grouped.outer⟩
    · rw [cons_of_rightBrace kind]
      constructor
      · exact .nil
      intro p member
      rcases List.mem_cons.1 member with rfl | member
      · exact ⟨kind, grouped.here⟩
      · exact grouped.outer p member
    · cases partner : s.outer with
      | nil =>
          -- No brace is left to close the block, which then takes all that follows.
          unfold Suffix.cons
          rw [kind, partner]
          exact ⟨.block (by simp [Words]) kind grouped.here (by simp) .nil, by simp⟩
      | cons p outer =>
          obtain ⟨c, r⟩ := p
          rw [cons_of_leftBrace kind partner]
          obtain ⟨closing, rest⟩ := grouped.outer (c, r) (by simp [partner])
          constructor
          · exact .block (by simp [Words]) kind grouped.here (by simpa using closing) rest
          · intro q member
            exact grouped.outer q (by simp [partner, member])

/-- **Grouping always gives groups of the one shape.** -/
theorem grouped_ofTokens (ts : List Token) : Grouped (ofTokens ts) := by
  have suffix : (Suffix.ofTokens ts).Grouped := by
    induction ts with
    | nil => exact ⟨.nil, by simp [Suffix.ofTokens]⟩
    | cons t ts ih => exact ih.cons t
  have strays : ∀ outer : List (Token × List Statement),
      (∀ p ∈ outer, p.1.kind = .rightBrace ∧ Grouped p.2) →
      Grouped (outer.flatMap fun p => stray p.1 :: p.2) ∧
        Separated (outer.flatMap fun p => stray p.1 :: p.2) := by
    intro outer
    induction outer with
    | nil => exact fun _ => ⟨.nil, trivial⟩
    | cons p outer ih =>
        intro all
        obtain ⟨brace, rest⟩ := all p List.mem_cons_self
        obtain ⟨others, separated⟩ := ih fun q member => all q (List.mem_cons_of_mem _ member)
        exact ⟨.stray brace (rest.append others separated), trivial⟩
  obtain ⟨others, separated⟩ := strays _ suffix.outer
  exact suffix.here.append others separated

/-! ## Tokens that keep their kinds -/

mutual

/-- A statement with all its tokens changed. -/
def map (f : Token → Token) : Statement → Statement
  | separator t => separator (f t)
  | stray t => stray (f t)
  | line ws => line (ws.map f)
  | block ws o b c => block (ws.map f) (f o) (mapAll f b) (c.map f)

def mapAll (f : Token → Token) : List Statement → List Statement
  | [] => []
  | s :: r => map f s :: mapAll f r

end

section Map

variable {f : Token → Token}

theorem mapAll_append (f : Token → Token) (a b : List Statement) :
    mapAll f (a ++ b) = mapAll f a ++ mapAll f b := by
  induction a with
  | nil => rfl
  | cons s r ih => rw [List.cons_append, mapAll, ih, mapAll, List.cons_append]

theorem consWord_map (f : Token → Token) (t : Token) (r : List Statement) :
    consWord (f t) (mapAll f r) = mapAll f (consWord t r) := by
  rcases r with _ | ⟨s, r⟩
  · simp [consWord, mapAll, map]
  · cases s <;> simp [consWord, mapAll, map]

/-- The groups on the right of a place with all their tokens changed. -/
def Suffix.map (f : Token → Token) (s : Suffix) : Suffix :=
  ⟨mapAll f s.here, s.outer.map fun p => (f p.1, mapAll f p.2)⟩

theorem Suffix.cons_map (kinds : ∀ t, (f t).kind = t.kind) (t : Token) (s : Suffix) :
    (s.map f).cons (f t) = (s.cons t).map f := by
  unfold Suffix.cons
  rw [kinds]
  cases t.kind with
  | leftBrace =>
      cases outer : s.outer with
      | nil => simp [Suffix.map, outer, mapAll, Statement.map]
      | cons p outer => simp [Suffix.map, outer, mapAll, Statement.map]
  | newline | semicolon => simp [Suffix.map, mapAll, Statement.map]
  | rightBrace => simp [Suffix.map, mapAll]
  | _ => simp [Suffix.map, consWord_map]

theorem Suffix.close_map (f : Token → Token) (s : Suffix) :
    (s.map f).close = mapAll f s.close := by
  have strays (outer : List (Token × List Statement)) :
      (outer.map fun p => (f p.1, mapAll f p.2)).flatMap (fun p => stray p.1 :: p.2) =
        mapAll f (outer.flatMap fun p => stray p.1 :: p.2) := by
    induction outer with
    | nil => rfl
    | cons p outer ih =>
        simp only [List.map_cons, List.flatMap_cons, ih, mapAll_append, List.cons_append, mapAll,
          Statement.map]
  rw [Suffix.close, Suffix.close, mapAll_append, Suffix.map, strays]

/-- **Only the kinds of tokens matter for how they are grouped.** -/
theorem ofTokens_map (kinds : ∀ t, (f t).kind = t.kind) (ts : List Token) :
    ofTokens (ts.map f) = mapAll f (ofTokens ts) := by
  have suffix : Suffix.ofTokens (ts.map f) = (Suffix.ofTokens ts).map f := by
    induction ts with
    | nil => rfl
    | cons t ts ih =>
        rw [Suffix.ofTokens] at ih ⊢
        rw [List.map_cons, List.foldr_cons, ih, Suffix.cons_map kinds]
        rfl
  rw [ofTokens, ofTokens, suffix, Suffix.close_map]

end Map

end Statement

end PackageRecipe.Sdl
