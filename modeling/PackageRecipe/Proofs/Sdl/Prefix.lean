import PackageRecipe.Proofs.Sdl.Grammar

/-!
# Statements in front of other tokens

Tokens are grouped from the right, but the first statement among them and what is
read from it are known once the statement has ended, whatever stands behind it.

## Main Definitions

* `EndsWords` — what may stand behind the words of a statement
* `Statement.Suffix.Ends` — the closing brace of the block that some tokens stand in,
  and the tokens behind it

## Design Notes

`Ends` counts the blocks that are open: a token either keeps their number or changes
it by one, so the relation is passed on from right to left by one lemma for each kind
of brace.  `ofTokens_line` and `ofTokens_block` split off the first statement, and
leave the groups of the tokens behind it as they are.
-/

namespace PackageRecipe.Sdl

open PackageRecipe.Text

/-! ## Words in front of the end of a statement -/

/-- What may stand behind the words of a statement: nothing, or a token that ends it. -/
def EndsWords (ts : List Token) : Prop :=
  ∀ t ∈ ts.head?, t.endsStatement = true

/-- The words at the beginning of some tokens. -/
theorem exists_words (ts : List Token) :
    ∃ ws more, ts = ws ++ more ∧ Statement.Words ws ∧ EndsWords more := by
  refine ⟨ts.takeWhile (!·.endsStatement), ts.dropWhile (!·.endsStatement),
    (List.takeWhile_append_dropWhile).symm, fun w member => ?_, fun t first => ?_⟩
  · have word := List.all_eq_true.1 List.all_takeWhile w member
    simpa using word
  · have ends := List.head?_dropWhile_not (fun t : Token => !t.endsStatement) ts
    rw [Option.mem_def.1 first] at ends
    simpa using ends

section Words

variable {ws more rest : List Token} {t : Token} (ends : EndsWords more)

include ends

/-- A token that ends no statement is one of the words. -/
theorem EndsWords.exists_cons (word : t.endsStatement = false) (same : ws ++ more = t :: rest) :
    ∃ us, ws = t :: us ∧ rest = us ++ more := by
  cases ws with
  | nil =>
      rw [List.nil_append] at same
      have := ends t (by rw [same]; rfl)
      simp [word] at this
  | cons w us =>
      rw [List.cons_append] at same
      obtain ⟨rfl, rfl⟩ := List.cons.inj same
      exact ⟨us, rfl, rfl⟩

namespace Head

theorem takeValue_append (ws : List Token) :
    takeValue (ws ++ more) = ((takeValue ws).1, (takeValue ws).2 ++ more) := by
  cases ws with
  | nil =>
      cases more with
      | nil => rfl
      | cons e more =>
          obtain ⟨a, -, marked⟩ := Token.endsStatement_iff.1 (ends e rfl)
          simp [takeValue, Token.value?_eq_none_of_mark marked]
  | cons w ws => cases literal : w.value? <;> simp [takeValue, literal]

/-- An item is taken from the words of a statement. -/
theorem takeItem_append (t : Token) (ws : List Token) :
    takeItem t (ws ++ more) = ((takeItem t ws).1, (takeItem t ws).2 ++ more) := by
  have mark {e : Token} {a : Char} (kind : e.kind.mark? = some a) (inner : a = '=' ∨ a = ':') :
      e.endsStatement = false := by
    rw [Bool.eq_false_iff]
    intro last
    obtain ⟨b, isEnd, marked⟩ := Token.endsStatement_iff.1 last
    obtain rfl := Option.some.inj (kind.symm.trans marked)
    rcases inner with rfl | rfl <;> simp [Piece.endMarks] at isEnd
  have equals {e : Token} (kind : e.kind = .equals) : e.endsStatement = false :=
    mark (by rw [kind]; rfl) (.inl rfl)
  have colon {c : Token} (kind : c.kind = .colon) : c.endsStatement = false :=
    mark (by rw [kind]; rfl) (.inr rfl)
  rcases takeItem_cases t (ws ++ more) with
    ⟨e, r, same, name, isEquals, taken⟩ |
    ⟨c, n, e, r, same, space, isColon, name, isEquals, taken⟩ | taken
  · obtain ⟨us, rfl, rfl⟩ := ends.exists_cons (equals isEquals) same
    rw [taken, takeValue_append ends]
    simp [takeItem, name, isEquals]
  · obtain ⟨us, rfl, later⟩ := ends.exists_cons (colon isColon) same
    obtain ⟨vs, rfl, last⟩ := ends.exists_cons (Token.endsStatement_eq_false_of_isName name)
      later.symm
    obtain ⟨xs, rfl, rfl⟩ := ends.exists_cons (equals isEquals) last.symm
    rw [taken, takeValue_append ends]
    simp [takeItem, space, isColon, name, isEquals]
  · -- No further tokens are needed to see that no attribute begins here.
    rcases takeItem_cases t ws with
      ⟨e, r, rfl, name, isEquals, -⟩ | ⟨c, n, e, r, rfl, space, isColon, name, isEquals, -⟩ | alone
    · simp [takeItem, name, isEquals] at taken
    · simp [takeItem, space, isColon, name, isEquals] at taken
    · rw [taken, alone]

/-- The name of a tag is read from the words of its statement. -/
theorem ofWords?_append (first : Token) (ws : List Token) :
    ofWords? (first :: (ws ++ more)) =
      (ofWords? (first :: ws)).map fun (h, rest) => (h, rest ++ more) := by
  rcases ofWords?_cases first (ws ++ more) with
    ⟨name, plain, read⟩ | ⟨c, n, r, same, space, isColon, name, read⟩ | ⟨noName, read⟩
  · have plain : ¬ OpensSpace ws := by
      intro opens
      rcases ws with _ | ⟨c, _ | ⟨n, ws⟩⟩
      · exact opens
      · exact opens
      · exact plain opens
    rw [read, ofWords?_plain name plain]
    rfl
  · have colon : c.endsStatement = false := by simp [Token.endsStatement, isColon]
    obtain ⟨us, rfl, later⟩ := ends.exists_cons colon same
    obtain ⟨vs, rfl, rfl⟩ := ends.exists_cons (Token.endsStatement_eq_false_of_isName name)
      later.symm
    rw [read, ofWords?_spaced space isColon name]
    rfl
  · rcases ofWords?_cases first ws with ⟨name, -⟩ | ⟨_, _, _, _, name, -⟩ | ⟨-, alone⟩
    · simp [noName] at name
    · simp [noName] at name
    · rw [read, alone, Option.map_map]
      rfl

theorem ofWords?_append_none {first : Token} (nameless : read? (first :: ws) = none) :
    ofWords? (first :: (ws ++ more)) = none := by
  rw [read?, Option.map_eq_none_iff] at nameless
  rw [ofWords?_append ends, nameless]
  rfl

end Head

end Words

/-! ## The first statement -/

namespace Statement.Suffix

/-- Where the block ends in which some tokens stand, if `level` blocks are open inside of it:
its closing brace and the tokens behind that.  Nothing is left if the block stays open. -/
inductive Ends (level : Nat) (ts : List Token) : Option Token → List Token → Prop where
  | closed {c : Token} {left : List Token} : c.kind = .rightBrace →
      (ofTokens ts).outer.drop level = (c, (ofTokens left).here) :: (ofTokens left).outer →
      Ends level ts (some c) left
  | «open» : (ofTokens ts).outer.length ≤ level → Ends level ts none []

section Ends

variable {level : Nat} {t : Token} {ts us left : List Token} {c : Option Token}

theorem ofTokens_cons (t : Token) (ts : List Token) : ofTokens (t :: ts) = (ofTokens ts).cons t :=
  rfl

theorem Ends.kind (ends : Ends level ts c left) : ∀ t ∈ c, t.kind = .rightBrace := by
  cases ends with
  | closed kind _ => simpa using kind
  | «open» _ => simp

theorem Ends.left_eq_nil (ends : Ends level ts none left) : left = [] := by
  cases ends
  rfl

/-- Tokens end alike if the same closing braces are left over. -/
theorem Ends.of_outer_eq (same : (ofTokens ts).outer = (ofTokens us).outer)
    (ends : Ends level us c left) : Ends level ts c left := by
  cases ends with
  | closed kind behind => exact .closed kind (same ▸ behind)
  | «open» room => exact .open (same ▸ room)

theorem Ends.leftBrace (kind : t.kind = .leftBrace) (ends : Ends (level + 1) ts c left) :
    Ends level (t :: ts) c left := by
  have partner : (ofTokens (t :: ts)).outer = (ofTokens ts).outer.drop 1 := by
    rw [ofTokens_cons, Suffix.cons, kind]
    cases outer : (ofTokens ts).outer <;> simp
  cases ends with
  | closed right behind =>
      refine .closed right ?_
      rw [partner, List.drop_drop, Nat.add_comm, behind]
  | «open» room =>
      refine .open ?_
      rw [partner, List.length_drop]
      omega

theorem Ends.rightBrace (kind : t.kind = .rightBrace) (ends : Ends level ts c left) :
    Ends (level + 1) (t :: ts) c left := by
  have outer : (ofTokens (t :: ts)).outer = (t, (ofTokens ts).here) :: (ofTokens ts).outer := by
    rw [ofTokens_cons, cons_of_rightBrace kind]
  cases ends with
  | closed right behind => exact .closed right (by rw [outer, List.drop_succ_cons, behind])
  | «open» room => exact .open (by rw [outer, List.length_cons]; omega)

/-- The next closing brace closes the innermost block. -/
theorem Ends.here (kind : t.kind = .rightBrace) (ts : List Token) :
    Ends 0 (t :: ts) (some t) ts :=
  .closed kind (by rw [ofTokens_cons, cons_of_rightBrace kind, List.drop_zero])

end Ends

section First

variable {ws more inside left : List Token} (words : Words ws)

include words

/-- **A statement without a block** in front of other tokens. -/
theorem ofTokens_line (nonempty : ws ≠ []) (ends : EndsWords more)
    (noBlock : ∀ t ∈ more.head?, t.kind ≠ .leftBrace) :
    ofTokens (ws ++ more) = ⟨line ws :: (ofTokens more).here, (ofTokens more).outer⟩ := by
  have separated : Separated (ofTokens more).here := by
    cases more with
    | nil => exact trivial
    | cons t more =>
        have last := ends t rfl
        have noBrace := noBlock t rfl
        rw [ofTokens_cons]
        cases kind : t.kind <;> simp [Token.endsStatement, kind] at last noBrace <;>
          simp [Suffix.cons, kind, Separated]
  rw [ofTokens, List.foldr_append]
  exact foldr_cons_line words nonempty separated _

/-- **A statement with a block** in front of other tokens. -/
theorem ofTokens_block {o : Token} {c : Option Token} (opening : o.kind = .leftBrace)
    (ends : Ends 0 inside c left) :
    ofTokens (ws ++ o :: inside) =
      ⟨block ws o (ofTokens inside).here c :: (ofTokens left).here, (ofTokens left).outer⟩ := by
  have block : ofTokens (o :: inside) =
      ⟨block [] o (ofTokens inside).here c :: (ofTokens left).here, (ofTokens left).outer⟩ := by
    rw [ofTokens_cons]
    cases ends with
    | closed _ behind => exact cons_of_leftBrace opening behind
    | «open» room =>
        have none := List.length_eq_zero_iff.1 (Nat.le_zero.1 room)
        rw [Suffix.cons, opening, none]
        rfl
  rw [ofTokens, List.foldr_append]
  rw [ofTokens] at block
  rw [block, foldr_cons_block words, List.append_nil]

end First

end Statement.Suffix

end PackageRecipe.Sdl
