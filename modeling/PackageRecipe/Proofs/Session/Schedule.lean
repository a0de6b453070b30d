import Mathlib
import PackageRecipe.Session.Schedule

/-!
# What checks send

Events and the steps of checks may come in any order.  Whatever the order, a check sends what
it found when it looked: the problems of the text that was open then, at the version of the
check.

## Main Definitions

* `Session.Event.Delivers` — an event by which a text is open at a version
* `Session.Fresh` — a session before the first event
* `Session.Schedule.Stepped` — what a step of a check does
* `Session.Schedule.Past` — what is known of a schedule from the moves before it
* `Session.Schedule.Finished` — a schedule whose checks are all over

## Design Notes

A check knows a URL and a version but no text.  So what it finds is traced back twice: the check
to the step at which it looked, and the text that was open then to the event that delivered it.
Both are part of the invariant `Past`, which each event and each step of a check preserve
(`Past.event`, `Past.step`).
-/

namespace PackageRecipe.Session

open PackageRecipe.Editor PackageRecipe.Text

/-- A session before the first event. -/
structure Fresh (s : Session) : Prop where
  documents : s.documents = []
  pending : s.pending = []

/-! ## Events -/

/-- An event by which a text is open at a version. -/
inductive Event.Delivers (u : Url) (v : Int) (text : String) : Event → Prop where
  | opened : Delivers u v text (.opened u v text)
  | changed {texts : List String} :
      texts.getLast? = some text → Delivers u v text (.changed u v texts)

section Documents

variable (s : Session) (u w : Url) (v : Int) (text : String)

theorem lookup_cons_eq_ite (document : OpenDocument) (documents : List (Url × OpenDocument)) :
    ((u, document) :: documents).lookup w =
      if w = u then some document else documents.lookup w := by
  by_cases same : w = u
  · subst same
    simp
  · simp [List.lookup_cons, beq_false_of_ne same, same]

theorem lookup_without (documents : List (Url × OpenDocument)) :
    (without u documents).lookup w = if w = u then none else documents.lookup w := by
  induction documents with
  | nil => simp [without]
  | cons d documents ih =>
      obtain ⟨key, document⟩ := d
      have kept : without u ((key, document) :: documents) =
          if key = u then without u documents else (key, document) :: without u documents := by
        by_cases removed : key = u <;> simp [without, removed]
      rw [kept, lookup_cons_eq_ite]
      by_cases removed : key = u
      · rw [if_pos removed, ih, removed]
        split <;> rfl
      · rw [if_neg removed, lookup_cons_eq_ite, ih]
        by_cases same : w = key
        · rw [if_pos same, if_pos same, if_neg (same ▸ removed)]
        · rw [if_neg same, if_neg same]

theorem document?_update : (s.update u v text).document? w =
    if w = u then some ⟨text, v⟩ else s.document? w := by
  rw [document?, update, lookup_cons_eq_ite, lookup_without]
  split <;> rfl

theorem document?_closed : (s.closed u).1.document? w = if w = u then none else s.document? w :=
  lookup_without u w s.documents

end Documents

/-- What an event does to a session: it delivers a text, closes a document, or changes nothing
that a check looks at. -/
inductive After (s : Session) : Event → Session × List Notice → Prop where
  | delivered {e : Event} {u : Url} {v : Int} {text : String} :
      e.Delivers u v text → After s e (s.update u v text, [])
  | closed (u : Url) : After s (.closed u) (s.closed u)
  | other {e : Event} {s' : Session} : s'.documents = s.documents → s'.pending = s.pending →
      s'.settings = s.settings → After s e (s', [])

theorem after_cases (s : Session) (e : Event) : After s e (s.after e) := by
  cases e with
  | opened u v text => exact .delivered .opened
  | changed u v texts =>
      cases last : texts.getLast? with
      | none =>
          rw [after, changed, last]
          exact .other rfl rfl rfl
      | some text =>
          rw [after, changed, last]
          exact .delivered (.changed last)
  | closed u => exact .closed u
  | foldersChanged added removed => exact .other rfl rfl rfl

/-- An event sends no problems at a version. -/
theorem version_of_mem_after {s : Session} {e : Event} {u : Url} {version : Option Int}
    {found : List Diagnostic} (member : .problems u version found ∈ (s.after e).2) :
    version = none := by
  have told := after_cases s e
  generalize s.after e = told' at told member
  cases told with
  | delivered | other => cases member
  | closed w =>
      rw [closed] at member
      split at member
      · obtain ⟨-, rfl, -⟩ := Notice.problems.inj (List.mem_singleton.1 member)
        rfl
      · cases member

/-- What a check tells: the problems of the open text, if it is at the version of the check. -/
theorem noticeOf?_eq_some {s : Session} {c : PendingCheck} {notice : Notice} :
    s.noticeOf? c = some notice ↔ ∃ text, s.document? c.url = some ⟨text, c.version⟩ ∧
      notice = .problems c.url (some c.version)
        ((diagnostics? Schema.recipe s.settings text.toList).getD []) := by
  simp only [noticeOf?, check?, Option.map_eq_some_iff, Option.bind_eq_bind,
    Option.bind_eq_some_iff, Option.ite_none_right_eq_some, Option.some.injEq]
  constructor
  · rintro ⟨found, ⟨⟨text, version⟩, opened, rfl, rfl⟩, rfl⟩
    exact ⟨text, opened, rfl⟩
  · rintro ⟨text, opened, rfl⟩
    exact ⟨_, ⟨⟨text, c.version⟩, opened, rfl, rfl⟩, rfl⟩

theorem settings_after (s : Session) (e : Event) : (s.after e).1.settings = s.settings := by
  have cases := after_cases s e
  generalize s.after e = told at cases ⊢
  cases cases with
  | delivered | closed => rfl
  | other _ _ settings => exact settings

/-! ## Moves -/

namespace Schedule

variable {t t' : Schedule} {m : Move} {ms ns : List Move} {sent : List Notice}

theorem move?_event {e : Event} : t.move? (.event e) = some (t', sent) ↔
    (t.session.after e).1.schedule t.checks = t' ∧ (t.session.after e).2 = sent := by
  rw [move?, Option.some.injEq, Prod.mk.injEq]

/-- A step of a check: its stage before and after the step, and what it sends. -/
inductive Stepped (s : Session) (c : PendingCheck) : Step → Stage → Stage → List Notice → Prop where
  | expire : Stepped s c .expire .waiting .due []
  | look : Stepped s c .look .due (((s.noticeOf? c).map .found).getD .over) []
  | send (notice : Notice) : Stepped s c .send (.found notice) .over [notice]

theorem stepped_iff {s : Session} {c : PendingCheck} {step : Step} {a b : Stage} :
    a.next? s c step = some (b, sent) ↔ Stepped s c step a b sent := by
  constructor
  · intro next
    cases step <;> cases a <;> simp [Stage.next?] at next
    all_goals
      obtain ⟨rfl, rfl⟩ := next
      constructor
  · rintro (_ | _ | _) <;> rfl

/-- A check has something to send when it looked and found it. -/
theorem Stepped.of_found {s : Session} {c : PendingCheck} {step : Step} {a : Stage}
    {notice : Notice} (stepped : Stepped s c step a (.found notice) sent) :
    step = .look ∧ a = .due ∧ s.noticeOf? c = some notice := by
  generalize same : Stage.found notice = b at stepped
  cases stepped with
  | expire | send => cases same
  | look =>
      cases told : s.noticeOf? c with
      | none =>
          rw [told] at same
          cases same
      | some notice' =>
          rw [told] at same
          exact ⟨rfl, rfl, congrArg some (Stage.found.inj same).symm⟩

theorem move?_step {place : Nat} {step : Step} :
    t.move? (.step place step) = some (t', sent) ↔ ∃ c a b,
      t.checks[place]? = some ⟨c, a⟩ ∧ Stepped t.session c step a b sent ∧
        t' = { t with checks := t.checks.set place ⟨c, b⟩ } := by
  simp only [move?, Option.bind_eq_bind, Option.bind_eq_some_iff, ← stepped_iff,
    Option.some.injEq, Prod.mk.injEq, Prod.exists]
  constructor
  · rintro ⟨⟨c, a⟩, found, b, sent', next, rfl, rfl⟩
    exact ⟨c, a, b, found, next, rfl⟩
  · rintro ⟨c, a, b, found, next, rfl⟩
    exact ⟨⟨c, a⟩, found, b, sent, next, rfl, rfl⟩

theorem run?_nil : t.run? [] = some (t', sent) ↔ t = t' ∧ [] = sent := by
  rw [run?, Option.some.injEq, Prod.mk.injEq]

theorem run?_cons : t.run? (m :: ms) = some (t', sent) ↔ ∃ t₁ now later,
    t.move? m = some (t₁, now) ∧ t₁.run? ms = some (t', later) ∧ sent = now ++ later := by
  simp only [run?, Option.bind_eq_bind, Option.bind_eq_some_iff, Option.some.injEq, Prod.mk.injEq,
    Prod.exists]
  constructor
  · rintro ⟨t₁, now, moved, t₂, later, ran, rfl, rfl⟩
    exact ⟨t₁, now, later, moved, ran, rfl⟩
  · rintro ⟨t₁, now, later, moved, ran, rfl⟩
    exact ⟨t₁, now, moved, t', later, ran, rfl, rfl⟩

theorem run?_append : t.run? (ms ++ ns) = some (t', sent) ↔ ∃ t₁ early late,
    t.run? ms = some (t₁, early) ∧ t₁.run? ns = some (t', late) ∧ sent = early ++ late := by
  induction ms generalizing t sent with
  | nil => simp [run?]
  | cons m ms ih =>
      simp only [List.cons_append, run?_cons, ih]
      constructor
      · rintro ⟨t₁, now, later, moved, ⟨t₂, early, late, first, second, rfl⟩, rfl⟩
        exact ⟨t₂, now ++ early, late, ⟨t₁, now, early, moved, first, rfl⟩, second,
          (List.append_assoc ..).symm⟩
      · rintro ⟨t₂, early, late, ⟨t₁, now, later, moved, first, rfl⟩, second, rfl⟩
        exact ⟨t₁, now, later ++ late, moved, ⟨t₂, later, late, first, second, rfl⟩,
          List.append_assoc ..⟩

theorem run?_concat : t.run? (ms ++ [m]) = some (t', sent) ↔ ∃ t₁ early now,
    t.run? ms = some (t₁, early) ∧ t₁.move? m = some (t', now) ∧ sent = early ++ now := by
  simp [run?_append, run?]

/-! ## Checks that are over -/

/-- A check that is over stays so and makes no more steps. -/
theorem over_of_move? {place : Nat} {c : PendingCheck} {m : Move}
    (ended : t.checks[place]? = some ⟨c, .over⟩) (moved : t.move? m = some (t', sent)) :
    t'.checks[place]? = some ⟨c, .over⟩ ∧ ∀ step, m ≠ .step place step := by
  cases m with
  | event e =>
      obtain ⟨rfl, -⟩ := move?_event.1 moved
      refine ⟨?_, nofun⟩
      rw [schedule, List.getElem?_append_left (List.getElem?_eq_some_iff.1 ended).1]
      exact ended
  | step place' step =>
      obtain ⟨c', a, b, found, stepped, rfl⟩ := move?_step.1 moved
      have apart : place' ≠ place := by
        rintro rfl
        rw [ended] at found
        obtain ⟨rfl, rfl⟩ := Progress.mk.inj (Option.some.inj found)
        cases stepped
      refine ⟨?_, fun step' same => apart (Move.step.inj same).1⟩
      rw [List.getElem?_set_ne apart]
      exact ended

theorem notMem_of_over {place : Nat} {c : PendingCheck}
    (ended : t.checks[place]? = some ⟨c, .over⟩) (ran : t.run? ms = some (t', sent))
    (step : Step) : .step place step ∉ ms := by
  induction ms generalizing t sent with
  | nil => exact List.not_mem_nil
  | cons m ms ih =>
      obtain ⟨t₁, now, later, moved, ran, -⟩ := run?_cons.1 ran
      obtain ⟨ended, other⟩ := over_of_move? ended moved
      rw [List.mem_cons, not_or]
      exact ⟨(other step).symm, ih ended ran⟩

/-! ## What is known from the moves before -/

/-- What is known of a schedule from the moves before it. -/
structure Past (start : Schedule) (before : List Move) (t : Schedule) : Prop where
  /-- All checks are on the schedule. -/
  pending : t.session.pending = []
  settings : t.session.settings = start.session.settings
  /-- Open texts were delivered. -/
  delivered : ∀ u d, t.session.document? u = some d →
    ∃ e, .event e ∈ before ∧ e.Delivers u d.version d.text
  /-- Only recipes are checked. -/
  recipe : ∀ p ∈ t.checks, p.check.url.isRecipe
  /-- What a check is about to send was found when it looked. -/
  looked : ∀ (place : Nat) c notice, t.checks[place]? = some ⟨c, .found notice⟩ →
    ∃ b₁ b₂ t₁ sent, before = b₁ ++ .step place .look :: b₂ ∧
      start.run? b₁ = some (t₁, sent) ∧ t₁.checks[place]? = some ⟨c, .due⟩ ∧
      t₁.session.noticeOf? c = some notice

section Past

variable {start : Schedule} {before : List Move}

/-- Events put checks on the way for recipes only, and these wait. -/
theorem Past.event {e : Event} (past : Past start before t)
    (moved : t.move? (.event e) = some (t', sent)) : Past start (before ++ [.event e]) t' := by
  obtain ⟨rfl, rfl⟩ := move?_event.1 moved
  have documents (u : Url) (d : OpenDocument) (opened : (t.session.after e).1.document? u = some d) :
      ∃ e', .event e' ∈ before ++ [.event e] ∧ e'.Delivers u d.version d.text := by
    have earlier (opened : t.session.document? u = some d) :
        ∃ e', .event e' ∈ before ++ [.event e] ∧ e'.Delivers u d.version d.text := by
      obtain ⟨e', member, delivers⟩ := past.delivered u d opened
      exact ⟨e', List.mem_append_left _ member, delivers⟩
    have told := after_cases t.session e
    generalize t.session.after e = told' at told opened
    cases told with
    | @delivered _ w v text delivers =>
        rw [document?_update] at opened
        split at opened
        · rename_i same
          obtain rfl := Option.some.inj opened
          exact ⟨e, List.mem_concat_self, same ▸ delivers⟩
        · exact earlier opened
    | closed w =>
        rw [document?_closed, Option.ite_none_left_eq_some] at opened
        exact earlier opened.2
    | other documents _ _ =>
        rw [document?, documents] at opened
        exact earlier opened
  have recipes (c : PendingCheck) (member : c ∈ (t.session.after e).1.pending) :
      c.url.isRecipe := by
    have told := after_cases t.session e
    generalize t.session.after e = told' at told member
    cases told with
    | @delivered _ w v text _ =>
        rw [update, past.pending] at member
        split at member
        · obtain rfl := List.mem_singleton.1 member
          assumption
        · cases member
    | closed w =>
        rw [closed, past.pending] at member
        cases member
    | other _ pending _ =>
        rw [pending, past.pending] at member
        cases member
  constructor
  · rfl
  · exact (settings_after t.session e).trans past.settings
  · exact documents
  · intro p member
    rcases List.mem_append.1 member with member | member
    · exact past.recipe p member
    · obtain ⟨c, inside, rfl⟩ := List.mem_map.1 member
      exact recipes c inside
  · intro place c notice found
    rw [schedule, List.getElem?_append] at found
    split at found
    · obtain ⟨b₁, b₂, t₁, sent, rfl, known⟩ := past.looked place c notice found
      exact ⟨b₁, b₂ ++ [.event e], t₁, sent, by simp, known⟩
    · obtain ⟨c', -, same⟩ := List.mem_map.1 (List.mem_of_getElem? found)
      cases same

theorem Past.step {place : Nat} {step : Step} {earlier : List Notice} (past : Past start before t)
    (ran : start.run? before = some (t, earlier))
    (moved : t.move? (.step place step) = some (t', sent)) :
    Past start (before ++ [.step place step]) t' := by
  obtain ⟨c, a, b, found, stepped, rfl⟩ := move?_step.1 moved
  constructor
  · exact past.pending
  · exact past.settings
  · intro u d opened
    obtain ⟨e, member, delivers⟩ := past.delivered u d opened
    exact ⟨e, List.mem_append_left _ member, delivers⟩
  · intro p member
    rcases List.mem_or_eq_of_mem_set member with member | rfl
    · exact past.recipe p member
    · exact past.recipe ⟨c, a⟩ (List.mem_of_getElem? found)
  · intro place' c' notice found'
    rw [List.getElem?_set] at found'
    split at found'
    · rename_i same
      subst same
      obtain ⟨rfl, rfl⟩ := Progress.mk.inj (Option.some.inj (Option.ite_none_right_eq_some.1 found').2)
      obtain ⟨rfl, rfl, told⟩ := stepped.of_found
      exact ⟨before, [], t, earlier, rfl, ran, found, told⟩
    · obtain ⟨b₁, b₂, t₁, sent, rfl, known⟩ := past.looked place' c' notice found'
      exact ⟨b₁, b₂ ++ [.step place step], t₁, sent, by simp, known⟩

/-- **What is known from the moves before** holds of all that a fresh session comes to. -/
theorem past_of_run? {s : Session} (fresh : s.Fresh) {earlier : List Notice}
    (ran : s.schedule.run? before = some (t, earlier)) : Past s.schedule before t := by
  induction before using List.reverseRecOn generalizing t earlier with
  | nil =>
      obtain ⟨rfl, rfl⟩ := run?_nil.1 ran
      constructor
      · rfl
      · rfl
      · intro u d opened
        simp [schedule, document?, fresh.documents] at opened
      · intro p member
        simp [schedule, fresh.pending] at member
      · intro place c notice found
        simp [schedule, fresh.pending] at found
  | append_singleton before m ih =>
      obtain ⟨t₁, early, now, first, moved, rfl⟩ := run?_concat.1 ran
      cases m with
      | event e => exact (ih first).event moved
      | step place step => exact (ih first).step first moved

end Past

/-- **A check sends what it found when it looked.**  Whatever the order of events and checks,
problems are sent at a version for a recipe only, at the last step of a check, and they are
those of the text that was open at that version when the check looked and that an event had
delivered before.  A check that looks at a document which is closed or at another version
sends nothing. -/
theorem sent_as_looked {s : Session} (fresh : s.Fresh)
    {before : List Move} {earlier : List Notice}
    (ran : s.schedule.run? before = some (t, earlier)) (moved : t.move? m = some (t', sent)) :
    (∀ u v found, .problems u (some v) found ∈ sent → u.isRecipe ∧
      ∃ place b₁ b₂ t₁ sent₁ text, m = .step place .send ∧
        before = b₁ ++ .step place .look :: b₂ ∧ s.schedule.run? b₁ = some (t₁, sent₁) ∧
        t₁.checks[place]? = some ⟨⟨u, v⟩, .due⟩ ∧ t₁.session.document? u = some ⟨text, v⟩ ∧
        found = (diagnostics? Schema.recipe s.settings text.toList).getD [] ∧
        ∃ e, .event e ∈ b₁ ∧ e.Delivers u v text) ∧
    (∀ place c, m = .step place .look → t.checks[place]? = some ⟨c, .due⟩ →
      (∀ d, t.session.document? c.url = some d → d.version ≠ c.version) →
        sent = [] ∧ ∀ after t'' later, t'.run? after = some (t'', later) →
          ∀ step, .step place step ∉ after) := by
  have past := past_of_run? fresh ran
  constructor
  · intro u v found member
    cases m with
    | event e =>
        obtain ⟨rfl, rfl⟩ := move?_event.1 moved
        cases version_of_mem_after member
    | step place step =>
        obtain ⟨c, a, b, known, stepped, rfl⟩ := move?_step.1 moved
        cases stepped with
        | expire | look => cases member
        | send notice =>
            obtain rfl := List.mem_singleton.1 member
            obtain ⟨b₁, b₂, t₁, sent₁, rfl, ran₁, due, told⟩ := past.looked place c _ known
            have past₁ := past_of_run? fresh ran₁
            obtain ⟨text, opened, same⟩ := noticeOf?_eq_some.1 told
            obtain ⟨rfl, version, rfl⟩ := Notice.problems.inj same
            obtain rfl := Option.some.inj version
            refine ⟨past.recipe _ (List.mem_of_getElem? known), ?_⟩
            refine ⟨place, b₁, b₂, t₁, sent₁, text, rfl, rfl, ran₁, due, opened, ?_, ?_⟩
            · rw [past₁.settings]
              rfl
            · exact past₁.delivered c.url _ opened
  · rintro place c rfl known outdated
    obtain ⟨c', a, b, known', stepped, rfl⟩ := move?_step.1 moved
    obtain ⟨rfl, rfl⟩ := Progress.mk.inj (Option.some.inj (known.symm.trans known'))
    have silent : t.session.noticeOf? c = none := by
      refine Option.eq_none_iff_forall_ne_some.2 fun notice told => ?_
      obtain ⟨text, opened, -⟩ := noticeOf?_eq_some.1 told
      exact outdated _ opened rfl
    cases stepped with
    | look =>
        have inside := (List.getElem?_eq_some_iff.1 known).1
        refine ⟨rfl, fun after t'' later ran' => notMem_of_over (c := c) ?_ ran'⟩
        rw [silent, List.getElem?_set_self inside]
        rfl

/-- The problems of a recipe that was just opened. -/
theorem sent_as_looked_opened :
    let u : Url := ⟨"file", some { host := "" }, .segments ["w", "dub.sdl"], none, none⟩
    let s : Session := { Session.ofSettings {} with phase := .running }
    let before : List Move := [.event (.opened u 1 "x"), .step 0 .expire, .step 0 .look]
    ∃ t t' earlier found, s.schedule.run? before = some (t, earlier) ∧
      t.move? (.step 0 .send) = some (t', [.problems u (some 1) found]) ∧
      found = (diagnostics? Schema.recipe {} "x".toList).getD [] := by
  intro u s before
  obtain ⟨t, t', earlier, found, ran, moved⟩ : ∃ t t' earlier found,
      s.schedule.run? before = some (t, earlier) ∧
        t.move? (.step 0 .send) = some (t', [.problems u (some 1) found]) :=
    ⟨_, _, _, _, rfl, rfl⟩
  obtain ⟨-, place, b₁, b₂, t₁, sent₁, text, -, split, -, -, -, same, e, member, delivers⟩ :=
    (sent_as_looked ⟨rfl, rfl⟩ ran moved).1 u 1 found (List.mem_singleton_self _)
  have opened : e = .opened u 1 "x" := by
    have inside : .event e ∈ before := split ▸ List.mem_append_left _ member
    simpa [before] using inside
  subst opened
  cases delivers
  exact ⟨t, t', earlier, found, ran, moved, same⟩

/-! ## All checks at once -/

/-- All checks are over. -/
def Finished (t : Schedule) : Prop :=
  ∀ p ∈ t.checks, p.stage = .over

section Settle

variable (s : Session) (c : PendingCheck) (ahead behind : List Progress)

theorem move?_at {step : Step} {a b : Stage} (stepped : Stepped s c step a b sent) :
    (⟨s, ahead ++ ⟨c, a⟩ :: behind⟩ : Schedule).move? (.step ahead.length step) =
      some (⟨s, ahead ++ ⟨c, b⟩ :: behind⟩, sent) :=
  move?_step.2 ⟨c, a, b, by simp, stepped, by simp⟩

/-- A check can make all its steps at once. -/
theorem exists_run?_check : ∃ steps : List Step,
    (⟨s, ahead ++ ⟨c, .waiting⟩ :: behind⟩ : Schedule).run? (steps.map (.step ahead.length)) =
      some (⟨s, ahead ++ ⟨c, .over⟩ :: behind⟩, (s.noticeOf? c).toList) := by
  have expires := move?_at s c ahead behind .expire
  have looks := move?_at s c ahead behind .look
  cases told : s.noticeOf? c with
  | none =>
      rw [told] at looks
      refine ⟨[.expire, .look], run?_cons.2 ⟨_, [], [], expires, ?_, rfl⟩⟩
      exact run?_cons.2 ⟨_, [], [], looks, rfl, rfl⟩
  | some notice =>
      rw [told] at looks
      have sends := move?_at s c ahead behind (.send notice)
      refine ⟨[.expire, .look, .send], run?_cons.2 ⟨_, [], [notice], expires, ?_, rfl⟩⟩
      refine run?_cons.2 ⟨_, [], [notice], looks, ?_, rfl⟩
      exact run?_cons.2 ⟨_, [notice], [], sends, rfl, rfl⟩

theorem exists_run?_checks (cs : List PendingCheck) : ∃ steps : List (Nat × Step),
    (⟨s, ahead ++ cs.map (⟨·, .waiting⟩)⟩ : Schedule).run? (steps.map fun p => .step p.1 p.2) =
      some (⟨s, ahead ++ cs.map (⟨·, .over⟩)⟩, cs.filterMap s.noticeOf?) := by
  induction cs generalizing ahead with
  | nil => exact ⟨[], by simp [run?]⟩
  | cons c cs ih =>
      obtain ⟨steps, first⟩ := exists_run?_check s c ahead (cs.map (⟨·, .waiting⟩))
      obtain ⟨rest, second⟩ := ih (ahead ++ [⟨c, .over⟩])
      refine ⟨steps.map (ahead.length, ·) ++ rest, ?_⟩
      rw [List.map_append, List.map_map]
      refine run?_append.2 ⟨_, (s.noticeOf? c).toList, cs.filterMap s.noticeOf?, first, ?_, ?_⟩
      · simpa using second
      · cases told : s.noticeOf? c <;> simp [told]

/-- **Making all checks at once** is a run in which each check makes its steps before the next
one begins. -/
theorem exists_run?_settle : ∃ (steps : List (Nat × Step)) (t : Schedule),
    s.schedule.run? (steps.map fun p => .step p.1 p.2) = some (t, s.settle.2) ∧
      t.session = s.settle.1 ∧ t.Finished := by
  obtain ⟨steps, ran⟩ := exists_run?_checks { s with pending := [] } [] s.pending
  refine ⟨steps, _, ran, rfl, fun p member => ?_⟩
  obtain ⟨c, -, rfl⟩ := List.mem_map.1 member
  rfl

end Settle

end Schedule

end PackageRecipe.Session
