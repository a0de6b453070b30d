import Mathlib
import PackageRecipe.Proofs.Session.Schedule
import PackageRecipe.Proofs.Validation.Rules

/-!
# The last word on a document

When all checks are over, an editor should have been told last what is true of the document as
it stands.  This is so unless a check that looked at an older state of the document sends after
it.

## Main Definitions

* `Session.Event.held` — the text that an editor holds open at a URL
* `Session.shown` — the problems that an editor should show
* `Session.Schedule.Quiet` — no check is about to send when a document is touched last
* `Session.Schedule.Settling` — what holds behind the last event that touches a document

## Design Notes

Nothing is known of what is sent before the last event that touches a document.  Behind it the
document stays as it is, so every check that looks finds what is true, and the check that the
event put on the way has yet to send it.  `Settling` says this of a schedule, and each move
preserves it (`Settling.move`).

Checks look and send in two steps, and nothing keeps a document from being touched between the
two.  So `Quiet` has to be assumed: without it the last word may be a stale one
(`last_sent_stale`).  A session does not ask either whether a document that is changed is open,
so the editor has to be `Orderly`.
-/

namespace PackageRecipe

open PackageRecipe.Editor PackageRecipe.Text

/-- The problems of a URL that a notice tells of. -/
def Notice.about? (u : Url) : Notice → Option (List Diagnostic)
  | .problems url _ found => if url = u then some found else none
  | .settingsFailed _ => none

namespace Session

/-! ## What an editor holds -/

/-- An event touches the document at a URL: it delivers its text or closes it. -/
def Event.Touches (u : Url) (e : Event) : Prop :=
  (∃ v text, e.Delivers u v text) ∨ e = .closed u

/-- The text that an editor holds open at a URL after an event, if it held `before`. A change
does not open a document. -/
def Event.held (u : Url) (before : Option String) : Event → Option String
  | .opened url _ text => if url = u then some text else before
  | .changed url _ texts =>
    if url = u then before.map fun text => texts.getLast?.getD text else before
  | .closed url => if url = u then none else before
  | .foldersChanged _ _ => before

/-- The text that an editor holds open at a URL after some events. -/
def heldAfter (u : Url) (es : List Event) : Option String :=
  es.foldl (Event.held u) none

/-- An editor changes the document at a URL only while it holds it open. -/
def Orderly (u : Url) (es : List Event) : Prop :=
  ∀ before v texts after, es = before ++ .changed u v texts :: after →
    (heldAfter u before).isSome

section Held

variable {s : Session} {u : Url} {e : Event} {es : List Event}

theorem Orderly.of_append {es' : List Event} (orderly : Orderly u (es ++ es')) : Orderly u es := by
  rintro before v texts after rfl
  exact orderly before v texts (after ++ es') (by simp)

/-- A session holds what an editor holds, after each event of an orderly editor. -/
theorem document?_after
    (same : (s.document? u).map OpenDocument.text = heldAfter u es)
    (orderly : Orderly u (es ++ [e])) :
    ((s.after e).1.document? u).map OpenDocument.text = heldAfter u (es ++ [e]) := by
  rw [heldAfter, List.foldl_concat, ← heldAfter, ← same]
  cases e with
  | opened w v text =>
      rw [after, opened, document?_update, Event.held]
      by_cases here : u = w
      · rw [if_pos here, if_pos here.symm]
        rfl
      · rw [if_neg here, if_neg (Ne.symm here)]
  | changed w v texts =>
      rw [after, changed, Event.held]
      cases last : texts.getLast? with
      | none => simp [Function.comp_def]
      | some text =>
          simp only [document?_update]
          by_cases here : u = w
          · subst here
            have holds := orderly es v texts [] rfl
            rw [← same, Option.isSome_iff_exists] at holds
            obtain ⟨text', holds⟩ := holds
            rw [if_pos rfl, if_pos rfl, holds]
            rfl
          · rw [if_neg here, if_neg (Ne.symm here)]
  | closed w =>
      rw [after, document?_closed, Event.held]
      by_cases here : u = w
      · rw [if_pos here, if_pos here.symm]
        rfl
      · rw [if_neg here, if_neg (Ne.symm here)]
  | foldersChanged added removed => rfl

theorem after_of_delivers {v : Int} {text : String} (delivers : e.Delivers u v text) :
    s.after e = (s.update u v text, []) := by
  cases delivers with
  | opened => rfl
  | changed last => rw [after, changed, last]

/-- What an event does not touch stays as it is. -/
theorem document?_of_not_touches (untouched : ¬ e.Touches u) :
    (s.after e).1.document? u = s.document? u := by
  have told := after_cases s e
  generalize s.after e = told' at told
  cases told with
  | @delivered _ w v text delivers =>
      have apart : u ≠ w := fun here => untouched (.inl ⟨v, text, here ▸ delivers⟩)
      rw [document?_update, if_neg apart]
  | closed w =>
      have apart : u ≠ w := fun here => untouched (.inr (here ▸ rfl))
      rw [document?_closed, if_neg apart]
  | other documents _ _ => rw [document?, documents, document?]

end Held

/-! ## What an editor is told -/

/-- The problems that an editor should show of a document that holds the given text, or is
closed. -/
def shown (settings : Settings) (text : Option String) : List Diagnostic :=
  text.elim [] fun text => (diagnostics? Schema.recipe settings text.toList).getD []

/-- The problems that should be shown of a document of a session. -/
def verdict (s : Session) (u : Url) : List Diagnostic :=
  shown s.settings ((s.document? u).map OpenDocument.text)

@[simp] theorem verdict_schedule (s : Session) (u : Url) (before : List Progress) :
    (s.schedule before).session.verdict u = s.verdict u :=
  rfl

/-- The problems of a URL that were sent last. -/
def lastSent (u : Url) (sent : List Notice) : Option (List Diagnostic) :=
  (sent.filterMap (Notice.about? u)).getLast?

theorem lastSent_append (u : Url) (early late : List Notice) :
    lastSent u (early ++ late) = (lastSent u late).or (lastSent u early) := by
  rw [lastSent, List.filterMap_append, List.getLast?_append, lastSent, lastSent]

theorem lastSent_after {s : Session} {u : Url} {e : Event} (untouched : ¬ e.Touches u) :
    lastSent u (s.after e).2 = none := by
  have told := after_cases s e
  generalize s.after e = told' at told
  cases told with
  | delivered | other => rfl
  | closed w =>
      have apart : w ≠ u := fun here => untouched (.inr (here ▸ rfl))
      rw [closed]
      split <;> simp [lastSent, Notice.about?, apart]

theorem noticeOf?_of_document? {s : Session} {c : PendingCheck} {text : String}
    (opened : s.document? c.url = some ⟨text, c.version⟩) :
    s.noticeOf? c = some (.problems c.url (some c.version) (s.verdict c.url)) := by
  refine noticeOf?_eq_some.2 ⟨text, opened, ?_⟩
  rw [verdict, opened]
  rfl

theorem noticeOf?_eq_verdict {s : Session} {c : PendingCheck} {notice : Notice}
    (told : s.noticeOf? c = some notice) :
    notice = .problems c.url (some c.version) (s.verdict c.url) := by
  obtain ⟨text, opened, -⟩ := noticeOf?_eq_some.1 told
  exact Option.some.inj (told.symm.trans (noticeOf?_of_document? opened))

namespace Schedule

/-- The events among some moves. -/
def events (ms : List Move) : List Event :=
  ms.filterMap fun
    | .event e => some e
    | .step _ _ => none

/-- When the document at a URL is touched for the last time, no check of it stands between its
look and what it sends. -/
def Quiet (start : Schedule) (u : Url) (ms : List Move) : Prop :=
  ∀ before e after t sent, ms = before ++ .event e :: after → e.Touches u →
    (∀ e', .event e' ∈ after → ¬ e'.Touches u) → start.run? before = some (t, sent) →
      ∀ p ∈ t.checks, p.check.url = u → ∀ notice, p.stage ≠ .found notice

/-- What holds of a schedule behind the last event that touches the document at a URL, if
`last` was sent last. -/
structure Settling (u : Url) (t : Schedule) (last : Option (List Diagnostic)) : Prop where
  /-- A check tells of its own document, and what it found of this one is still true. -/
  found : ∀ p ∈ t.checks, ∀ notice, p.stage = .found notice →
    ∃ found, notice = .problems p.check.url (some p.check.version) found ∧
      (p.check.url = u → found = t.session.verdict u)
  /-- What is true was sent, or there is a check that will find it. -/
  told : last = some (t.session.verdict u) ∨ ∃ p ∈ t.checks, p.stage ≠ .over ∧ p.check.url = u ∧
    ∃ text, t.session.document? u = some ⟨text, p.check.version⟩

section Settling

variable {u : Url} {t t' : Schedule} {last : Option (List Diagnostic)} {sent : List Notice}
  {m : Move} {ms : List Move}

theorem Settling.event {e : Event} (settling : Settling u t last) (untouched : ¬ e.Touches u)
    (moved : t.move? (.event e) = some (t', sent)) :
    Settling u t' ((lastSent u sent).or last) := by
  obtain ⟨rfl, rfl⟩ := move?_event.1 moved
  have document := document?_of_not_touches (s := t.session) untouched
  have same : ((t.session.after e).1.schedule t.checks).session.verdict u = t.session.verdict u := by
    rw [verdict_schedule, verdict, verdict, document, settings_after]
  rw [lastSent_after untouched, Option.none_or]
  constructor
  · intro p member notice about
    rw [same]
    rcases List.mem_append.1 member with member | member
    · exact settling.found p member notice about
    · obtain ⟨c, -, rfl⟩ := List.mem_map.1 member
      cases about
  · rw [same]
    refine settling.told.imp_right ?_
    rintro ⟨p, member, unfinished, here, text, opened⟩
    exact ⟨p, List.mem_append_left _ member, unfinished, here, text, document.trans opened⟩

theorem mem_set_or_eq {ps : List Progress} {p q r : Progress} {place : Nat} (member : p ∈ ps)
    (known : ps[place]? = some q) : p = q ∨ p ∈ ps.set place r := by
  obtain ⟨i, found⟩ := List.mem_iff_getElem?.1 member
  by_cases same : place = i
  · subst same
    exact .inl (Option.some.inj (found.symm.trans known))
  · exact .inr (List.mem_of_getElem? ((List.getElem?_set_ne same).trans found))

theorem Settling.step {place : Nat} {step : Step} (settling : Settling u t last)
    (moved : t.move? (.step place step) = some (t', sent)) :
    Settling u t' ((lastSent u sent).or last) := by
  obtain ⟨c, a, b, known, stepped, rfl⟩ := move?_step.1 moved
  have found : ∀ p ∈ t.checks.set place ⟨c, b⟩, ∀ notice, p.stage = .found notice →
      ∃ found, notice = .problems p.check.url (some p.check.version) found ∧
        (p.check.url = u → found = t.session.verdict u) := by
    intro p member notice about
    rcases List.mem_or_eq_of_mem_set member with member | rfl
    · exact settling.found p member notice about
    · obtain rfl : b = .found notice := about
      obtain ⟨-, -, told⟩ := stepped.of_found
      exact ⟨_, noticeOf?_eq_verdict told, fun here => here ▸ rfl⟩
  -- A check that will find what is true is still there, unless it is this one and is over now.
  have keep (unfinished : ∀ text, c.url = u → t.session.document? u = some ⟨text, c.version⟩ →
      b ≠ .over) : last = some (t.session.verdict u) ∨ ∃ p ∈ t.checks.set place ⟨c, b⟩,
        p.stage ≠ .over ∧ p.check.url = u ∧
          ∃ text, t.session.document? u = some ⟨text, p.check.version⟩ := by
    refine settling.told.imp_right ?_
    rintro ⟨p, member, pending, here, text, opened⟩
    rcases mem_set_or_eq member known with same | kept
    · subst same
      have inside := (List.getElem?_eq_some_iff.1 known).1
      exact ⟨⟨c, b⟩, List.mem_set inside _, unfinished text here opened, here, text, opened⟩
    · exact ⟨p, kept, pending, here, text, opened⟩
  cases stepped with
  | expire => exact ⟨found, keep (by simp)⟩
  | look =>
      refine ⟨found, keep fun text here opened => ?_⟩
      subst here
      rw [noticeOf?_of_document? opened]
      simp
  | send notice =>
      obtain ⟨list, same, current⟩ := settling.found ⟨c, .found notice⟩
        (List.mem_of_getElem? known) notice rfl
      by_cases here : c.url = u
      · refine ⟨found, .inl ?_⟩
        simp [same, lastSent, Notice.about?, here, current here]
      · have silent : lastSent u [notice] = none := by
          simp [same, lastSent, Notice.about?, here]
        rw [silent, Option.none_or]
        exact ⟨found, keep fun text here' => absurd here' here⟩

/-- **What holds behind the last event is preserved**: a document that is not touched has one
truth, which all checks of it find. -/
theorem Settling.move (settling : Settling u t last) (untouched : ∀ e, m = .event e → ¬ e.Touches u)
    (moved : t.move? m = some (t', sent)) : Settling u t' ((lastSent u sent).or last) := by
  cases m with
  | event e => exact settling.event (untouched e rfl) moved
  | step place step => exact settling.step moved

theorem Settling.run (settling : Settling u t last)
    (untouched : ∀ e, .event e ∈ ms → ¬ e.Touches u) (ran : t.run? ms = some (t', sent)) :
    Settling u t' ((lastSent u sent).or last) := by
  induction ms generalizing t last sent with
  | nil =>
      obtain ⟨rfl, rfl⟩ := run?_nil.1 ran
      exact settling
  | cons m ms ih =>
      obtain ⟨t₁, now, later, moved, rest, rfl⟩ := run?_cons.1 ran
      have here := settling.move (fun e same => untouched e (same ▸ List.mem_cons_self)) moved
      rw [lastSent_append, Option.or_assoc]
      exact ih here (fun e member => untouched e (List.mem_cons_of_mem _ member)) rest

end Settling

/-! ## The last event that touches a document -/

section Last

variable {s : Session} {u : Url} {t t' : Schedule} {before ms : List Move}
  {early sent : List Notice} {e : Event}

theorem exists_last_touch (touched : ∃ e, .event e ∈ ms ∧ e.Touches u) :
    ∃ before e after, ms = before ++ .event e :: after ∧ e.Touches u ∧
      ∀ e', .event e' ∈ after → ¬ e'.Touches u := by
  induction ms with
  | nil =>
      obtain ⟨e, member, -⟩ := touched
      cases member
  | cons m ms ih =>
      by_cases later : ∃ e, .event e ∈ ms ∧ e.Touches u
      · obtain ⟨before, e, after, rfl, last⟩ := ih later
        exact ⟨m :: before, e, after, rfl, last⟩
      · obtain ⟨e, member, touches⟩ := touched
        obtain rfl := (List.mem_cons.1 member).resolve_right fun inside => later ⟨e, inside, touches⟩
        exact ⟨[], e, ms, rfl, touches, fun e' inside touches' => later ⟨e', inside, touches'⟩⟩

/-- Behind an event that touches the document of a recipe all is on its way. -/
theorem settling_of_touches (fresh : s.Fresh) (recipe : u.isRecipe) (touches : e.Touches u)
    (ran : s.schedule.run? before = some (t, early))
    (quiet : ∀ p ∈ t.checks, p.check.url = u → ∀ notice, p.stage ≠ .found notice)
    (moved : t.move? (.event e) = some (t', sent)) :
    Settling u t' (lastSent u (early ++ sent)) := by
  have past := past_of_run? fresh ran
  obtain ⟨rfl, rfl⟩ := move?_event.1 moved
  constructor
  · intro p member notice about
    rcases List.mem_append.1 member with member | member
    · obtain ⟨place, known⟩ := List.mem_iff_getElem?.1 member
      obtain ⟨c, a⟩ := p
      obtain rfl : a = .found notice := about
      obtain ⟨_, _, t₁, _, -, -, -, told⟩ := past.looked place c notice known
      exact ⟨_, noticeOf?_eq_verdict told, fun here => absurd rfl (quiet _ member here notice)⟩
    · obtain ⟨c, -, rfl⟩ := List.mem_map.1 member
      cases about
  · rcases touches with ⟨v, text, delivers⟩ | rfl
    · right
      have opened := document?_update t.session u u v text
      rw [if_pos rfl] at opened
      rw [after_of_delivers delivers]
      refine ⟨⟨⟨u, v⟩, .waiting⟩, ?_, nofun, rfl, text, opened⟩
      simp [schedule, update, recipe]
    · left
      have closed := document?_closed t.session u u
      rw [if_pos rfl] at closed
      have nothing : (t.session.closed u).1.verdict u = [] := by
        rw [verdict, closed]
        rfl
      rw [verdict_schedule, lastSent_append, after, nothing, Session.closed, if_pos recipe]
      simp [lastSent, Notice.about?]

/-- A session holds what its editor holds. -/
theorem document?_of_run (fresh : s.Fresh) (ran : s.schedule.run? ms = some (t, sent))
    (orderly : Orderly u (events ms)) :
    (t.session.document? u).map OpenDocument.text = heldAfter u (events ms) := by
  induction ms using List.reverseRecOn generalizing t sent with
  | nil =>
      obtain ⟨rfl, rfl⟩ := run?_nil.1 ran
      simp [schedule, document?, fresh.documents, events, heldAfter]
  | append_singleton ms m ih =>
      obtain ⟨t₁, early, now, first, moved, rfl⟩ := run?_concat.1 ran
      cases m with
      | event e =>
          have more : events (ms ++ [.event e]) = events ms ++ [e] := by simp [events]
          obtain ⟨rfl, -⟩ := move?_event.1 moved
          rw [more] at orderly ⊢
          exact document?_after (ih first orderly.of_append) orderly
      | step place step =>
          have same : events (ms ++ [.step place step]) = events ms := by simp [events]
          obtain ⟨c, a, b, -, -, rfl⟩ := move?_step.1 moved
          rw [same] at orderly ⊢
          have held := ih first orderly
          exact held

end Last

/-- **An editor is told last what is true**, unless a check of a document stands between its
look and what it sends when the document is touched for the last time.  When all checks are
over, what was sent last of a recipe that was ever opened are the problems of its text as the
session holds it, and none if the session holds no text.  If the editor changes a document only
while it is open, the session holds what the editor holds. -/
theorem last_sent_current {s : Session} (fresh : s.Fresh) {ms : List Move} {t : Schedule}
    {sent : List Notice} (ran : s.schedule.run? ms = some (t, sent)) (finished : t.Finished)
    {u : Url} (recipe : u.isRecipe) (opened : ∃ v text, .event (.opened u v text) ∈ ms)
    (quiet : Quiet s.schedule u ms) :
    lastSent u sent = some (shown s.settings ((t.session.document? u).map OpenDocument.text)) ∧
      (Orderly u (events ms) →
        (t.session.document? u).map OpenDocument.text = heldAfter u (events ms)) := by
  refine ⟨?_, document?_of_run fresh ran⟩
  obtain ⟨v, text, opened⟩ := opened
  obtain ⟨before, e, after, rfl, touches, last⟩ :=
    exists_last_touch ⟨_, opened, .inl ⟨v, text, .opened⟩⟩
  obtain ⟨t₀, early, late, ranBefore, rest, rfl⟩ := run?_append.1 ran
  obtain ⟨t₁, now, later, moved, ranAfter, rfl⟩ := run?_cons.1 rest
  have calm := quiet before e after t₀ early rfl touches last ranBefore
  have settling := (settling_of_touches fresh recipe touches ranBefore calm moved).run last ranAfter
  rw [← lastSent_append, List.append_assoc] at settling
  rcases settling.told with told | ⟨p, member, pending, -⟩
  · rw [told, verdict, (past_of_run? fresh ran).settings]
    rfl
  · exact absurd (finished p member) pending

/-- A recipe is opened, checked and closed. -/
theorem last_sent_current_closed :
    let u : Url := ⟨"file", some { host := "" }, .segments ["w", "dub.sdl"], none, none⟩
    let s : Session := { Session.ofSettings {} with phase := .running }
    let ms : List Move := [.event (.opened u 1 ""), .step 0 .expire, .step 0 .look,
      .step 0 .send] ++ [.event (.closed u)]
    ∃ t sent, s.schedule.run? ms = some (t, sent) ∧ lastSent u sent = some [] := by
  intro u s ms
  obtain ⟨t, sent, ran, finished⟩ :
      ∃ t sent, s.schedule.run? ms = some (t, sent) ∧ t.Finished := by
    refine ⟨_, _, rfl, fun p member => ?_⟩
    obtain rfl := List.mem_singleton.1 member
    rfl
  have orderly : Orderly u (events ms) := by
    intro before v texts after split
    have member : .changed u v texts ∈ events ms := by simp [split]
    simp [events, ms] at member
  have quiet : Quiet s.schedule u ms := by
    intro before e after t sent split touches last ran p member here notice about
    rcases List.eq_nil_or_concat after with rfl | ⟨front, m, rfl⟩
    · obtain ⟨rfl, -⟩ := List.append_inj' split rfl
      obtain ⟨rfl, -⟩ := Prod.mk.inj (Option.some.inj ran)
      obtain rfl := List.mem_singleton.1 member
      cases about
    · rw [List.concat_eq_append, ← List.cons_append, ← List.append_assoc] at split
      obtain ⟨-, same⟩ := List.append_inj' split rfl
      obtain rfl := List.singleton_inj.1 same
      exact last (.closed u) (by simp) (.inr rfl)
  have fresh : s.Fresh := ⟨rfl, rfl⟩
  obtain ⟨told, held⟩ :=
    last_sent_current fresh ran finished (by decide) ⟨1, "", List.mem_cons_self⟩ quiet
  rw [held orderly] at told
  exact ⟨t, sent, ran, told⟩

/-- A recipe without a name has a problem. -/
theorem shown_ne_nil {settings : Settings} (linting : settings.linting) {text : String}
    (nameless : ∀ c ∈ (Sdl.Document.ofText text.toList).root.children,
      c.space = none → c.name ≠ "name") :
    shown settings (some text) ≠ [] := by
  have missing : (⟨none, .missingTag "name"⟩ : Finding) ∈
      validate Schema.recipe (Sdl.Document.ofText text.toList) :=
    Validation.mem_validate_iff.2 (.inr (.inr ⟨"name", List.mem_singleton_self _, rfl, nameless⟩))
  rw [shown, Option.elim_some, diagnostics?, if_pos linting, Option.getD_some]
  exact fun empty => List.ne_nil_of_mem missing (List.map_eq_nil_iff.1 empty)

/-- What was sent last may be stale.  In the first run a recipe is closed between the look of
its check and what this sends, in the second one it is changed when it is closed already. Both
times the editor holds no document, and is left with a problem. -/
theorem last_sent_stale :
    let u : Url := ⟨"file", some { host := "" }, .segments ["w", "dub.sdl"], none, none⟩
    let s : Session := { Session.ofSettings {} with phase := .running }
    let late : List Move := [.event (.opened u 1 ""), .step 0 .expire, .step 0 .look,
      .event (.closed u), .step 0 .send]
    let unasked : List Move := [.event (.opened u 1 ""), .step 0 .expire, .step 0 .look,
      .step 0 .send, .event (.closed u), .event (.changed u 2 [""]), .step 1 .expire,
      .step 1 .look, .step 1 .send]
    u.isRecipe ∧ ∀ ms ∈ [late, unasked], ∃ t sent, s.schedule.run? ms = some (t, sent) ∧
      t.Finished ∧ heldAfter u (events ms) = none ∧ lastSent u sent ≠ some [] := by
  intro u s late unasked
  have empty : (Sdl.Document.ofText "".toList).root.children = [] := by cbv
  have problem : shown {} (some "") ≠ [] := by
    refine shown_ne_nil rfl fun c member => ?_
    rw [empty] at member
    cases member
  refine ⟨by decide, ?_⟩
  rw [List.forall_mem_cons, List.forall_mem_singleton]
  refine ⟨⟨_, _, rfl, ?_, by decide, ?_⟩, ⟨_, _, rfl, ?_, by decide, ?_⟩⟩
  · intro p member
    obtain rfl := List.mem_singleton.1 member
    rfl
  · exact fun same => problem (Option.some.inj same)
  · intro p member
    rcases List.mem_cons.1 member with rfl | member
    · rfl
    · obtain rfl := List.mem_singleton.1 member
      rfl
  · exact fun same => problem (Option.some.inj same)

end Schedule

end Session

end PackageRecipe
