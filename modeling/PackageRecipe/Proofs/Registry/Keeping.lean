import Mathlib
import PackageRecipe.Proofs.Registry.Visit

/-!
# The kept list

The list of all packages is asked for again only when it has become too old.

## Main Definitions

* `Registry.Call` — a look-up of the list, with what was asked for and what came of it
* `Registry.calls` — look-ups in a row
* `Registry.latest?` — the latest list that a server has sent

## Design Notes

What a registry keeps is the latest list that was sent (`calls_registry`).  A list that is not too
old for a look-up was not too old for those before it, as the clock never goes back; so none of
them has asked, and the list is still the latest one (`latest?_of_recent`).  That a failure changes
nothing is a fact about a single look-up (`call_registry`).
-/

namespace PackageRecipe.Registry

variable {r : Registry} {v : Visit} {vs ws : List Visit}

/-- A look-up of the list of packages. -/
structure Call where
  visit : Visit
  /-- The addresses that were asked for. -/
  asked : List Url
  result : Except Error (List String)

/-- The list that a server has sent to a look-up, with the time at which it came. -/
def Call.fetch? (c : Call) : Option (ℕ × List String) :=
  if c.asked = [] then none
  else (c.visit.reply.bind (·.content? Json.strings?)).map (c.visit.stop, ·)

/-- The latest list that a server has sent. -/
def latest? (cs : List Call) : Option (ℕ × List String) :=
  cs.reverse.findSome? Call.fetch?

/-- Looks the list up, and leaves the registry for the next look-up. -/
def call (v : Visit) (r : Registry) : Call × Registry :=
  let ((result, r), asked) := ((names v.transport).run r).run []
  (⟨v, asked, result⟩, r)

/-- Looks the list up once for each visit. -/
def calls : List Visit → Registry → List Call × Registry
  | [], r => ([], r)
  | v :: vs, r =>
    let (c, r) := call v r
    let (cs, r) := calls vs r
    (c :: cs, r)

/-- The clock never goes back. -/
def InOrder (visits : List Visit) : Prop :=
  (visits.flatMap fun v => [v.start, v.stop]).Pairwise (· ≤ ·)

/-! ## One look-up -/

/-- **The server is asked if and only if nothing is kept.** -/
theorem call_eq : call v r =
    match r.kept? v.start with
    | some names => (⟨v, [], .ok names⟩, r)
    | none =>
      let result := answer Json.strings? r.listUrl v.reply
      (⟨v, (target? r.listUrl).toList, result⟩,
        match result with
        | .ok names => { r with stored := some (v.stop, names) }
        | .error _ => r) := by
  have begun : v.transport.now.run [] = pure (v.start, []) := rfl
  have asked : (fetch v.transport Json.strings? r.listUrl).run [] =
      pure (answer Json.strings? r.listUrl v.reply, (target? r.listUrl).toList) := by
    rw [fetch_eq]
    rfl
  rw [call]
  cases kept : r.kept? v.start with
  | some list =>
      simp only [names, bind_pure_comp, StateT.run_bind, StateT.run_get, StateT.run_monadLift,
        monadLift_self, bind_map_left, pure_bind, begun, kept]
      rfl
  | none =>
      simp only [names, bind_pure_comp, StateT.run_bind, StateT.run_get, StateT.run_monadLift,
        monadLift_self, bind_map_left, pure_bind, begun, kept, asked]
      cases result : answer Json.strings? r.listUrl v.reply with
      | error e => rfl
      | ok list =>
          have sent : (answer Json.strings? r.listUrl v.reply).toOption = some list := by
            rw [result]
            rfl
          rw [toOption_answer] at sent
          obtain ⟨address, -⟩ := Option.ite_none_right_eq_some.1 sent
          obtain ⟨u, address⟩ := Option.isSome_iff_exists.1 address
          rw [address]
          rfl

theorem kept?_eq_some_iff {now : ℕ} {list : List String} : r.kept? now = some list ↔
    ∃ time, r.stored = some (time, list) ∧ now - time < nanoseconds * r.ttl := by
  simp only [kept?, Option.bind_eq_some_iff, Prod.exists, Option.ite_none_right_eq_some,
    Option.some.injEq]
  constructor
  · rintro ⟨time, list, stored, recent, rfl⟩
    exact ⟨time, stored, recent⟩
  · rintro ⟨time, stored, recent⟩
    exact ⟨time, list, stored, recent, rfl⟩

theorem visit_call : (call v r).1.visit = v := by
  rw [call_eq]
  cases r.kept? v.start <;> rfl

/-- A look-up that has asked is sent a list if it answers one. -/
theorem fetch?_asked {url : String} : Call.fetch? ⟨v, (target? url).toList,
    answer Json.strings? url v.reply⟩ =
      (answer Json.strings? url v.reply).toOption.map (v.stop, ·) := by
  rw [toOption_answer, Call.fetch?]
  cases target? url <;> simp

/-- **A look-up changes what is kept only if a list is sent.** -/
theorem call_registry :
    (call v r).2 = { r with stored := (call v r).1.fetch?.or r.stored } := by
  rw [call_eq]
  cases r.kept? v.start with
  | some list => rfl
  | none =>
      dsimp only
      rw [fetch?_asked]
      cases answer Json.strings? r.listUrl v.reply <;> rfl

/-! ## Look-ups in a row -/

theorem calls_append : calls (vs ++ ws) r =
    ((calls vs r).1 ++ (calls ws (calls vs r).2).1, (calls ws (calls vs r).2).2) := by
  induction vs generalizing r with
  | nil => rfl
  | cons v vs ih => simp only [List.cons_append, calls, ih]

theorem map_visit_calls (vs : List Visit) (r : Registry) :
    (calls vs r).1.map Call.visit = vs := by
  induction vs generalizing r with
  | nil => rfl
  | cons v vs ih => simp only [calls, List.map_cons, visit_call, ih]

theorem latest?_concat (cs : List Call) (c : Call) :
    latest? (cs ++ [c]) = c.fetch?.or (latest? cs) := by
  rw [latest?, List.reverse_append]
  cases found : c.fetch? <;> simp [found, latest?]

/-- **What is kept is the latest list that was sent.** -/
theorem calls_registry :
    (calls vs r).2 = { r with stored := (latest? (calls vs r).1).or r.stored } := by
  induction vs using List.reverseRecOn with
  | nil => rfl
  | append_singleton vs v ih =>
      rw [calls_append]
      simp only [calls, latest?_concat, call_registry]
      rw [ih]
      simp [Option.or_assoc]

/-- Each look-up finds the registry as those before it have left it. -/
theorem calls_cut {before after : List Call} {c : Call}
    (run : (calls vs r).1 = before ++ c :: after) :
    (calls (before.map Call.visit) r).1 = before ∧
    (call c.visit (calls (before.map Call.visit) r).2).1 = c ∧
    (calls (after.map Call.visit) (call c.visit (calls (before.map Call.visit) r).2).2).1 =
      after := by
  have visits : vs = before.map Call.visit ++ c.visit :: after.map Call.visit := by
    rw [← map_visit_calls vs r, run, List.map_append, List.map_cons]
  rw [visits, calls_append] at run
  have size : (calls (before.map Call.visit) r).1.length = before.length := by
    rw [← List.length_map (f := Call.visit), map_visit_calls, List.length_map]
  obtain ⟨first, rest⟩ := List.append_inj run size
  obtain ⟨this, later⟩ := List.cons.inj rest
  exact ⟨first, this, later⟩

/-- **A list that is not too old is the latest one**, as none of the look-ups since has asked. -/
theorem latest?_of_recent (empty : r.stored = none) {now time : ℕ} {list : List String} {d : Call}
    (member : d ∈ (calls vs r).1) (sent : d.fetch? = some (time, list))
    (recent : now - time < nanoseconds * r.ttl) (past : ∀ w ∈ vs, w.start ≤ now) :
    latest? (calls vs r).1 = some (time, list) := by
  induction vs using List.reverseRecOn with
  | nil => simp [calls] at member
  | append_singleton vs v ih =>
      rw [calls_append] at member ⊢
      simp only [calls, List.mem_append, List.mem_singleton] at member
      simp only [calls, latest?_concat]
      obtain member | rfl := member
      · have earlier := ih member fun w inside => past w (by simp [inside])
        have kept : (calls vs r).2.kept? v.start = some list := by
          have : v.start ≤ now := past v (by simp)
          rw [calls_registry, empty, Option.or_none, kept?_eq_some_iff]
          exact ⟨time, earlier, by dsimp only; omega⟩
        rw [call_eq, kept, earlier]
        rfl
      · rw [sent, Option.some_or]

theorem exists_of_latest? {cs : List Call} {time : ℕ} {list : List String}
    (found : latest? cs = some (time, list)) : ∃ d ∈ cs, d.fetch? = some (time, list) := by
  obtain ⟨d, member, sent⟩ := List.exists_of_findSome?_eq_some found
  exact ⟨d, List.mem_reverse.1 member, sent⟩

/-- A look-up answers the latest list or, when that is too old, what it is sent. -/
theorem call_cases (empty : r.stored = none) {before after : List Call} {c : Call}
    (run : (calls vs r).1 = before ++ c :: after) :
    (∃ time list, latest? before = some (time, list) ∧ c.visit.start - time < nanoseconds * r.ttl ∧
      c.asked = [] ∧ c.result = .ok list ∧ c.fetch? = none) ∨
    (∀ time list, latest? before = some (time, list) → nanoseconds * r.ttl ≤ c.visit.start - time) ∧
      c.asked = (target? r.listUrl).toList ∧
      c.result = answer Json.strings? r.listUrl c.visit.reply ∧
      c.fetch? = c.result.toOption.map (c.visit.stop, ·) := by
  obtain ⟨earlier, this, -⟩ := calls_cut run
  have registry : (calls (before.map Call.visit) r).2 = { r with stored := latest? before } := by
    rw [calls_registry, earlier, empty, Option.or_none]
  have url : listUrl { r with stored := latest? before } = r.listUrl := rfl
  obtain ⟨visit, asked, result⟩ := c
  rw [registry, call_eq, url] at this
  cases kept : kept? { r with stored := latest? before } visit.start with
  | some list =>
      simp only [kept, Call.mk.injEq, true_and] at this
      obtain ⟨rfl, rfl⟩ := this
      obtain ⟨time, latest, recent⟩ := kept?_eq_some_iff.1 kept
      exact .inl ⟨time, list, latest, recent, rfl, rfl, rfl⟩
  | none =>
      simp only [kept, Call.mk.injEq, true_and] at this
      obtain ⟨rfl, rfl⟩ := this
      refine .inr ⟨fun time list latest => ?_, ?_⟩
      · by_contra recent
        have found := kept?_eq_some_iff (r := { r with stored := latest? before }).2
          ⟨time, latest, lt_of_not_ge recent⟩
        simp [kept] at found
      · dsimp only
        exact ⟨rfl, rfl, fetch?_asked⟩

theorem InOrder.start_le {v : Visit} (inOrder : InOrder (vs ++ v :: ws)) :
    ∀ w ∈ vs, w.start ≤ v.start := by
  rw [InOrder, List.flatMap_append, List.flatMap_cons, List.pairwise_append] at inOrder
  intro w member
  exact inOrder.2.2 w.start (List.mem_flatMap.2 ⟨w, member, by simp⟩) v.start (by simp)

/-- How a look-up is served that follows the look-ups `before` and is followed by those in
`after`.  An answer is what `answer` makes of a reply. -/
structure Served (r : Registry) (before : List Call) (c : Call) (after : List Call) : Prop where
  /-- A list that was sent recently is answered without asking. -/
  recent : ∀ d ∈ before, ∀ time list, d.fetch? = some (time, list) →
    c.visit.start - time < nanoseconds * r.ttl → c.asked = [] ∧ c.result = .ok list
  /-- Otherwise the server is asked once. -/
  outdated : (∀ d ∈ before, ∀ time list, d.fetch? = some (time, list) →
      nanoseconds * r.ttl ≤ c.visit.start - time) →
    c.asked = (target? r.listUrl).toList ∧
      c.result = answer Json.strings? r.listUrl c.visit.reply
  /-- The server is not asked exactly if a list was sent recently. -/
  quiet_iff : (target? r.listUrl).isSome → (c.asked = [] ↔ ∃ d ∈ before, ∃ time list,
    d.fetch? = some (time, list) ∧ c.visit.start - time < nanoseconds * r.ttl)
  /-- The list that is answered is the latest one, which came just now or recently. -/
  latest : ∀ list, c.result = .ok list → ∃ time, latest? (before ++ [c]) = some (time, list) ∧
    (c.fetch? = some (time, list) ∨ c.visit.start - time < nanoseconds * r.ttl)
  /-- Without a look-up that fails the other ones go on as they do with it. -/
  failed : ∀ e, c.result = .error e →
    (calls ((before ++ after).map Call.visit) r).1 = before ++ after

/-- **The kept list is never stale, and no failure touches it.**  In any row of look-ups, what a
new registry keeps in the end is the latest list that was sent, and each look-up is served as
`Served` says. -/
theorem kept_list_current (settings : Settings) (visits : List Visit) (inOrder : InOrder visits) :
    let r := ofSettings settings
    let run := calls visits r
    run.1.map Call.visit = visits ∧ run.2 = { r with stored := latest? run.1 } ∧
    ∀ before c after, run.1 = before ++ c :: after → Served r before c after := by
  intro r run
  have empty : r.stored = none := rfl
  refine ⟨map_visit_calls visits r, by rw [calls_registry, empty, Option.or_none],
    fun before c after cut => ?_⟩
  obtain ⟨earlier, this, later⟩ := calls_cut cut
  have past : ∀ w ∈ before.map Call.visit, w.start ≤ c.visit.start := by
    have visits_eq : visits = before.map Call.visit ++ c.visit :: after.map Call.visit := by
      rw [← List.map_cons, ← List.map_append, ← cut, map_visit_calls]
    exact (visits_eq ▸ inOrder).start_le
  have latest_of {d : Call} (member : d ∈ before) {time : ℕ} {list : List String}
      (sent : d.fetch? = some (time, list)) (recent : c.visit.start - time < nanoseconds * r.ttl) :
      latest? before = some (time, list) := by
    rw [← earlier] at member ⊢
    exact latest?_of_recent empty member sent recent past
  obtain ⟨time, list, latest, recent, quiet, result, nothing⟩ | ⟨old, asked, result, fetched⟩ :=
    call_cases empty cut
  · -- The list is kept, and so this look-up does not fail.
    obtain ⟨source, inside, sent⟩ := exists_of_latest? latest
    refine ⟨fun d member time' list' sent' recent' => ⟨quiet, ?_⟩, fun old => ?_,
      fun _ => ⟨fun _ => ⟨source, inside, time, list, sent, recent⟩, fun _ => quiet⟩,
      fun list' result' => ⟨time, ?_, .inr recent⟩, fun e failed => ?_⟩
    · obtain ⟨-, rfl⟩ : time = time' ∧ list = list' := by
        simpa [latest] using latest_of member sent' recent'
      exact result
    · exact absurd (old source inside time list sent) (not_le_of_gt recent)
    · obtain rfl : list = list' := by simpa [result] using result'
      rw [latest?_concat, nothing, Option.none_or, latest]
    · simp [result] at failed
  · have outdated {d : Call} (member : d ∈ before) {time : ℕ} {list : List String}
        (sent : d.fetch? = some (time, list)) : ¬ c.visit.start - time < nanoseconds * r.ttl :=
      fun recent => (old time list (latest_of member sent recent)).not_gt recent
    refine ⟨fun d member time list sent recent => absurd recent (outdated member sent),
      fun _ => ⟨asked, result⟩, fun address => ⟨fun quiet => ?_, ?_⟩, fun list result' => ?_,
      fun e failed => ?_⟩
    · rw [asked, Option.toList_eq_nil_iff] at quiet
      simp [quiet] at address
    · rintro ⟨d, member, time, list, sent, recent⟩
      exact absurd recent (outdated member sent)
    · have sent : c.fetch? = some (c.visit.stop, list) := by
        rw [fetched, result']
        rfl
      exact ⟨c.visit.stop, by rw [latest?_concat, sent, Option.some_or], .inl sent⟩
    · have same : (call c.visit (calls (before.map Call.visit) r).2).2 =
          (calls (before.map Call.visit) r).2 := by
        rw [call_registry, this, fetched, failed]
        rfl
      rw [same] at later
      rw [List.map_append, calls_append, earlier, later]

/-- A list is answered twice, a server that fails is asked again, and nothing is answered that is
too old. -/
theorem kept_list_current_expiring :
    let url := "https://code.dlang.org/packages/index.json"
    let r := ofSettings { packageListTtl := 1 }
    let visits : List Visit := [⟨0, some ⟨200, "[\"a\"]"⟩, 10⟩,
      ⟨1000000009, some ⟨200, "[]"⟩, 1000000009⟩,
      ⟨1000000010, some ⟨500, ""⟩, 1000000020⟩, ⟨1000000020, none, 1000000020⟩]
    InOrder visits ∧ (calls visits r).1.map Call.result =
      [.ok ["a"], .ok ["a"], .error (.refused url 500), .error .unreachable] ∧
      (calls visits r).2 = { r with stored := some (10, ["a"]) } ∧
      ∀ before c after, (calls visits r).1 = before ++ c :: after → Served r before c after := by
  intro url r visits
  have inOrder : InOrder visits := by
    rw [InOrder]
    decide
  have address : (target? url).isSome := by decide +kernel
  have registry : r = ⟨"https://code.dlang.org", 1, none⟩ := by decide +kernel
  have listUrl (stored) : listUrl ⟨"https://code.dlang.org", 1, stored⟩ = url := by
    have : "https://code.dlang.org" ++ "/packages/index.json" = url := by decide
    exact this
  have sent : answer Json.strings? url (some ⟨200, "[\"a\"]"⟩) = .ok ["a"] := by
    have read : (Json.read? "[\"a\"]").bind Json.strings? = some ["a"] := by cbv
    simp [answer, address, decode, Status.isSuccess, read]
  have refused : answer Json.strings? url (some ⟨500, ""⟩) = .error (.refused url 500) := by
    simp [answer, address, decode, Status.isSuccess]
  have silent : answer Json.strings? url none = .error .unreachable := by simp [answer]
  have run : (calls visits r).1.map Call.result =
        [.ok ["a"], .ok ["a"], .error (.refused url 500), .error .unreachable] ∧
      (calls visits r).2 = { r with stored := some (10, ["a"]) } := by
    rw [registry]
    simp [visits, calls, call_eq, kept?, nanoseconds, listUrl, sent, refused, silent]
  exact ⟨inOrder, run.1, run.2, (kept_list_current _ visits inOrder).2.2⟩

end PackageRecipe.Registry
