import LoxWalk.Proofs.Session.Likeness

/-!
# What a session shows

A session is given units, its errors are forgotten now and then, and time goes by
(`Session.Event`).  Of each unit three things are seen from outside: how it ends, the bytes that it
prints, and the diagnostics that it reports (`Session.Observation`).

Sessions that are alike show alike things for ever (`Session.Alike.transcript`).  So a unit that is
refused might as well not have been there (`Lives.refused_unit_invisible`).
-/

namespace LoxWalk

namespace Session

/-- What may happen to a session. -/
inductive Event where
  | unit (fuel : Nat) (source : String)
  | reset
  | clock (now : Float)

/-- What is seen of a unit: how it ends, the bytes that it prints and the diagnostics that it
reports. -/
structure Observation where
  status : RunStatus
  printed : ByteArray
  reports : List Diagnostic

/-- What is seen when a source text is run. -/
def observe (fuel : Nat) (source : String) (s : Session) : Observation where
  status := (s.run fuel source).1
  printed :=
    let start := s.engine.machine.output.written.size
    let written := (s.run fuel source).2.engine.machine.output.written
    written.extract start written.size
  reports := s.reports fuel source

/-- The session after something has happened. -/
def happen (s : Session) : Event → Session
  | .unit fuel source => (s.run fuel source).2
  | .reset => s.resetErrors
  | .clock now => { s with engine.host := .clockAt now }

/-- The session after a history. -/
def after (s : Session) (events : List Event) : Session :=
  events.foldl happen s

/-- What is seen during a history. -/
def transcript : List Event → Session → List Observation
  | [], _ => []
  | .unit fuel source :: events, s =>
    s.observe fuel source :: transcript events (s.happen (.unit fuel source))
  | .reset :: events, s => transcript events (s.happen .reset)
  | .clock now :: events, s => transcript events (s.happen (.clock now))

variable {s : Session} {xs : List Execution} {line : Nat → Nat → Prop}

theorem after_cons (s : Session) (e : Event) (events : List Event) :
    s.after (e :: events) = (s.happen e).after events := rfl

theorem transcript_append (before later : List Event) (s : Session) :
    s.transcript (before ++ later) = s.transcript before ++ (s.after before).transcript later := by
  induction before generalizing s with
  | nil => rfl
  | cons e before ih =>
    rw [after_cons]
    cases e with
    | unit fuel source => exact congrArg (s.observe fuel source :: ·) (ih _)
    | reset => exact ih _
    | clock now => exact ih _

end Session

theorem Lives.exists_happen {s : Session} {xs : List Execution} (h : Lives s xs)
    (e : Session.Event) : ∃ xs', Lives (s.happen e) xs' := by
  cases e with
  | unit fuel source => exact h.exists_run fuel source
  | reset => exact ⟨xs, h.reset⟩
  | clock now => exact ⟨xs, h.clock now⟩

theorem Lives.exists_after {s : Session} {xs : List Execution} (h : Lives s xs)
    (events : List Session.Event) : ∃ xs', Lives (s.after events) xs' := by
  induction events generalizing s xs with
  | nil => exact ⟨xs, h⟩
  | cons e events ih =>
    obtain ⟨xs', h'⟩ := h.exists_happen e
    exact ih h'

/-! ## Histories of sessions that are alike -/

/-- Two units of which the same is seen, apart from lines. -/
structure Session.Observation.Alike (line : Nat → Nat → Prop) (o o' : Session.Observation) :
    Prop where
  status : o'.status = o.status
  printed : o'.printed = o.printed
  reports : List.Forall₂ (Diagnostic.Alike line) o.reports o'.reports

namespace Session

variable {s s' : Session} {line : Nat → Nat → Prop}

theorem Observation.Alike.eq {o o' : Observation}
    (h : Observation.Alike (fun l l' => l = l') o o') : o = o' := by
  obtain ⟨status, printed, reports⟩ := o
  obtain ⟨status', printed', reports'⟩ := o'
  obtain ⟨rfl, rfl, hreports⟩ := h
  have hreports' : reports = reports' := Diagnostic.Alike.list_eq hreports
  rw [hreports']

theorem Observation.Alike.list_eq {os os' : List Observation}
    (h : List.Forall₂ (Observation.Alike fun l l' => l = l') os os') : os = os' := by
  have heq : List.Forall₂ (· = ·) os os' := h.imp fun _ _ ho => ho.eq
  rwa [List.forall₂_eq_eq_eq] at heq

theorem Alike.output_eq (h : s.Alike line s') :
    s'.engine.machine.output = s.engine.machine.output := by
  obtain ⟨W, hmachines⟩ := h.engines.machines
  exact hmachines.output

theorem Alike.happen (h : s.Alike line s') (hline : ∀ l, line l l) (e : Event) :
    (s.happen e).Alike line (s'.happen e) := by
  cases e with
  | unit fuel source => exact h.run hline fuel source
  | reset => exact h.resetErrors
  | clock now => exact h.clock now

/-- The same is seen of a unit whose accounts are alike. -/
theorem Alike.observe {fuel fuel' : Nat} {source source' : String} {n n' : Nat}
    (h : s.Alike line s')
    (haccount : Account.Alike line n n' (s.account fuel source) (s'.account fuel' source')) :
    (s.observe fuel source).Alike line (s'.observe fuel' source') := by
  have houtput : (s'.run fuel' source').2.engine.machine.output =
      (s.run fuel source).2.engine.machine.output := by
    obtain ⟨W, hmachines⟩ := haccount.engines.machines
    rw [engine_run, engine_run]
    exact hmachines.output
  refine ⟨?_, ?_, haccount.reports⟩
  · rw [Session.observe, Session.observe, status_run, status_run]
    exact haccount.status
  · rw [Session.observe, Session.observe, houtput, h.output_eq]

/-- Sessions that are alike show the same for ever. -/
theorem Alike.transcript (h : s.Alike line s') (hline : ∀ l, line l l) (events : List Event) :
    List.Forall₂ (Observation.Alike line) (s.transcript events) (s'.transcript events) := by
  induction events generalizing s s' with
  | nil => exact .nil
  | cons e events ih =>
    have hlater := ih (h.happen hline e)
    cases e with
    | unit fuel source => exact .cons (h.observe (h.account hline fuel source)) hlater
    | reset => exact hlater
    | clock now => exact hlater

/-- If lines may not differ either, then nothing does. -/
theorem Alike.transcript_eq (h : s.Alike (fun l l' => l = l') s') (events : List Event) :
    s.transcript events = s'.transcript events :=
  Observation.Alike.list_eq (h.transcript (fun _ => rfl) events)

end Session

/-! ## Units that are refused -/

section

variable {s t : Session} {xs : List Execution} {fuel : Nat} {source : String} {unit : List Stmt}

/-- Only a source text with something wrong in it is refused. -/
theorem Session.not_readsAs_of_refused (h : (s.run fuel source).1 = .staticError) (unit : List Stmt) :
    ¬ Source.ReadsAs s.nextId source unit := by
  intro hs
  have hstatus (o : Outcome) : o.status ≠ .staticError := by cases o <;> exact nofun
  rw [status_run, account_of_readsAs hs] at h
  exact hstatus _ h

/-- A unit that breaks static rules. -/
theorem Session.account_of_broken (hscanned : Source.errors source = [])
    (hparsed : (Grammar.program s.nextId (Source.tokens source)).result = .ok unit)
    (hbroken : (findings unit).errors ≠ []) :
    s.account fuel source = ⟨.staticError, s.engine.noteAll (findings unit).bound,
      (findings unit).errors.map .resolve⟩ := by
  unfold account Engine.bound
  simp only [hparsed, hscanned]

/-- What a unit that is refused leaves behind differs from what was there only in distances that
nothing will look up. -/
theorem Lives.alike_run_of_refused (h : Lives s xs)
    (hrefused : (s.run fuel source).1 = .staticError) {line : Nat → Nat → Prop}
    (hline : ∀ l, line l l) : s.Alike line (s.run fuel source).2 := by
  have hle : s.nextId ≤ (s.run fuel source).2.nextId := by
    rw [Session.nextId_run]
    exact Grammar.nextId_le _ _
  have hengines := (h.alike hline).engines
  refine ⟨⟨xs, h⟩, h.exists_run fuel source, hle, ?_⟩
  obtain he | ⟨unit, hp, he⟩ :=
    Session.engine_run_of_refused fuel (Session.not_readsAs_of_refused hrefused)
  · rw [he]
    exact hengines.mono (Nat.le_refl _) hle
  · have hnone : ∀ r ∈ ([] : List BoundReference), s.nextId ≤ r.id.index := fun _ hr => nomatch hr
    rw [he]
    refine hengines.noteAll hnone (fun r hr => ?_) (Nat.le_refl _) hle
    exact (index_of_mem_bound hp hr).1

/-- A unit that is refused leaves the machine as it was. -/
theorem Session.machine_run_of_refused (hrefused : (s.run fuel source).1 = .staticError) :
    (s.run fuel source).2.engine.machine = s.engine.machine ∧
      (s.run fuel source).2.engine.globals = s.engine.globals := by
  obtain he | ⟨unit, -, he⟩ :=
    Session.engine_run_of_refused fuel (Session.not_readsAs_of_refused hrefused)
  · rw [he]
    exact ⟨rfl, rfl⟩
  · rw [he]
    exact ⟨Engine.machine_noteAll _ _, Engine.globals_noteAll _ _⟩

/-- A unit that is refused, put anywhere into a history, leaves everything that is seen of the other
units as it was.  It prints nothing itself, and it leaves the machine with all its bindings, scopes
and instances as it was. -/
theorem Lives.refused_unit_invisible (h : Lives s xs) (before later : List Session.Event)
    (ht : s.after before = t) (hrefused : (t.run fuel source).1 = .staticError) :
    s.transcript (before ++ later) = s.transcript before ++ t.transcript later ∧
      s.transcript (before ++ .unit fuel source :: later) =
        s.transcript before ++
          ⟨.staticError, .empty, t.reports fuel source⟩ :: t.transcript later ∧
      (t.run fuel source).2.engine.machine = t.engine.machine ∧
      (t.run fuel source).2.engine.globals = t.engine.globals := by
  subst ht
  obtain ⟨xs', h'⟩ := h.exists_after before
  obtain ⟨hmachine, hglobals⟩ := Session.machine_run_of_refused hrefused
  refine ⟨Session.transcript_append before later s, ?_, hmachine, hglobals⟩
  have hobserve : (s.after before).observe fuel source =
      ⟨.staticError, .empty, (s.after before).reports fuel source⟩ := by
    rw [Session.observe, hrefused, hmachine]
    simp
  have hlater := (h'.alike_run_of_refused hrefused fun _ => rfl).transcript_eq later
  rw [Session.transcript_append, Session.transcript, hobserve, hlater]
  rfl

end

/-- The unit `{var a;a;}return;`, which breaks a rule behind a block with a reference. -/
def Session.brokenUnit : List Stmt :=
  Execution.sampleUnit ++ [.return_ ⟨.keyword .return_, "return", 1⟩ none]

/-- A new session. -/
def Session.sample : Session :=
  .new (.new (.clockAt 0) 8 none) none

theorem Session.account_sample : sample.account 6 "\x7bvar a;a;\x7dreturn;" =
    ⟨.staticError, sample.engine.noteAll (findings brokenUnit).bound,
      (findings brokenUnit).errors.map .resolve⟩ :=
  account_of_broken (by decide +kernel) (by cbv) (by decide)

/-- In front of the unit `{var a;a;}` the unit `{var a;a;}return;` is invisible. -/
theorem Lives.refused_unit_invisible_in_front : ∃ reports,
    Lives Session.sample [] ∧ (Session.sample.run 6 "\x7bvar a;a;\x7dreturn;").1 = .staticError ∧
      Session.sample.transcript [.unit 6 "\x7bvar a;a;\x7dreturn;", .unit 6 "\x7bvar a;a;\x7d"] =
        ⟨.staticError, .empty, reports⟩ ::
          Session.sample.transcript [.unit 6 "\x7bvar a;a;\x7d"] := by
  have hlives : Lives Session.sample [] := Lives.new 0 8 none none
  have hrefused : (Session.sample.run 6 "\x7bvar a;a;\x7dreturn;").1 = .staticError := by
    rw [Session.status_run, Session.account_sample]
  have hboth := hlives.refused_unit_invisible [] [.unit 6 "\x7bvar a;a;\x7d"] rfl hrefused
  exact ⟨_, hlives, hrefused, hboth.2.1⟩

end LoxWalk
