import LoxWalk.Proofs.Session.Histories
import LoxWalk.Proofs.Splitting.Sources

/-!
# One unit or two

A program can be cut into two units between any of its statements: it does the same
(`Lives.split_unit`).  What is run as one unit, the text `a`, a new line and the text `b`, is executed
with the distances of both texts noted from the beginning, and those of `a` are forgotten only at the
very end.  Neither makes a difference, since identities are used only once.

Cutting moves the lines of `b`.  So the text as a whole is compared with `b` below as many empty
lines first, where nothing at all changes, and then with `b` itself.

Each statement in front of another one costs a unit of fuel, so the text as a whole needs more fuel
than its second part by the number of statements of the first.
-/

namespace LoxWalk

/-! ## Statements in front of others -/

/-- Behind statements that end normally the others are executed as if they stood alone. -/
theorem executeAll_append {s : Setting} {fuel : Nat} {unit unit' : List Stmt} {m μ : Machine}
    (h : executeAll s (fuel + unit.length) unit m = .ok () μ) :
    executeAll s (fuel + unit.length) (unit ++ unit') m = executeAll s fuel unit' μ := by
  induction unit generalizing m with
  | nil =>
    cases fuel with
    | zero => cases h
    | succ fuel =>
      cases h
      rfl
  | cons t unit ih =>
    have hfuel : fuel + (t :: unit).length = (fuel + unit.length) + 1 := rfl
    rw [hfuel] at h ⊢
    rw [executeAll] at h
    rw [List.cons_append, executeAll]
    cases ht : execute s (fuel + unit.length) t m with
    | ok a m₁ =>
      rw [Exec.bind_of_ok ht] at h ⊢
      exact ih h
    | error i m₁ =>
      rw [Exec.bind_of_error ht] at h
      cases h

/-- The account of statements behind others that end normally. -/
theorem Engine.executed_append {e : Engine} {fuel : Nat} {unit unit' : List Stmt} {μ : Machine}
    (h : executeAll e.setting (fuel + unit.length) unit e.machine = .ok () μ) :
    e.executed (fuel + unit.length) (unit ++ unit') =
      ({ e with machine := μ } : Engine).executed fuel unit' := by
  have hrun : executeAll e.setting (fuel + unit.length) (unit ++ unit') e.machine =
      executeAll e.setting fuel unit' μ := executeAll_append h
  cases hr : executeAll e.setting fuel unit' μ with
  | ok a m =>
    rw [Engine.executed_of_ok (hrun.trans hr),
      Engine.executed_of_ok (e := { e with machine := μ }) hr]
    rfl
  | error i m =>
    rw [Engine.executed_of_error (hrun.trans hr),
      Engine.executed_of_error (e := { e with machine := μ }) hr]
    rfl

/-! ## Sessions that go on alike -/

/-- In both sessions errors of the same kinds were reported. -/
structure Session.SameErrors (s s' : Session) : Prop where
  hadError : s'.hadError = s.hadError
  hadRuntimeError : s'.hadRuntimeError = s.hadRuntimeError

/-- A unit of one session and a unit of another end alike and with the same output, report the
diagnostics `ds` and `ds'`, and nothing that happens later tells the sessions apart. -/
structure Session.Agree (line : Nat → Nat → Prop) (r r' : RunStatus × Session)
    (ds ds' : List Diagnostic) : Prop where
  status : r'.1 = r.1
  output : r'.2.engine.machine.output = r.2.engine.machine.output
  reports : List.Forall₂ (Diagnostic.Alike line) ds ds'
  errors : r.2.SameErrors r'.2
  later : ∀ events, List.Forall₂ (Session.Observation.Alike line) (r.2.transcript events)
    (r'.2.transcript events)

/-- There is nothing wrong with a source text. -/
def Source.Accepted (source : String) : Prop :=
  ∃ unit, Source.ReadsAs 0 source unit

section

variable {s : Session} {xs : List Execution} {a b source : String} {unit : List Stmt} {n fuel : Nat}
  {line : Nat → Nat → Prop}

theorem Source.ReadsAs.add (h : ReadsAs n source unit) (c : Nat) :
    ReadsAs (n + c) source (Stmt.shiftAll c id unit) := by
  refine ⟨h.scanned, ?_, ?_⟩
  · rw [Grammar.program_add, h.parsed]
    rfl
  · rw [findings_shiftAll_id]
    exact h.resolved

theorem Source.Accepted.exists_readsAs (h : Accepted source) (n : Nat) :
    ∃ unit, ReadsAs n source unit := by
  obtain ⟨unit, h⟩ := h
  exact ⟨_, Nat.zero_add n ▸ h.add n⟩

/-- Two units that are executed one after the other, against both of them executed as one. -/
theorem Engine.Alike.append {e : Engine} {unit' : List Stmt} {fuel' n₁ n₂ : Nat}
    (h : e.Alike line n n e) (hline : ∀ l, line l l) (hfresh : e.Fresh n)
    (ha : Source.ReadsAs n a unit) (hn₁ : (Grammar.program n (Source.tokens a)).nextId = n₁)
    (hok : ((e.noteAll (findings unit).bound).executed fuel unit).status = .ok)
    (hfresh₁ : ((e.noteAll (findings unit).bound).executed fuel unit).engine.Fresh n₁)
    (hb : Source.ReadsAs n₁ b unit') (hn₂ : (Grammar.program n₁ (Source.tokens b)).nextId = n₂)
    (hfuel : fuel ≤ fuel') :
    Account.Alike line n₂ n₂
      ((((e.noteAll (findings unit).bound).executed fuel unit).engine.noteAll
        (findings unit').bound).executed fuel' unit')
      (((e.noteAll (findings unit).bound).noteAll (findings unit').bound).executed
        (fuel' + unit.length) (unit ++ unit')) := by
  subst hn₁ hn₂
  have hle := Grammar.nextId_le n (Source.tokens a)
  have hle' := Grammar.nextId_le (Grammar.program n (Source.tokens a)).nextId (Source.tokens b)
  have hnone (k : Nat) : ∀ r ∈ ([] : List BoundReference), k ≤ r.id.index := fun _ hr => nomatch hr
  have hnew : ∀ r ∈ (findings unit).bound, n ≤ r.id.index :=
    fun r hr => (index_of_mem_bound ha.parsed hr).1
  have hnew' : ∀ r ∈ (findings unit').bound, _ ≤ r.id.index :=
    fun r hr => (index_of_mem_bound hb.parsed hr).1
  -- the first unit, with the distances of the second one noted too
  have hfirst := (h.noteAll hnew hnew hle hle).noteAll (hnone _) hnew' (Nat.le_refl _) hle'
  have htwins := ha.twins_self (T := Twin.between line _ _ _ _)
    ⟨fun site hsite => ⟨hfresh.holds ha hsite, (hfresh.holds ha hsite).noteAll hnew' hle'⟩, hline⟩
  obtain ⟨μ, μ', hμ, hμ', hsecond⟩ := hfirst.finished htwins hok
    (Nat.le_trans hfuel (Nat.le_add_right fuel' unit.length))
  have hend : ((e.noteAll (findings unit).bound).executed fuel unit).engine =
      (e.noteAll (findings unit).bound).ended μ := congrArg Account.engine (executed_of_ok hμ)
  rw [hend] at hfresh₁ ⊢
  -- the second unit, with the distances of the first one still there
  have hsecond := hsecond.noteAll hnew' (hnone _) hle' (Nat.le_refl _)
  have hlater := hfresh.noteAll (fun r hr => (index_of_mem_bound ha.parsed hr).2) hle
  have htwins' := hb.twins_self (T := Twin.between line _ _ _ _)
    ⟨fun site hsite => ⟨hfresh₁.holds hb hsite, hlater.holds hb hsite⟩, hline⟩
  rw [executed_append hμ']
  exact hsecond.executed htwins' fuel'

/-- A text as a whole is like its second part below empty lines, after the first part has run. -/
theorem Lives.alike_append_newline {unit' : List Stmt} {fuel' : Nat} (h : Lives s xs)
    (hline : ∀ l, line l l) (ha : Source.ReadsAs s.nextId a unit) (hok : (s.run fuel a).1 = .ok)
    (hb : Source.ReadsAs (s.run fuel a).2.nextId (Source.below (Source.linesBefore a) b) unit')
    (hfuel : fuel ≤ fuel') :
    Account.Alike line
        ((s.run fuel a).2.run fuel' (Source.below (Source.linesBefore a) b)).2.nextId
        (s.run (fuel' + unit.length) (a ++ "\n" ++ b)).2.nextId
        ((s.run fuel a).2.account fuel' (Source.below (Source.linesBefore a) b))
        (s.account (fuel' + unit.length) (a ++ "\n" ++ b)) ∧
      (s.run (fuel' + unit.length) (a ++ "\n" ++ b)).2.nextId =
        ((s.run fuel a).2.run fuel' (Source.below (Source.linesBefore a) b)).2.nextId := by
  obtain ⟨xs₁, hlives₁⟩ := h.exists_run fuel a
  have hfresh₁ := hlives₁.sound.fresh
  have haccount : s.account fuel a = (s.engine.noteAll (findings unit).bound).executed fuel unit :=
    Session.account_of_readsAs ha
  rw [Session.account_of_readsAs hb]
  rw [Session.status_run, haccount] at hok
  rw [Session.nextId_run] at hb hfresh₁
  rw [Session.engine_run, haccount] at hfresh₁ ⊢
  obtain ⟨hjoined, hnext, hbound⟩ := Source.readsAs_append_newline ha hb
  rw [Session.account_of_readsAs hjoined, Session.nextId_run, Session.nextId_run,
    Session.nextId_run, hnext, hbound, Engine.noteAll_append]
  exact ⟨(h.alike hline).engines.append hline h.sound.fresh ha rfl hok hfresh₁ hb rfl hfuel, rfl⟩

/-- Errors are noted according to the diagnostics. -/
theorem Session.SameErrors.run {s' : Session} {source' : String} {fuel' : Nat}
    (h : s.SameErrors s')
    (hreports : List.Forall₂ (Diagnostic.Alike line) (s.reports fuel source)
      (s'.reports fuel' source')) :
    (s.run fuel source).2.SameErrors (s'.run fuel' source').2 := by
  constructor
  · rw [hadError_run, hadError_run, h.hadError]
    exact congrArg (s.hadError || ·) (Diagnostic.Alike.any_eq hreports id)
  · rw [hadRuntimeError_run, hadRuntimeError_run, h.hadRuntimeError]
    exact congrArg (s.hadRuntimeError || ·) (Diagnostic.Alike.any_eq hreports not)

/-- Units with like accounts. -/
theorem Session.Agree.of_account {s' : Session} {source' : String} {fuel' : Nat}
    (hlives : ∃ xs, Lives s xs) (hlives' : ∃ xs, Lives s' xs) (hline : ∀ l, line l l)
    (herrors : s.SameErrors s')
    (haccount : Account.Alike line (s.run fuel source).2.nextId (s'.run fuel' source').2.nextId
      (s.account fuel source) (s'.account fuel' source'))
    (hle : (s.run fuel source).2.nextId ≤ (s'.run fuel' source').2.nextId) :
    Agree line (s.run fuel source) (s'.run fuel' source') (s.reports fuel source)
      (s'.reports fuel' source') := by
  have halike := Session.Alike.of_account hlives hlives' haccount hle
  refine ⟨?_, halike.output_eq, haccount.reports, herrors.run haccount.reports,
    halike.transcript hline⟩
  rw [status_run, status_run]
  exact haccount.status

theorem Session.Agree.trans {r r' r'' : RunStatus × Session} {ds ds' ds'' : List Diagnostic}
    (h : Agree line r r' ds ds') (h' : Agree (fun l l' => l = l') r' r'' ds' ds'') :
    Agree line r r'' ds ds'' where
  status := h'.status.trans h.status
  output := h'.output.trans h.output
  reports := Diagnostic.Alike.list_eq h'.reports ▸ h.reports
  errors := ⟨h'.errors.hadError.trans h.errors.hadError,
    h'.errors.hadRuntimeError.trans h.errors.hadRuntimeError⟩
  later events := Observation.Alike.list_eq (h'.later events) ▸ h.later events

/-- A text does the same when it stands further down. -/
theorem Session.Alike.agree_below {s' : Session} {k : Nat} (h : s.Alike line s')
    (hline : ∀ l, line l l) (hlower : ∀ l, line l (l + k)) (herrors : s.SameErrors s')
    (hs : Source.ReadsAs s.nextId b unit) (fuel : Nat) :
    Agree line (s.run fuel b) (s'.run fuel (Source.below k b)) (s.reports fuel b)
      (s'.reports fuel (Source.below k b)) := by
  obtain ⟨c, hc⟩ := Nat.exists_eq_add_of_le h.nextId_le
  obtain ⟨hscanned, htokens⟩ := Source.tokens_below k b
  obtain ⟨hs', hnext, hbound⟩ := hs.shift (c := c) (hscanned.mpr hs.scanned) htokens
  rw [← hc] at hs' hnext
  refine .of_account h.lives h.lives' hline herrors ?_ ?_
  · rw [account_of_readsAs hs, account_of_readsAs hs', nextId_run, nextId_run, hnext, hbound]
    exact h.executed hlower hc hs fuel
  · rw [nextId_run, nextId_run, hnext]
    exact Nat.le_add_right _ c

/-! ## The main result -/

/-- Runs two source texts, each as a unit. -/
def Session.runTwo (fuel : Nat) (a : String) (fuel' : Nat) (b : String) (s : Session) :
    RunStatus × Session :=
  (s.run fuel a).2.run fuel' b

/-- The diagnostics of two source texts, each run as a unit. -/
def Session.reportsTwo (fuel : Nat) (a : String) (fuel' : Nat) (b : String) (s : Session) :
    List Diagnostic :=
  s.reports fuel a ++ (s.run fuel a).2.reports fuel' b

/-- Two source texts with nothing wrong in them, of which the first ends without an error, do the
same as the text that consists of both with a new line between them: it ends like the second one,
with the same output and the same kinds of errors, and nothing that is run later tells the
difference.  The diagnostics are those
of the second text when it stands below as many empty lines as the first one takes; otherwise only
lines differ, by this number. -/
theorem Lives.split_unit (h : Lives s xs) (ha : Source.Accepted a) (hb : Source.Accepted b)
    (hok : (s.run fuel a).1 = .ok) :
    ∃ statements, ∀ fuel', fuel ≤ fuel' →
      Session.Agree (fun l l' => l = l')
          (s.runTwo fuel a fuel' (Source.below (Source.linesBefore a) b))
          (s.run (fuel' + statements) (a ++ "\n" ++ b))
          (s.reportsTwo fuel a fuel' (Source.below (Source.linesBefore a) b))
          (s.reports (fuel' + statements) (a ++ "\n" ++ b)) ∧
        Session.Agree (fun l l' => l' = l ∨ l' = l + Source.linesBefore a)
          (s.runTwo fuel a fuel' b) (s.run (fuel' + statements) (a ++ "\n" ++ b))
          (s.reportsTwo fuel a fuel' b) (s.reports (fuel' + statements) (a ++ "\n" ++ b)) := by
  obtain ⟨unit, ha⟩ := ha.exists_readsAs s.nextId
  obtain ⟨unit', hb⟩ := hb.exists_readsAs (s.run fuel a).2.nextId
  obtain ⟨hscanned, htokens⟩ := Source.tokens_below (Source.linesBefore a) b
  have hbelow := (hb.shift (c := 0) (hscanned.mpr hb.scanned) htokens).1
  obtain ⟨xs₁, hlives₁⟩ := h.exists_run fuel a
  have hquiet : s.reports fuel a = [] := by
    rw [Session.status_run, Session.account_of_readsAs ha] at hok
    rw [Session.reports, Session.account_of_readsAs ha]
    exact Outcome.reports_of_ok hok
  refine ⟨unit.length, fun fuel' hfuel => ?_⟩
  rw [Session.reportsTwo, Session.reportsTwo, hquiet, List.nil_append, List.nil_append]
  have hsame : ∀ l : Nat, l = l := fun _ => rfl
  obtain ⟨haccount, hnext⟩ := h.alike_append_newline hsame ha hok hbelow hfuel
  have herrors : (s.run fuel a).2.SameErrors s := by
    rw [Session.run_eq, hquiet]
    exact ⟨rfl, rfl⟩
  have hjoined := Session.Agree.of_account ⟨xs₁, hlives₁⟩ ⟨xs, h⟩ (fun _ => rfl) herrors haccount
    (Nat.le_of_eq hnext.symm)
  refine ⟨hjoined, Session.Agree.trans ?_ hjoined⟩
  exact (hlives₁.alike fun _ => .inl rfl).agree_below (fun _ => .inl rfl) (fun _ => .inr rfl)
    ⟨rfl, rfl⟩ hb fuel'

end

/-- The text `{var a;a;}` twice, on two lines or as two units. -/
theorem Lives.split_unit_blocks : ∃ statements,
    Lives Session.sample [] ∧ Source.Accepted "\x7bvar a;a;\x7d" ∧
      (Session.sample.run 6 "\x7bvar a;a;\x7d").1 = .ok ∧
      Session.Agree (fun l l' => l' = l ∨ l' = l + 1)
        (Session.sample.runTwo 6 "\x7bvar a;a;\x7d" 6 "\x7bvar a;a;\x7d")
        (Session.sample.run (6 + statements) "\x7bvar a;a;\x7d\n\x7bvar a;a;\x7d")
        (Session.sample.reportsTwo 6 "\x7bvar a;a;\x7d" 6 "\x7bvar a;a;\x7d")
        (Session.sample.reports (6 + statements) "\x7bvar a;a;\x7d\n\x7bvar a;a;\x7d") := by
  have hlives : Lives Session.sample [] := Lives.new 0 8 none none
  have haccepted : Source.Accepted "\x7bvar a;a;\x7d" := ⟨_, Execution.readsAs_sample⟩
  have hok : (Session.sample.run 6 "\x7bvar a;a;\x7d").1 = .ok := by
    rw [Session.status_run, Session.account_of_readsAs (s := Session.sample) Execution.readsAs_sample]
    decide
  obtain ⟨statements, hsplit⟩ := hlives.split_unit haccepted haccepted hok
  exact ⟨statements, hlives, haccepted, hok, (hsplit 6 (Nat.le_refl 6)).2⟩

end LoxWalk
