import LoxWalk.Proofs.Session.Histories
import LoxWalk.Proofs.Simulation.Lines

/-!
# Lines reach diagnostics and nothing else

A session may be given units as tokens (`Session.runTokens`), which need not come from a source text.
If the tokens are moved to other lines, then the same programs are read, the same rules are broken,
the same distances are noted, and the execution ends in the same way with the same output; the
diagnostics are the same, one by one, except for their lines (`Session.SameButLines.account`).

The lines of a unit stay in the session, in the bodies of functions that later units call.  So the
sessions are not the same afterwards; what is kept is that their machines are related by
`Twin.lines` and that nothing else differs (`Engine.SameButLines`).  Two histories whose tokens
differ in their lines are both compared with the history in which every token stands on line 0.
-/

namespace LoxWalk

/-- A diagnostic without its line. -/
def Diagnostic.unlined : Diagnostic → Diagnostic
  | scan e => .scan { e with line := 0 }
  | parse e => .parse (e.relined fun _ => 0)
  | resolve e => .resolve (e.relined fun _ => 0)
  | runtime e => .runtime { e with line := 0 }
  | channelFull => .channelFull

theorem Diagnostic.Alike.unlined_eq {line : Nat → Nat → Prop} {d d' : Diagnostic}
    (h : Alike line d d') : d'.unlined = d.unlined := by
  cases h <;> rfl

theorem Diagnostic.Alike.map_unlined_eq {line : Nat → Nat → Prop} {ds ds' : List Diagnostic}
    (h : List.Forall₂ (Alike line) ds ds') :
    ds'.map Diagnostic.unlined = ds.map Diagnostic.unlined := by
  induction h with
  | nil => rfl
  | cons hd _ ih => rw [List.map_cons, List.map_cons, hd.unlined_eq, ih]

/-! ## Engines -/

/-- Two engines that differ in the lines of the code that is on their machines, and in nothing
else. -/
structure Engine.SameButLines (e e' : Engine) : Prop where
  rest : ∃ μ, e' = e.withMachine μ
  globals : e.globals = .root ⟨0⟩
  scope : e.machine.scope = .root ⟨0⟩
  host : ∃ now, e.host = .clockAt now
  machines : ∃ W, (Twin.lines e.distances).Machines W e.machine e'.machine

/-- Two accounts that differ in lines only. -/
structure Account.SameButLines (a a' : Account) : Prop where
  status : a'.status = a.status
  reports : a'.reports.map Diagnostic.unlined = a.reports.map Diagnostic.unlined
  engines : a.engine.SameButLines a'.engine

namespace Engine

namespace SameButLines

variable {e e' : Engine} {x : Extent} {unit unit' : List Stmt}

theorem distances_eq (h : e.SameButLines e') : e'.distances = e.distances := by
  obtain ⟨μ, rfl⟩ := h.rest
  rfl

theorem output_eq (h : e.SameButLines e') : e'.machine.output = e.machine.output := by
  obtain ⟨W, hmachines⟩ := h.machines
  exact hmachines.output

theorem settings (h : e.SameButLines e') :
    (Twin.lines e.distances).Settings e.setting e'.setting := by
  obtain ⟨⟨μ, rfl⟩, hglobals, -, ⟨now, hnow⟩, -⟩ := h
  refine ⟨hglobals, hglobals, rfl, ⟨now, hnow, hnow⟩, ?_⟩
  rintro _ id id' d ⟨rfl, hd⟩
  exact ⟨hd, hd⟩

/-- The same distances are noted on both sides. -/
theorem noteAll (h : e.SameButLines e') (bound : List BoundReference) :
    (e.noteAll bound).SameButLines (e'.noteAll bound) := by
  obtain ⟨⟨μ, rfl⟩, hglobals, hscope, hhost, W, hmachines⟩ := h
  refine ⟨⟨μ, noteAll_withMachine e μ bound⟩, ?_, ?_, ?_, W, ?_⟩
  · rw [globals_noteAll, hglobals]
  · rw [machine_noteAll, hscope]
  · rw [host_noteAll]
    exact hhost
  · rw [machine_noteAll, machine_noteAll]
    exact Twin.lines_machines _ hmachines

/-- Units that differ in their lines are executed. -/
theorem executed (h : e.SameButLines e')
    (hunit : Stmt.AllTwins (Twin.lines e.distances) x [false] unit unit') (fuel : Nat) :
    (e.executed fuel unit).SameButLines (e'.executed fuel unit') := by
  obtain ⟨W, hmachines⟩ := h.machines
  have haccounts := Twin.accounts_of_twins h.settings hmachines h.scope rfl hunit fuel
  obtain ⟨W', -, hmachines'⟩ := haccounts.machines
  refine ⟨haccounts.status, Diagnostic.Alike.map_unlined_eq
    (haccounts.reports.imp fun _ _ hd => hd.alike rfl), ?_⟩
  -- what the end of a unit forgets does not depend on the machine
  obtain ⟨⟨μ, rfl⟩, hglobals, -, hhost, -⟩ := h
  simp only [engine_executed] at hmachines' ⊢
  exact ⟨⟨_, rfl⟩, hglobals, hglobals, hhost, W', Twin.lines_machines _ hmachines'⟩

/-- A unit is bound, and executed if it breaks no rule; on the second side it stands on other
lines. -/
theorem bound (h : e.SameButLines e') (move : Nat → Nat) (fuel : Nat) (unit : List Stmt) :
    (e.bound fuel unit).SameButLines (e'.bound fuel (Stmt.shiftAll 0 move unit)) := by
  have hnoted := h.noteAll (findings unit).bound
  unfold Engine.bound
  rw [findings_shiftAll, Findings.shift, BoundReference.map_renumber_zero]
  dsimp only
  cases herrors : (findings unit).errors with
  | nil => exact hnoted.executed (Twin.lines_stmts move .top [false] unit herrors) fuel
  | cons fault faults =>
    refine ⟨rfl, ?_, hnoted⟩
    simp only [List.map_cons, List.map_map]
    rfl

end SameButLines

end Engine

/-! ## Units that are given as tokens -/

namespace Session

/-- Runs one unit that is given as tokens. -/
def runTokens (fuel : Nat) (ts : List Token) (s : Session) : RunStatus × Session :=
  let parsed := Grammar.program s.nextId ts
  let s₁ := { s with nextId := parsed.nextId }
  match parsed.result with
  | .error errors => (.staticError, s₁.reportAll (errors.map .parse))
  | .ok unit => s₁.bindAndExecute fuel unit

/-- The account of a unit that is given as tokens. -/
def tokensAccount (fuel : Nat) (ts : List Token) (s : Session) : Account :=
  match (Grammar.program s.nextId ts).result with
  | .error errors => ⟨.staticError, s.engine, errors.map .parse⟩
  | .ok unit => s.engine.bound fuel unit

variable {s s' : Session} {fuel : Nat} {source : String}

/-- A source text without faults is run by running its tokens. -/
theorem run_eq_runTokens (h : Source.errors source = []) :
    s.run fuel source = s.runTokens fuel (Source.tokens source) := by
  unfold run runTokens
  rw [h]
  dsimp only
  cases (Grammar.program s.nextId (Source.tokens source)).result <;> rfl

theorem runTokens_eq (s : Session) (fuel : Nat) (ts : List Token) :
    s.runTokens fuel ts = ((s.tokensAccount fuel ts).status,
      (s.moved (s.tokensAccount fuel ts).engine (Grammar.program s.nextId ts).nextId).reportAll
        (s.tokensAccount fuel ts).reports) := by
  unfold runTokens tokensAccount
  dsimp only
  cases (Grammar.program s.nextId ts).result with
  | error errors => rfl
  | ok unit => exact bindAndExecute_eq _ fuel unit

/-- What may be given to a session: anything that can happen to it, and units as tokens. -/
inductive Input where
  | event (e : Event)
  | tokens (fuel : Nat) (ts : List Token)

/-- The same with every token on line 0. -/
def Input.unlined : Input → Input
  | .event e => .event e
  | .tokens fuel ts => .tokens fuel (ts.map Token.unlined)

/-- The session after something was given to it. -/
def given (s : Session) : Input → Session
  | .event e => s.happen e
  | .tokens fuel ts => (s.runTokens fuel ts).2

/-- The session after several things were given to it. -/
def afterInputs (s : Session) (inputs : List Input) : Session :=
  inputs.foldl given s

/-- Two sessions that differ in lines only; the channels for diagnostics, in which lines are
written, are left out. -/
structure SameButLines (s s' : Session) : Prop where
  nextId : s'.nextId = s.nextId
  hadError : s'.hadError = s.hadError
  hadRuntimeError : s'.hadRuntimeError = s.hadRuntimeError
  engines : s.engine.SameButLines s'.engine

/-- Errors of one kind are among the diagnostics, on whatever lines. -/
theorem any_of_map_unlined_eq {ds ds' : List Diagnostic}
    (h : ds'.map Diagnostic.unlined = ds.map Diagnostic.unlined) (p : Bool → Bool) :
    ds'.any (fun d => p d.isStatic) = ds.any fun d => p d.isStatic := by
  have hunlined (d : Diagnostic) : d.unlined.isStatic = d.isStatic := by cases d <;> rfl
  have hany (ds : List Diagnostic) : ds.any (fun d => p d.isStatic) =
      (ds.map Diagnostic.unlined).any fun d => p d.isStatic := by
    simp only [List.any_map, Function.comp_def, hunlined]
  rw [hany ds, hany ds', h]

namespace SameButLines

/-- Reports that differ in lines only. -/
theorem reportAll {ds ds' : List Diagnostic} {e e' : Engine} (h : s.SameButLines s') (n : Nat)
    (he : e.SameButLines e')
    (hds : ds'.map Diagnostic.unlined = ds.map Diagnostic.unlined) :
    ((s.moved e n).reportAll ds).SameButLines ((s'.moved e' n).reportAll ds') := by
  refine ⟨?_, ?_, ?_, ?_⟩
  · rw [nextId_reportAll, nextId_reportAll]
    rfl
  · rw [hadError_reportAll, hadError_reportAll, any_of_map_unlined_eq hds fun b => b]
    exact congrArg (· || _) h.hadError
  · rw [hadRuntimeError_reportAll, hadRuntimeError_reportAll, any_of_map_unlined_eq hds not]
    exact congrArg (· || _) h.hadRuntimeError
  · rw [engine_reportAll, engine_reportAll]
    exact he

/-- The same tokens, on other lines on the second side. -/
theorem account (h : s.SameButLines s') (move : Nat → Nat) (fuel : Nat) (ts : List Token) :
    (s.tokensAccount fuel ts).SameButLines
      (s'.tokensAccount fuel (ts.map (Token.relined move))) := by
  unfold tokensAccount
  rw [h.nextId, Grammar.program_relined, Parsed.shift]
  cases (Grammar.program s.nextId ts).result with
  | ok unit => exact h.engines.bound move fuel unit
  | error errors =>
    refine ⟨rfl, ?_, h.engines⟩
    dsimp only [Except.map, Except.mapError]
    rw [List.map_map, List.map_map, List.map_map]
    rfl

theorem runTokens (h : s.SameButLines s') (move : Nat → Nat) (fuel : Nat) (ts : List Token) :
    (s.runTokens fuel ts).2.SameButLines
      (s'.runTokens fuel (ts.map (Token.relined move))).2 := by
  have haccount := h.account move fuel ts
  have hnext : (Grammar.program s'.nextId (ts.map (Token.relined move))).nextId =
      (Grammar.program s.nextId ts).nextId := by
    rw [h.nextId, Grammar.program_relined]
    rfl
  rw [runTokens_eq, runTokens_eq, hnext]
  exact h.reportAll _ haccount.engines haccount.reports

/-- The same source text on both sides. -/
theorem run (h : s.SameButLines s') (fuel : Nat) (source : String) :
    (s.run fuel source).2.SameButLines (s'.run fuel source).2 := by
  cases hsource : Source.errors source with
  | nil =>
    have htokens : (Source.tokens source).map (Token.relined id) = Source.tokens source :=
      List.map_id _
    have hrun := h.runTokens id fuel (Source.tokens source)
    rwa [htokens, ← run_eq_runTokens hsource, ← run_eq_runTokens hsource] at hrun
  | cons fault faults =>
    -- nothing is executed, and what is reported does not depend on the session
    have haccount : ∃ ds, s.account fuel source = ⟨.staticError, s.engine, ds⟩ ∧
        s'.account fuel source = ⟨.staticError, s'.engine, ds⟩ := by
      unfold Session.account
      rw [h.nextId, hsource]
      cases (Grammar.program s.nextId (Source.tokens source)).result with
      | error errors => exact ⟨_, rfl, rfl⟩
      | ok unit => exact ⟨_, rfl, rfl⟩
    obtain ⟨ds, ha, ha'⟩ := haccount
    rw [run_eq, run_eq, reports, reports, ha, ha', h.nextId]
    exact h.reportAll _ h.engines rfl

theorem happen (h : s.SameButLines s') (e : Event) :
    (s.happen e).SameButLines (s'.happen e) := by
  cases e with
  | unit fuel source => exact h.run fuel source
  | reset => exact ⟨h.nextId, rfl, rfl, h.engines⟩
  | clock now =>
    obtain ⟨hnextId, hadError, hadRuntimeError, ⟨μ, hμ⟩, hglobals, hscope, -, hmachines⟩ := h
    refine ⟨hnextId, hadError, hadRuntimeError, ⟨μ, ?_⟩, hglobals, hscope, ⟨now, rfl⟩, hmachines⟩
    exact congrArg (fun e : Engine => { e with host := .clockAt now }) hμ

/-- Histories, without any lines on the second side. -/
theorem afterInputs (h : s.SameButLines s') (inputs : List Input) :
    (s.afterInputs inputs).SameButLines (s'.afterInputs (inputs.map Input.unlined)) := by
  induction inputs generalizing s s' with
  | nil => exact h
  | cons input inputs ih =>
    cases input with
    | event e => exact ih (h.happen e)
    | tokens fuel ts => exact ih (h.runTokens _ fuel ts)

end SameButLines

end Session

/-- Every session is related to itself. -/
theorem Lives.sameButLines {s : Session} {xs : List Execution} (h : Lives s xs) :
    s.SameButLines s := by
  have hsound := h.sound
  have hroot := h.globals_eq
  have hallows : (Twin.lines s.engine.distances).Allows
      (World.of xs s.engine.distances s.engine.globals).known 0 id :=
    ⟨fun site hsite => ⟨rfl, hsite.2⟩, fun _ => trivial⟩
  have hlt := hsound.globals
  rw [hroot] at hlt
  have hmachines := hsound.store.machines hallows hroot hlt hroot.symm
  exact ⟨rfl, rfl, rfl, ⟨_, rfl⟩, hroot, hsound.scope.trans hroot, hsound.host, _, hmachines⟩

/-! ## The main result -/

/-- Two units that are given as tokens, in two sessions: except for lines, the same becomes of
them. -/
structure Session.SameUnits (fuel : Nat) (ts ts' : List Token) (s s' : Session) : Prop where
  nextId : s'.nextId = s.nextId
  /-- Both are trees or both have errors, also if `k` more identities are in use. -/
  parsed : ∀ n k, (Grammar.program (n + k) ts').shift 0 (fun _ => 0) =
    (Grammar.program n ts).shift k fun _ => 0
  /-- The trees have the same distances, and break the same rules. -/
  bound : ∀ n unit unit', (Grammar.program n ts).result = .ok unit →
    (Grammar.program n ts').result = .ok unit' →
      (findings unit').shift 0 (fun _ => 0) = (findings unit).shift 0 fun _ => 0
  status : (s'.runTokens fuel ts').1 = (s.runTokens fuel ts).1
  distances : (s'.runTokens fuel ts').2.engine.distances = (s.runTokens fuel ts).2.engine.distances
  output : (s'.runTokens fuel ts').2.engine.machine.output =
    (s.runTokens fuel ts).2.engine.machine.output
  reports : (s'.tokensAccount fuel ts').reports.map Diagnostic.unlined =
    (s.tokensAccount fuel ts).reports.map Diagnostic.unlined
  hadError : (s'.runTokens fuel ts').2.hadError = (s.runTokens fuel ts).2.hadError
  hadRuntimeError : (s'.runTokens fuel ts').2.hadRuntimeError =
    (s.runTokens fuel ts).2.hadRuntimeError

/-- Of all that becomes of a unit only the lines of its diagnostics depend on the lines of its tokens
and on those of everything that was given to the session before: the same units are accepted, the
trees are equal but for their lines and for the identities that were in use, the same distances are
noted, the unit ends in the same way with the same output, and the diagnostics correspond one to one,
with the same kind, the same place or lexeme and the same message. -/
theorem Lives.lines_reach_only_diagnostics {s : Session} {xs : List Execution} (h : Lives s xs)
    {before before' : List Session.Input}
    (hbefore : before'.map Session.Input.unlined = before.map Session.Input.unlined)
    {ts ts' : List Token} (hts : ts'.map Token.unlined = ts.map Token.unlined) (fuel : Nat) :
    Session.SameUnits fuel ts ts' (s.afterInputs before) (s.afterInputs before') := by
  -- both are compared with the history without lines
  have hr := h.sameButLines.afterInputs before
  have hr' := h.sameButLines.afterInputs before'
  have ha := hr.account (fun _ => 0) fuel ts
  have ha' := hr'.account (fun _ => 0) fuel ts'
  have hrun := hr.runTokens (fun _ => 0) fuel ts
  have hrun' := hr'.runTokens (fun _ => 0) fuel ts'
  unfold Token.unlined at hts
  rw [hts] at ha' hrun'
  rw [hbefore] at hr' ha' hrun'
  have hparsed : ∀ n k, (Grammar.program (n + k) ts').shift 0 (fun _ => 0) =
      (Grammar.program n ts).shift k fun _ => 0 := by
    intro n k
    rw [← Grammar.program_relined, ← Grammar.program_shift, hts]
  refine ⟨hr'.nextId.symm.trans hr.nextId, hparsed, ?_, ?_, ?_, ?_,
    ha'.reports.symm.trans ha.reports, hrun'.hadError.symm.trans hrun.hadError,
    hrun'.hadRuntimeError.symm.trans hrun.hadRuntimeError⟩
  · intro n unit unit' hunit hunit'
    have htrees := congrArg Parsed.result (hparsed n 0)
    rw [Nat.add_zero, Parsed.shift, Parsed.shift, hunit, hunit'] at htrees
    rw [← findings_shiftAll, ← findings_shiftAll, Except.ok.inj htrees]
  · rw [Session.runTokens_eq, Session.runTokens_eq]
    exact ha'.status.symm.trans ha.status
  · exact hrun'.engines.distances_eq.symm.trans hrun.engines.distances_eq
  · exact hrun'.engines.output_eq.symm.trans hrun.engines.output_eq

/-- The tokens of `fun f(){-nil;}`. -/
def Session.sampleFunction (line : Nat) : List Token :=
  [⟨.keyword .fun_, "fun", line⟩, ⟨.identifier, "f", line⟩, ⟨.symbol .leftParen, "(", line⟩,
    ⟨.symbol .rightParen, ")", line⟩, ⟨.symbol .leftBrace, "\x7b", line⟩,
    ⟨.symbol .minus, "-", line⟩, ⟨.keyword .nil_, "nil", line⟩, ⟨.symbol .semicolon, ";", line⟩,
    ⟨.symbol .rightBrace, "\x7d", line⟩, ⟨.eof, "", line⟩]

/-- The tokens of `f();`. -/
def Session.sampleCall (line : Nat) : List Token :=
  [⟨.identifier, "f", line⟩, ⟨.symbol .leftParen, "(", line⟩, ⟨.symbol .rightParen, ")", line⟩,
    ⟨.symbol .semicolon, ";", line⟩, ⟨.eof, "", line⟩]

/-- A function on line 1 or 3 is called on line 2 or 1. -/
theorem Lives.lines_reach_only_diagnostics_of_call :
    Lives Session.sample [] ∧
      [Session.Input.tokens 12 (Session.sampleFunction 3)].map Session.Input.unlined =
        [Session.Input.tokens 12 (Session.sampleFunction 1)].map Session.Input.unlined ∧
      (Session.sampleCall 1).map Token.unlined = (Session.sampleCall 2).map Token.unlined ∧
      Session.SameUnits 12 (Session.sampleCall 2) (Session.sampleCall 1)
        (Session.sample.afterInputs [.tokens 12 (Session.sampleFunction 1)])
        (Session.sample.afterInputs [.tokens 12 (Session.sampleFunction 3)]) := by
  have hlives : Lives Session.sample [] := Lives.new 0 8 none none
  have hbefore : [Session.Input.tokens 12 (Session.sampleFunction 3)].map Session.Input.unlined =
      [Session.Input.tokens 12 (Session.sampleFunction 1)].map Session.Input.unlined := rfl
  have hcall : (Session.sampleCall 1).map Token.unlined = (Session.sampleCall 2).map Token.unlined :=
    rfl
  exact ⟨hlives, hbefore, hcall, hlives.lines_reach_only_diagnostics hbefore hcall 12⟩

/-- The call fails on the line of the function, which was given with an earlier unit. -/
example (line : Nat) :
    ((Session.sample.afterInputs [.tokens 12 (Session.sampleFunction line)]).tokensAccount 12
      (Session.sampleCall 9)).reports = [.runtime ⟨line, "-", .operandNotNumber⟩] := by
  cbv

end LoxWalk
