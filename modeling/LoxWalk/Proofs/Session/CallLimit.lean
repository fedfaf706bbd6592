import LoxWalk.Proofs.Execution.CallLimit
import LoxWalk.Proofs.Session.Histories

/-!
# A session with a larger limit on calls

A unit runs in two sessions that are the same but for their limits on calls
(`Session.withCallLimit`).  If it has no stack overflow under the smaller limit, then both sessions
report the same and are the same afterwards, again but for their limits: with what was printed, with
all scopes and instances, and with the diagnostics.
-/

namespace LoxWalk

/-! ## Engines -/

namespace Engine

/-- The engine with another limit on nested calls. -/
def withCallLimit (limit : Nat) (e : Engine) : Engine :=
  { e with maxCallDepth := limit }

variable {e : Engine} {fuel limit : Nat} {unit : List Stmt}

theorem noteAll_withCallLimit (e : Engine) (limit : Nat) (bound : List BoundReference) :
    (e.withCallLimit limit).noteAll bound = (e.noteAll bound).withCallLimit limit := by
  unfold noteAll
  refine List.foldl_hom (withCallLimit limit) fun e r => ?_
  rw [noteBound_eq, noteBound_eq]
  rfl

theorem executed_withCallLimit (hle : e.maxCallDepth ≤ limit)
    (hno : ∀ err, .runtime err ∈ (e.executed fuel unit).reports → err.fault ≠ .stackOverflow) :
    (e.withCallLimit limit).executed fuel unit =
      { e.executed fuel unit with engine := (e.executed fuel unit).engine.withCallLimit limit } := by
  rcases (Setting.follows (s := e.setting) hle fuel).executeAll unit e.machine with
    ⟨t, m, hr⟩ | hsame
  · rw [executed_of_error hr] at hno
    exact absurd rfl (hno _ (List.mem_singleton_self _))
  · cases hr : executeAll e.setting fuel unit e.machine with
    | ok _ m =>
      rw [executed_of_ok hr, executed_of_ok (e := e.withCallLimit limit) (hsame.trans hr)]
      rfl
    | error i m =>
      rw [executed_of_error hr, executed_of_error (e := e.withCallLimit limit) (hsame.trans hr)]
      rfl

theorem bound_withCallLimit (hle : e.maxCallDepth ≤ limit)
    (hno : ∀ err, .runtime err ∈ (e.bound fuel unit).reports → err.fault ≠ .stackOverflow) :
    (e.withCallLimit limit).bound fuel unit =
      { e.bound fuel unit with engine := (e.bound fuel unit).engine.withCallLimit limit } := by
  unfold bound at hno ⊢
  rw [noteAll_withCallLimit]
  cases herrors : (findings unit).errors with
  | nil =>
    rw [herrors] at hno
    exact executed_withCallLimit ((maxCallDepth_noteAll e _).symm ▸ hle) hno
  | cons err errs => rfl

end Engine

/-! ## Sessions -/

namespace Session

/-- The session with another limit on nested calls. -/
def withCallLimit (limit : Nat) (s : Session) : Session :=
  { s with engine := s.engine.withCallLimit limit }

theorem withCallLimit_reportAll (s : Session) (ds : List Diagnostic) (limit : Nat) :
    (s.reportAll ds).withCallLimit limit = (s.withCallLimit limit).reportAll ds :=
  (List.foldl_hom (withCallLimit limit) fun _ _ => rfl).symm

theorem account_withCallLimit {s : Session} {fuel limit : Nat} {source : String}
    (hle : s.engine.maxCallDepth ≤ limit)
    (hno : ∀ err, .runtime err ∈ s.reports fuel source → err.fault ≠ .stackOverflow) :
    (s.withCallLimit limit).account fuel source =
      { s.account fuel source with
        engine := (s.account fuel source).engine.withCallLimit limit } := by
  unfold reports at hno
  unfold account at hno ⊢
  cases hparsed : (Grammar.program s.nextId (Source.tokens source)).result with
  | error errors =>
    rw [show (s.withCallLimit limit).nextId = s.nextId from rfl, hparsed]
    rfl
  | ok unit =>
    rw [show (s.withCallLimit limit).nextId = s.nextId from rfl, hparsed]
    cases hscanned : Source.errors source with
    | nil =>
      rw [hparsed, hscanned] at hno
      exact Engine.bound_withCallLimit hle hno
    | cons fault faults => rfl

/-- A larger limit on calls only removes stack overflows.  A unit that has none under the limit
`few` does the same under every limit `many` that is not smaller: it ends with the same status,
reports the same, and leaves the same session behind but for the limit. -/
theorem run_of_larger_call_limit (s : Session) (fuel : Nat) (source : String) {few many : Nat}
    (hle : few ≤ many)
    (hno : ∀ err, .runtime err ∈ (s.withCallLimit few).reports fuel source →
      err.fault ≠ .stackOverflow) :
    (s.withCallLimit many).reports fuel source = (s.withCallLimit few).reports fuel source ∧
      (s.withCallLimit many).run fuel source =
        (((s.withCallLimit few).run fuel source).1,
          ((s.withCallLimit few).run fuel source).2.withCallLimit many) := by
  have haccount : (s.withCallLimit many).account fuel source = _ :=
    account_withCallLimit (s := s.withCallLimit few) hle hno
  have hreports : (s.withCallLimit many).reports fuel source =
      (s.withCallLimit few).reports fuel source := by
    rw [reports, haccount]
    rfl
  refine ⟨hreports, ?_⟩
  rw [run_eq, run_eq, withCallLimit_reportAll, hreports, haccount]
  rfl

/-- The unit `fun f()\x7b\x7df();`. -/
def callOnce : List Stmt :=
  [.fun_ ⟨⟨.identifier, "f", 1⟩, [], []⟩,
    .expression (.call (.var ⟨0⟩ ⟨.identifier, "f", 1⟩) ⟨.symbol .rightParen, ")", 1⟩ [])]

theorem readsAs_callOnce : Source.ReadsAs 0 "fun f()\x7b\x7df();" callOnce :=
  ⟨by decide +kernel, by cbv, by decide⟩

/-- One call at a time is enough for `fun f()\x7b\x7df();`, so two are no different. -/
theorem run_of_larger_call_limit_once :
    (∀ err, .runtime err ∈ (sample.withCallLimit 1).reports 9 "fun f()\x7b\x7df();" →
      err.fault ≠ .stackOverflow) ∧
      (sample.withCallLimit 2).run 9 "fun f()\x7b\x7df();" =
        (((sample.withCallLimit 1).run 9 "fun f()\x7b\x7df();").1,
          ((sample.withCallLimit 1).run 9 "fun f()\x7b\x7df();").2.withCallLimit 2) := by
  have hreports : (sample.withCallLimit 1).reports 9 "fun f()\x7b\x7df();" = [] := by
    rw [reports, account_of_readsAs (s := sample.withCallLimit 1) readsAs_callOnce]
    rfl
  have hno : ∀ err, .runtime err ∈ (sample.withCallLimit 1).reports 9 "fun f()\x7b\x7df();" →
      err.fault ≠ .stackOverflow := by
    rw [hreports]
    exact nofun
  exact ⟨hno, (run_of_larger_call_limit sample 9 "fun f()\x7b\x7df();" (by decide) hno).2⟩

end Session

end LoxWalk
