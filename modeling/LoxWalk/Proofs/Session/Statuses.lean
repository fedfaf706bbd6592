import LoxWalk.Proofs.Output.Limits
import LoxWalk.Proofs.Session.Histories

/-!
# What a session tells of its units

The status of a unit, the flags for errors and the lines in the channel for diagnostics are three
accounts of the same thing.  A unit is refused exactly if something is wrong with its source text
(`Source.refusals`), and then the channel is given precisely that; it ends with a runtime error
exactly if its execution was started and aborted, and then the channel is given one line
(`Session.run_eq_of_refused`, `Session.run_eq_of_aborts`).  A flag is set exactly if some unit since
the last reset ended accordingly (`Session.hadError_after`, `Session.hadRuntimeError_after`).

The channel for diagnostics may be exchanged for any other one at any time, full or not: nothing but
its own contents depends on it (`Session.withDiagnostics_afterTurns`).
-/

namespace LoxWalk

/-! ## What is wrong with a source text -/

/-- Reading tokens fails with at least one error. -/
theorem Grammar.errors_ne_nil_of_program_eq_error {n : Nat} {ts : List Token}
    {es : List ParseError} (h : (program n ts).result = .error es) : es ≠ [] := by
  rintro rfl
  unfold program conclude at h
  dsimp only at h
  split at h
  · cases h
  · rename_i hne
    exact hne (Except.error.inj h)

namespace Source

/-- The errors of the grammar in a source text. -/
def syntaxErrors (source : String) : List ParseError :=
  match (Grammar.program 0 (tokens source)).result with
  | .ok _ => []
  | .error es => es

/-- The static rules that a source text breaks, if it can be read at all. -/
def brokenRules (source : String) : List ResolveError :=
  match (Grammar.program 0 (tokens source)).result with
  | .ok unit => (findings unit).errors
  | .error _ => []

/-- What is wrong with a source text: first the errors of its lexemes and those of the grammar, and
if there are none, the rules that are broken. -/
def refusals (source : String) : List Diagnostic :=
  if errors source = [] ∧ syntaxErrors source = [] then
    (brokenRules source).map .resolve
  else
    (errors source).map .scan ++ (syntaxErrors source).map .parse

/-- What is wrong with a source text does not depend on the identities that are in use. -/
theorem syntaxErrors_of_error {n : Nat} {source : String} {es : List ParseError}
    (h : (Grammar.program n (tokens source)).result = .error es) : syntaxErrors source = es := by
  rw [← Nat.zero_add n, Grammar.program_add] at h
  unfold syntaxErrors
  cases hp : (Grammar.program 0 (tokens source)).result with
  | error es₀ =>
    rw [hp] at h
    exact Except.error.inj h
  | ok unit =>
    rw [hp] at h
    cases h

theorem rules_of_ok {n : Nat} {source : String} {unit : List Stmt}
    (h : (Grammar.program n (tokens source)).result = .ok unit) :
    syntaxErrors source = [] ∧ brokenRules source = (findings unit).errors := by
  rw [← Nat.zero_add n, Grammar.program_add] at h
  unfold syntaxErrors brokenRules
  cases hp : (Grammar.program 0 (tokens source)).result with
  | error es =>
    rw [hp] at h
    cases h
  | ok unit₀ =>
    rw [hp] at h
    obtain rfl := Except.ok.inj h
    refine ⟨rfl, ?_⟩
    dsimp only
    rw [findings_shiftAll_id]

/-- A source text is read as a unit, or something is wrong with it. -/
theorem readsAs_or_refusals_ne_nil (n : Nat) (source : String) :
    (∃ unit, ReadsAs n source unit) ∧ refusals source = [] ∨
      (∀ unit, ¬ ReadsAs n source unit) ∧ refusals source ≠ [] := by
  unfold refusals
  cases hp : (Grammar.program n (tokens source)).result with
  | error es =>
    have hne := Grammar.errors_ne_nil_of_program_eq_error hp
    refine .inr ⟨fun unit h => ?_, ?_⟩
    · have := hp.symm.trans h.parsed
      cases this
    · rw [syntaxErrors_of_error hp, if_neg fun h => hne h.2]
      simp [hne]
  | ok unit =>
    obtain ⟨hgrammar, hrules⟩ := rules_of_ok hp
    rw [hgrammar, hrules]
    by_cases hscan : errors source = []
    · rw [if_pos ⟨hscan, rfl⟩]
      by_cases hresolve : (findings unit).errors = []
      · rw [hresolve]
        exact .inl ⟨⟨unit, hscan, hp, hresolve⟩, rfl⟩
      · refine .inr ⟨fun unit' h => hresolve ?_, by simpa using hresolve⟩
        obtain rfl := Except.ok.inj (hp.symm.trans h.parsed)
        exact h.resolved
    · rw [if_neg fun h => hscan h.1]
      exact .inr ⟨fun unit' h => hscan h.scanned, by simpa using hscan⟩

/-- Something is wrong with a source text if it has an error of one of the three kinds. -/
theorem refusals_ne_nil_iff (source : String) :
    refusals source ≠ [] ↔ errors source ≠ [] ∨ syntaxErrors source ≠ [] ∨
      (errors source = [] ∧ syntaxErrors source = []) ∧ brokenRules source ≠ [] := by
  unfold refusals
  split
  · rename_i h
    simp [h.1, h.2]
  · rename_i h
    by_cases hscan : errors source = []
    · have hgrammar : syntaxErrors source ≠ [] := fun hs => h ⟨hscan, hs⟩
      simp [hscan, hgrammar]
    · simp [hscan]

end Source

/-! ## How an execution ends -/

/-- The diagnostic of an interruption that ends a unit with an error. -/
def Interrupt.diagnostic? : Interrupt → Option Diagnostic
  | .fault e => some (.runtime e)
  | .channelFull => some .channelFull
  | .returning _ => none
  | .outOfFuel => none

namespace Execution

/-- The execution of a unit is aborted, with this diagnostic. -/
def Aborts (x : Execution) (d : Diagnostic) : Prop :=
  ∃ i m, executeAll x.setting x.fuel x.unit x.machine = .error i m ∧ i.diagnostic? = some d

variable {x : Execution} {d d' : Diagnostic}

theorem Aborts.isStatic (h : x.Aborts d) : d.isStatic = false := by
  obtain ⟨i, m, -, hd⟩ := h
  cases i with
  | fault e => exact Option.some.inj hd ▸ rfl
  | channelFull => exact Option.some.inj hd ▸ rfl
  | returning v => cases hd
  | outOfFuel => cases hd

end Execution

namespace Engine

variable {e : Engine} {fuel : Nat} {unit : List Stmt}

/-- A unit that is aborted has one diagnostic. -/
theorem executed_of_aborts {d : Diagnostic}
    (h : Execution.Aborts ⟨e.setting, fuel, unit, e.machine⟩ d) :
    (e.executed fuel unit).status = .runtimeError ∧ (e.executed fuel unit).reports = [d] := by
  obtain ⟨i, m, hi, hd⟩ := h
  rw [executed_of_error hi]
  cases i with
  | fault e => exact ⟨rfl, congrArg (· :: []) (Option.some.inj hd)⟩
  | channelFull => exact ⟨rfl, congrArg (· :: []) (Option.some.inj hd)⟩
  | returning v => cases hd
  | outOfFuel => cases hd

/-- A unit that is not aborted has none, and comes to its end if the fuel lasts. -/
theorem executed_of_not_aborts
    (h : ∀ d, ¬ Execution.Aborts ⟨e.setting, fuel, unit, e.machine⟩ d) :
    (e.executed fuel unit).reports = [] ∧
      ((e.executed fuel unit).status = .ok ∨ (e.executed fuel unit).status = .outOfFuel) := by
  cases hr : executeAll e.setting fuel unit e.machine with
  | ok u m =>
    rw [executed_of_ok hr]
    exact ⟨rfl, .inl rfl⟩
  | error i m =>
    have hi := fun d hd => h d ⟨i, m, hr, hd⟩
    rw [executed_of_error hr]
    cases i with
    | returning v => exact ⟨rfl, .inl rfl⟩
    | outOfFuel => exact ⟨rfl, .inr rfl⟩
    | fault e => exact absurd rfl (hi _)
    | channelFull => exact absurd rfl (hi _)

end Engine

/-! ## What the channel for diagnostics is given -/

/-- Diagnostics as they are written, each on a line. -/
def Diagnostic.lines (ds : List Diagnostic) : String :=
  String.join (ds.map fun d => d.text ++ "\n")

namespace Channel

/-- Writing nothing leaves a channel as it is. -/
theorem write_empty (c : Channel) : (c.write "").2 = c := by
  obtain ⟨written, room⟩ := c
  cases room <;> simp [write]

/-- A channel takes two texts, one after the other, like one text. -/
theorem write_append (c : Channel) (a b : String) :
    ((c.write a).2.write b).2 = (c.write (a ++ b)).2 := by
  obtain ⟨written, room⟩ := c
  have hbytes : (a ++ b).toUTF8 = a.toUTF8 ++ b.toUTF8 := String.toByteArray_append
  have hsize : (a ++ b).toUTF8.size = a.toUTF8.size + b.toUTF8.size := by
    rw [hbytes, ByteArray.size_append]
  cases room with
  | none => simp only [write, hbytes, ByteArray.append_assoc]
  | some room =>
    unfold write
    dsimp only
    by_cases ha : a.toUTF8.size ≤ room
    · rw [if_pos ha]
      dsimp only
      by_cases hb : b.toUTF8.size ≤ room - a.toUTF8.size
      · rw [if_pos hb, if_pos (by omega), hbytes, ByteArray.append_assoc, ByteArray.size_append,
          Nat.sub_sub]
      · rw [if_neg hb, if_neg (by omega), hbytes, extract_append_of_size_le ha,
          ByteArray.append_assoc]
    · -- the first text fills the channel, and nothing is left for the second one
      have hcut : (a ++ b).toUTF8.extract 0 room = a.toUTF8.extract 0 room := by
        rw [hbytes, ByteArray.extract_append, Nat.zero_sub, Nat.sub_eq_zero_of_le (by omega),
          ByteArray.extract_same, ByteArray.append_empty]
      rw [if_neg ha, if_neg (by omega), hcut]
      dsimp only
      split
      · rename_i hb
        rw [ByteArray.size_eq_zero_iff.mp (Nat.le_zero.mp hb), ByteArray.append_empty]
        rfl
      · rw [ByteArray.extract_same, ByteArray.append_empty]

end Channel

namespace Session

variable {s : Session} {fuel : Nat} {source : String}

/-- Reports are given to the channel in their order, each on a line. -/
theorem diagnostics_reportAll (s : Session) (ds : List Diagnostic) :
    (s.reportAll ds).diagnostics = (s.diagnostics.write (Diagnostic.lines ds)).2 := by
  induction ds generalizing s with
  | nil => exact (Channel.write_empty _).symm
  | cons d ds ih =>
    have hlines : Diagnostic.lines (d :: ds) = d.text ++ "\n" ++ Diagnostic.lines ds := by
      simp [Diagnostic.lines, String.join_cons]
    rw [hlines, ← Channel.write_append]
    exact ih (s.report d)

/-- The channel for diagnostics after a unit. -/
theorem diagnostics_run (s : Session) (fuel : Nat) (source : String) :
    (s.run fuel source).2.diagnostics =
      (s.diagnostics.write (Diagnostic.lines (s.reports fuel source))).2 := by
  rw [run_eq, diagnostics_reportAll]
  rfl

/-! ## The status of a unit and its reports -/

/-- A source text with something wrong in it is refused, and that is what is reported. -/
theorem account_of_refusals (h : Source.refusals source ≠ []) :
    (s.account fuel source).status = .staticError ∧ s.reports fuel source = Source.refusals source := by
  unfold reports account Source.refusals at *
  cases hp : (Grammar.program s.nextId (Source.tokens source)).result with
  | error es =>
    have hne := Grammar.errors_ne_nil_of_program_eq_error hp
    rw [Source.syntaxErrors_of_error hp, if_neg fun h => hne h.2]
    exact ⟨rfl, rfl⟩
  | ok unit =>
    obtain ⟨hgrammar, hrules⟩ := Source.rules_of_ok hp
    rw [hgrammar, hrules] at h ⊢
    cases hscan : Source.errors source with
    | cons fault faults => exact ⟨rfl, by simp⟩
    | nil =>
      rw [hscan, if_pos ⟨rfl, rfl⟩] at h
      unfold Engine.bound
      dsimp only
      cases hresolve : (findings unit).errors with
      | nil => exact absurd (by rw [hresolve]; rfl) h
      | cons e es => exact ⟨rfl, rfl⟩

section

variable {unit : List Stmt} {d : Diagnostic}

/-- A unit whose execution is aborted. -/
theorem account_of_aborts (h : Source.ReadsAs s.nextId source unit)
    (hd : (s.execution fuel unit).Aborts d) :
    (s.account fuel source).status = .runtimeError ∧ s.reports fuel source = [d] := by
  rw [reports, account_of_readsAs h]
  refine Engine.executed_of_aborts ?_
  rwa [Engine.machine_noteAll]

/-- A unit whose execution is not aborted. -/
theorem account_of_not_aborts (h : Source.ReadsAs s.nextId source unit)
    (hd : ∀ d, ¬ (s.execution fuel unit).Aborts d) :
    s.reports fuel source = [] ∧
      ((s.account fuel source).status = .ok ∨ (s.account fuel source).status = .outOfFuel) := by
  rw [reports, account_of_readsAs h]
  refine Engine.executed_of_not_aborts ?_
  rwa [Engine.machine_noteAll]

end

/-- The three kinds of units: those that are refused, those whose execution is aborted, and all
others. -/
inductive Verdict (fuel : Nat) (source : String) (s : Session) : Prop where
  | refused (hne : Source.refusals source ≠ [])
      (hunread : ∀ unit, ¬ Source.ReadsAs s.nextId source unit)
      (hstatus : (s.account fuel source).status = .staticError)
      (hreports : s.reports fuel source = Source.refusals source)
  | aborted {unit : List Stmt} {d : Diagnostic} (hnone : Source.refusals source = [])
      (hunit : Source.ReadsAs s.nextId source unit) (hd : (s.execution fuel unit).Aborts d)
      (hstatus : (s.account fuel source).status = .runtimeError)
      (hreports : s.reports fuel source = [d])
  | quiet (hnone : Source.refusals source = [])
      (hd : ∀ unit d, Source.ReadsAs s.nextId source unit → ¬ (s.execution fuel unit).Aborts d)
      (hstatus : (s.account fuel source).status = .ok ∨
        (s.account fuel source).status = .outOfFuel)
      (hreports : s.reports fuel source = [])

theorem verdict (s : Session) (fuel : Nat) (source : String) : Verdict fuel source s := by
  rcases Source.readsAs_or_refusals_ne_nil s.nextId source with ⟨⟨unit, hunit⟩, hnone⟩ | ⟨hno, hne⟩
  · by_cases habort : ∃ d, (s.execution fuel unit).Aborts d
    · obtain ⟨d, hd⟩ := habort
      obtain ⟨hstatus, hreports⟩ := account_of_aborts hunit hd
      exact .aborted hnone hunit hd hstatus hreports
    · have hd := not_exists.mp habort
      obtain ⟨hreports, hstatus⟩ := account_of_not_aborts hunit hd
      refine .quiet hnone (fun unit' d h => ?_) hstatus hreports
      obtain rfl := Except.ok.inj (hunit.parsed.symm.trans h.parsed)
      exact hd d
  · obtain ⟨hstatus, hreports⟩ := account_of_refusals hne
    exact .refused hne hno hstatus hreports

/-- A unit is refused exactly if something is wrong with its source text. -/
theorem status_eq_staticError_iff (s : Session) (fuel : Nat) (source : String) :
    (s.run fuel source).1 = .staticError ↔ Source.refusals source ≠ [] := by
  rw [status_run]
  cases s.verdict fuel source with
  | refused hne _ hstatus _ => simp [hstatus, hne]
  | aborted hnone _ _ hstatus _ => simp [hstatus, hnone]
  | quiet hnone _ hstatus _ => rcases hstatus with hstatus | hstatus <;> simp [hstatus, hnone]

/-- A unit ends with a runtime error exactly if its execution was started and aborted. -/
theorem status_eq_runtimeError_iff (s : Session) (fuel : Nat) (source : String) :
    (s.run fuel source).1 = .runtimeError ↔
      ∃ unit d, Source.ReadsAs s.nextId source unit ∧ (s.execution fuel unit).Aborts d := by
  rw [status_run]
  cases s.verdict fuel source with
  | refused _ hunread hstatus _ =>
    rw [hstatus]
    exact ⟨nofun, fun ⟨unit, _, h, _⟩ => absurd h (hunread unit)⟩
  | aborted _ hunit hd hstatus _ => exact ⟨fun _ => ⟨_, _, hunit, hd⟩, fun _ => hstatus⟩
  | quiet _ hd hstatus _ =>
    have hne : (s.account fuel source).status ≠ .runtimeError := by
      rcases hstatus with hstatus | hstatus <;> simp [hstatus]
    exact ⟨fun h => absurd h hne, fun ⟨unit, d, h, h'⟩ => absurd h' (hd unit d h)⟩

/-- A unit that is neither refused nor aborted reports nothing. -/
theorem reports_of_quiet (h : (s.run fuel source).1 = .ok ∨ (s.run fuel source).1 = .outOfFuel) :
    s.reports fuel source = [] := by
  rw [status_run] at h
  cases s.verdict fuel source with
  | refused _ _ hstatus _ => simp [hstatus] at h
  | aborted _ _ _ hstatus _ => simp [hstatus] at h
  | quiet _ _ _ hreports => exact hreports

theorem isStatic_of_mem_refusals {d : Diagnostic} (h : d ∈ Source.refusals source) :
    d.isStatic = true := by
  unfold Source.refusals at h
  split at h
  · obtain ⟨e, -, rfl⟩ := List.mem_map.mp h
    rfl
  · rcases List.mem_append.mp h with h | h <;>
      · obtain ⟨e, -, rfl⟩ := List.mem_map.mp h
        rfl

/-- The first flag is set by units that are refused, and by no others. -/
theorem hadError_run_iff (s : Session) (fuel : Nat) (source : String) :
    (s.run fuel source).2.hadError = true ↔
      s.hadError = true ∨ (s.run fuel source).1 = .staticError := by
  rw [hadError_run, Bool.or_eq_true, status_run]
  refine or_congr_right ?_
  cases s.verdict fuel source with
  | refused hne _ hstatus hreports =>
    obtain ⟨d, hd⟩ := List.exists_mem_of_ne_nil _ hne
    rw [hstatus, hreports]
    exact ⟨fun _ => rfl, fun _ => List.any_eq_true.mpr ⟨d, hd, isStatic_of_mem_refusals hd⟩⟩
  | aborted _ _ hd hstatus hreports => simp [hstatus, hreports, hd.isStatic]
  | quiet _ _ hstatus hreports =>
    rcases hstatus with hstatus | hstatus <;> simp [hstatus, hreports]

/-- The second flag is set by units that are aborted, and by no others. -/
theorem hadRuntimeError_run_iff (s : Session) (fuel : Nat) (source : String) :
    (s.run fuel source).2.hadRuntimeError = true ↔
      s.hadRuntimeError = true ∨ (s.run fuel source).1 = .runtimeError := by
  rw [hadRuntimeError_run, Bool.or_eq_true, status_run]
  refine or_congr_right ?_
  cases s.verdict fuel source with
  | refused _ _ hstatus hreports =>
    have hall : ∀ d ∈ Source.refusals source, ¬ (!d.isStatic) = true := fun d hd => by
      simp [isStatic_of_mem_refusals hd]
    rw [hstatus, hreports]
    exact ⟨fun h => (List.any_eq_true.mp h).elim fun d hd => absurd hd.2 (hall d hd.1), nofun⟩
  | aborted _ _ hd hstatus hreports => simp [hstatus, hreports, hd.isStatic]
  | quiet _ _ hstatus hreports =>
    rcases hstatus with hstatus | hstatus <;> simp [hstatus, hreports]

/-! ## Histories -/

/-- Some unit since the last reset of a history ended with this status. -/
def EndedSinceReset (status : RunStatus) (events : List Event) (s : Session) : Prop :=
  ∃ before fuel source later, events = before ++ .unit fuel source :: later ∧ .reset ∉ later ∧
    ((s.after before).run fuel source).1 = status

variable {status : RunStatus} {events : List Event}

theorem after_append_singleton (s : Session) (events : List Event) (e : Event) :
    s.after (events ++ [e]) = (s.after events).happen e := by
  rw [after, List.foldl_append]
  rfl

theorem not_endedSinceReset_nil : ¬ s.EndedSinceReset status [] := by
  rintro ⟨before, fuel, source, later, h, -⟩
  simp at h

/-- What the last event of a history has to do with it. -/
theorem endedSinceReset_append_singleton (e : Event) :
    s.EndedSinceReset status (events ++ [e]) ↔
      e ≠ .reset ∧ s.EndedSinceReset status events ∨
        ∃ fuel source, e = .unit fuel source ∧ ((s.after events).run fuel source).1 = status := by
  constructor
  · rintro ⟨before, fuel, source, later, h, hreset, hstatus⟩
    rcases List.eq_nil_or_concat later with rfl | ⟨later, e', rfl⟩
    · obtain ⟨rfl, he⟩ := List.append_inj' h rfl
      exact .inr ⟨fuel, source, (List.cons.inj he).1, hstatus⟩
    · rw [List.concat_eq_append, ← List.cons_append, ← List.append_assoc] at h
      obtain ⟨rfl, he⟩ := List.append_inj' h rfl
      obtain rfl := (List.cons.inj he).1
      simp only [List.concat_eq_append, List.mem_append, not_or, List.mem_singleton] at hreset
      exact .inl ⟨Ne.symm hreset.2, before, fuel, source, later, rfl, hreset.1, hstatus⟩
  · rintro (⟨hne, before, fuel, source, later, rfl, hreset, hstatus⟩ | ⟨fuel, source, rfl, hstatus⟩)
    · refine ⟨before, fuel, source, later ++ [e], by simp, ?_, hstatus⟩
      simp [hreset, Ne.symm hne]
    · exact ⟨events, fuel, source, [], rfl, by simp, hstatus⟩

/-- A flag that units set by ending with a certain status is set after a history exactly if a unit
has ended so since the last reset. -/
theorem flag_after {flag : Session → Bool}
    (hrun : ∀ (s : Session) fuel source,
      flag (s.run fuel source).2 = true ↔ flag s = true ∨ (s.run fuel source).1 = status)
    (hreset : ∀ s : Session, flag s.resetErrors = false)
    (hclock : ∀ (s : Session) now, flag (s.happen (.clock now)) = flag s) (h : flag s = false)
    (events : List Event) : flag (s.after events) = true ↔ s.EndedSinceReset status events := by
  induction events using List.reverseRecOn with
  | nil => exact ⟨fun ht => absurd (h.symm.trans ht) nofun, fun ht => absurd ht not_endedSinceReset_nil⟩
  | append_singleton events e ih =>
    rw [after_append_singleton, endedSinceReset_append_singleton, ← ih]
    cases e with
    | unit fuel source =>
      have hunit := hrun (s.after events) fuel source
      simpa [happen] using hunit
    | reset => simp [happen, hreset]
    | clock now => simp [hclock]

theorem hadError_after (h : s.hadError = false) (events : List Event) :
    (s.after events).hadError = true ↔ s.EndedSinceReset .staticError events :=
  flag_after hadError_run_iff (fun _ => rfl) (fun _ _ => rfl) h events

theorem hadRuntimeError_after (h : s.hadRuntimeError = false) (events : List Event) :
    (s.after events).hadRuntimeError = true ↔ s.EndedSinceReset .runtimeError events :=
  flag_after hadRuntimeError_run_iff (fun _ => rfl) (fun _ _ => rfl) h events

/-! ## Another channel for diagnostics -/

/-- The session with another channel for diagnostics. -/
def withDiagnostics (channel : Channel) (s : Session) : Session :=
  { s with diagnostics := channel }

theorem withDiagnostics_reportAll (s : Session) (ds : List Diagnostic) (c c' : Channel) :
    ((s.withDiagnostics c).reportAll ds).withDiagnostics c' =
      (s.reportAll ds).withDiagnostics c' := by
  induction ds generalizing s c with
  | nil => rfl
  | cons d ds ih =>
    have hfirst : (s.withDiagnostics c).report d =
        (s.report d).withDiagnostics (c.writeLine d.text).2 := rfl
    rw [reportAll, List.foldl_cons, hfirst]
    exact ih (s.report d) _

/-- A unit ends in the same way with any channel for diagnostics, and leaves the same behind. -/
theorem run_withDiagnostics (s : Session) (fuel : Nat) (source : String) (c c' : Channel) :
    ((s.withDiagnostics c).run fuel source).1 = (s.run fuel source).1 ∧
      ((s.withDiagnostics c).run fuel source).2.withDiagnostics c' =
        (s.run fuel source).2.withDiagnostics c' := by
  rw [run_eq, run_eq]
  exact ⟨rfl, withDiagnostics_reportAll (s.moved _ _) _ c c'⟩

/-- What may happen to a session whose channel for diagnostics is in other hands: events, and from
time to time there is another channel. -/
inductive Turn where
  | event (e : Event)
  | exchange (channel : Channel)

/-- The event of a turn, if it is one. -/
def Turn.event? : Turn → Option Event
  | .event e => some e
  | .exchange _ => none

/-- The session after a turn. -/
def turn (s : Session) : Turn → Session
  | .event e => s.happen e
  | .exchange channel => s.withDiagnostics channel

/-- The session after several turns. -/
def afterTurns (s : Session) (turns : List Turn) : Session :=
  turns.foldl turn s

theorem happen_withDiagnostics (s : Session) (e : Event) (c c' : Channel) :
    ((s.withDiagnostics c).happen e).withDiagnostics c' = (s.happen e).withDiagnostics c' := by
  cases e with
  | unit fuel source => exact (s.run_withDiagnostics fuel source c c').2
  | reset => rfl
  | clock now => rfl

/-- Sessions that differ in their channels differ in nothing else after the same events, whatever
becomes of the channels meanwhile. -/
theorem withDiagnostics_afterTurns (turns : List Turn) {s t : Session}
    (h : ∀ c, s.withDiagnostics c = t.withDiagnostics c) (c : Channel) :
    (s.afterTurns turns).withDiagnostics c =
      (t.after (turns.filterMap Turn.event?)).withDiagnostics c := by
  induction turns generalizing s t with
  | nil => exact h c
  | cons turn turns ih =>
    cases turn with
    | event e =>
      refine ih fun c' => ?_
      change (s.happen e).withDiagnostics c' = (t.happen e).withDiagnostics c'
      rw [← s.happen_withDiagnostics e c' c', h c', happen_withDiagnostics]
    | exchange channel => exact ih h

/-! ## The main result -/

/-- In every history, with whatever channels for diagnostics: a unit is refused exactly if its text
has errors of the scanner, of the grammar or, when it has neither, of the static rules, and then the
channel is given these errors, those of the scanner first, each on a line; a unit ends with a
runtime error exactly if its execution was started and aborted, and then the channel is given one
line; after any other unit it is given nothing.  The flags tell how units have ended since the last
reset.  Status, flags and output are those of the same history without any exchange of channels. -/
theorem statuses_flags_and_diagnostics_agree (engine : Engine) (limit : Option Nat)
    (turns : List Turn) (fuel : Nat) (source : String) :
    let events := turns.filterMap Turn.event?
    let t := (new engine limit).after events
    let s := (new engine limit).afterTurns turns
    let status := (s.run fuel source).1
    let diagnostics := (s.run fuel source).2.diagnostics
    (status = .staticError ↔ Source.errors source ≠ [] ∨ Source.syntaxErrors source ≠ [] ∨
        (Source.errors source = [] ∧ Source.syntaxErrors source = []) ∧
          Source.brokenRules source ≠ []) ∧
      (status = .staticError →
        diagnostics = (s.diagnostics.write (Diagnostic.lines (Source.refusals source))).2) ∧
      (status = .runtimeError ↔
        ∃ unit d, Source.ReadsAs s.nextId source unit ∧ (s.execution fuel unit).Aborts d) ∧
      (∀ unit d, Source.ReadsAs s.nextId source unit → (s.execution fuel unit).Aborts d →
        diagnostics = (s.diagnostics.write (d.text ++ "\n")).2) ∧
      (status = .ok ∨ status = .outOfFuel → diagnostics = s.diagnostics) ∧
      (s.hadError = true ↔ (new engine limit).EndedSinceReset .staticError events) ∧
      (s.hadRuntimeError = true ↔ (new engine limit).EndedSinceReset .runtimeError events) ∧
      status = (t.run fuel source).1 ∧ s.engine.machine.output = t.engine.machine.output := by
  intro events t s status diagnostics
  have hdiagnostics : diagnostics = _ := s.diagnostics_run fuel source
  have hsame : ∀ c, s.withDiagnostics c = t.withDiagnostics c :=
    withDiagnostics_afterTurns turns fun _ => rfl
  have hengine : s.engine = t.engine := congrArg (·.engine) (hsame s.diagnostics)
  have hadError : s.hadError = t.hadError := congrArg (·.hadError) (hsame s.diagnostics)
  have hadRuntimeError : s.hadRuntimeError = t.hadRuntimeError :=
    congrArg (·.hadRuntimeError) (hsame s.diagnostics)
  refine ⟨?_, fun h => ?_, s.status_eq_runtimeError_iff fuel source, fun unit d hunit hd => ?_,
    fun h => ?_, ?_, ?_, ?_, congrArg (·.machine.output) hengine⟩
  · rw [← Source.refusals_ne_nil_iff]
    exact s.status_eq_staticError_iff fuel source
  · rw [hdiagnostics, (account_of_refusals ((s.status_eq_staticError_iff fuel source).mp h)).2]
  · rw [hdiagnostics, (account_of_aborts hunit hd).2, Diagnostic.lines]
    simp
  · rw [hdiagnostics, reports_of_quiet h]
    exact Channel.write_empty _
  · rw [← hadError_after rfl events, hadError]
  · rw [← hadRuntimeError_after rfl events, hadRuntimeError]
  · have hstatus := (s.run_withDiagnostics fuel source s.diagnostics s.diagnostics).1
    rw [hsame, (t.run_withDiagnostics fuel source _ s.diagnostics).1] at hstatus
    exact hstatus.symm

end Session

end LoxWalk
