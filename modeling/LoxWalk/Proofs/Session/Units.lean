import LoxWalk.Session
import LoxWalk.Proofs.Execution.Moments
import LoxWalk.Proofs.Grammar.Acceptance

/-!
# The units of a session

A source text is read as a unit if nothing is wrong with it (`Source.ReadsAs`).  Only then is
anything executed, and `Session.run_of_readsAs` says what: the statements of the unit, on the machine
that the earlier units left behind, with the distances of the unit noted.

`Lives s xs` says that the session `s` has come to where it is by running units, of which those in
`xs` were executed, the latest first.
-/

namespace LoxWalk

/-- A source text with nothing wrong in it, and the unit that it is read as when `n` is the next
free identity. -/
structure Source.ReadsAs (n : Nat) (source : String) (unit : List Stmt) : Prop where
  scanned : Source.errors source = []
  parsed : (Grammar.program n (Source.tokens source)).result = .ok unit
  resolved : (findings unit).errors = []

/-! ## Engines -/

namespace Engine

variable (e : Engine)

/-- The first distances are noted for the rest. -/
theorem noteAll_cons (r : BoundReference) (bound : List BoundReference) :
    e.noteAll (r :: bound) = (e.noteBound r).noteAll bound := rfl

/-- The distances of two units are noted one after the other. -/
theorem noteAll_append (bound bound' : List BoundReference) :
    e.noteAll (bound ++ bound') = (e.noteAll bound).noteAll bound' :=
  List.foldl_append

/-- Noting a distance changes what is known about references and nothing else. -/
theorem noteBound_eq (r : BoundReference) : e.noteBound r =
    { e with
      distances := e.distances.note r.id r.distance
      unitReferences := if r.extent = .unit then r.id :: e.unitReferences
        else e.unitReferences } := by
  unfold noteBound
  cases r.extent <;> rfl

/-- The engine with another machine. -/
def withMachine (μ : Machine) (e : Engine) : Engine :=
  { e with machine := μ }

/-- Noting distances has nothing to do with the machine. -/
theorem noteAll_withMachine (μ : Machine) (bound : List BoundReference) :
    (e.withMachine μ).noteAll bound = (e.noteAll bound).withMachine μ := by
  induction bound generalizing e with
  | nil => rfl
  | cons r bound ih =>
    have hfirst : (e.withMachine μ).noteBound r = (e.noteBound r).withMachine μ := by
      rw [noteBound_eq, noteBound_eq]
      rfl
    rw [noteAll_cons, hfirst, ih, noteAll_cons]

theorem exists_noteAll_eq (bound : List BoundReference) : ∃ distances unitReferences,
    e.noteAll bound = { e with distances := distances, unitReferences := unitReferences } := by
  induction bound generalizing e with
  | nil => exact ⟨e.distances, e.unitReferences, rfl⟩
  | cons r bound ih =>
    obtain ⟨distances, unitReferences, h⟩ := ih (e.noteBound r)
    refine ⟨distances, unitReferences, ?_⟩
    rw [noteAll_cons, h, noteBound_eq]

variable (bound : List BoundReference)

@[simp]
theorem machine_noteAll : (e.noteAll bound).machine = e.machine := by
  obtain ⟨_, _, h⟩ := e.exists_noteAll_eq bound
  rw [h]

@[simp]
theorem globals_noteAll : (e.noteAll bound).globals = e.globals := by
  obtain ⟨_, _, h⟩ := e.exists_noteAll_eq bound
  rw [h]

@[simp]
theorem host_noteAll : (e.noteAll bound).host = e.host := by
  obtain ⟨_, _, h⟩ := e.exists_noteAll_eq bound
  rw [h]

@[simp]
theorem maxCallDepth_noteAll : (e.noteAll bound).maxCallDepth = e.maxCallDepth := by
  obtain ⟨_, _, h⟩ := e.exists_noteAll_eq bound
  rw [h]

variable {e bound} {id : NodeId}

/-- Other references keep their distance. -/
theorem distance?_noteAll_of_forall_ne (h : ∀ r ∈ bound, r.id ≠ id) :
    (e.noteAll bound).distances.distance? id = e.distances.distance? id := by
  induction bound generalizing e with
  | nil => rfl
  | cons r bound ih =>
    obtain ⟨hr, h⟩ := List.forall_mem_cons.mp h
    rw [noteAll_cons, ih h, noteBound_eq, DistanceTable.distance?_note, if_neg hr]

/-- A reference that has one distance in all findings gets that distance. -/
theorem distance?_noteAll_of_exists {d : Nat} (hid : ∃ r ∈ bound, r.id = id)
    (hd : ∀ r ∈ bound, r.id = id → r.distance = d) :
    (e.noteAll bound).distances.distance? id = some d := by
  induction bound generalizing e with
  | nil =>
    obtain ⟨r, hr, -⟩ := hid
    cases hr
  | cons r bound ih =>
    obtain ⟨hr, hd⟩ := List.forall_mem_cons.mp hd
    rw [noteAll_cons]
    by_cases hlater : ∃ r ∈ bound, r.id = id
    · exact ih hlater hd
    · obtain ⟨r', hr', hid⟩ := hid
      obtain rfl : r' = r := (List.mem_cons.mp hr').resolve_right fun hr' => hlater ⟨r', hr', hid⟩
      rw [distance?_noteAll_of_forall_ne fun r hr hid => hlater ⟨r, hr, hid⟩, noteBound_eq,
        DistanceTable.distance?_note, if_pos hid, hr hid]

/-- Nothing else than the findings is noted. -/
theorem distance?_noteAll_eq_some {d : Nat}
    (h : (e.noteAll bound).distances.distance? id = some d) :
    e.distances.distance? id = some d ∨ ∃ r ∈ bound, r.id = id := by
  by_cases hid : ∃ r ∈ bound, r.id = id
  · exact .inr hid
  · rw [distance?_noteAll_of_forall_ne fun r hr hid' => hid ⟨r, hr, hid'⟩] at h
    exact .inl h

theorem mem_unitReferences_noteAll : id ∈ (e.noteAll bound).unitReferences ↔
    id ∈ e.unitReferences ∨ ∃ r ∈ bound, r.id = id ∧ r.extent = .unit := by
  induction bound generalizing e with
  | nil => simp [noteAll]
  | cons r bound ih =>
    have hfirst : id ∈ (e.noteBound r).unitReferences ↔
        (r.id = id ∧ r.extent = .unit) ∨ id ∈ e.unitReferences := by
      rw [noteBound_eq]
      by_cases hr : r.extent = .unit <;> simp [hr, eq_comm]
    rw [noteAll_cons, ih, hfirst, or_assoc, or_left_comm]
    simp only [List.mem_cons, exists_eq_or_imp]

/-! ### The end of a unit -/

/-- The references of the unit are forgotten, and no others. -/
theorem distance?_endUnit (e : Engine) (id : NodeId) :
    e.endUnit.distances.distance? id =
      if id ∈ e.unitReferences then none else e.distances.distance? id := by
  have hforget : ∀ (ids : List NodeId) (t : DistanceTable),
      (ids.foldl DistanceTable.forget t).distance? id =
        if id ∈ ids then none else t.distance? id := by
    intro ids
    induction ids with
    | nil => exact fun t => rfl
    | cons i ids ih =>
      intro t
      rw [List.foldl_cons, ih, DistanceTable.distance?_forget]
      by_cases hi : i = id <;> by_cases hids : id ∈ ids <;> simp [hi, hids, Ne.symm]
  exact hforget e.unitReferences e.distances

/-- What a unit makes of an engine. -/
theorem interpret_eq (fuel : Nat) (unit : List Stmt) (e : Engine) :
    (e.interpret fuel unit).2 =
      ({ e with machine := (executeAll e.setting fuel unit).after e.machine } :
        Engine).toTopLevel.endUnit := by
  unfold interpret exec Exec.after
  dsimp only
  cases executeAll e.setting fuel unit e.machine <;> rfl

end Engine

/-! ## Sessions -/

/-- The execution of a unit: what stays the same in it, the fuel, the statements, and the machine at
its start. -/
structure Execution where
  setting : Setting
  fuel : Nat
  unit : List Stmt
  machine : Machine

/-- The first moment of an execution. -/
def Execution.start (x : Execution) : Moment :=
  ⟨x.fuel, .executeAll x.unit, x.machine⟩

/-- The machine at the end of an execution. -/
def Execution.final (x : Execution) : Machine :=
  (executeAll x.setting x.fuel x.unit).after x.machine

namespace Session

/-- The session in which a unit that is accepted is executed. -/
def noted (source : String) (unit : List Stmt) (s : Session) : Session :=
  { s with
    nextId := (Grammar.program s.nextId (Source.tokens source)).nextId
    engine := s.engine.noteAll (findings unit).bound }

/-- The execution of a unit in a session. -/
def execution (fuel : Nat) (unit : List Stmt) (s : Session) : Execution :=
  ⟨(s.engine.noteAll (findings unit).bound).setting, fuel, unit, s.engine.machine⟩

variable {s : Session} {fuel : Nat} {source : String} {unit : List Stmt}

@[simp]
theorem engine_reportAll (s : Session) (ds : List Diagnostic) :
    (s.reportAll ds).engine = s.engine := by
  induction ds generalizing s with
  | nil => rfl
  | cons d ds ih => exact ih (s.report d)

@[simp]
theorem nextId_reportAll (s : Session) (ds : List Diagnostic) :
    (s.reportAll ds).nextId = s.nextId := by
  induction ds generalizing s with
  | nil => rfl
  | cons d ds ih => exact ih (s.report d)

/-- Running a source text with nothing wrong in it is executing its unit. -/
theorem run_of_readsAs (h : Source.ReadsAs s.nextId source unit) :
    s.run fuel source = (s.noted source unit).execute fuel unit := by
  unfold run
  simp only [h.scanned, h.parsed, bindAndExecute, h.resolved]
  rfl

theorem nextId_execute (s : Session) (fuel : Nat) (unit : List Stmt) :
    (s.execute fuel unit).2.nextId = s.nextId := by
  unfold execute
  split <;> rfl

theorem engine_execute (s : Session) (fuel : Nat) (unit : List Stmt) :
    (s.execute fuel unit).2.engine = (s.engine.interpret fuel unit).2 := by
  unfold execute
  split <;> rename_i h <;> rw [h] <;> rfl

/-- What a unit leaves behind that is executed. -/
theorem engine_run_of_readsAs (h : Source.ReadsAs s.nextId source unit) :
    (s.run fuel source).2.engine =
      ({ s.engine.noteAll (findings unit).bound with machine := (s.execution fuel unit).final } :
        Engine).toTopLevel.endUnit := by
  rw [run_of_readsAs h, engine_execute, Engine.interpret_eq]
  simp only [noted, Engine.machine_noteAll]
  rfl

theorem nextId_run (s : Session) (fuel : Nat) (source : String) :
    (s.run fuel source).2.nextId = (Grammar.program s.nextId (Source.tokens source)).nextId := by
  unfold run
  dsimp only
  split
  · simp
  · rfl
  · unfold bindAndExecute
    dsimp only
    split
    · rw [nextId_execute]
    · simp

/-- A source text that is refused leaves nothing behind but distances. -/
theorem engine_run_of_refused (fuel : Nat)
    (h : ∀ unit, ¬ Source.ReadsAs s.nextId source unit) :
    (s.run fuel source).2.engine = s.engine ∨
      ∃ unit, (Grammar.program s.nextId (Source.tokens source)).result = .ok unit ∧
        (s.run fuel source).2.engine = s.engine.noteAll (findings unit).bound := by
  unfold run
  dsimp only
  split
  · simp
  · simp
  · rename_i unit hparsed hscanned
    refine .inr ⟨unit, hparsed, ?_⟩
    unfold bindAndExecute
    dsimp only
    split
    · rename_i hresolved
      exact absurd ⟨hscanned, hparsed, hresolved⟩ (h unit)
    · simp [hscanned]

end Session

/-- The sessions that units of source text lead to, with the units that were executed on the way,
the latest first.  Between two units the clock goes on, and errors may be forgotten. -/
inductive Lives : Session → List Execution → Prop where
  | new (now : Float) (maxCallDepth : Nat) (outputLimit diagnosticsLimit : Option Nat) :
      Lives (.new (.new (.clockAt now) maxCallDepth outputLimit) diagnosticsLimit) []
  | clock {s : Session} {xs : List Execution} (h : Lives s xs) (now : Float) :
      Lives { s with engine.host := .clockAt now } xs
  | reset {s : Session} {xs : List Execution} (h : Lives s xs) : Lives s.resetErrors xs
  | refused {s : Session} {xs : List Execution} (h : Lives s xs) (fuel : Nat) {source : String}
      (hsource : ∀ unit, ¬ Source.ReadsAs s.nextId source unit) :
      Lives (s.run fuel source).2 xs
  | executed {s : Session} {xs : List Execution} (h : Lives s xs) (fuel : Nat) {source : String}
      {unit : List Stmt} (hsource : Source.ReadsAs s.nextId source unit) :
      Lives (s.run fuel source).2 (s.execution fuel unit :: xs)

namespace Lives

variable {s : Session} {xs : List Execution}

/-- The top level is one frame that is there from the beginning. -/
theorem globals_eq (h : Lives s xs) : s.engine.globals = .root ⟨0⟩ := by
  induction h with
  | new => rfl
  | clock _ _ ih => exact ih
  | reset _ ih => exact ih
  | refused _ fuel hsource ih =>
    obtain he | ⟨unit, -, he⟩ := Session.engine_run_of_refused fuel hsource
    · rw [he, ih]
    · rw [he, Engine.globals_noteAll, ih]
  | executed _ fuel hsource ih =>
    rw [Session.engine_run_of_readsAs hsource]
    exact (Engine.globals_noteAll _ _).trans ih

/-- Between units no call is active. -/
theorem callDepth_eq (h : Lives s xs) : s.engine.machine.callDepth = 0 := by
  induction h with
  | new => rfl
  | clock _ _ ih => exact ih
  | reset _ ih => exact ih
  | refused _ fuel hsource ih =>
    obtain he | ⟨unit, -, he⟩ := Session.engine_run_of_refused fuel hsource
    · rw [he, ih]
    · rw [he, Engine.machine_noteAll, ih]
  | executed _ fuel hsource =>
    rw [Session.engine_run_of_readsAs hsource]
    rfl

/-- An executed unit was read by a session that had executed the units before it. -/
theorem exists_executed (h : Lives s xs) {x : Execution} (hx : x ∈ xs) :
    ∃ s₀ xs₀ fuel source unit, Lives s₀ xs₀ ∧ Source.ReadsAs s₀.nextId source unit ∧
      x = s₀.execution fuel unit ∧ x :: xs₀ <:+ xs := by
  induction h with
  | new => cases hx
  | clock _ _ ih => exact ih hx
  | reset _ ih => exact ih hx
  | refused _ _ _ ih => exact ih hx
  | executed h fuel hsource ih =>
    rcases List.mem_cons.mp hx with rfl | hx
    · exact ⟨_, _, fuel, _, _, h, hsource, rfl, List.suffix_refl _⟩
    · obtain ⟨s₀, xs₀, fuel₀, source, unit, h₀, hsource₀, hx₀, hxs⟩ := ih hx
      exact ⟨s₀, xs₀, fuel₀, source, unit, h₀, hsource₀, hx₀, hxs.trans (List.suffix_cons _ _)⟩

end Lives

end LoxWalk
