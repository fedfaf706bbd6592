import LoxWalk.Proofs.Session.Histories

/-!
# What the table of distances holds

A unit whose references are bound either is executed or breaks a static rule (`isBroken`).  When a
unit is executed, the distances that only it needed are forgotten at its end; a unit that breaks a
rule has no end, so its distances stay, some of them until the next unit is executed and some for
ever.

`DistanceTable.Records` says exactly what is in the table, and every step of a session keeps it
(`Session.records_after`).  So the table holds nothing but references in functions of units that
were executed if and only if nothing was bound in the other units that could stay
(`Session.holds_executable_iff`).
-/

namespace LoxWalk

/-! ## References inside functions -/

/-- The reference lies in the body of a function or of a method. -/
def Site.InFunction (s : Site) : Prop :=
  ∃ f, Origin.call f ∈ s.origins

/-- The distance of the site lasts exactly if the site lies in a function. -/
def Site.LastsInFunction (s : Site) : Prop :=
  s.extent = .lasting ↔ s.InFunction

namespace Static

/-- A function encloses the place exactly if its call is among the origins. -/
def InCall (st : Static) (os : List Origin) : Prop :=
  st.function ≠ .topLevel ↔ ∃ f, Origin.call f ∈ os

theorem extent_eq_lasting_iff (st : Static) : st.extent = .lasting ↔ st.function ≠ .topLevel := by
  unfold extent
  split <;> simp_all

namespace InCall

variable {st st' : Static} {os : List Origin}

theorem site (h : st.InCall os) (id : NodeId) (x : String) :
    (st.site os id x).LastsInFunction :=
  st.extent_eq_lasting_iff.trans h

theorem of_function (h : st.InCall os) (hf : st'.function = st.function) : st'.InCall os := by
  unfold InCall
  rw [hf]
  exact h

/-- Scopes that are opened for something else than a call. -/
theorem cons {o : Origin} (h : st.InCall os) (ho : ∀ f, o ≠ .call f) : st.InCall (o :: os) := by
  refine h.trans (exists_congr fun f => ?_)
  rw [List.mem_cons, or_iff_right (Ne.symm (ho f))]

/-- The body of a function. -/
theorem body {context : FunctionContext} (hcontext : context ≠ .topLevel) (f : FunDecl) :
    (st.body context f).InCall (.call f :: os) := by
  unfold InCall
  rw [function_body]
  exact iff_of_true hcontext ⟨f, List.mem_cons_self⟩

/-- The methods of a class. -/
theorem methodsPlace (h : st.InCall os) (hasSuperclass : Bool) (methods : List FunDecl) :
    (st.methodsPlace hasSuperclass).InCall (methodOrigins os hasSuperclass methods) := by
  cases hasSuperclass with
  | false => exact h
  | true => exact h.cons (o := .super methods) nofun

mutual

theorem expr (h : st.InCall os) :
    (e : Expr) → ∀ site ∈ st.exprSites os e, site.LastsInFunction
  | .literal _ => nofun
  | .group inner => h.expr inner
  | .unary _ operand => h.expr operand
  | .binary left _ right => List.forall_mem_append.mpr ⟨h.expr left, h.expr right⟩
  | .logical left _ right => List.forall_mem_append.mpr ⟨h.expr left, h.expr right⟩
  | .var id name => List.forall_mem_singleton.mpr (h.site id name.lexeme)
  | .assign id name value => List.forall_mem_append.mpr
      ⟨h.expr value, List.forall_mem_singleton.mpr (h.site id name.lexeme)⟩
  | .call callee _ arguments => List.forall_mem_append.mpr ⟨h.expr callee, h.exprs arguments⟩
  | .get object _ => h.expr object
  | .set object _ value => List.forall_mem_append.mpr ⟨h.expr object, h.expr value⟩
  | .this id keyword => List.forall_mem_singleton.mpr (h.site id keyword.lexeme)
  | .super id keyword _ => List.forall_mem_singleton.mpr (h.site id keyword.lexeme)

theorem exprs (h : st.InCall os) :
    (es : List Expr) → ∀ site ∈ st.exprsSites os es, site.LastsInFunction
  | [] => nofun
  | e :: es => List.forall_mem_append.mpr ⟨h.expr e, h.exprs es⟩

end

theorem expr? (h : st.InCall os) (e : Option Expr) :
    ∀ site ∈ st.exprSites? os e, site.LastsInFunction := by
  cases e with
  | none => exact nofun
  | some e => exact h.expr e

mutual

theorem stmt {st : Static} {os : List Origin} (h : st.InCall os) :
    (s : Stmt) → ∀ site ∈ st.stmtSites os s, site.LastsInFunction
  | .expression e => h.expr e
  | .print e => h.expr e
  | .var name initializer => (h.of_function (st.function_declare name)).expr? initializer
  | .block body =>
    have hinside : (st.enter []).InCall (.block body :: os) := h.cons (o := .block body) nofun
    hinside.stmts body
  | .if_ condition thenBranch none =>
    List.forall_mem_append.mpr ⟨h.expr condition, h.stmt thenBranch⟩
  | .if_ condition thenBranch (some elseBranch) =>
    List.forall_mem_append.mpr ⟨h.expr condition, List.forall_mem_append.mpr
      ⟨h.stmt thenBranch, stmt (h.of_function (st.function_stmt thenBranch)) elseBranch⟩⟩
  | .while_ condition body => List.forall_mem_append.mpr ⟨h.expr condition, h.stmt body⟩
  | .fun_ f => function (st.declared f.name) .function os (by simp) f
  | .return_ _ value => h.expr? value
  | .class_ name superclass methods =>
    have hinside := h.of_function (st.function_declared name)
    have houtside : Static.InCall { st.declared name with inClass := .derived } os :=
      hinside.of_function rfl
    List.forall_mem_append.mpr
      ⟨houtside.expr? superclass, (hinside.methodsPlace _ methods).methods methods⟩

theorem stmts {st : Static} {os : List Origin} (h : st.InCall os) :
    (ss : List Stmt) → ∀ site ∈ st.stmtsSites os ss, site.LastsInFunction
  | [] => nofun
  | s :: ss => List.forall_mem_append.mpr ⟨h.stmt s, stmts (h.of_function (st.function_stmt s)) ss⟩

theorem function (st : Static) (context : FunctionContext) (os : List Origin)
    (hcontext : context ≠ .topLevel) :
    (f : FunDeclOf Stmt) → ∀ site ∈ st.funSites context os f, site.LastsInFunction
  | ⟨_, _, body⟩ => stmts (InCall.body hcontext _) body

theorem methods {st : Static} {os : List Origin} (h : st.InCall os) :
    (fs : List (FunDeclOf Stmt)) → ∀ site ∈ st.methodsSites os fs, site.LastsInFunction
  | [] => nofun
  | f :: fs => List.forall_mem_append.mpr ⟨function st _ _ (methodContext_ne f) f, h.methods fs⟩

end

end InCall

end Static

/-- The distances that are needed for ever are those of the references in functions. -/
theorem extent_eq_lasting_iff_inFunction {unit : List Stmt} {site : Site} (h : site ∈ sites unit) :
    site.extent = .lasting ↔ site.InFunction := by
  have htop : Static.top.InCall [] := iff_of_false (fun h => h rfl) fun ⟨_, hf⟩ => nomatch hf
  exact htop.stmts unit site h

/-! ## Tables -/

/-- Of the findings of a unit only one is about a given reference. -/
theorem eq_of_mem_bound {unit : List Stmt} (hn : (Stmt.allIds unit).Nodup) {r r' : BoundReference}
    (hr : r ∈ (findings unit).bound) (hr' : r' ∈ (findings unit).bound) (hid : r.id = r'.id) :
    r = r' := by
  obtain ⟨site, hsite, hbound⟩ := exists_site_of_mem_bound hr'
  obtain ⟨d, -, rfl⟩ := Option.map_eq_some_iff.mp hbound
  exact Option.some.inj ((Engine.bound?_of_mem_bound hn hsite hr hid).symm.trans hbound)

namespace DistanceTable

/-- What the table `t` holds, and what of it will be forgotten: of the units in `settled` the
distances that last, and of the units in `pending` all distances, of which those that do not last
are in `forgotten`.  The references of these units all have different identities below `n`. -/
structure Records (t : DistanceTable) (forgotten : List NodeId) (n : Nat)
    (settled pending : List (List Stmt)) : Prop where
  distance : ∀ id d, t.distance? id = some d ↔
    (∃ u ∈ settled, ⟨id, d, .lasting⟩ ∈ (findings u).bound) ∨
      ∃ u ∈ pending, ∃ x, ⟨id, d, x⟩ ∈ (findings u).bound
  forgotten : ∀ id, id ∈ forgotten ↔ ∃ u ∈ pending, ∃ d, ⟨id, d, .unit⟩ ∈ (findings u).bound
  below : ∀ u ∈ pending ++ settled, ∀ id ∈ Stmt.allIds u, id.index < n
  nodup : ∀ u ∈ pending ++ settled, (Stmt.allIds u).Nodup
  apart : ∀ u ∈ pending ++ settled, ∀ v ∈ pending ++ settled, ∀ id ∈ Stmt.allIds u,
    id ∈ Stmt.allIds v → u = v

namespace Records

variable {t : DistanceTable} {forgotten : List NodeId} {n m : Nat}
  {settled pending : List (List Stmt)}

theorem empty : Records .empty [] 0 [] [] := by
  refine ⟨fun id d => ?_, fun id => ?_, nofun, nofun, nofun⟩
  · simp [DistanceTable.empty, distance?]
  · simp

/-- Two findings about one reference are the same. -/
theorem bound_unique (h : t.Records forgotten n settled pending) {u v : List Stmt}
    (hu : u ∈ pending ++ settled) (hv : v ∈ pending ++ settled) {r r' : BoundReference}
    (hr : r ∈ (findings u).bound) (hr' : r' ∈ (findings v).bound) (hid : r.id = r'.id) :
    r = r' := by
  have hmem := mem_allIds_of_mem_bound hr
  obtain rfl : u = v := h.apart u hu v hv r.id hmem (hid ▸ mem_allIds_of_mem_bound hr')
  exact eq_of_mem_bound (h.nodup u hu) hr hr' hid

/-- No distance is held of an identity that is not in use. -/
theorem distance?_eq_none (h : t.Records forgotten n settled pending) {id : NodeId}
    (hid : n ≤ id.index) : t.distance? id = none := by
  cases ht : t.distance? id with
  | none => rfl
  | some d =>
    obtain ⟨u, hu, hr⟩ : ∃ u ∈ pending ++ settled, ∃ x, ⟨id, d, x⟩ ∈ (findings u).bound := by
      obtain ⟨u, hu, hr⟩ | ⟨u, hu, hr⟩ := (h.distance id d).mp ht
      · exact ⟨u, List.mem_append_right _ hu, .lasting, hr⟩
      · exact ⟨u, List.mem_append_left _ hu, hr⟩
    obtain ⟨x, hr⟩ := hr
    exact absurd (h.below u hu id (mem_allIds_of_mem_bound hr)) (Nat.not_lt.mpr hid)

/-- More identities may come into use. -/
theorem mono (h : t.Records forgotten n settled pending) (hle : n ≤ m) :
    t.Records forgotten m settled pending :=
  { h with below := fun u hu id hid => Nat.lt_of_lt_of_le (h.below u hu id hid) hle }

end Records

end DistanceTable

/-- The distances of a new unit, and those that were noted before. -/
theorem Engine.distance?_noteAll_eq_some_iff {e : Engine} {unit : List Stmt}
    (hn : (Stmt.allIds unit).Nodup)
    (hfresh : ∀ r ∈ (findings unit).bound, e.distances.distance? r.id = none) {id : NodeId}
    {d : Nat} :
    (e.noteAll (findings unit).bound).distances.distance? id = some d ↔
      e.distances.distance? id = some d ∨ ∃ x, ⟨id, d, x⟩ ∈ (findings unit).bound := by
  by_cases hid : ∃ r ∈ (findings unit).bound, r.id = id
  · obtain ⟨⟨_, d', x⟩, hr, rfl⟩ := hid
    have hsame : ∀ r' ∈ (findings unit).bound, r'.id = _ → r'.distance = d' := fun r' hr' hid' =>
      congrArg BoundReference.distance (eq_of_mem_bound hn hr' hr hid')
    -- a new reference has the distance that is found and no other
    rw [distance?_noteAll_of_exists ⟨_, hr, rfl⟩ hsame, hfresh _ hr]
    constructor
    · intro hd
      obtain rfl := Option.some.inj hd
      exact .inr ⟨x, hr⟩
    · rintro (hd | ⟨y, hr'⟩)
      · cases hd
      · exact congrArg some (hsame _ hr' rfl).symm
  · rw [distance?_noteAll_of_forall_ne fun r hr hrid => hid ⟨r, hr, hrid⟩]
    refine (or_iff_left ?_).symm
    rintro ⟨x, hr⟩
    exact hid ⟨_, hr, rfl⟩

namespace Engine

variable {e : Engine} {n m : Nat} {settled pending : List (List Stmt)} {unit : List Stmt}

/-- The distances of a unit are noted. -/
theorem records_noteAll
    (h : e.distances.Records e.unitReferences n settled pending)
    (hn : (Stmt.allIds unit).Nodup)
    (hnew : ∀ id ∈ Stmt.allIds unit, n ≤ id.index ∧ id.index < m) (hle : n ≤ m) :
    (e.noteAll (findings unit).bound).distances.Records
      (e.noteAll (findings unit).bound).unitReferences m settled (unit :: pending) := by
  have hfresh : ∀ r ∈ (findings unit).bound, e.distances.distance? r.id = none := fun r hr =>
    h.distance?_eq_none (hnew r.id (mem_allIds_of_mem_bound hr)).1
  have hold : ∀ u ∈ pending ++ settled, ∀ id ∈ Stmt.allIds unit, id ∉ Stmt.allIds u := by
    intro u hu id hid hid'
    exact absurd (h.below u hu id hid') (Nat.not_lt.mpr (hnew id hid).1)
  refine ⟨fun id d => ?_, fun id => ?_, ?_, ?_, ?_⟩
  · rw [distance?_noteAll_eq_some_iff hn hfresh, h.distance, or_assoc, List.exists_mem_cons_iff]
    exact or_congr_right or_comm
  · rw [mem_unitReferences_noteAll, h.forgotten, List.exists_mem_cons_iff, or_comm]
    refine or_congr_left ⟨?_, ?_⟩
    · rintro ⟨⟨_, d, _⟩, hr, rfl, rfl⟩
      exact ⟨d, hr⟩
    · rintro ⟨d, hr⟩
      exact ⟨_, hr, rfl, rfl⟩
  · exact List.forall_mem_cons.mpr ⟨fun id hid => (hnew id hid).2, (h.mono hle).below⟩
  · exact List.forall_mem_cons.mpr ⟨hn, h.nodup⟩
  · intro u hu v hv id hid hid'
    obtain rfl | hu' := List.mem_cons.mp hu <;> obtain rfl | hv' := List.mem_cons.mp hv
    · rfl
    · exact absurd hid' (hold v hv' id hid)
    · exact absurd hid (hold u hu' id hid')
    · exact h.apart u hu' v hv' id hid hid'

/-- At the end of a unit the distances of all pending units are settled. -/
theorem records_endUnit (h : e.distances.Records e.unitReferences n settled pending) :
    e.endUnit.distances.Records e.endUnit.unitReferences n (pending ++ settled) [] := by
  refine ⟨fun id d => ?_, fun id => ?_, h.below, h.nodup, h.apart⟩
  · -- what lasts is not forgotten, since nothing else was found about the same reference
    have hkept : ∀ u ∈ pending ++ settled, ⟨id, d, .lasting⟩ ∈ (findings u).bound →
        id ∉ e.unitReferences := by
      intro u hu hr hid
      obtain ⟨v, hv, d', hr'⟩ := (h.forgotten id).mp hid
      exact nomatch h.bound_unique hu (List.mem_append_left _ hv) hr hr' rfl
    rw [distance?_endUnit]
    constructor
    · intro hd
      split at hd
      · cases hd
      · rename_i hid
        refine .inl ?_
        obtain ⟨u, hu, hr⟩ | ⟨u, hu, x, hr⟩ := (h.distance id d).mp hd
        · exact ⟨u, List.mem_append_right _ hu, hr⟩
        · cases x with
          | unit => exact absurd ((h.forgotten id).mpr ⟨u, hu, d, hr⟩) hid
          | lasting => exact ⟨u, List.mem_append_left _ hu, hr⟩
    · rintro (⟨u, hu, hr⟩ | ⟨u, hu, -⟩)
      · rw [if_neg (hkept u hu hr), h.distance]
        rcases List.mem_append.mp hu with hu | hu
        · exact .inr ⟨u, hu, .lasting, hr⟩
        · exact .inl ⟨u, hu, hr⟩
      · cases hu
  · simp [endUnit]

end Engine

/-! ## Histories -/

/-- Some static rule is broken in the unit. -/
def isBroken (unit : List Stmt) : Bool :=
  (findings unit).errors ≠ []

/-- Of units that were bound, the latest first, those up to the last one that was executed. -/
def settledUnits (us : List (List Stmt)) : List (List Stmt) :=
  us.dropWhile isBroken

/-- Of units that were bound, the latest first, those that were refused since. -/
def pendingUnits (us : List (List Stmt)) : List (List Stmt) :=
  us.takeWhile isBroken

theorem pendingUnits_append_settledUnits (us : List (List Stmt)) :
    pendingUnits us ++ settledUnits us = us :=
  List.takeWhile_append_dropWhile

theorem mem_units_iff {us : List (List Stmt)} {unit : List Stmt} :
    unit ∈ us ↔ unit ∈ pendingUnits us ++ settledUnits us := by
  rw [pendingUnits_append_settledUnits]

theorem errors_ne_nil_of_mem_pendingUnits {us : List (List Stmt)} {unit : List Stmt}
    (h : unit ∈ pendingUnits us) : (findings unit).errors ≠ [] := by
  have hbroken : isBroken unit = true := List.mem_takeWhile_imp h
  simpa [isBroken] using hbroken

namespace Session

/-- The unit whose references are bound when a source text is run. -/
def unit? (s : Session) (source : String) : Option (List Stmt) :=
  match (Grammar.program s.nextId (Source.tokens source)).result, Source.errors source with
  | .ok unit, [] => some unit
  | _, _ => none

/-- The units that were bound, the latest first, after one more event. -/
def boundWith (s : Session) (us : List (List Stmt)) : Event → List (List Stmt)
  | .unit _ source => (s.unit? source).toList ++ us
  | .reset => us
  | .clock _ => us

/-- The units that are bound during a history, the latest first, in front of those in `us`. -/
def boundUnits : List Event → Session → List (List Stmt) → List (List Stmt)
  | [], _, us => us
  | e :: events, s, us => boundUnits events (s.happen e) (s.boundWith us e)

/-- The table of the session and what it will forget, after the units in `us` were bound. -/
def Records (s : Session) (us : List (List Stmt)) : Prop :=
  s.engine.distances.Records s.engine.unitReferences s.nextId (settledUnits us) (pendingUnits us)

variable {s : Session} {us : List (List Stmt)} {source : String} {unit : List Stmt}

theorem unit?_eq_some_iff : s.unit? source = some unit ↔
    (Grammar.program s.nextId (Source.tokens source)).result = .ok unit ∧
      Source.errors source = [] := by
  unfold unit?
  split <;> simp_all

/-- A source text that gets no further than the grammar. -/
theorem engine_run_of_unit?_eq_none (h : s.unit? source = none) (fuel : Nat) :
    (s.run fuel source).2.engine = s.engine := by
  rw [engine_run]
  unfold account
  split
  · rfl
  · rfl
  · rename_i unit hparsed hscanned
    rw [unit?_eq_some_iff.mpr ⟨hparsed, hscanned⟩] at h
    cases h

/-- A unit that is executed or refused keeps the records. -/
theorem Records.bound (h : s.Records us) (hunit : s.unit? source = some unit) (fuel : Nat) :
    (s.run fuel source).2.Records (unit :: us) := by
  obtain ⟨hparsed, hscanned⟩ := unit?_eq_some_iff.mp hunit
  have hnoted := Engine.records_noteAll h (Grammar.nodup_of_program_eq_ok hparsed)
    (fun id hid => Grammar.index_of_program_eq_ok hparsed hid) (Grammar.nextId_le _ _)
  unfold Records settledUnits pendingUnits
  rw [nextId_run]
  by_cases hresolved : (findings unit).errors = []
  · have hfirst : isBroken unit = false := by simp [isBroken, hresolved]
    rw [List.dropWhile_cons_of_neg (by simp [hfirst]), List.takeWhile_cons_of_neg (by simp [hfirst]),
      engine_run_of_readsAs ⟨hscanned, hparsed, hresolved⟩,
      ← pendingUnits_append_settledUnits us]
    -- the end of the unit settles the units that were refused before it too
    exact Engine.records_endUnit hnoted
  · have hfirst : isBroken unit = true := by simp [isBroken, hresolved]
    rw [List.dropWhile_cons_of_pos hfirst, List.takeWhile_cons_of_pos hfirst, engine_run,
      account_of_broken hscanned hparsed hresolved]
    -- the unit has no end
    exact hnoted

/-- Whatever happens keeps the records. -/
theorem Records.happen (h : s.Records us) (e : Event) : (s.happen e).Records (s.boundWith us e) := by
  cases e with
  | unit fuel source =>
    change (s.run fuel source).2.Records ((s.unit? source).toList ++ us)
    cases hunit : s.unit? source with
    | some unit => exact h.bound hunit fuel
    | none =>
      have hle := Grammar.nextId_le s.nextId (Source.tokens source)
      unfold Records
      rw [nextId_run, engine_run_of_unit?_eq_none hunit]
      exact h.mono hle
  | reset => exact h
  | clock now => exact h

theorem Records.after (h : s.Records us) (events : List Event) :
    (s.after events).Records (boundUnits events s us) := by
  induction events generalizing s us with
  | nil => exact h
  | cons e events ih => exact ih (h.happen e)

/-- After any history of a new session the table holds, of the units up to the last one that was
executed, the distances that last, and of the units that were refused since, all distances. -/
theorem records_after (host : Host) (maxCallDepth : Nat) (outputLimit diagnosticsLimit : Option Nat)
    (events : List Event) :
    ((Session.new (.new host maxCallDepth outputLimit) diagnosticsLimit).after events).Records
      (boundUnits events (.new (.new host maxCallDepth outputLimit) diagnosticsLimit) []) := by
  have hstart : (Session.new (.new host maxCallDepth outputLimit) diagnosticsLimit).Records [] :=
    DistanceTable.Records.empty
  exact hstart.after events

end Session

/-! ## What can still be executed -/

/-- The distances that last in a unit that is accepted are those of the references in functions. -/
theorem lasting_mem_bound_iff {unit : List Stmt} (h : (findings unit).errors = []) {id : NodeId}
    {d : Nat} : ⟨id, d, .lasting⟩ ∈ (findings unit).bound ↔
      ∃ site ∈ sites unit, site.id = id ∧ site.distance? = some d ∧ site.InFunction := by
  rw [mem_bound_iff h]
  refine exists_congr fun site => and_congr_right fun hsite => ?_
  rw [← extent_eq_lasting_iff_inFunction hsite]
  unfold Site.bound?
  cases site.distance? <;> simp

namespace Session

variable {s : Session} {us : List (List Stmt)} {fuel : Nat} {source : String} {unit : List Stmt}

/-- Of the units in `us` the table holds exactly the distances of the references that lie in
functions of the units that were executed. -/
def HoldsExecutable (s : Session) (us : List (List Stmt)) : Prop :=
  ∀ id d, s.engine.distances.distance? id = some d ↔
    ∃ u ∈ us, (findings u).errors = [] ∧
      ∃ site ∈ sites u, site.id = id ∧ site.distance? = some d ∧ site.InFunction

/-- Nothing was bound in units that broke a rule that could have stayed. -/
structure NothingLeft (us : List (List Stmt)) : Prop where
  settled : ∀ u ∈ settledUnits us, (findings u).errors ≠ [] →
    ∀ r ∈ (findings u).bound, r.extent = .unit
  pending : ∀ u ∈ pendingUnits us, (findings u).bound = []

/-- A finding of a unit that broke a rule is not one of what was executed. -/
theorem Records.not_executable (h : s.Records us) (hs : s.HoldsExecutable us) (hunit : unit ∈ us)
    (hbroken : (findings unit).errors ≠ []) {r : BoundReference} (hr : r ∈ (findings unit).bound) :
    s.engine.distances.distance? r.id ≠ some r.distance := by
  intro hd
  obtain ⟨v, hv, hresolved, site, hsite, hid, -⟩ := (hs r.id r.distance).mp hd
  have hmem : r.id ∈ Stmt.allIds v := hid ▸ mem_allIds_of_mem_sites hsite
  obtain rfl : unit = v := h.apart unit (mem_units_iff.mp hunit) v (mem_units_iff.mp hv) r.id
    (mem_allIds_of_mem_bound hr) hmem
  exact hbroken hresolved

theorem Records.holdsExecutable_iff (h : s.Records us) : s.HoldsExecutable us ↔ NothingLeft us := by
  constructor
  · intro hs
    refine ⟨fun u hu hbroken r hr => ?_, fun u hu => List.eq_nil_iff_forall_not_mem.mpr fun r hr => ?_⟩
    · have hunit := mem_units_iff.mpr (List.mem_append_right _ hu)
      cases hx : r.extent with
      | unit => rfl
      | lasting =>
        have hr' : ⟨r.id, r.distance, .lasting⟩ ∈ (findings u).bound := hx ▸ hr
        exact absurd ((h.distance _ _).mpr (.inl ⟨u, hu, hr'⟩))
          (h.not_executable hs hunit hbroken hr)
    · have hunit := mem_units_iff.mpr (List.mem_append_left _ hu)
      exact h.not_executable hs hunit (errors_ne_nil_of_mem_pendingUnits hu) hr
        ((h.distance _ _).mpr (.inr ⟨u, hu, r.extent, hr⟩))
  · intro hnothing id d
    rw [h.distance]
    constructor
    · rintro (⟨u, hu, hr⟩ | ⟨u, hu, x, hr⟩)
      · by_cases hresolved : (findings u).errors = []
        · exact ⟨u, mem_units_iff.mpr (List.mem_append_right _ hu), hresolved,
            (lasting_mem_bound_iff hresolved).mp hr⟩
        · exact nomatch hnothing.settled u hu hresolved _ hr
      · rw [hnothing.pending u hu] at hr
        cases hr
    · rintro ⟨u, hu, hresolved, hsite⟩
      refine .inl ⟨u, ?_, (lasting_mem_bound_iff hresolved).mpr hsite⟩
      refine (List.mem_append.mp (mem_units_iff.mp hu)).resolve_left fun hpending => ?_
      exact errors_ne_nil_of_mem_pendingUnits hpending hresolved

end Session

/-! ### The number of distances -/

namespace DistanceTable

variable (t : DistanceTable) (id : NodeId) (d : Nat)

theorem count_le_count_note : t.count ≤ (t.note id d).count :=
  Std.TreeMap.size_le_size_insert

variable {t id}

theorem count_note (h : t.distance? id = none) : (t.note id d).count = t.count + 1 := by
  have hnot : id.index ∉ t.entries := by
    rw [Std.TreeMap.mem_iff_isSome_getElem?]
    exact Option.not_isSome_iff_eq_none.mpr h
  exact (Std.TreeMap.size_insert).trans (if_neg hnot)

end DistanceTable

namespace Engine

variable (e : Engine) (bound : List BoundReference)

theorem count_le_count_noteAll :
    e.distances.count ≤ (e.noteAll bound).distances.count := by
  induction bound generalizing e with
  | nil => exact Nat.le_refl _
  | cons r bound ih =>
    have hfirst : e.distances.count ≤ (e.noteBound r).distances.count := by
      rw [noteBound_eq]
      exact e.distances.count_le_count_note r.id r.distance
    exact hfirst.trans (ih _)

/-- References that are new and have a distance are counted. -/
theorem count_lt_count_noteAll {r : BoundReference}
    (hr : e.distances.distance? r.id = none) :
    e.distances.count < (e.noteAll (r :: bound)).distances.count := by
  have hfirst : (e.noteBound r).distances.count = e.distances.count + 1 := by
    rw [noteBound_eq]
    exact DistanceTable.count_note r.distance hr
  have hrest := (e.noteBound r).count_le_count_noteAll bound
  rw [hfirst] at hrest
  exact hrest

end Engine

namespace Session

variable {s : Session} {us : List (List Stmt)} {fuel : Nat} {source : String}

/-- A unit that is refused leaves the number of distances as it was if and only if no reference in
it was given one. -/
theorem Records.count_run_eq_iff (h : s.Records us)
    (hrefused : (s.run fuel source).1 = .staticError) :
    (s.run fuel source).2.engine.distances.count = s.engine.distances.count ↔
      ∀ unit, s.unit? source = some unit → (findings unit).bound = [] := by
  cases hunit : s.unit? source with
  | none =>
    rw [engine_run_of_unit?_eq_none hunit]
    exact iff_of_true rfl nofun
  | some unit =>
    obtain ⟨hparsed, hscanned⟩ := unit?_eq_some_iff.mp hunit
    have hbroken : (findings unit).errors ≠ [] := fun hresolved =>
      not_readsAs_of_refused hrefused unit ⟨hscanned, hparsed, hresolved⟩
    rw [engine_run, account_of_broken hscanned hparsed hbroken]
    dsimp only
    constructor
    · intro hcount unit' hunit'
      obtain rfl := Option.some.inj hunit'
      cases hbound : (findings unit).bound with
      | nil => rfl
      | cons r bound =>
        have hmem : r ∈ (findings unit).bound := hbound ▸ List.mem_cons_self
        have hnone := h.distance?_eq_none (index_of_mem_bound hparsed hmem).1
        have hlt := s.engine.count_lt_count_noteAll bound hnone
        rw [hbound] at hcount
        omega
    · intro hnothing
      rw [hnothing unit rfl]
      rfl

/-- After any history of a new session the table holds exactly what can still be executed if and only
if nothing is left of the units that broke a rule; and a unit that is refused after it leaves the
number of distances as it was if and only if no reference in it was given one. -/
theorem holds_executable_iff_nothing_left (host : Host) (maxCallDepth : Nat)
    (outputLimit diagnosticsLimit : Option Nat) (events : List Event) :
    let s := Session.new (.new host maxCallDepth outputLimit) diagnosticsLimit
    ((s.after events).HoldsExecutable (boundUnits events s []) ↔
        NothingLeft (boundUnits events s [])) ∧
      ∀ fuel source, ((s.after events).run fuel source).1 = .staticError →
        (((s.after events).run fuel source).2.engine.distances.count =
            (s.after events).engine.distances.count ↔
          ∀ unit, (s.after events).unit? source = some unit → (findings unit).bound = []) := by
  intro s
  have hrecords := records_after host maxCallDepth outputLimit diagnosticsLimit events
  exact ⟨hrecords.holdsExecutable_iff, fun fuel source hrefused =>
    hrecords.count_run_eq_iff hrefused⟩

/-- The unit `fun f(a){print a;}return;`, which breaks a rule behind a function with a reference. -/
def refusedFunction : List Stmt :=
  [.fun_ ⟨⟨.identifier, "f", 1⟩, [⟨.identifier, "a", 1⟩],
      [.print (.var ⟨0⟩ ⟨.identifier, "a", 1⟩)]⟩,
    .return_ ⟨.keyword .return_, "return", 1⟩ none]

theorem unit?_refusedFunction :
    sample.unit? "fun f(a)\x7bprint a;\x7dreturn;" = some refusedFunction :=
  unit?_eq_some_iff.mpr ⟨by cbv, by decide +kernel⟩

/-- The distance of the reference in `fun f(a){print a;}return;` stays, though the unit is refused
and `f` is never declared. -/
theorem distance_of_refused_function_stays :
    (sample.run 6 "fun f(a)\x7bprint a;\x7dreturn;").1 = .staticError ∧
      ¬ (sample.after [.unit 6 "fun f(a)\x7bprint a;\x7dreturn;"]).HoldsExecutable
        (boundUnits [.unit 6 "fun f(a)\x7bprint a;\x7dreturn;"] sample []) ∧
      (sample.run 6 "fun f(a)\x7bprint a;\x7dreturn;").2.engine.distances.count ≠
        sample.engine.distances.count := by
  have hbound : (findings refusedFunction).bound ≠ [] := by decide
  have hrecords : sample.Records [] := DistanceTable.Records.empty
  obtain ⟨hparsed, hscanned⟩ := unit?_eq_some_iff.mp unit?_refusedFunction
  have hrefused : (sample.run 6 "fun f(a)\x7bprint a;\x7dreturn;").1 = .staticError := by
    rw [status_run, account_of_broken hscanned hparsed (by decide)]
  refine ⟨hrefused, fun hholds => ?_, fun hcount => ?_⟩
  · have hnothing := (hrecords.after _).holdsExecutable_iff.mp hholds
    refine hbound (hnothing.pending refusedFunction ?_)
    have hbroken : isBroken refusedFunction = true := by decide
    change refusedFunction ∈ pendingUnits ((sample.unit? _).toList ++ [])
    rw [unit?_refusedFunction]
    exact List.mem_of_mem_head? (by simp [pendingUnits, hbroken])
  · exact hbound ((hrecords.count_run_eq_iff hrefused).mp hcount _ unit?_refusedFunction)

end Session

end LoxWalk
