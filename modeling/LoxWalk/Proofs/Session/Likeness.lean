import LoxWalk.Proofs.Grammar.Shifting
import LoxWalk.Proofs.Session.Distances
import LoxWalk.Proofs.Simulation.Knowledge
import LoxWalk.Proofs.Simulation.Reflexive
import LoxWalk.Proofs.Simulation.Sources
import LoxWalk.Proofs.Simulation.Units

/-!
# Sessions that behave alike

Two sessions may hold different distances for code that can no longer run, and the identities that
they give to new nodes may differ; whatever can still be executed is the same in both
(`Session.Alike`).  Then every source text ends alike in both, is reported alike, and leaves sessions
behind that are alike again (`Session.Alike.run`).

What lasts from one unit to the next is expressed on engines (`Engine.Alike`): their machines are
twins for the `Twin` that knows exactly the references whose distances both engines hold and will not
forget.  Noting distances of new references, executing units that are twins, and forgetting the
references of a unit keep engines alike.
-/

namespace LoxWalk

/-- A diagnostic and its counterpart; the lines of faults at run time are related by `line`, and all
else is the same. -/
inductive Diagnostic.Alike (line : Nat → Nat → Prop) : Diagnostic → Diagnostic → Prop where
  | same (d : Diagnostic) : Alike line d d
  | runtime {l l' : Nat} (lexeme : String) (fault : RuntimeFault) (h : line l l') :
      Alike line (.runtime ⟨l, lexeme, fault⟩) (.runtime ⟨l', lexeme, fault⟩)

theorem Diagnostic.Alike.eq {d d' : Diagnostic} (h : Alike (fun l l' => l = l') d d') : d = d' := by
  cases h with
  | same => rfl
  | runtime lexeme fault h => rw [h]

theorem Diagnostic.Alike.list_eq {ds ds' : List Diagnostic}
    (h : List.Forall₂ (Alike fun l l' => l = l') ds ds') : ds = ds' := by
  have heq : List.Forall₂ (· = ·) ds ds' := h.imp fun _ _ hd => hd.eq
  rwa [List.forall₂_eq_eq_eq] at heq

theorem Diagnostic.Alike.isStatic_eq {line : Nat → Nat → Prop} {d d' : Diagnostic}
    (h : Alike line d d') : d'.isStatic = d.isStatic := by
  cases h <;> rfl

/-- Whether errors of one kind are among the diagnostics. -/
theorem Diagnostic.Alike.any_eq {line : Nat → Nat → Prop} {ds ds' : List Diagnostic}
    (h : List.Forall₂ (Alike line) ds ds') (p : Bool → Bool) :
    ds'.any (fun d => p d.isStatic) = ds.any fun d => p d.isStatic := by
  induction h with
  | nil => rfl
  | cons hd _ ih => rw [List.any_cons, List.any_cons, hd.isStatic_eq, ih]

/-! ## Engines -/

/-- A table holds the distance of a reference whose identity is below `n`, and a reference that lasts
is not among those that will be forgotten at the end of the unit. -/
structure DistanceTable.Holds (t : DistanceTable) (forgotten : List NodeId) (n : Nat) (x : Extent)
    (id : NodeId) (d : Option Nat) : Prop where
  distance : t.distance? id = d
  lasting : x = .lasting → id ∉ forgotten
  below : id.index < n

/-- What an engine holds. -/
def Engine.Holds (e : Engine) : Nat → Extent → NodeId → Option Nat → Prop :=
  e.distances.Holds e.unitReferences

/-- Two programs with the same names, on two engines that both hold the distances of their
references. -/
def Twin.between (line : Nat → Nat → Prop) (n n' : Nat) (e e' : Engine) : Twin where
  line := line
  rename := id
  renames _ := True
  rename_rename _ := rfl
  rename_this := rfl
  rename_super := rfl
  known x id id' d := e.Holds n x id d ∧ e'.Holds n' x id' d
  globals := .root ⟨0⟩

/-- Two engines on which the same can still be executed; identities from `n` and from `n'` onwards
are not in use yet. -/
structure Engine.Alike (line : Nat → Nat → Prop) (n n' : Nat) (e e' : Engine) : Prop where
  globals : e.globals = .root ⟨0⟩
  globals' : e'.globals = .root ⟨0⟩
  scope : e.machine.scope = .root ⟨0⟩
  callDepth : e.machine.callDepth = 0
  maxCallDepth : e'.maxCallDepth = e.maxCallDepth
  host : ∃ now, e.host = .clockAt now ∧ e'.host = .clockAt now
  machines : ∃ W, (Twin.between line n n' e e').Machines W e.machine e'.machine

variable {line : Nat → Nat → Prop} {n n' m m' : Nat} {e e' : Engine} {x : Extent} {id : NodeId}
  {d : Option Nat}

namespace Engine

/-- The engine with another machine and with other knowledge about references. -/
def become (e : Engine) (distances : DistanceTable) (unitReferences : List NodeId)
    (machine : Machine) : Engine :=
  { e with distances := distances, unitReferences := unitReferences, machine := machine }

theorem Holds.noteAll {bound : List BoundReference} (h : e.Holds n x id d)
    (hbound : ∀ r ∈ bound, n ≤ r.id.index) (hle : n ≤ m) : (e.noteAll bound).Holds m x id d := by
  have hne : ∀ r ∈ bound, r.id ≠ id := by
    rintro r hr rfl
    exact absurd h.below (Nat.not_lt.mpr (hbound r hr))
  refine ⟨?_, fun hx hmem => ?_, Nat.lt_of_lt_of_le h.below hle⟩
  · rw [distance?_noteAll_of_forall_ne hne, h.distance]
  · rcases mem_unitReferences_noteAll.mp hmem with hmem | ⟨r, hr, hid, -⟩
    · exact h.lasting hx hmem
    · exact hne r hr hid

/-- The end of a unit forgets nothing that lasts. -/
theorem Holds.endUnit (h : e.Holds n .lasting id d) : e.endUnit.Holds n .lasting id d := by
  refine ⟨?_, fun _ hmem => (nomatch hmem), h.below⟩
  rw [distance?_endUnit, if_neg (h.lasting rfl), h.distance]

/-- Nothing is known about identities from `n` onwards. -/
def Fresh (e : Engine) (n : Nat) : Prop :=
  ∀ id : NodeId, n ≤ id.index → e.distances.distance? id = none ∧ id ∉ e.unitReferences

theorem Fresh.noteAll {bound : List BoundReference} (h : e.Fresh n)
    (hbound : ∀ r ∈ bound, r.id.index < m) (hle : n ≤ m) : (e.noteAll bound).Fresh m := by
  intro id hid
  have hne : ∀ r ∈ bound, r.id ≠ id := by
    rintro r hr rfl
    exact absurd (hbound r hr) (Nat.not_lt.mpr hid)
  obtain ⟨hnone, hnot⟩ := h id (Nat.le_trans hle hid)
  refine ⟨(distance?_noteAll_of_forall_ne hne).trans hnone, fun hmem => ?_⟩
  rcases mem_unitReferences_noteAll.mp hmem with hmem | ⟨r, hr, hrid, -⟩
  · exact hnot hmem
  · exact hne r hr hrid

/-- The distances of a new unit, whose identities may all be larger by `c`. -/
theorem Fresh.holds_shift {source : String} {unit : List Stmt} {site : Site} {c : Nat}
    (h : e.Fresh (n + c)) (hs : Source.ReadsAs n source unit) (hsite : site ∈ sites unit) :
    (e.noteAll ((findings unit).bound.map (BoundReference.renumber c))).Holds
      ((Grammar.program n (Source.tokens source)).nextId + c) site.extent (site.id.shift c)
      site.distance? := by
  have hn := Grammar.nodup_of_program_eq_ok hs.parsed
  obtain ⟨hle, hlt⟩ := Grammar.index_of_program_eq_ok hs.parsed (mem_allIds_of_mem_sites hsite)
  obtain ⟨hnone, hnot⟩ := h (site.id.shift c) (Nat.add_le_add_right hle c)
  exact ⟨distance?_noteAll_site hn hs.resolved hsite hnone,
    fun hlasting => not_mem_unitReferences_noteAll_site hn hsite hlasting hnot,
    Nat.add_lt_add_right hlt c⟩

/-- The distances of a new unit. -/
theorem Fresh.holds {source : String} {unit : List Stmt} {site : Site} (h : e.Fresh n)
    (hs : Source.ReadsAs n source unit) (hsite : site ∈ sites unit) :
    (e.noteAll (findings unit).bound).Holds (Grammar.program n (Source.tokens source)).nextId
      site.extent site.id site.distance? := by
  have hholds := Fresh.holds_shift (c := 0) h hs hsite
  rwa [BoundReference.map_renumber_zero, NodeId.shift_zero] at hholds

namespace Alike

/-- Engines stay alike if none of them loses a distance that lasts. -/
theorem become {t t' : DistanceTable} {ids ids' : List NodeId} {W : List Bool} {μ μ' : Machine}
    (h : e.Alike line n n' e') (hμ : (Twin.between line n n' e e').Machines W μ μ')
    (hscope : μ.scope = .root ⟨0⟩) (hdepth : μ.callDepth = 0)
    (ht : ∀ id d, e.Holds n .lasting id d → (e.become t ids μ).Holds m .lasting id d)
    (ht' : ∀ id d, e'.Holds n' .lasting id d → (e'.become t' ids' μ').Holds m' .lasting id d) :
    (e.become t ids μ).Alike line m m' (e'.become t' ids' μ') := by
  let T := Twin.between line m m' (e.become t ids μ) (e'.become t' ids' μ')
  have hweaker : (Twin.between line n n' e e').Weaker T.known .lasting := by
    rintro id id' d ⟨hd, hd'⟩
    exact ⟨d, ⟨ht id d hd, ht' id' d hd'⟩, fun _ _ _ h => h⟩
  exact ⟨h.globals, h.globals', hscope, hdepth, h.maxCallDepth, h.host, W, hμ.weaken hweaker⟩

/-- The distances of new references are noted on both sides. -/
theorem noteAll {bound bound' : List BoundReference} (h : e.Alike line n n' e')
    (hbound : ∀ r ∈ bound, n ≤ r.id.index) (hbound' : ∀ r ∈ bound', n' ≤ r.id.index) (hle : n ≤ m)
    (hle' : n' ≤ m') : (e.noteAll bound).Alike line m m' (e'.noteAll bound') := by
  obtain ⟨t, ids, ht⟩ : ∃ t ids, e.noteAll bound = e.become t ids e.machine :=
    e.exists_noteAll_eq bound
  obtain ⟨t', ids', ht'⟩ : ∃ t ids, e'.noteAll bound' = e'.become t ids e'.machine :=
    e'.exists_noteAll_eq bound'
  obtain ⟨W, hmachines⟩ := h.machines
  rw [ht, ht']
  refine h.become hmachines h.scope h.callDepth (fun id d hd => ?_) fun id d hd => ?_
  · exact ht ▸ hd.noteAll hbound hle
  · exact ht' ▸ hd.noteAll hbound' hle'

theorem mono (h : e.Alike line n n' e') (hle : n ≤ m) (hle' : n' ≤ m') : e.Alike line m m' e' := by
  have hnone : ∀ k, ∀ r ∈ ([] : List BoundReference), k ≤ r.id.index := fun _ _ hr => nomatch hr
  exact h.noteAll (hnone n) (hnone n') hle hle'

theorem settings (h : e.Alike line n n' e') :
    (Twin.between line n n' e e').Settings e.setting e'.setting :=
  ⟨h.globals, h.globals', h.maxCallDepth, h.host,
    fun _ _ _ _ hk => ⟨hk.1.distance, hk.2.distance⟩⟩

end Alike

end Engine

/-- Two accounts of a unit that leave engines behind on which the same can still be executed. -/
structure Account.Alike (line : Nat → Nat → Prop) (n n' : Nat) (a a' : Account) : Prop where
  status : a'.status = a.status
  reports : List.Forall₂ (Diagnostic.Alike line) a.reports a'.reports
  engines : a.engine.Alike line n n' a'.engine

/-! ## Units that are executed -/

theorem Twin.Diagnostics.alike {T : Twin} (hrename : T.rename = fun x => x) {d d' : Diagnostic}
    (h : T.Diagnostics d d') : Diagnostic.Alike T.line d d' := by
  rcases h with rfl | ⟨⟨l, lexeme, fault⟩, ⟨l', lexeme', fault'⟩, rfl, rfl, hline, flag, hlexeme,
    hfault, -⟩
  · exact .same _
  · have hname : T.name flag = fun x => x := by
      funext x
      rw [Twin.name, hrename, ite_self]
    dsimp only at hlexeme hfault
    rw [hname] at hlexeme hfault
    have hfault' : fault' = fault := by cases fault <;> exact hfault
    rw [hlexeme, hfault']
    exact .runtime lexeme fault hline

/-- The engine that a unit leaves behind. -/
theorem Engine.engine_executed (e : Engine) (fuel : Nat) (unit : List Stmt) :
    (e.executed fuel unit).engine = e.ended ((executeAll e.setting fuel unit).after e.machine) :=
  e.interpret_eq fuel unit

namespace Engine.Alike

variable {unit unit' : List Stmt}

/-- Twins end alike on engines that are alike, and leave engines behind that are alike. -/
theorem executed (h : e.Alike line n n' e')
    (hunit : Stmt.AllTwins (Twin.between line n n' e e') x [false] unit unit') (fuel : Nat) :
    (e.executed fuel unit).Alike line n n' (e'.executed fuel unit') := by
  obtain ⟨W, hmachines⟩ := h.machines
  have haccounts := Twin.accounts_of_twins h.settings hmachines h.scope rfl hunit fuel
  refine ⟨haccounts.status, haccounts.reports.imp fun _ _ hd => hd.alike rfl, ?_⟩
  obtain ⟨W', -, hmachines'⟩ := haccounts.machines
  simp only [engine_executed] at hmachines' ⊢
  exact h.become hmachines' h.globals rfl
    (fun _ _ hd => Holds.endUnit hd) fun _ _ hd => Holds.endUnit hd

/-- If a unit ends without an error, then so does its twin, if it has at least as much fuel. -/
theorem finished {fuel fuel' : Nat} (h : e.Alike line n n' e')
    (hunit : Stmt.AllTwins (Twin.between line n n' e e') .unit [false] unit unit')
    (hok : (e.executed fuel unit).status = .ok) (hle : fuel ≤ fuel') :
    ∃ μ μ', executeAll e.setting fuel unit e.machine = .ok () μ ∧
      executeAll e'.setting fuel' unit' e'.machine = .ok () μ' ∧
        (e.ended μ).Alike line n n' { e' with machine := μ' } := by
  obtain ⟨W, hmachines⟩ := h.machines
  have hflags : Twin.Flags W e.machine.scope [false] :=
    h.scope ▸ hmachines.flags_globals rfl
  have hagree := (Twin.simulates h.settings (.inr ⟨trivial, hle⟩ : Twin.Fuel True fuel fuel')).executeAll
    hmachines hflags hunit
  unfold Twin.Agree at hagree
  revert hagree
  generalize hr : executeAll e.setting fuel unit e.machine = r,
    hr' : executeAll e'.setting fuel' unit' e'.machine = r'
  intro hagree
  cases hagree with
  | @ok W' μ μ' _ _ hs hμ =>
    refine ⟨μ, μ', rfl, rfl, ?_⟩
    have hscope : μ.scope = e.globals := hs.scope.trans (h.scope.trans h.globals.symm)
    have hdepth : μ.callDepth = 0 := hs.callDepth.trans h.callDepth
    have htop : ({ μ with scope := e.globals, callDepth := 0 } : Machine) = μ := by
      rw [← hscope, ← hdepth]
    have hended : e.ended μ = e.become e.endUnit.distances [] μ :=
      congrArg (e.become e.endUnit.distances []) htop
    rw [hended]
    exact h.become hμ (hscope.trans h.globals) hdepth (fun _ _ hd => Holds.endUnit hd)
      fun _ _ hd => hd
  | @error W' μ μ' i i' hs hμ hi =>
    rw [Engine.executed_of_error hr] at hok
    cases hi with
    | returning hreturns => cases hreturns
    | fault => cases hok
    | channelFull => cases hok
    | outOfFuel => cases hok
  | exempt =>
    rw [Engine.executed_of_error hr] at hok
    cases hok

end Engine.Alike

/-! ## Sessions -/

/-- Two sessions in which the same can be executed from now on. -/
structure Session.Alike (line : Nat → Nat → Prop) (s s' : Session) : Prop where
  lives : ∃ xs, Lives s xs
  lives' : ∃ xs, Lives s' xs
  nextId_le : s.nextId ≤ s'.nextId
  engines : s.engine.Alike line s.nextId s'.nextId s'.engine

variable {s s' : Session} {xs : List Execution} {source source' : String} {unit : List Stmt}

theorem Session.Sound.fresh (h : s.Sound xs) : s.engine.Fresh s.nextId := by
  refine fun id hle => ⟨?_, fun hmem => absurd (h.spare _ hmem).1 (Nat.not_lt.mpr hle)⟩
  cases ht : s.engine.distances.distance? id with
  | none => rfl
  | some d => exact absurd (h.noted _ _ ht) (Nat.not_lt.mpr hle)

/-- The session after a unit, whether it is accepted or not. -/
theorem Lives.exists_run (h : Lives s xs) (fuel : Nat) (source : String) :
    ∃ xs', Lives (s.run fuel source).2 xs' := by
  by_cases hsource : ∃ unit, Source.ReadsAs s.nextId source unit
  · obtain ⟨unit, hs⟩ := hsource
    exact ⟨_, h.executed fuel hs⟩
  · exact ⟨_, h.refused fuel (not_exists.mp hsource)⟩

/-- Every session is like itself. -/
theorem Lives.alike (h : Lives s xs) (hline : ∀ l, line l l) : s.Alike line s := by
  have hsound := h.sound
  have hroot := h.globals_eq
  obtain ⟨now, hnow⟩ := hsound.host
  let T := Twin.between line s.nextId s.nextId s.engine s.engine
  have hallows : T.Allows (World.of xs s.engine.distances s.engine.globals).known 0 id := by
    refine ⟨?_, hline⟩
    rintro site ⟨⟨x, hx, hsite⟩, hd⟩
    have hid := mem_allIds_of_mem_sites hsite
    have hholds : s.engine.Holds s.nextId site.extent site.id site.distance? :=
      ⟨hd, fun _ hmem => (hsound.spare _ hmem).2 x hx hid, hsound.used x hx _ hid⟩
    exact ⟨hholds, hholds⟩
  have hlt := hsound.globals
  rw [hroot] at hlt
  have hmachines := hsound.store.machines hallows hroot hlt hroot.symm
  exact ⟨⟨xs, h⟩, ⟨xs, h⟩, Nat.le_refl _, hroot, hroot, hsound.scope.trans hroot,
    h.callDepth_eq, rfl, ⟨now, hnow, hnow⟩, _, hmachines⟩

/-- Sessions in which two units with like accounts were run. -/
theorem Session.Alike.of_account {fuel fuel' : Nat} (hlives : ∃ xs, Lives s xs)
    (hlives' : ∃ xs, Lives s' xs)
    (haccount : Account.Alike line (s.run fuel source).2.nextId (s'.run fuel' source').2.nextId
      (s.account fuel source) (s'.account fuel' source'))
    (hle : (s.run fuel source).2.nextId ≤ (s'.run fuel' source').2.nextId) :
    (s.run fuel source).2.Alike line (s'.run fuel' source').2 := by
  obtain ⟨xs, hlives⟩ := hlives
  obtain ⟨xs', hlives'⟩ := hlives'
  refine ⟨hlives.exists_run fuel source, hlives'.exists_run fuel' source', hle, ?_⟩
  rw [engine_run, engine_run]
  exact haccount.engines

namespace Session.Alike

/-- Errors may be forgotten on both sides. -/
theorem resetErrors (h : s.Alike line s') : s.resetErrors.Alike line s'.resetErrors := by
  obtain ⟨⟨xs, hlives⟩, ⟨xs', hlives'⟩, hle, hengines⟩ := h
  exact ⟨⟨xs, hlives.reset⟩, ⟨xs', hlives'.reset⟩, hle, hengines⟩

/-- The clock may go on. -/
theorem clock (h : s.Alike line s') (now : Float) :
    Session.Alike line { s with engine.host := .clockAt now }
      { s' with engine.host := .clockAt now } := by
  obtain ⟨⟨xs, hlives⟩, ⟨xs', hlives'⟩, hle, hengines⟩ := h
  exact ⟨⟨xs, hlives.clock now⟩, ⟨xs', hlives'.clock now⟩, hle, hengines.globals,
    hengines.globals', hengines.scope, hengines.callDepth, hengines.maxCallDepth, ⟨now, rfl, rfl⟩,
    hengines.machines⟩

/-- The distances of a unit are noted on both sides, whether it is accepted or not. -/
theorem noteAll {c : Nat} (h : s.Alike line s') (hc : s'.nextId = s.nextId + c)
    (hp : (Grammar.program s.nextId (Source.tokens source)).result = .ok unit) :
    (s.engine.noteAll (findings unit).bound).Alike line
      (Grammar.program s.nextId (Source.tokens source)).nextId
      ((Grammar.program s.nextId (Source.tokens source)).nextId + c)
      (s'.engine.noteAll ((findings unit).bound.map (BoundReference.renumber c))) := by
  have hle := Grammar.nextId_le s.nextId (Source.tokens source)
  have hnew : ∀ r ∈ (findings unit).bound, s.nextId ≤ r.id.index := fun r hr =>
    (index_of_mem_bound hp hr).1
  refine h.engines.noteAll hnew ?_ hle (by omega)
  intro r hr
  obtain ⟨r', hr', rfl⟩ := List.mem_map.mp hr
  have hle' : s.nextId + c ≤ r'.id.index + c := Nat.add_le_add_right (hnew r' hr') c
  rw [hc]
  exact hle'

/-- A unit that is accepted; on the second side it may stand further down. -/
theorem executed {c : Nat} {move : Nat → Nat} (h : s.Alike line s')
    (hline : ∀ l, line l (move l))
    (hc : s'.nextId = s.nextId + c) (hs : Source.ReadsAs s.nextId source unit) (fuel : Nat) :
    Account.Alike line (Grammar.program s.nextId (Source.tokens source)).nextId
      ((Grammar.program s.nextId (Source.tokens source)).nextId + c)
      ((s.engine.noteAll (findings unit).bound).executed fuel unit)
      ((s'.engine.noteAll ((findings unit).bound.map (BoundReference.renumber c))).executed fuel
        (Stmt.shiftAll c move unit)) := by
  obtain ⟨xs, hlives⟩ := h.lives
  obtain ⟨xs', hlives'⟩ := h.lives'
  have hfresh' := hlives'.sound.fresh
  rw [hc] at hfresh'
  exact (h.noteAll hc hs.parsed).executed (hs.twins_shiftAll
    ⟨fun site hsite => ⟨hlives.sound.fresh.holds hs hsite, hfresh'.holds_shift hs hsite⟩, hline⟩) fuel

/-- The same source text has like accounts in sessions that are alike. -/
theorem account (h : s.Alike line s') (hline : ∀ l, line l l) (fuel : Nat) (source : String) :
    Account.Alike line (s.run fuel source).2.nextId (s'.run fuel source).2.nextId
      (s.account fuel source) (s'.account fuel source) := by
  obtain ⟨c, hc⟩ := Nat.exists_eq_add_of_le h.nextId_le
  have hsame (ds : List Diagnostic) : List.Forall₂ (Diagnostic.Alike line) ds ds :=
    List.forall₂_same.mpr fun d _ => .same d
  have hle := Grammar.nextId_le s.nextId (Source.tokens source)
  rw [Session.nextId_run, Session.nextId_run, hc, Grammar.program_add]
  unfold Session.account
  rw [hc, Grammar.program_add]
  dsimp only
  cases hp : (Grammar.program s.nextId (Source.tokens source)).result with
  | error errors => exact ⟨rfl, hsame _, h.engines.mono hle (by omega)⟩
  | ok unit =>
    cases hscanned : Source.errors source with
    | cons fault faults => exact ⟨rfl, hsame _, h.engines.mono hle (by omega)⟩
    | nil =>
      dsimp only [Except.map]
      unfold Engine.bound
      rw [findings_shiftAll_id]
      dsimp only
      cases hresolved : (findings unit).errors with
      | nil => exact h.executed hline hc ⟨hscanned, hp, hresolved⟩ fuel
      | cons e es => exact ⟨rfl, hsame _, h.noteAll hc hp⟩

/-- The same source text leaves sessions behind that are alike. -/
theorem run (h : s.Alike line s') (hline : ∀ l, line l l) (fuel : Nat) (source : String) :
    (s.run fuel source).2.Alike line (s'.run fuel source).2 := by
  refine .of_account h.lives h.lives' (h.account hline fuel source) ?_
  obtain ⟨c, hc⟩ := Nat.exists_eq_add_of_le h.nextId_le
  rw [Session.nextId_run, Session.nextId_run, hc, Grammar.program_add]
  exact Nat.le_add_right _ _

end Session.Alike

end LoxWalk
