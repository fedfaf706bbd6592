import Mathlib
import LoxWalk.Proofs.Binding.Shifting
import LoxWalk.Proofs.Execution.Preservation
import LoxWalk.Proofs.Session.Units

/-!
# Distances lead to the scopes that the text shows

Binding and evaluation open scopes independently of each other, one on the text and one on the store.
The main result of this module, `Lives.reference_matches_site`, is that they agree: whenever a
reference with a distance is read or assigned, in the unit of which it is part or in any later one,
going out that far leads to the very scope that was opened for the block, call, instance or
superclass whose names were looked at when the distance was found.

The invariant `Session.Sound` carries this through a session.  It says of the store that every value
in it is good in the world of the units executed so far, and of the table of distances that what it
forgets or gains concerns no code that can still run.
-/

namespace LoxWalk

/-- The frame was made in one of the executions for `o`. -/
def Made (xs : List Execution) (f : FrameId) (o : Origin) : Prop :=
  ∃ x ∈ xs, ∃ μ, During x.setting x.start μ ∧ μ.opens = some o ∧ μ.machine.store.freshFrame = f

/-- The frame was made in one of the executions for `o`, and was given the value. -/
def Given (xs : List Execution) (f : FrameId) (o : Origin) (v : Value) : Prop :=
  ∃ x ∈ xs, ∃ μ, During x.setting x.start μ ∧ μ.gives = some (o, v) ∧
    μ.machine.store.freshFrame = f

/-- The class was declared in one of the executions with these methods. -/
def Class.DeclaredWith (xs : List Execution) (c : Class) (methods : List FunDecl) : Prop :=
  ∃ x ∈ xs, ∃ μ, During x.setting x.start μ ∧ μ.Declares c methods

/-- The reference `id` lies in the initializer of a variable that is called `name`. -/
def Stmt.InInitializer (unit : List Stmt) (name : String) (id : NodeId) : Prop :=
  ∃ p ∈ Stmt.allInitializers unit, p.1.lexeme = name ∧ id ∈ p.2.ids

theorem Stmt.InInitializer.mem_allIds {unit : List Stmt} {name : String} {id : NodeId}
    (h : Stmt.InInitializer unit name id) : id ∈ Stmt.allIds unit := by
  obtain ⟨p, hp, -, hid⟩ := h
  exact mem_allIds_of_mem_initializers hid unit hp

/-- The world of the units that were executed so far, when the table `t` is in use. -/
def World.of (xs : List Execution) (t : DistanceTable) (globals : Scope) : World where
  known s := (∃ x ∈ xs, s ∈ sites x.unit) ∧ t.distance? s.id = s.distance?
  pending name id := ∃ x ∈ xs, Stmt.InInitializer x.unit name id
  made := Made xs
  given := Given xs
  declared c := ∃ methods, c.DeclaredWith xs methods
  globals := globals

/-- A new execution and a table that agrees about the references of earlier code that lasts. -/
theorem World.lasting_of {xs xs' : List Execution} {t t' : DistanceTable} {globals : Scope}
    (hxs : ∀ x ∈ xs, x ∈ xs')
    (ht : ∀ x ∈ xs, ∀ s ∈ sites x.unit, s.extent = .lasting →
      t'.distance? s.id = t.distance? s.id) :
    World.Lasting (.of xs t globals) (.of xs' t' globals) := by
  refine ⟨⟨fun s hs hk => ?_, fun name id hp => ?_⟩, fun f o hmade => ?_, fun f o v hgiven => ?_,
    fun c hc => ?_, rfl⟩
  · obtain ⟨⟨x, hx, hmem⟩, hd⟩ := hk
    exact ⟨⟨x, hxs x hx, hmem⟩, (ht x hx s hmem hs).trans hd⟩
  · obtain ⟨x, hx, hp⟩ := hp
    exact ⟨x, hxs x hx, hp⟩
  · obtain ⟨x, hx, hmade⟩ := hmade
    exact ⟨x, hxs x hx, hmade⟩
  · obtain ⟨x, hx, hgiven⟩ := hgiven
    exact ⟨x, hxs x hx, hgiven⟩
  · obtain ⟨methods, x, hx, hdeclared⟩ := hc
    exact ⟨methods, x, hxs x hx, hdeclared⟩

/-- What holds of a session after the executions `xs`. -/
structure Session.Sound (xs : List Execution) (s : Session) : Prop where
  host : ∃ now, s.engine.host = .clockAt now
  scope : s.engine.machine.scope = s.engine.globals
  globals : s.engine.globals.frame.index < s.engine.machine.store.frames.size
  store : (World.of xs s.engine.distances s.engine.globals).GoodStore s.engine.machine.store
  noted : ∀ id d, s.engine.distances.distance? id = some d → id.index < s.nextId
  spare : ∀ id ∈ s.engine.unitReferences, id.index < s.nextId ∧
    ∀ x ∈ xs, id ∉ Stmt.allIds x.unit
  used : ∀ x ∈ xs, ∀ id ∈ Stmt.allIds x.unit, id.index < s.nextId
  resolved : ∀ x ∈ xs, (findings x.unit).errors = []
  apart : xs.Pairwise fun x y => ∀ id ∈ Stmt.allIds x.unit, id ∉ Stmt.allIds y.unit

theorem mem_allIds_of_mem_sites {unit : List Stmt} {s : Site} (h : s ∈ sites unit) :
    s.id ∈ Stmt.allIds unit :=
  map_id_sites unit ▸ List.mem_map_of_mem h

theorem mem_allIds_of_mem_bound {unit : List Stmt} {r : BoundReference}
    (h : r ∈ (findings unit).bound) : r.id ∈ Stmt.allIds unit := by
  obtain ⟨s, hs, hr⟩ := exists_site_of_mem_bound h
  obtain ⟨d, -, rfl⟩ := Option.map_eq_some_iff.mp hr
  exact mem_allIds_of_mem_sites hs

/-- The distances in a new unit are those of new references. -/
theorem index_of_mem_bound {n : Nat} {ts : List Token} {unit : List Stmt}
    (h : (Grammar.program n ts).result = .ok unit) {r : BoundReference}
    (hr : r ∈ (findings unit).bound) :
    n ≤ r.id.index ∧ r.id.index < (Grammar.program n ts).nextId :=
  Grammar.index_of_program_eq_ok h (mem_allIds_of_mem_bound hr)

/-- A reference has one site. -/
theorem eq_of_mem_sites {unit : List Stmt} (hn : (Stmt.allIds unit).Nodup) {s s' : Site}
    (h : s ∈ sites unit) (h' : s' ∈ sites unit) (hid : s.id = s'.id) : s = s' :=
  List.inj_on_of_nodup_map (map_id_sites unit ▸ hn) h h' hid

namespace Engine

variable {e : Engine} {unit : List Stmt} {site : Site} {c : Nat}

/-- Of the references of a unit only one has the identity of a given site. -/
theorem bound?_of_mem_bound (hn : (Stmt.allIds unit).Nodup) (hsite : site ∈ sites unit)
    {r : BoundReference} (hr : r ∈ (findings unit).bound) (hid : r.id = site.id) :
    site.bound? = some r := by
  obtain ⟨site', hsite', hbound⟩ := exists_site_of_mem_bound hr
  obtain ⟨d, hd, rfl⟩ := Option.map_eq_some_iff.mp hbound
  rw [← eq_of_mem_sites hn hsite' hsite hid, hbound]

theorem id_renumber_inj {r : BoundReference} {id : NodeId} :
    (r.renumber c).id = id.shift c ↔ r.id = id := by
  obtain ⟨⟨i⟩, d, x⟩ := r
  obtain ⟨j⟩ := id
  simp [BoundReference.renumber, NodeId.shift]

/-- The distances of a unit whose identities are all larger by `c` are those of its sites, if these
identities were not in use before. -/
theorem distance?_noteAll_site (hn : (Stmt.allIds unit).Nodup)
    (hresolved : (findings unit).errors = []) (hsite : site ∈ sites unit)
    (hfresh : e.distances.distance? (site.id.shift c) = none) :
    (e.noteAll ((findings unit).bound.map (BoundReference.renumber c))).distances.distance?
      (site.id.shift c) = site.distance? := by
  have hsites : ∀ r ∈ (findings unit).bound.map (BoundReference.renumber c),
      r.id = site.id.shift c → ∃ r', site.bound? = some r' ∧ r = r'.renumber c := by
    intro r hr hid
    obtain ⟨r', hr', rfl⟩ := List.mem_map.mp hr
    exact ⟨r', bound?_of_mem_bound hn hsite hr' (id_renumber_inj.mp hid), rfl⟩
  cases hd : site.distance? with
  | some d =>
    have hbound : site.bound? = some ⟨site.id, d, site.extent⟩ := by rw [Site.bound?, hd]; rfl
    have hmem := (mem_bound_iff hresolved _).mpr ⟨site, hsite, hbound⟩
    refine distance?_noteAll_of_exists ⟨_, List.mem_map_of_mem hmem, rfl⟩ fun r hr hid => ?_
    obtain ⟨r', hr', rfl⟩ := hsites r hr hid
    rw [hbound, Option.some.injEq] at hr'
    rw [← hr']
    rfl
  | none =>
    rw [distance?_noteAll_of_forall_ne fun r hr hid => ?_, hfresh]
    obtain ⟨r', hr', -⟩ := hsites r hr hid
    rw [Site.bound?, hd] at hr'
    cases hr'

/-- A site that lasts is not among the references of the unit. -/
theorem not_mem_unitReferences_noteAll_site (hn : (Stmt.allIds unit).Nodup)
    (hsite : site ∈ sites unit) (hlasting : site.extent = .lasting)
    (hfresh : site.id.shift c ∉ e.unitReferences) :
    site.id.shift c ∉
      (e.noteAll ((findings unit).bound.map (BoundReference.renumber c))).unitReferences := by
  intro hmem
  rcases mem_unitReferences_noteAll.mp hmem with hmem | ⟨r, hr, hid, hextent⟩
  · exact hfresh hmem
  · obtain ⟨r', hr', rfl⟩ := List.mem_map.mp hr
    have hbound := bound?_of_mem_bound hn hsite hr' (id_renumber_inj.mp hid)
    obtain ⟨d, -, rfl⟩ := Option.map_eq_some_iff.mp hbound
    exact nomatch hextent.symm.trans hlasting

end Engine

namespace Session

variable {s : Session} {xs : List Execution} {fuel : Nat} {source : String} {unit : List Stmt}

/-- The table in use has the distances of the sites of a new unit. -/
theorem Sound.distance?_noteAll (h : s.Sound xs) (hs : Source.ReadsAs s.nextId source unit)
    {site : Site} (hsite : site ∈ sites unit) :
    (s.engine.noteAll (findings unit).bound).distances.distance? site.id = site.distance? := by
  have hfresh : s.engine.distances.distance? (site.id.shift 0) = none := by
    cases ht : s.engine.distances.distance? (site.id.shift 0) with
    | none => rfl
    | some d =>
      have hlt := h.noted _ _ ht
      have hle := (Grammar.index_of_program_eq_ok hs.parsed (mem_allIds_of_mem_sites hsite)).1
      rw [NodeId.shift_zero] at hlt
      omega
  have hd := Engine.distance?_noteAll_site (Grammar.nodup_of_program_eq_ok hs.parsed) hs.resolved
    hsite hfresh
  rwa [BoundReference.map_renumber_zero, NodeId.shift_zero] at hd

/-- Noting the distances of new references says nothing about others. -/
theorem Sound.distance?_noteAll_of_used (h : s.Sound xs)
    (hp : (Grammar.program s.nextId (Source.tokens source)).result = .ok unit) {x : Execution}
    (hx : x ∈ xs) {id : NodeId} (hid : id ∈ Stmt.allIds x.unit) :
    (s.engine.noteAll (findings unit).bound).distances.distance? id =
      s.engine.distances.distance? id := by
  refine Engine.distance?_noteAll_of_forall_ne fun r hr hid' => ?_
  have hle := (index_of_mem_bound hp hr).1
  have hlt := h.used x hx id hid
  rw [hid'] at hle
  omega

/-- A unit that is refused changes nothing that matters. -/
theorem Sound.refused (h : s.Sound xs) (fuel : Nat)
    (hsource : ∀ unit, ¬ Source.ReadsAs s.nextId source unit) :
    (s.run fuel source).2.Sound xs := by
  have hle : s.nextId ≤ (s.run fuel source).2.nextId := by
    rw [nextId_run]
    exact Grammar.nextId_le _ _
  have hused : ∀ x ∈ xs, ∀ id ∈ Stmt.allIds x.unit, id.index < (s.run fuel source).2.nextId :=
    fun x hx id hid => Nat.lt_of_lt_of_le (h.used x hx id hid) hle
  obtain he | ⟨unit, hp, he⟩ := engine_run_of_refused fuel hsource
  · refine ⟨?_, ?_, ?_, ?_, ?_, ?_, hused, h.resolved, h.apart⟩ <;> rw [he]
    · exact h.host
    · exact h.scope
    · exact h.globals
    · exact h.store
    · exact fun id d hd => Nat.lt_of_lt_of_le (h.noted id d hd) hle
    · exact fun id hid => ⟨Nat.lt_of_lt_of_le (h.spare id hid).1 hle, (h.spare id hid).2⟩
  · have hnew : ∀ r ∈ (findings unit).bound, s.nextId ≤ r.id.index ∧
        r.id.index < (s.run fuel source).2.nextId := by
      intro r hr
      rw [nextId_run]
      exact index_of_mem_bound hp hr
    refine ⟨?_, ?_, ?_, ?_, ?_, ?_, hused, h.resolved, h.apart⟩ <;> rw [he]
    · simpa using h.host
    · simpa using h.scope
    · simpa using h.globals
    · simp only [Engine.globals_noteAll, Engine.machine_noteAll]
      refine World.Lasting.goodStore (World.lasting_of (fun _ hx => hx) ?_) h.store
      intro x hx site hsite _
      exact h.distance?_noteAll_of_used hp hx (mem_allIds_of_mem_sites hsite)
    · intro id d hd
      rcases Engine.distance?_noteAll_eq_some hd with hd | ⟨r, hr, rfl⟩
      · exact Nat.lt_of_lt_of_le (h.noted id d hd) hle
      · exact (hnew r hr).2
    · intro id hid
      rcases Engine.mem_unitReferences_noteAll.mp hid with hid | ⟨r, hr, rfl, -⟩
      · exact ⟨Nat.lt_of_lt_of_le (h.spare id hid).1 hle, (h.spare id hid).2⟩
      · refine ⟨(hnew r hr).2, fun x hx hid => ?_⟩
        have hlt := h.used x hx _ hid
        have hle := (hnew r hr).1
        omega

/-- The world in which a unit is executed. -/
def world (xs : List Execution) (fuel : Nat) (unit : List Stmt) (s : Session) : World :=
  .of (s.execution fuel unit :: xs) (s.engine.noteAll (findings unit).bound).distances
    s.engine.globals

theorem Sound.lasting_world (h : s.Sound xs) (hs : Source.ReadsAs s.nextId source unit)
    (fuel : Nat) :
    World.Lasting (.of xs s.engine.distances s.engine.globals) (s.world xs fuel unit) :=
  World.lasting_of (fun _ hx => List.mem_cons_of_mem _ hx) fun _ hx _ hsite _ =>
    h.distance?_noteAll_of_used hs.parsed hx (mem_allIds_of_mem_sites hsite)

theorem Sound.goodMoment_start (h : s.Sound xs) (hs : Source.ReadsAs s.nextId source unit)
    (fuel : Nat) : (s.world xs fuel unit).GoodMoment (s.execution fuel unit).start := by
  have hat : (s.world xs fuel unit).Runs s.engine.machine.store s.engine.machine.scope .top [] := by
    rw [World.Runs, h.scope]
    exact .top h.globals
  have hfits : Stmt.AllFit (s.world xs fuel unit).known (s.world xs fuel unit).pending .top []
      unit := by
    refine Static.fits_unit (Grammar.wellFormed_of_program_eq_ok hs.parsed) hs.resolved
      (fun site hsite => ?_) fun p hp id hid => ?_
    · exact ⟨⟨_, List.mem_cons_self, hsite⟩, h.distance?_noteAll hs hsite⟩
    · exact ⟨_, List.mem_cons_self, p, hp, rfl, hid⟩
  exact ⟨(h.lasting_world hs fuel).goodStore h.store, .top, [], hat, hfits⟩

/-- All frames that a unit opens count as opened in its world, and all its classes as declared. -/
theorem covers_start (s : Session) (xs : List Execution) (fuel : Nat) (unit : List Stmt) :
    (s.world xs fuel unit).Covers (s.execution fuel unit).setting
      (s.execution fuel unit).start :=
  ⟨fun μ _ hμ ho => ⟨_, List.mem_cons_self, μ, hμ, ho, rfl⟩,
    fun μ _ _ hμ ho => ⟨_, List.mem_cons_self, μ, hμ, ho, rfl⟩,
    fun μ _ methods hμ hc => ⟨methods, _, List.mem_cons_self, μ, hμ, hc⟩⟩

theorem Sound.host_execution (h : s.Sound xs) (fuel : Nat) (unit : List Stmt) :
    ∃ now, (s.execution fuel unit).setting.host = .clockAt now := by
  obtain ⟨now, hnow⟩ := h.host
  exact ⟨now, (Engine.host_noteAll _ _).trans hnow⟩

/-- What a unit keeps however it ends. -/
theorem Sound.kept_final (h : s.Sound xs) (hs : Source.ReadsAs s.nextId source unit)
    (fuel : Nat) :
    (s.world xs fuel unit).Kept s.engine.machine (s.execution fuel unit).final := by
  have hleaves := (h.goodMoment_start hs fuel).leaves (h.host_execution fuel unit)
    (covers_start s xs fuel unit)
  unfold World.Leaves Execution.start World.Yields Exec.Ends at hleaves
  unfold Execution.final Exec.after
  dsimp only at hleaves
  split <;> rename_i heq <;> rw [heq] at hleaves
  · exact hleaves.1
  · exact hleaves.1

/-- The end of a unit forgets nothing about code that lasts. -/
theorem Sound.distance?_endUnit (h : s.Sound xs) (hs : Source.ReadsAs s.nextId source unit)
    {x : Execution} (hx : x ∈ s.execution fuel unit :: xs) {site : Site}
    (hsite : site ∈ sites x.unit) (hlasting : site.extent = .lasting) :
    (s.engine.noteAll (findings unit).bound).endUnit.distances.distance? site.id =
      (s.engine.noteAll (findings unit).bound).distances.distance? site.id := by
  have hid := mem_allIds_of_mem_sites hsite
  rw [Engine.distance?_endUnit, if_neg]
  rcases List.mem_cons.mp hx with rfl | hx
  · have hle := (Grammar.index_of_program_eq_ok hs.parsed hid).1
    have hfresh : site.id.shift 0 ∉ s.engine.unitReferences := by
      intro hmem
      have hlt := (h.spare _ hmem).1
      rw [NodeId.shift_zero] at hlt
      omega
    have hnot := Engine.not_mem_unitReferences_noteAll_site
      (Grammar.nodup_of_program_eq_ok hs.parsed) hsite hlasting hfresh
    rwa [BoundReference.map_renumber_zero, NodeId.shift_zero] at hnot
  · intro hmem
    rcases Engine.mem_unitReferences_noteAll.mp hmem with hmem | ⟨r, hr, hrid, -⟩
    · exact (h.spare _ hmem).2 x hx hid
    · have hle := (index_of_mem_bound hs.parsed hr).1
      have hlt := h.used x hx _ hid
      rw [hrid] at hle
      omega

/-- A unit that is executed leaves a sound session behind. -/
theorem Sound.executed (h : s.Sound xs) (fuel : Nat) (hs : Source.ReadsAs s.nextId source unit) :
    (s.run fuel source).2.Sound (s.execution fuel unit :: xs) := by
  have hk := h.kept_final hs fuel
  have hle : s.nextId ≤ (s.run fuel source).2.nextId := by
    rw [nextId_run]
    exact Grammar.nextId_le _ _
  have hnew : ∀ id ∈ Stmt.allIds unit, s.nextId ≤ id.index ∧
      id.index < (s.run fuel source).2.nextId := by
    intro id hid
    rw [nextId_run]
    exact Grammar.index_of_program_eq_ok hs.parsed hid
  refine ⟨?_, ?_, ?_, ?_, ?_, ?_, ?_, ?_, ?_⟩
  all_goals try rw [engine_run_of_readsAs hs]
  · exact h.host_execution fuel unit
  · rfl
  · simp only [Engine.toTopLevel, Engine.endUnit, Engine.globals_noteAll]
    exact Nat.lt_of_lt_of_le h.globals hk.store.size
  · have hlasting : World.Lasting (s.world xs fuel unit) (.of (s.execution fuel unit :: xs)
        (s.engine.noteAll (findings unit).bound).endUnit.distances s.engine.globals) :=
      World.lasting_of (fun _ hx => hx) fun x hx site hsite hl => h.distance?_endUnit hs hx hsite hl
    have hgood := hlasting.goodStore hk.good
    simpa only [Engine.toTopLevel, Engine.endUnit, Engine.globals_noteAll] using hgood
  · intro id d hd
    have hd' : (s.engine.noteAll (findings unit).bound).endUnit.distances.distance? id = some d := hd
    rw [Engine.distance?_endUnit] at hd'
    split at hd'
    · cases hd'
    · rcases Engine.distance?_noteAll_eq_some hd' with hd' | ⟨r, hr, rfl⟩
      · exact Nat.lt_of_lt_of_le (h.noted id d hd') hle
      · exact (hnew _ (mem_allIds_of_mem_bound hr)).2
  · intro id hid
    cases hid
  · refine List.forall_mem_cons.mpr ⟨fun id hid => (hnew id hid).2, fun x hx id hid => ?_⟩
    exact Nat.lt_of_lt_of_le (h.used x hx id hid) hle
  · exact List.forall_mem_cons.mpr ⟨hs.resolved, h.resolved⟩
  · refine List.pairwise_cons.mpr ⟨fun x hx id hid hid' => ?_, h.apart⟩
    have hlt := h.used x hx id hid'
    have hge := (hnew id hid).1
    omega

end Session

/-- Every session is sound. -/
theorem Lives.sound {s : Session} {xs : List Execution} (h : Lives s xs) : s.Sound xs := by
  induction h with
  | new now maxCallDepth outputLimit diagnosticsLimit =>
    have hclock : (World.of [] .empty (.root ⟨0⟩)).GoodValue Store.empty.useObject
        (.native ⟨⟨0⟩, clockName, 0⟩) := trivial
    have hstore := (World.GoodStore.empty (W := .of [] .empty (.root ⟨0⟩))).useObject.addFrame
      (NameMap.forall_single (x := clockName) hclock)
    refine ⟨⟨now, rfl⟩, rfl, Nat.zero_lt_one, hstore, fun id d hd => ?_, ?_, ?_, ?_, .nil⟩
    · simp [Session.new, Engine.new, DistanceTable.empty, DistanceTable.distance?] at hd
    · rintro id ⟨⟩
    · rintro x ⟨⟩
    · rintro x ⟨⟩
  | clock _ now ih =>
    exact ⟨⟨now, rfl⟩, ih.scope, ih.globals, ih.store, ih.noted, ih.spare, ih.used, ih.resolved,
      ih.apart⟩
  | reset _ ih => exact ⟨ih.host, ih.scope, ih.globals, ih.store, ih.noted, ih.spare, ih.used,
      ih.resolved, ih.apart⟩
  | refused _ fuel hsource ih => exact ih.refused fuel hsource
  | executed _ fuel hsource ih => exact ih.executed fuel hsource

/-! ## References and what they lead to -/

/-- The reference that a task reads or assigns itself. -/
def Task.reference? : Task → Option NodeId
  | .evaluate (.var id _) => some id
  | .evaluate (.this id _) => some id
  | .evaluate (.super id _ _) => some id
  | .assign id _ _ => some id
  | _ => none

/-- The name `x` is bound in the scope `d` steps out. -/
def Machine.Binds (m : Machine) (d : Nat) (x : String) : Prop :=
  ∃ scope, m.store.ownerAt? m.scope d x = some scope

/-- What is looked up at the distance `d` is there; a method that is called on `super` is looked up
in the superclass, and its instance one scope further in. -/
def Moment.Binds (μ : Moment) (d : Nat) : Prop :=
  match μ.task with
  | .evaluate (.var _ name) => μ.machine.Binds d name.lexeme
  | .evaluate (.this _ keyword) => μ.machine.Binds d keyword.lexeme
  | .evaluate (.super _ _ _) =>
    μ.machine.Binds d superName ∧ 0 < d ∧ μ.machine.Binds (d - 1) thisName
  | .assign _ name _ => μ.machine.Binds d name.lexeme
  | _ => True

/-- The variable of an assignment awaits its initializer, in which the assignment is evaluated. -/
def Moment.AwaitsInitializer (μ : Moment) (unit : List Stmt) : Prop :=
  ∃ id name v, μ.task = .assign id name v ∧ Stmt.InInitializer unit name.lexeme id

/-- Something fails because a variable is not defined. -/
def Exec.FailsUndefined {α : Type} (x : Exec α) (m : Machine) : Prop :=
  ∃ e m' name, x m = .error (.fault e) m' ∧ e.fault = .undefinedVariable name

/-- Carrying out the task fails because a variable is not defined. -/
def Moment.FailsUndefined (s : Setting) (μ : Moment) : Prop :=
  match μ.task with
  | .evaluate e => (evaluate s μ.fuel e).FailsUndefined μ.machine
  | .assign id name v => (Exec.assignVariable s id name v).FailsUndefined μ.machine
  | _ => False

/-- At the moment `μ` the scopes of the machine are those of the site, which is one of the unit, and
the distance `d` of the site leads to what is looked up. -/
structure Moment.Matches (xs : List Execution) (s : Setting) (μ : Moment) (unit : List Stmt)
    (site : Site) (d : Nat) : Prop where
  site_mem : site ∈ sites unit
  bound_mem : ⟨site.id, d, site.extent⟩ ∈ (findings unit).bound
  lt_length : d < site.origins.length
  made : ∀ k o, site.origins[k]? = some o →
    ∃ scope, μ.machine.scope.ancestor? k = some scope ∧ Made xs scope.frame o
  binds : μ.Binds d ∨ d = 0 ∧ μ.AwaitsInitializer unit
  defined : μ.FailsUndefined s → d = 0 ∧ μ.AwaitsInitializer unit

/-! ### Names that are bound -/

namespace Exec

variable {s : Setting} {m : Machine} {id : NodeId} {name : Token} {d : Nat}

theorem not_failsUndefined_of_ok {α : Type} {x : Exec α} {a : α} {m' : Machine}
    (h : x m = .ok a m') : ¬ x.FailsUndefined m := by
  rintro ⟨e, m₁, y, he, -⟩
  rw [h] at he
  cases he

theorem not_failsUndefined_outOfFuel {α : Type} :
    ¬ (throw .outOfFuel : Exec α).FailsUndefined m := by
  rintro ⟨e, m₁, y, he, -⟩
  cases he

theorem readVariable_of_binds (hd : s.distances.distance? id = some d)
    (hb : m.Binds d name.lexeme) : ∃ v, readVariable s id name m = .ok v m := by
  obtain ⟨scope, hscope⟩ := hb
  obtain ⟨hancestor, hdeclares⟩ := Option.filter_eq_some_iff.mp hscope
  obtain ⟨v, hv⟩ := Option.isSome_iff_exists.mp hdeclares
  have hget : m.store.getAt? m.scope d name.lexeme = some v :=
    Option.bind_eq_some_iff.mpr ⟨scope, hancestor, hv⟩
  refine ⟨v, ?_⟩
  simp only [readVariable, hd]
  rw [get_bind, hget]
  rfl

theorem assignVariable_of_binds (hd : s.distances.distance? id = some d)
    (hb : m.Binds d name.lexeme) (v : Value) : ∃ m', assignVariable s id name v m = .ok () m' := by
  obtain ⟨scope, hscope⟩ := hb
  refine ⟨{ m with store := m.store.define scope name.lexeme v }, ?_⟩
  simp only [assignVariable, hd]
  rw [get_bind, hscope]
  rfl

/-- With a superclass and an instance at hand the only fault is a missing method. -/
theorem superMethod_not_failsUndefined {keyword : Token} {c : Class} {i : Instance}
    (hd : s.distances.distance? id = some d)
    (hc : m.store.getAt? m.scope d superName = some (.class_ c))
    (hi : m.store.getAt? m.scope (d - 1) thisName = some (.instance_ i)) :
    ¬ (superMethod s id keyword name).FailsUndefined m := by
  rintro ⟨e, m', y, he, hy⟩
  rw [superMethod_eq hd hc hi] at he
  cases hf : c.method? name.lexeme with
  | some f =>
    rw [Class.methodFor_of_some hf] at he
    cases he
  | none =>
    rw [Class.methodFor_of_none hf] at he
    cases he
    cases hy

end Exec

namespace World

variable {W : World} {m : Machine} {st : Static} {os : List Origin} {d : Nat} {x : String}

/-- The scope at the distance of a name, and that it binds the name. -/
theorem At.binds (h : W.At m st os) (hd : st.distance? x = some d) :
    d < os.length ∧ m.Binds d x := by
  have hd' : st.scopes.findIdx? (·.contains x) = some d := hd
  obtain ⟨hlt, hcontains, -⟩ := List.findIdx?_eq_some_iff_getElem.mp hd'
  have hlen : d < os.length := Chain.length_eq h ▸ hlt
  refine ⟨hlen, ?_⟩
  obtain ⟨scope, names, hancestor, hnames, -, -, hbinds⟩ :=
    Chain.exists_ancestor h (List.getElem?_eq_getElem hlen)
  rw [List.getElem?_eq_getElem hlt, Option.some.injEq] at hnames
  exact ⟨scope, Option.filter_eq_some_iff.mpr ⟨hancestor, hbinds x (hnames ▸ hcontains)⟩⟩

theorem At.binds_this (h : W.At m st os) {f : FunDecl} (ho : os[d]? = some (.this f)) :
    ∃ i, m.store.getAt? m.scope d thisName = some (.instance_ i) := by
  obtain ⟨scope, -, hancestor, -, -, ⟨i, hi, -⟩, -⟩ := Chain.exists_ancestor h ho
  exact ⟨i, Option.bind_eq_some_iff.mpr ⟨scope, hancestor, hi⟩⟩

theorem At.binds_super (h : W.At m st os) {fs : List FunDecl} (ho : os[d]? = some (.super fs)) :
    ∃ c, m.store.getAt? m.scope d superName = some (.class_ c) := by
  obtain ⟨scope, -, hancestor, -, -, ⟨c, hc, -⟩, -⟩ := Chain.exists_ancestor h ho
  exact ⟨c, Option.bind_eq_some_iff.mpr ⟨scope, hancestor, hc⟩⟩

end World

theorem Machine.binds_of_getAt? {m : Machine} {d : Nat} {x : String} {v : Value}
    (h : m.store.getAt? m.scope d x = some v) : m.Binds d x := by
  obtain ⟨scope, hancestor, hv⟩ := Option.bind_eq_some_iff.mp h
  refine ⟨scope, Option.filter_eq_some_iff.mpr ⟨hancestor, ?_⟩⟩
  exact Option.isSome_iff_exists.mpr ⟨v, hv⟩

/-! ### Good moments -/

section

variable {xs : List Execution} {s : Setting} {globals : Scope} {μ : Moment} {id : NodeId} {d : Nat}

/-- What is left to show of a reference whose site is known. -/
theorem exists_matches {st : Static} {os : List Origin} {d? : Option Nat}
    (hres : ∀ x ∈ xs, (findings x.unit).errors = [])
    (hat : (World.of xs s.distances globals).At μ.machine st os)
    (hk : (World.of xs s.distances globals).known ⟨id, os, d?, st.extent⟩)
    (hd : s.distances.distance? id = some d) (hlt : d? = some d → d < os.length)
    (hbinds : d? = some d → ∀ u ∈ xs, id ∈ Stmt.allIds u.unit →
      (μ.Binds d ∨ d = 0 ∧ μ.AwaitsInitializer u.unit) ∧
        (μ.FailsUndefined s → d = 0 ∧ μ.AwaitsInitializer u.unit)) :
    ∃ u ∈ xs, ∃ site, site.id = id ∧ μ.Matches xs s u.unit site d := by
  obtain ⟨⟨u, hu, hsite⟩, hd'⟩ := hk
  obtain rfl : d? = some d := hd'.symm.trans hd
  obtain ⟨hb, hf⟩ := hbinds rfl u hu (mem_allIds_of_mem_sites hsite)
  refine ⟨u, hu, _, rfl, hsite, ?_, hlt rfl, fun k o ho => ?_, hb, hf⟩
  · exact (mem_bound_iff (hres u hu) _).mpr ⟨_, hsite, rfl⟩
  · obtain ⟨scope, -, hancestor, -, hmade, -⟩ := World.Chain.exists_ancestor hat ho
    exact ⟨scope, hancestor, hmade⟩

/-- At a good moment the scopes are those of the site of the reference. -/
theorem World.GoodMoment.matches (hres : ∀ x ∈ xs, (findings x.unit).errors = [])
    (hunit : ∀ u ∈ xs, ∀ u' ∈ xs, id ∈ Stmt.allIds u.unit → id ∈ Stmt.allIds u'.unit → u = u')
    (hg : (World.of xs s.distances globals).GoodMoment μ) (hid : μ.task.reference? = some id)
    (hd : s.distances.distance? id = some d) :
    ∃ u ∈ xs, ∃ site, site.id = id ∧ μ.Matches xs s u.unit site d := by
  obtain ⟨n, task, m⟩ := μ
  obtain ⟨hσ, hg⟩ := hg
  cases task with
  | evaluate e =>
    cases e with
    | var id' name =>
      cases hid
      obtain ⟨st, os, hat, hk⟩ := hg
      refine exists_matches hres hat hk hd (fun hst => (hat.binds hst).1) fun hst _ _ _ => ?_
      have hb := (hat.binds hst).2
      refine ⟨.inl hb, fun hf => absurd hf ?_⟩
      obtain ⟨v, hv⟩ := Exec.readVariable_of_binds hd hb
      cases n with
      | zero => exact Exec.not_failsUndefined_outOfFuel
      | succ n => exact Exec.not_failsUndefined_of_ok hv
    | this id' keyword =>
      cases hid
      obtain ⟨st, os, hat, hkeyword, hk, -⟩ := hg
      refine exists_matches hres hat hk hd (fun hst => (hat.binds hst).1) fun hst _ _ _ => ?_
      have hb : m.Binds d keyword.lexeme := hkeyword ▸ (hat.binds hst).2
      refine ⟨.inl hb, fun hf => absurd hf ?_⟩
      obtain ⟨v, hv⟩ := Exec.readVariable_of_binds hd hb
      cases n with
      | zero => exact Exec.not_failsUndefined_outOfFuel
      | succ n => exact Exec.not_failsUndefined_of_ok hv
    | super id' keyword method =>
      cases hid
      obtain ⟨st, os, hat, hk, d', f, fs, hst', hmethod, hsuper, -⟩ := hg
      refine exists_matches hres hat hk hd (fun hst => (hat.binds hst).1) fun hst _ _ _ => ?_
      obtain rfl : d' + 1 = d := Option.some.inj (hst'.symm.trans hst)
      obtain ⟨c, hc⟩ := hat.binds_super hsuper
      obtain ⟨i, hi⟩ := hat.binds_this hmethod.here
      have hb : Moment.Binds ⟨n, .evaluate (.super id keyword method), m⟩ (d' + 1) :=
        ⟨Machine.binds_of_getAt? hc, Nat.succ_pos d', Machine.binds_of_getAt? hi⟩
      refine ⟨.inl hb, fun hf => absurd hf ?_⟩
      cases n with
      | zero => exact Exec.not_failsUndefined_outOfFuel
      | succ n => exact Exec.superMethod_not_failsUndefined hd hc hi
    | _ => cases hid
  | assign id' name v =>
    cases hid
    obtain ⟨st, os, hat, -, -, hk⟩ := hg
    have hsucceeds : m.Binds d name.lexeme → ¬ Moment.FailsUndefined s ⟨n, .assign id name v, m⟩ := by
      intro hb
      obtain ⟨m₁, hm₁⟩ := Exec.assignVariable_of_binds hd hb v
      exact Exec.not_failsUndefined_of_ok hm₁
    rcases hk with hk | ⟨hne, hk, hp⟩
    · refine exists_matches hres hat hk hd (fun hst => (hat.binds hst).1) fun hst _ _ _ => ?_
      have hb := (hat.binds hst).2
      exact ⟨.inl hb, fun hf => absurd hf (hsucceeds hb)⟩
    · obtain ⟨u', hu', hp⟩ := hp
      refine exists_matches hres hat hk hd (fun hst => ?_) fun hst u hu hmem => ?_
      · obtain rfl := Option.some.inj hst
        rw [← World.Chain.length_eq hat]
        exact List.length_pos_of_ne_nil hne
      · obtain rfl := Option.some.inj hst
        -- the reference is part of one unit only
        obtain rfl : u = u' := hunit u hu u' hu' hmem hp.mem_allIds
        have hawaits : Moment.AwaitsInitializer ⟨n, .assign id name v, m⟩ u.unit :=
          ⟨id, name, v, rfl, hp⟩
        exact ⟨.inr ⟨rfl, hawaits⟩, fun _ => ⟨rfl, hawaits⟩⟩
  | _ => cases hid

end

/-! ## Every moment of every unit -/

/-- A reference is part of one unit only. -/
theorem Session.Sound.unit_unique {s : Session} {xs : List Execution} (h : s.Sound xs) {id : NodeId}
    {u u' : Execution} (hu : u ∈ xs) (hu' : u' ∈ xs) (hid : id ∈ Stmt.allIds u.unit)
    (hid' : id ∈ Stmt.allIds u'.unit) : u = u' := by
  have hsymm : Std.Symm fun x y : Execution => ∀ id ∈ Stmt.allIds x.unit, id ∉ Stmt.allIds y.unit :=
    ⟨fun _ _ h id hy hx => h id hx hy⟩
  exact Classical.byContradiction fun hne => h.apart.forall hu hu' hne id hid hid'

/-- Every moment of an execution is good in the world of the units up to that one. -/
theorem Lives.goodMoment {s : Session} {xs : List Execution} (h : Lives s xs) {x : Execution}
    (hx : x ∈ xs) {μ : Moment} (hμ : During x.setting x.start μ) :
    ∃ xs', (∀ y ∈ xs', y ∈ xs) ∧ (∃ now, x.setting.host = .clockAt now) ∧
      (World.of xs' x.setting.distances x.setting.globals).Covers x.setting μ ∧
        (World.of xs' x.setting.distances x.setting.globals).GoodMoment μ := by
  obtain ⟨s₀, xs₀, fuel, source, unit, h₀, hsource, rfl, hxs⟩ := h.exists_executed hx
  have hhost := h₀.sound.host_execution fuel unit
  obtain ⟨hgood, hcovers⟩ := (h₀.sound.goodMoment_start hsource fuel).during hhost
    (Session.covers_start s₀ xs₀ fuel unit) hμ
  have hglobals : (s₀.execution fuel unit).setting.globals = s₀.engine.globals :=
    Engine.globals_noteAll _ _
  rw [hglobals]
  exact ⟨_, fun _ hy => hxs.subset hy, hhost, hcovers, hgood⟩

theorem Moment.Matches.mono {xs xs' : List Execution} (hxs : ∀ x ∈ xs, x ∈ xs') {s : Setting}
    {μ : Moment} {unit : List Stmt} {site : Site} {d : Nat} (h : μ.Matches xs s unit site d) :
    μ.Matches xs' s unit site d := by
  refine ⟨h.site_mem, h.bound_mem, h.lt_length, fun k o ho => ?_, h.binds, h.defined⟩
  obtain ⟨scope, hancestor, x, hx, hmade⟩ := h.made k o ho
  exact ⟨scope, hancestor, x, hxs x hx, hmade⟩

/-- Whenever a reference with a distance is read or assigned during a unit, it is a reference of
this unit or of an earlier one, its distance is the one that was found there, and the scopes of the
machine are those around it in the text, each made for the very block, call, instance or superclass
that the text shows.  What is looked up is bound at that distance, and no variable is found to be
undefined; but an assignment inside the initializer of its variable may come too early. -/
theorem Lives.reference_matches_site {s : Session} {xs : List Execution} (h : Lives s xs) {x : Execution}
    (hx : x ∈ xs) {μ : Moment} (hμ : During x.setting x.start μ) {id : NodeId}
    (hid : μ.task.reference? = some id) {d : Nat}
    (hd : x.setting.distances.distance? id = some d) :
    ∃ u ∈ xs, ∃ site, site.id = id ∧ μ.Matches xs x.setting u.unit site d := by
  obtain ⟨s₀, xs₀, fuel, source, unit, h₀, hsource, rfl, hxs⟩ := h.exists_executed hx
  have hsound := h₀.sound.executed fuel hsource
  have hgood := ((h₀.sound.goodMoment_start hsource fuel).during
    (h₀.sound.host_execution fuel unit) (Session.covers_start s₀ xs₀ fuel unit) hμ).1
  have hmatches : ∃ u ∈ s₀.execution fuel unit :: xs₀, ∃ site, site.id = id ∧
      μ.Matches (s₀.execution fuel unit :: xs₀) (s₀.execution fuel unit).setting u.unit site d :=
    hgood.matches hsound.resolved
      (fun u hu u' hu' hid hid' => hsound.unit_unique hu hu' hid hid') hid hd
  obtain ⟨u, hu, site, hsite, hm⟩ := hmatches
  exact ⟨u, hxs.subset hu, site, hsite, hm.mono fun _ hy => hxs.subset hy⟩

/-- The unit `{var a;a;}`. -/
def Execution.sampleUnit : List Stmt :=
  [.block [.var ⟨.identifier, "a", 1⟩ none, .expression (.var ⟨0⟩ ⟨.identifier, "a", 1⟩)]]

/-- The execution of `{var a;a;}` in a new session. -/
def Execution.sample : Execution :=
  Session.execution 6 sampleUnit (.new (.new (.clockAt 0) 8 none) none)

theorem Execution.readsAs_sample : Source.ReadsAs 0 "\x7bvar a;a;\x7d" sampleUnit :=
  ⟨by decide +kernel, by cbv, by decide⟩

/-- In the unit `{var a;a;}` the distance of `a` leads to the scope of the block. -/
theorem Lives.reference_matches_site_in_block : ∃ (s : Session) (μ : Moment),
    Lives s [.sample] ∧ During Execution.sample.setting Execution.sample.start μ ∧
      μ.task.reference? = some ⟨0⟩ ∧
        Execution.sample.setting.distances.distance? ⟨0⟩ = some 0 ∧
          ∃ u ∈ [Execution.sample], ∃ site, site.id = ⟨0⟩ ∧
            μ.Matches [.sample] Execution.sample.setting u.unit site 0 := by
  have hlives : Lives _ [Execution.sample] :=
    (Lives.new 0 8 none none).executed 6 Execution.readsAs_sample
  have hduring : During Execution.sample.setting Execution.sample.start
      ⟨1, .evaluate (.var ⟨0⟩ ⟨.identifier, "a", 1⟩), _⟩ :=
    .head .first (.head .block (.head (.rest rfl) (.head .first (.head .expression .refl))))
  have hdistance : Execution.sample.setting.distances.distance? ⟨0⟩ = some 0 := by
    refine Engine.distance?_noteAll_of_exists ⟨⟨⟨0⟩, 0, .unit⟩, by decide, rfl⟩ ?_
    decide
  exact ⟨_, _, hlives, hduring, rfl, hdistance,
    hlives.reference_matches_site List.mem_cons_self hduring rfl hdistance⟩

end LoxWalk
