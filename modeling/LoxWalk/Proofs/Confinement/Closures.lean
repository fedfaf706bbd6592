import LoxWalk.Proofs.Confinement.Execution

/-!
# What an execution leaves alone

The territory of an execution is what can be reached from where it starts, and of the frames in it
only those that enclose code that runs.  Since the execution stays inside, everything else is the
same afterwards, however the execution ends.

For two closures this means: a call of the one changes nothing that the other captured, unless they
share something and the call writes it.  Here only those scopes count as shared that enclose the top
level or a function that is run by the call; that the called function could get hold of the other
closure by a global variable does not matter as long as it does not call it.
-/

namespace LoxWalk

/-- What is bound in a cell is the same on the machine `m'`. -/
def Machine.Keeps (m m' : Machine) (p : Cell) : Prop :=
  ∀ b, m.store.at? p = some b → m'.store.at? p = some b

/-- Code that runs in a scope starts from it and from the top level. -/
def Setting.Roots (s : Setting) (scope : Scope) (p : Cell) : Prop :=
  scope.Refers p ∨ s.globals.Refers p

/-- A call starts from the function, the arguments and the top level. -/
def Setting.CallRoots (s : Setting) (f : Closure) (arguments : List Value) (p : Cell) : Prop :=
  f.scope.Refers p ∨ (∃ v ∈ arguments, v.Refers p) ∨ s.globals.Refers p

/-- The function `f` is run in the course of the moment. -/
def Moment.Runs (s : Setting) (μ : Moment) (f : Closure) : Prop :=
  ∃ ν arguments, During s μ ν ∧ ν.task = .run f arguments

namespace Territory

/-- What can be reached from the roots, and what is new; of the frames that are not new, only some
may be written. -/
def reachable (σ₀ : Store) (roots frames : Cell → Prop) : Territory σ₀ where
  reach p := σ₀.Reaches roots p ∨ σ₀.at? p = none
  write p := (σ₀.Reaches roots p ∧ ∀ f, p = .frame f → frames p) ∨ σ₀.at? p = none
  reach_of_write _ hp := hp.imp And.left id
  write_record _ hr := hr.imp (fun h => ⟨h, fun _ h => nomatch h⟩) id
  write_fresh _ hp := .inr hp

variable {σ₀ : Store} {roots frames : Cell → Prop}

theorem good_reachable (σ₀ : Store) (roots frames : Cell → Prop) :
    (reachable σ₀ roots frames).Good σ₀ := by
  refine ⟨Nat.le_refl _, Nat.le_refl _, ?_, fun p _ => rfl⟩
  intro p b x v hp hb hv q hq
  rcases hp with hp | hp
  · exact .inl (hp.link ⟨b, x, v, hb, hv, hq⟩)
  · rw [hb] at hp
    cases hp

/-- A scope among the roots, with frames that may be written. -/
theorem writes_reachable {scope : Scope} (hroots : ∀ p, scope.Refers p → roots p)
    (hframes : ∀ p, scope.Refers p → frames p) : (reachable σ₀ roots frames).Writes scope :=
  fun p hp => .inl ⟨.root (hroots p hp), fun _ _ => hframes p hp⟩

/-- The functions that are run may write their variables, if these are among the frames. -/
theorem covers_reachable {s : Setting} {μ : Moment}
    (h : ∀ f, μ.Runs s f → ∀ p, f.scope.Refers p → frames p) :
    (reachable σ₀ roots frames).Covers s μ := by
  intro ν f arguments hν htask hf p hp
  rcases hf p hp with hreach | hfresh
  · exact .inl ⟨hreach, fun _ _ => h f ⟨ν, arguments, hν, htask⟩ p hp⟩
  · exact .inr hfresh

/-- What is outside stays the same. -/
theorem Confines.keeps {α : Type} {x : Exec α} {m : Machine} {Q : α → Prop}
    (hx : (reachable m.store roots frames).Confines x m Q) {p : Cell}
    (hp : m.store.Reaches roots p → ∃ f, p = .frame f ∧ ¬ frames p) : m.Keeps (x.after m) p := by
  intro b hb
  have hout : ¬ (reachable m.store roots frames).write p := by
    rintro (⟨hreach, hframes⟩ | hfresh)
    · obtain ⟨f, hf, hnot⟩ := hp hreach
      exact hnot (hframes f hf)
    · rw [hb] at hfresh
      cases hfresh
  unfold Confines Exec.Ends at hx
  unfold Exec.after
  cases hr : x m with
  | ok a m' =>
    rw [hr] at hx
    exact (hx.1.good.same p hout).trans hb
  | error i m' =>
    rw [hr] at hx
    exact (hx.1.good.same p hout).trans hb

end Territory

section

variable {s : Setting}

/-- Code that runs in the current scope leaves alone what it cannot reach. -/
theorem Moment.inside_reachable (s : Setting) {μ : Moment}
    (h : ∀ T : Territory μ.machine.store, T.Writes μ.machine.scope →
      T.HoldsTask μ.machine μ.task) :
    (Territory.reachable μ.machine.store (s.Roots μ.machine.scope) fun _ => True).Inside s μ := by
  refine ⟨Territory.good_reachable _ _ _, h _ ?_, Territory.covers_reachable fun _ _ _ _ => trivial⟩
  exact Territory.writes_reachable (fun p hp => .inl hp) fun _ _ => trivial

/-- A call changes only what can be reached from it, and of the frames only those of the top level
and those around functions that are run. -/
theorem call_keeps (hhost : s.host.Confined) (fuel : Nat) (m : Machine) (f : Closure) (paren : Token)
    (arguments : List Value) {p : Cell}
    (hp : m.store.Reaches (s.CallRoots f arguments) p → ∃ φ, p = .frame φ ∧ ¬ s.globals.Refers p ∧
      ∀ g, Moment.Runs s ⟨fuel, .call (.function f) paren arguments, m⟩ g → ¬ g.scope.Refers p) :
    m.Keeps ((call s fuel (.function f) paren arguments).after m) p := by
  let μ : Moment := ⟨fuel, .call (.function f) paren arguments, m⟩
  let frames : Cell → Prop := fun p => s.globals.Refers p ∨ ∃ g, μ.Runs s g ∧ g.scope.Refers p
  let T := Territory.reachable m.store (s.CallRoots f arguments) frames
  have hglobals : T.Writes s.globals :=
    Territory.writes_reachable (fun p hp => .inr (.inr hp)) fun p hp => .inl hp
  have hinside : T.Inside s μ := by
    refine ⟨Territory.good_reachable _ _ _, ⟨?_, ?_⟩, ?_⟩
    · exact fun p hp => .inl (.root (.inl hp))
    · exact fun v hv p hp => .inl (.root (.inr (.inl ⟨v, hv, hp⟩)))
    · exact Territory.covers_reachable fun g hg p hp => .inr ⟨g, hg, hp⟩
  have hleaves : T.Confines (call s fuel (.function f) paren arguments) m T.Holds :=
    hinside.leaves hhost hglobals
  refine hleaves.keeps fun hreach => ?_
  obtain ⟨φ, hφ, hnot, hruns⟩ := hp hreach
  refine ⟨φ, hφ, ?_⟩
  rintro (hp | ⟨g, hg, hp⟩)
  · exact hnot hp
  · exact hruns g hg hp

/-- However an expression or a statement ends, everything is the same afterwards that cannot be
reached from the current scope or from the top level.  And a call of one closure leaves alone what
another captured, if the call leaves alone what they share: the captured scopes, where those of
everything count that the call runs, and likewise all that can be reached from them. -/
theorem execution_keeps_unreachable (hhost : s.host.Confined) (fuel : Nat) (m : Machine) :
    (∀ e p, ¬ m.store.Reaches (s.Roots m.scope) p → m.Keeps ((evaluate s fuel e).after m) p) ∧
      (∀ t p, ¬ m.store.Reaches (s.Roots m.scope) p → m.Keeps ((execute s fuel t).after m) p) ∧
        ∀ (f g : Closure) (paren : Token) (arguments : List Value) (m' : Machine),
          (call s fuel (.function f) paren arguments).after m = m' →
          ((∀ p, g.scope.Refers p → (s.globals.Refers p ∨ ∃ k : Closure,
              Moment.Runs s ⟨fuel, .call (.function f) paren arguments, m⟩ k ∧ k.scope.Refers p) →
                m.Keeps m' p) →
            ∀ p, g.scope.Refers p → m.Keeps m' p) ∧
          ((∀ p, m.store.Reaches g.scope.Refers p →
              m.store.Reaches (s.CallRoots f arguments) p → m.Keeps m' p) →
            ∀ p, m.store.Reaches g.scope.Refers p → m.Keeps m' p) := by
  have hglobals : (Territory.reachable m.store (s.Roots m.scope) fun _ => True).Writes s.globals :=
    Territory.writes_reachable (fun p hp => .inr hp) fun _ _ => trivial
  refine ⟨?_, ?_, ?_⟩
  · intro e p hp
    have hinside := Moment.inside_reachable s (μ := ⟨fuel, .evaluate e, m⟩) fun T h => h
    have hleaves := hinside.leaves hhost hglobals
    exact Territory.Confines.keeps (x := evaluate s fuel e) hleaves fun hreach => absurd hreach hp
  · intro t p hp
    have hinside := Moment.inside_reachable s (μ := ⟨fuel, .execute t, m⟩) fun T h => h
    have hleaves := hinside.leaves hhost hglobals
    exact Territory.Confines.keeps (x := execute s fuel t) hleaves fun hreach => absurd hreach hp
  · rintro f g paren arguments _ rfl
    refine ⟨fun hshared p hp => ?_, fun hshared p hp => ?_⟩
    · by_cases h : s.globals.Refers p ∨ ∃ k : Closure,
          Moment.Runs s ⟨fuel, .call (.function f) paren arguments, m⟩ k ∧ k.scope.Refers p
      · exact hshared p hp h
      · rw [not_or] at h
        obtain ⟨φ, -, hφ⟩ := hp
        exact call_keeps hhost fuel m f paren arguments fun _ =>
          ⟨φ, hφ, h.1, fun k hk hkp => h.2 ⟨k, hk, hkp⟩⟩
    · by_cases h : m.store.Reaches (s.CallRoots f arguments) p
      · exact hshared p hp h
      · exact call_keeps hhost fuel m f paren arguments fun hreach => absurd hreach h

end

/-! ### Two counters -/

namespace Counter

/-- A function that gives its variable `i` a new value. -/
def decl : FunDecl :=
  ⟨⟨.identifier, "count", 1⟩, [],
    [.expression (.assign ⟨0⟩ ⟨.identifier, "i", 1⟩ (.literal (.bool true)))]⟩

/-- One of several such functions, with a variable `i` of its own. -/
def closure (k : Nat) : Closure :=
  ⟨⟨k⟩, decl, .inside ⟨k⟩ (.root ⟨0⟩), false⟩

def setting : Setting :=
  ⟨DistanceTable.empty.note ⟨0⟩ 1, .root ⟨0⟩, 8, .clockAt 0⟩

/-- Two counters are bound at the top level. -/
def machine : Machine :=
  { store :=
      { frames :=
          #[⟨[("a", .function (closure 1)), ("b", .function (closure 2))]⟩, ⟨[("i", .nil)]⟩,
            ⟨[("i", .nil)]⟩]
        records := #[]
        nextObject := 3 }
    scope := .root ⟨0⟩
    callDepth := 0
    output := .new none }

/-- The call of the first counter. -/
def counting : Moment :=
  ⟨8, .call (.function (closure 1)) ⟨.symbol .rightParen, ")", 1⟩ [], machine⟩

/-- The machine after the call. -/
def counted : Machine :=
  (call setting 8 (.function (closure 1)) ⟨.symbol .rightParen, ")", 1⟩ []).after machine

/-- The counter is the only function that is run. -/
theorem runs_counting {f : Closure} (h : counting.Runs setting f) : f = closure 1 := by
  obtain ⟨ν, arguments, hν, htask⟩ := h
  unfold counting at hν
  rcases hν.cases_head with rfl | ⟨_, hstep, hν⟩
  · cases htask
  cases hstep
  rcases hν.cases_head with rfl | ⟨_, hstep, hν⟩
  · cases htask
  cases hstep
  rcases hν.cases_head with rfl | ⟨_, hstep, hν⟩
  · cases htask
    rfl
  -- its body assigns a literal
  cases hstep
  rcases hν.cases_head with rfl | ⟨_, hstep, hν⟩
  · cases htask
  cases hstep with
  | first =>
    rcases hν.cases_head with rfl | ⟨_, hstep, hν⟩
    · cases htask
    cases hstep
    rcases hν.cases_head with rfl | ⟨_, hstep, hν⟩
    · cases htask
    cases hstep with
    | assigned =>
      rcases hν.cases_head with rfl | ⟨_, hstep, -⟩
      · cases htask
      · cases hstep
    | assign _ =>
      rcases hν.cases_head with rfl | ⟨_, hstep, -⟩
      · cases htask
      · cases hstep
  | rest _ =>
    rcases hν.cases_head with rfl | ⟨_, hstep, -⟩
    · cases htask
    · cases hstep

end Counter

/-- One counter counts, and the other does not see it, although the top level knows both. -/
theorem execution_keeps_unreachable_counter :
    Counter.counted.store.getLocal? (Counter.closure 1).scope "i" = some (.bool true) ∧
      ∀ p, (Counter.closure 2).scope.Refers p → Counter.machine.Keeps Counter.counted p := by
  refine ⟨rfl, ?_⟩
  have hkeeps := (execution_keeps_unreachable (Host.confined_clockAt 0) 8 Counter.machine
    (s := Counter.setting)).2.2 (Counter.closure 1) (Counter.closure 2) _ [] Counter.counted rfl
  refine hkeeps.1 ?_
  rintro p ⟨φ, hφ, rfl⟩ hshared
  -- they share the top level, which is not written
  have hscope : φ ∈ (Counter.closure 1).scope.frames := by
    rcases hshared with ⟨ψ, hψ, heq⟩ | ⟨f, hf, ψ, hψ, heq⟩
    · cases heq
      exact List.mem_cons_of_mem _ hψ
    · cases heq
      rwa [Counter.runs_counting hf] at hψ
  have htop : φ = ⟨0⟩ :=
    (by decide : ∀ φ ∈ (Counter.closure 1).scope.frames,
      φ ∈ (Counter.closure 2).scope.frames → φ = ⟨0⟩) φ hscope hφ
  subst htop
  intro b hb
  exact hb

end LoxWalk
