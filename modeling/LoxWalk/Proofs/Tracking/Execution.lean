import LoxWalk.Proofs.Tracking.Steps

/-!
# Notes about whole executions

If there is a note about a moment, then there is one about what carrying out its task leaves behind,
and the notes about all moments on the way lie between these two (`Tracker.Fits.tracked`).  There is
one case for each kind of task, in which the parts of the task are put together as they are put
together in the execution; the whole follows by induction on the fuel.
-/

namespace LoxWalk

open Exec

/-- The moments that carrying out a task comes to after its first one. -/
def Later (s : Setting) (μ ρ : Moment) : Prop :=
  ∃ ν, Next s μ ν ∧ During s ν ρ

theorem During.eq_or_later {s : Setting} {μ ρ : Moment} (h : During s μ ρ) :
    ρ = μ ∨ Later s μ ρ := by
  obtain rfl | ⟨ν, hν, hρ⟩ := Relation.ReflTransGen.cases_head h
  · exact .inl rfl
  · exact .inr ⟨ν, hν, hρ⟩

namespace Tracker

variable (T : Tracker)

/-- There is a note about what carrying out the task of the moment `μ` comes to, and there are notes
about the moments `N` on the way. -/
def TracksTask (s : Setting) (μ : Moment) (g : T.Note) (N : Moment → Prop) : Prop :=
  T.OfTask s μ fun x m Q => T.Tracks s x m g Q N

/-- With all moments that it comes to. -/
def Tracked (s : Setting) (μ : Moment) (g : T.Note) : Prop :=
  T.TracksTask s μ g (During s μ)

/-- So it is with the next tasks, if there are notes about them. -/
def NextTracked (s : Setting) (μ : Moment) : Prop :=
  ∀ ν, Next s μ ν → ∀ g, T.Fits g ν → T.Tracked s ν g

variable {T} {s : Setting} {n : Nat} {m : Machine} {g : T.Note}

theorem Fits.execute {t : Stmt} (hσ : T.store g m.store) (h : T.current g m.scope) :
    T.Fits g ⟨n, .execute t, m⟩ :=
  ⟨hσ, T.scope_of_current h, h⟩

/-- The first moment is one of the moments of an execution. -/
theorem TracksTask.here {μ : Moment} (h : T.Fits g μ) (hμ : T.TracksTask s μ g (Later s μ)) :
    T.Tracked s μ g := by
  have hfirst {α : Type} {x : Exec α} {m : Machine} {Q : T.Note → α → Prop}
      (hx : T.Tracks s x m g Q (Later s μ))
      (hQ : ∀ g', T.Outcome x m g' Q → T.OfTask s μ fun x m Q => T.Outcome x m g' Q) :
      T.Tracks s x m g Q (During s μ) := by
    obtain ⟨g', hx⟩ := hx
    refine ⟨g', hx.toOutcome, hx.le, hx.scope, fun ν hν => ?_⟩
    obtain rfl | hν := hν.eq_or_later
    · exact ⟨g, g', T.refl g, T.refl g', h, hx.le, hQ g' hx.toOutcome⟩
    · exact hx.moments ν hν
  obtain ⟨fuel, task, m⟩ := μ
  cases task <;> exact hfirst hμ fun _ hx => hx

/-- A task that comes to no other. -/
theorem Tracks.leaf {α : Type} {x : Exec α} {Q : T.Note → α → Prop} {μ : Moment}
    (hx : T.Tracks s x m g Q fun _ => False) (hμ : ∀ ν, ¬ Next s μ ν) :
    T.Tracks s x m g Q (Later s μ) := by
  refine hx.fewer ?_
  rintro ρ ⟨ν, hν, -⟩
  exact hμ ν hν

/-- A task that comes to one other. -/
theorem Tracks.only {α : Type} {x : Exec α} {Q : T.Note → α → Prop} {μ ν₀ : Moment}
    (hx : T.Tracks s x m g Q (During s ν₀)) (hμ : ∀ ν, Next s μ ν → ν = ν₀) :
    T.Tracks s x m g Q (Later s μ) := by
  refine hx.fewer ?_
  rintro ρ ⟨ν, hν, hρ⟩
  rwa [hμ ν hν] at hρ

/-! ## One case for each kind of task -/

theorem tracks_evaluate {e : Expr} (hσ : T.store g m.store) (hscope : T.scope g m.scope)
    (hnext : T.NextTracked s ⟨n + 1, .evaluate e, m⟩) :
    T.Tracks s (evaluate s (n + 1) e) m g T.value (Later s ⟨n + 1, .evaluate e, m⟩) := by
  cases e with
  | literal value =>
    rw [evaluate]
    exact (Tracks.pure hσ (T.plain g (isPlain_literal value))).leaf (by rintro ν ⟨⟩)
  | group inner =>
    rw [evaluate]
    exact Tracks.only (hnext _ .group g ⟨hσ, hscope, trivial⟩) (by rintro ν ⟨⟩; rfl)
  | unary operator operand =>
    rw [evaluate]
    refine .only (.andThen (hnext _ .operand g ⟨hσ, hscope, trivial⟩)
      fun v m₁ g₁ _ _ hσ₁ _ _ => ?_) (by rintro ν ⟨⟩; rfl)
    exact tracks_operate hσ₁ fun w hw => isPlain_of_applyUnary hw
  | binary left operator right =>
    rw [evaluate]
    refine .bind (fun _ m₁ => During s ⟨n, .evaluate right, m₁⟩)
      (hnext _ .left g ⟨hσ, hscope, trivial⟩) (fun a m₁ g₁ ha hle hσ₁ hs₁ _ => ?_) ?_
    · have hscope₁ : T.scope g₁ m₁.scope := hs₁ ▸ T.scope_mono hle hscope
      refine .andThen (hnext _ (.right ha) g₁ ⟨hσ₁, hscope₁, trivial⟩) fun b m₂ g₂ _ _ hσ₂ _ _ => ?_
      exact tracks_operate hσ₂ fun w hw => isPlain_of_applyBinary hw
    · rintro ρ ⟨ν, hν, hρ⟩
      cases hν with
      | left => exact .inl hρ
      | right ha => exact .inr ⟨_, _, ha, hρ⟩
  | logical left operator right =>
    rw [evaluate]
    -- the right side is come to only if the left one does not decide
    refine .bind (fun a m₁ ρ => decidesAlone operator a = false ∧
      During s ⟨n, .evaluate right, m₁⟩ ρ)
      (hnext _ .logicalLeft g ⟨hσ, hscope, trivial⟩) (fun a m₁ g₁ ha hle hσ₁ hs₁ hv => ?_) ?_
    · split
      · rename_i hop
        refine (Tracks.pure hσ₁ hv).fewer fun ρ hρ => ?_
        rw [hop] at hρ
        exact Bool.noConfusion hρ.1
      · rename_i hop
        have hscope₁ : T.scope g₁ m₁.scope := hs₁ ▸ T.scope_mono hle hscope
        have hop : decidesAlone operator a = false := Bool.eq_false_iff.mpr hop
        have hright := hnext _ (.logicalRight ha hop) g₁ ⟨hσ₁, hscope₁, trivial⟩
        exact Tracks.fewer hright fun ρ hρ => hρ.2
    · rintro ρ ⟨ν, hν, hρ⟩
      cases hν with
      | logicalLeft => exact .inl hρ
      | logicalRight ha hop => exact .inr ⟨_, _, ha, hop, hρ⟩
  | var id name =>
    rw [evaluate]
    exact (tracks_readVariable hσ).leaf (by rintro ν ⟨⟩)
  | assign id name value =>
    rw [evaluate]
    refine .bind (fun v m₁ => During s ⟨n, .assign id name v, m₁⟩)
      (hnext _ .assigned g ⟨hσ, hscope, trivial⟩) (fun v m₁ g₁ hv hle hσ₁ hs₁ hvalue => ?_) ?_
    · have hscope₁ : T.scope g₁ m₁.scope := hs₁ ▸ T.scope_mono hle hscope
      refine .andThen (hnext _ (.assign hv) g₁ ⟨hσ₁, hscope₁, hvalue⟩) ?_
      exact fun _ m₂ g₂ _ hle₂ hσ₂ _ _ => .pure hσ₂ (T.value_mono hle₂ hvalue)
    · rintro ρ ⟨ν, hν, hρ⟩
      cases hν with
      | assigned => exact .inl hρ
      | assign hv => exact .inr ⟨_, _, hv, hρ⟩
  | call callee paren arguments =>
    rw [evaluate]
    refine .bind (fun f m₁ ρ => During s ⟨n, .evaluateAll arguments, m₁⟩ ρ ∨
      ∃ vs m₂, evaluateAll s n arguments m₁ = .ok vs m₂ ∧ During s ⟨n, .call f paren vs, m₂⟩ ρ)
      (hnext _ .callee g ⟨hσ, hscope, trivial⟩) (fun f m₁ g₁ hf hle hσ₁ hs₁ hcallee => ?_) ?_
    · have hscope₁ : T.scope g₁ m₁.scope := hs₁ ▸ T.scope_mono hle hscope
      refine .bind (fun vs m₂ => During s ⟨n, .call f paren vs, m₂⟩)
        (hnext _ (.arguments hf) g₁ ⟨hσ₁, hscope₁, trivial⟩) ?_ fun _ hρ => hρ
      intro vs m₂ g₂ hvs hle₂ hσ₂ hs₂ harguments
      have hscope₂ : T.scope g₂ m₂.scope := hs₂ ▸ T.scope_mono hle₂ hscope₁
      exact hnext _ (.call hf hvs) g₂ ⟨hσ₂, hscope₂, T.value_mono hle₂ hcallee, harguments⟩
    · rintro ρ ⟨ν, hν, hρ⟩
      cases hν with
      | callee => exact .inl hρ
      | arguments hf => exact .inr ⟨_, _, hf, .inl hρ⟩
      | call hf hvs => exact .inr ⟨_, _, hf, .inr ⟨_, _, hvs, hρ⟩⟩
  | get object name =>
    rw [evaluate]
    refine .bind (fun v m₁ ρ => ∃ i f, v = .instance_ i ∧
      m₁.store.field? i.record name.lexeme = none ∧ i.ofClass.method? name.lexeme = some f ∧
      During s ⟨n, .bind f i, m₁⟩ ρ)
      (hnext _ .object g ⟨hσ, hscope, trivial⟩) (fun v m₁ g₁ hv hle hσ₁ hs₁ hobject => ?_) ?_
    · cases v with
      | instance_ i =>
        cases hfield : m₁.store.field? i.record name.lexeme with
        | some w =>
          refine .of_eq (getProperty_of_field hfield) ?_
          refine (Tracks.pure hσ₁ (T.ofRecord hσ₁ hfield)).fewer ?_
          rintro ρ ⟨_, _, ⟨⟩, hnone, -⟩
          cases hfield.symm.trans hnone
        | none =>
          have hscope₁ : T.scope g₁ m₁.scope := hs₁ ▸ T.scope_mono hle hscope
          refine .of_eq (getProperty_of_no_field hfield) (.fewer (tracks_methodFor
            (M := fun f => During s ⟨n, .bind f i, m₁⟩) hσ₁ fun f hf => ?_) ?_)
          · have hmethod : T.value g₁ (.function f) := T.method (T.ofClass hobject) hf
            exact hnext _ (.method hv hfield hf) g₁ ⟨hσ₁, hscope₁, hmethod, hobject⟩
          · rintro ρ ⟨_, f, ⟨⟩, -, hf, hρ⟩
            exact ⟨f, hf, hρ⟩
      | _ =>
        refine (Tracks.fault hσ₁).fewer ?_
        rintro ρ ⟨_, _, ⟨⟩, -⟩
    · rintro ρ ⟨ν, hν, hρ⟩
      cases hν with
      | object => exact .inl hρ
      | method hi hfield hf => exact .inr ⟨_, _, hi, _, _, rfl, hfield, hf, hρ⟩
  | set object name value =>
    rw [evaluate]
    refine .bind (fun v m₁ ρ => ∃ i, v = .instance_ i ∧ During s ⟨n, .evaluate value, m₁⟩ ρ)
      (hnext _ .setObject g ⟨hσ, hscope, trivial⟩) (fun v m₁ g₁ hv hle hσ₁ hs₁ hobject => ?_) ?_
    · cases v with
      | instance_ i =>
        have hscope₁ : T.scope g₁ m₁.scope := hs₁ ▸ T.scope_mono hle hscope
        refine .bind_ok (a := i) (n := m₁) rfl rfl ?_
        refine .fewer (.andThen (hnext _ (.setValue hv) g₁ ⟨hσ₁, hscope₁, trivial⟩)
          fun w m₂ g₂ _ _ hσ₂ _ hw => ?_) ?_
        · obtain ⟨g₃, hle₃, hσ₃⟩ := T.setField i.record name.lexeme hσ₂ hw
          exact .of_ok rfl rfl hle₃ hσ₃ (T.value_mono hle₃ hw)
        · rintro ρ ⟨_, ⟨⟩, hρ⟩
          exact hρ
      | _ =>
        refine .fewer (.andThen (Q := fun _ _ => True) (.fault hσ₁) fun i m₂ g₂ hi => ?_) ?_
        · cases hi
        · rintro ρ ⟨_, ⟨⟩, -⟩
    · rintro ρ ⟨ν, hν, hρ⟩
      cases hν with
      | setObject => exact .inl hρ
      | setValue hi => exact .inr ⟨_, _, hi, _, rfl, hρ⟩
  | this id keyword =>
    rw [evaluate]
    exact (tracks_readVariable hσ).leaf (by rintro ν ⟨⟩)
  | super id keyword method =>
    rw [evaluate]
    -- the superclass and the instance both come out of the store
    have hfound : ∀ (d : Nat) (x : String) (v : Value), m.store.getAt? m.scope d x = some v →
        T.value g v := by
      intro d x v hv
      obtain ⟨outer, -, hv⟩ := Option.bind_eq_some_iff.mp hv
      exact T.ofFrame hσ hv
    obtain ⟨d, c, i, hd, hc, hi, heq⟩ | ⟨hnot, heq⟩ := superMethod_cases s id keyword method m
    · refine .of_eq heq (.fewer (tracks_methodFor
        (M := fun f => During s ⟨n, .bind f i, m⟩) hσ fun f hf => ?_) ?_)
      · have hmethod : T.value g (.function f) := T.method (hfound _ _ _ hc) hf
        exact hnext _ (.superMethod hd hc hi hf) g ⟨hσ, hscope, hmethod, hfound _ _ _ hi⟩
      · rintro ρ ⟨ν, hν, hρ⟩
        cases hν with
        | superMethod hd' hc' hi' hf =>
          cases hd.symm.trans hd'
          cases hc.symm.trans hc'
          cases hi.symm.trans hi'
          exact ⟨_, hf, hρ⟩
    · refine .of_eq heq ((Tracks.fault hσ).leaf fun ν hν => ?_)
      cases hν with
      | superMethod hd hc hi => exact hnot _ _ _ hd hc hi

theorem tracks_evaluateAll {es : List Expr} (hσ : T.store g m.store) (hscope : T.scope g m.scope)
    (hnext : T.NextTracked s ⟨n + 1, .evaluateAll es, m⟩) :
    T.Tracks s (evaluateAll s (n + 1) es) m g (fun h vs => ∀ v ∈ vs, T.value h v)
      (Later s ⟨n + 1, .evaluateAll es, m⟩) := by
  cases es with
  | nil =>
    rw [evaluateAll]
    exact (Tracks.pure hσ fun v hv => absurd hv List.not_mem_nil).leaf (by rintro ν ⟨⟩)
  | cons e es =>
    rw [evaluateAll]
    refine .bind (fun _ m₁ => During s ⟨n, .evaluateAll es, m₁⟩)
      (hnext _ .head g ⟨hσ, hscope, trivial⟩) (fun v m₁ g₁ hv hle hσ₁ hs₁ hvalue => ?_) ?_
    · have hscope₁ : T.scope g₁ m₁.scope := hs₁ ▸ T.scope_mono hle hscope
      refine .andThen (hnext _ (.tail hv) g₁ ⟨hσ₁, hscope₁, trivial⟩) ?_
      intro vs m₂ g₂ _ hle₂ hσ₂ _ hvalues
      exact .pure hσ₂ (List.forall_mem_cons.mpr ⟨T.value_mono hle₂ hvalue, hvalues⟩)
    · rintro ρ ⟨ν, hν, hρ⟩
      cases hν with
      | head => exact .inl hρ
      | tail hv => exact .inr ⟨_, _, hv, hρ⟩

theorem tracks_call {callee : Value} {paren : Token} {arguments : List Value}
    (hσ : T.store g m.store) (hscope : T.scope g m.scope)
    (hvalues : T.value g callee ∧ ∀ v ∈ arguments, T.value g v)
    (hnext : T.NextTracked s ⟨n + 1, .call callee paren arguments, m⟩) :
    T.Tracks s (call s (n + 1) callee paren arguments) m g T.value
      (Later s ⟨n + 1, .call callee paren arguments, m⟩) := by
  -- the callee is entered only behind all three checks
  rw [call]
  split
  · rename_i harity
    refine (Tracks.fault hσ).leaf fun ν hν => ?_
    cases hν with
    | enter harity' => cases harity.symm.trans harity'
  · rename_i arity harity
    split
    · rename_i hlength
      refine (Tracks.fault hσ).leaf fun ν hν => ?_
      cases hν with
      | enter harity' =>
        cases harity.symm.trans harity'
        exact (hlength rfl).elim
    · rename_i hlength
      refine .bind_ok (a := m) (n := m) rfl rfl ?_
      dsimp only
      split
      · rename_i hdepth
        refine (Tracks.fault hσ).leaf fun ν hν => ?_
        cases hν with
        | enter _ hdepth' => exact (Nat.not_lt_of_le hdepth hdepth').elim
      · rename_i hdepth
        rw [withStackFor_eq]
        have hlength : arguments.length = arity := Decidable.not_not.mp hlength
        have hstep : Next s ⟨n + 1, .call callee paren arguments, m⟩
            ⟨n, .enter callee paren arguments, m.called⟩ :=
          .enter (hlength ▸ harity) (Nat.lt_of_not_le hdepth)
        exact .only (.asCall (hnext _ hstep g ⟨hσ, hscope, hvalues⟩)) (by rintro ν ⟨⟩; rfl)

theorem tracks_enter (hhost : T.Trusts s.host) {callee : Value} {paren : Token}
    {arguments : List Value} (hσ : T.store g m.store) (hscope : T.scope g m.scope)
    (hcallee : T.value g callee) (harguments : ∀ v ∈ arguments, T.value g v)
    (hnext : T.NextTracked s ⟨n + 1, .enter callee paren arguments, m⟩) :
    T.Tracks s (enter s (n + 1) callee paren arguments) m g T.value
      (Later s ⟨n + 1, .enter callee paren arguments, m⟩) := by
  cases callee with
  | native f =>
    rw [enter]
    split
    · rename_i v hv
      exact (Tracks.pure hσ (hhost g f.name arguments v hv harguments)).leaf (by rintro ν ⟨⟩)
    · exact (Tracks.fault hσ).leaf (by rintro ν ⟨⟩)
  | function f =>
    rw [enter]
    exact Tracks.only (hnext _ .run g ⟨hσ, hscope, hcallee, harguments⟩) (by rintro ν ⟨⟩; rfl)
  | class_ c =>
    rw [enter]
    -- the instance is there before its initializer runs, and whatever that one yields
    obtain ⟨g₁, hle, hσ₁, hinstance⟩ := T.addRecord hσ hcallee
    refine .of_le hle (.bind_ok (a := ⟨m.store.freshRecord, c⟩) (n := m.withRecord) rfl rfl ?_)
    cases hinit : c.method? initializerName with
    | some init =>
      have hmethod : T.value g₁ (.function init) := T.method (T.value_mono hle hcallee) hinit
      have hscope₁ : T.scope g₁ m.withRecord.scope := T.scope_mono hle hscope
      refine .bind (fun f m₁ => During s ⟨n, .run f arguments, m₁⟩)
        (hnext _ (.bindInitializer hinit) g₁ ⟨hσ₁, hscope₁, hmethod, hinstance⟩)
        (fun f m₁ g₂ hf hle₂ hσ₂ hs₂ hbound => ?_) ?_
      · have harguments₂ : ∀ v ∈ arguments, T.value g₂ v := fun v hv =>
          T.value_mono hle₂ (T.value_mono hle (harguments v hv))
        have hscope₂ : T.scope g₂ m₁.scope := hs₂ ▸ T.scope_mono hle₂ hscope₁
        have hrun := hnext _ (.runInitializer hinit hf) g₂ ⟨hσ₂, hscope₂, hbound, harguments₂⟩
        refine .andThen hrun ?_
        intro _ m₂ g₃ _ hle₃ hσ₃ _ _
        exact .pure hσ₃ (T.value_mono hle₃ (T.value_mono hle₂ hinstance))
      · rintro ρ ⟨ν, hν, hρ⟩
        cases hν with
        | bindInitializer hf =>
          cases hinit.symm.trans hf
          exact .inl hρ
        | runInitializer hf hg =>
          cases hinit.symm.trans hf
          exact .inr ⟨_, _, hg, hρ⟩
    | none =>
      refine (Tracks.pure hσ₁ hinstance).leaf fun ν hν => ?_
      cases hν with
      | bindInitializer hf => cases hinit.symm.trans hf
      | runInitializer hf => cases hinit.symm.trans hf
  | _ =>
    exact (Tracks.fault hσ).leaf (by rintro ν ⟨⟩)

theorem tracks_run {f : Closure} {arguments : List Value} (hσ : T.store g m.store)
    (hf : T.value g (.function f)) (harguments : ∀ v ∈ arguments, T.value g v)
    (hnext : T.NextTracked s ⟨n + 1, .run f arguments, m⟩) :
    T.Tracks s (run s (n + 1) f arguments) m g T.value (Later s ⟨n + 1, .run f arguments, m⟩) := by
  obtain ⟨g₁, hle, hσ₁, hcurrent⟩ :=
    T.addFrame hσ (T.closure hf) (Closure.forall_bindings (f := f) harguments)
  have hbody := hnext _ .body g₁ ⟨hσ₁, T.scope_of_current hcurrent, hcurrent⟩
  rw [run]
  refine .of_le hle (.bind_ok (a := .inside m.store.freshFrame f.scope)
    (n := { m with store := m.store.addFrame (f.bindings arguments) }) rfl rfl ?_)
  refine .only (.andThen (.catchReturn (.inScope hbody)) fun v m₁ g₂ _ _ hσ₂ _ hv => ?_)
    (by rintro ν ⟨⟩; rfl)
  split
  · -- an initializer yields its instance
    refine .bind_ok (a := m₁) (n := m₁) rfl rfl (.pure hσ₂ ?_)
    cases hi : m₁.store.getLocal? f.scope thisName with
    | none => exact T.nil g₂
    | some w => exact T.ofFrame hσ₂ hi
  · exact .pure hσ₂ hv

theorem tracks_execute {t : Stmt} (hσ : T.store g m.store) (hcurrent : T.current g m.scope)
    (hnext : T.NextTracked s ⟨n + 1, .execute t, m⟩) :
    T.Tracks s (execute s (n + 1) t) m g (fun _ _ => True) (Later s ⟨n + 1, .execute t, m⟩) := by
  have hscope := T.scope_of_current hcurrent
  cases t with
  | expression e =>
    rw [execute]
    exact .only (.andThen (hnext _ .expression g ⟨hσ, hscope, trivial⟩)
      fun v m₁ g₁ _ _ hσ₁ _ _ => .pure hσ₁ trivial) (by rintro ν ⟨⟩; rfl)
  | print e =>
    rw [execute]
    exact .only (.andThen (hnext _ .print g ⟨hσ, hscope, trivial⟩)
      fun v m₁ g₁ _ _ hσ₁ _ _ => tracks_print hσ₁) (by rintro ν ⟨⟩; rfl)
  | var name initializer =>
    cases initializer with
    | none =>
      rw [execute]
      exact (tracks_define hσ hcurrent (T.nil g)).leaf (by rintro ν ⟨⟩)
    | some e =>
      rw [execute]
      refine .only (.andThen (hnext _ .initializer g ⟨hσ, hscope, trivial⟩)
        fun v m₁ g₁ _ hle hσ₁ hs₁ hv => ?_) (by rintro ν ⟨⟩; rfl)
      exact tracks_define hσ₁ (hs₁ ▸ T.current_mono hle hcurrent) hv
  | block body =>
    rw [execute]
    obtain ⟨g₁, hle, hσ₁, hinside⟩ := T.addFrame (b := .empty) hσ hscope fun x v hv => by cases hv
    refine .of_le hle (.bind_ok (a := m) (n := m) rfl rfl ?_)
    refine .bind_ok (a := .inside m.store.freshFrame m.scope)
      (n := { m with store := m.store.addFrame .empty }) rfl rfl (.inScope ?_)
    have hbody := hnext _ .block g₁ ⟨hσ₁, T.scope_of_current hinside, hinside⟩
    exact Tracks.only hbody (by rintro ν ⟨⟩; rfl)
  | if_ condition thenBranch elseBranch =>
    cases elseBranch with
    | none =>
      rw [execute]
      refine .bind (fun v m₁ ρ => v.isTruthy = true ∧ During s ⟨n, .execute thenBranch, m₁⟩ ρ)
        (hnext _ .condition g ⟨hσ, hscope, trivial⟩) (fun v m₁ g₁ hv hle hσ₁ hs₁ _ => ?_) ?_
      · split
        · rename_i ht
          have hcurrent₁ : T.current g₁ m₁.scope := hs₁ ▸ T.current_mono hle hcurrent
          refine Tracks.fewer (hnext _ (.thenBranch hv ht) g₁ (.execute hσ₁ hcurrent₁)) ?_
          exact fun ρ hρ => hρ.2
        · rename_i ht
          exact (Tracks.pure hσ₁ trivial).fewer fun ρ hρ => ht hρ.1
      · rintro ρ ⟨ν, hν, hρ⟩
        cases hν with
        | condition => exact .inl hρ
        | thenBranch hv ht => exact .inr ⟨_, _, hv, ht, hρ⟩
    | some elseBranch =>
      rw [execute]
      refine .bind (fun v m₁ ρ => v.isTruthy = true ∧ During s ⟨n, .execute thenBranch, m₁⟩ ρ ∨
        v.isTruthy = false ∧ During s ⟨n, .execute elseBranch, m₁⟩ ρ)
        (hnext _ .condition g ⟨hσ, hscope, trivial⟩) (fun v m₁ g₁ hv hle hσ₁ hs₁ _ => ?_) ?_
      · have hcurrent₁ : T.current g₁ m₁.scope := hs₁ ▸ T.current_mono hle hcurrent
        cases ht : v.isTruthy with
        | true =>
          rw [if_pos rfl]
          refine Tracks.fewer (hnext _ (.thenBranch hv ht) g₁ (.execute hσ₁ hcurrent₁)) ?_
          rintro ρ (⟨-, hρ⟩ | ⟨⟨⟩, -⟩)
          exact hρ
        | false =>
          rw [if_neg Bool.false_ne_true]
          refine Tracks.fewer (hnext _ (.elseBranch hv ht) g₁ (.execute hσ₁ hcurrent₁)) ?_
          rintro ρ (⟨⟨⟩, -⟩ | ⟨-, hρ⟩)
          exact hρ
      · rintro ρ ⟨ν, hν, hρ⟩
        cases hν with
        | condition => exact .inl hρ
        | thenBranch hv ht => exact .inr ⟨_, _, hv, .inl ⟨ht, hρ⟩⟩
        | elseBranch hv ht => exact .inr ⟨_, _, hv, .inr ⟨ht, hρ⟩⟩
  | while_ condition body =>
    rw [execute]
    exact Tracks.only (hnext _ .loop g ⟨hσ, hscope, hcurrent⟩) (by rintro ν ⟨⟩; rfl)
  | fun_ decl =>
    rw [execute]
    -- the new function is noted before it has a name
    obtain ⟨g₁, hle, hσ₁, hf⟩ := T.newFunction decl false hσ hscope
    refine .of_le hle (.bind_ok (a := m) (n := m) rfl rfl ?_)
    have hcurrent₁ : T.current g₁ m.scope := T.current_mono hle hcurrent
    refine .bind_ok (a := ⟨m.store.freshObject, decl, m.scope, false⟩)
      (n := { m with store := m.store.useObject }) rfl rfl ?_
    exact Tracks.leaf (tracks_define (m := { m with store := m.store.useObject }) hσ₁ hcurrent₁ hf)
      (by rintro ν ⟨⟩)
  | return_ keyword value =>
    cases value with
    | none =>
      rw [execute]
      refine (Tracks.of_error rfl rfl hσ ?_).leaf (by rintro ν ⟨⟩)
      rintro _ ⟨⟩
      exact T.nil g
    | some e =>
      rw [execute]
      refine .only (.andThen (hnext _ .returned g ⟨hσ, hscope, trivial⟩)
        fun v m₁ g₁ _ _ hσ₁ _ hv => .of_error rfl rfl hσ₁ ?_) (by rintro ν ⟨⟩; rfl)
      rintro _ ⟨⟩
      exact hv
  | class_ name superclass methods =>
    cases superclass with
    | none =>
      rw [execute]
      have hsuper : ∀ c ∈ (none : Option Class), T.value g (.class_ c) := fun c hc => by cases hc
      have hdeclare := hnext _ .declareBase g ⟨hσ, hscope, hcurrent, hsuper⟩
      exact Tracks.only hdeclare (by rintro ν ⟨⟩; rfl)
    | some e =>
      rw [execute]
      refine .bind (fun v m₁ ρ => ∃ c, v = .class_ c ∧
        During s ⟨n, .declareClass name (some c) methods, m₁⟩ ρ)
        (hnext _ .superclass g ⟨hσ, hscope, trivial⟩) (fun v m₁ g₁ hv hle hσ₁ hs₁ hclass => ?_) ?_
      · cases v with
        | class_ c =>
          have hcurrent₁ : T.current g₁ m₁.scope := hs₁ ▸ T.current_mono hle hcurrent
          refine .bind_ok (a := c) (n := m₁) rfl rfl ?_
          have hsuper : ∀ c' ∈ some c, T.value g₁ (.class_ c') := by
            rintro _ ⟨⟩
            exact hclass
          refine Tracks.fewer (hnext _ (.declareDerived hv) g₁
            ⟨hσ₁, T.scope_of_current hcurrent₁, hcurrent₁, hsuper⟩) ?_
          rintro ρ ⟨_, ⟨⟩, hρ⟩
          exact hρ
        | _ =>
          refine .fewer (.andThen (Q := fun _ _ => False) ?_ fun c m₂ g₂ _ _ _ _ hfalse =>
            hfalse.elim) (N := fun _ => False) ?_
          · unfold superclassOf
            cases e <;> exact .fault hσ₁
          · rintro ρ ⟨_, ⟨⟩, -⟩
      · rintro ρ ⟨ν, hν, hρ⟩
        cases hν with
        | superclass => exact .inl hρ
        | declareDerived hc => exact .inr ⟨_, _, hc, _, rfl, hρ⟩

theorem tracks_executeAll {ts : List Stmt} (hσ : T.store g m.store)
    (hcurrent : T.current g m.scope) (hnext : T.NextTracked s ⟨n + 1, .executeAll ts, m⟩) :
    T.Tracks s (executeAll s (n + 1) ts) m g (fun _ _ => True)
      (Later s ⟨n + 1, .executeAll ts, m⟩) := by
  cases ts with
  | nil =>
    rw [executeAll]
    exact (Tracks.pure hσ trivial).leaf (by rintro ν ⟨⟩)
  | cons t ts =>
    rw [executeAll]
    refine .bind (fun _ m₁ => During s ⟨n, .executeAll ts, m₁⟩)
      (hnext _ .first g (.execute hσ hcurrent)) (fun _ m₁ g₁ ht hle hσ₁ hs₁ _ => ?_) ?_
    · have hcurrent₁ : T.current g₁ m₁.scope := hs₁ ▸ T.current_mono hle hcurrent
      exact hnext _ (.rest ht) g₁ ⟨hσ₁, T.scope_of_current hcurrent₁, hcurrent₁⟩
    · rintro ρ ⟨ν, hν, hρ⟩
      cases hν with
      | first => exact .inl hρ
      | rest ht => exact .inr ⟨_, _, ht, hρ⟩

theorem tracks_repeatWhile {condition : Expr} {body : Stmt} (hσ : T.store g m.store)
    (hcurrent : T.current g m.scope)
    (hnext : T.NextTracked s ⟨n + 1, .repeatWhile condition body, m⟩) :
    T.Tracks s (repeatWhile s (n + 1) condition body) m g (fun _ _ => True)
      (Later s ⟨n + 1, .repeatWhile condition body, m⟩) := by
  rw [repeatWhile]
  refine .bind (fun v m₁ ρ => v.isTruthy = true ∧ (During s ⟨n, .execute body, m₁⟩ ρ ∨
    ∃ a m₂, execute s n body m₁ = .ok a m₂ ∧ During s ⟨n, .repeatWhile condition body, m₂⟩ ρ))
    (hnext _ .loopCondition g ⟨hσ, T.scope_of_current hcurrent, trivial⟩)
    (fun v m₁ g₁ hv hle hσ₁ hs₁ _ => ?_) ?_
  · split
    · rename_i ht
      have hcurrent₁ : T.current g₁ m₁.scope := hs₁ ▸ T.current_mono hle hcurrent
      refine .bind (fun _ m₂ => During s ⟨n, .repeatWhile condition body, m₂⟩)
        (hnext _ (.loopBody hv ht) g₁ (.execute hσ₁ hcurrent₁))
        (fun _ m₂ g₂ hb hle₂ hσ₂ hs₂ _ => ?_)
        fun ρ hρ => hρ.2
      have hcurrent₂ : T.current g₂ m₂.scope := hs₂ ▸ T.current_mono hle₂ hcurrent₁
      exact hnext _ (.loopAgain hv ht hb) g₂ ⟨hσ₂, T.scope_of_current hcurrent₂, hcurrent₂⟩
    · rename_i ht
      exact (Tracks.pure hσ₁ trivial).fewer fun ρ hρ => ht hρ.1
  · rintro ρ ⟨ν, hν, hρ⟩
    cases hν with
    | loopCondition => exact .inl hρ
    | loopBody hv ht => exact .inr ⟨_, _, hv, ht, .inl hρ⟩
    | loopAgain hv ht hb => exact .inr ⟨_, _, hv, ht, .inr ⟨_, _, hb, hρ⟩⟩

/-! ## All of an execution -/

/-- If there is a note about a moment, then there is one about what carrying out its task leaves
behind, and all notes about moments on the way lie in between. -/
theorem Fits.tracked (hhost : T.Trusts s.host) {μ : Moment} (h : T.Fits g μ) : T.Tracked s μ g := by
  obtain ⟨fuel, task, m⟩ := μ
  induction fuel generalizing task m g with
  | zero =>
    obtain ⟨hσ, hscope, htask⟩ := id h
    have hnone : ∀ ν, ¬ Next s ⟨0, task, m⟩ ν := by rintro ν ⟨⟩
    refine .here h ?_
    cases task with
    | assign id name v => exact (tracks_assignVariable hσ htask).leaf hnone
    | bind f i => exact (tracks_bindMethod hσ htask.1 htask.2).leaf hnone
    | declareClass name superclass methods =>
      exact (tracks_declareClass hσ htask.1 htask.2).leaf hnone
    | _ => exact (Tracks.outOfFuel hσ).leaf hnone
  | succ n ih =>
    obtain ⟨hσ, hscope, htask⟩ := id h
    have hnext : T.NextTracked s ⟨n + 1, task, m⟩ := by
      rintro ⟨k, task', m'⟩ hν g' hfits
      obtain rfl : k = n := by cases hν <;> rfl
      exact ih task' m' hfits
    refine .here h ?_
    cases task with
    | evaluate e => exact tracks_evaluate hσ hscope hnext
    | evaluateAll es => exact tracks_evaluateAll hσ hscope hnext
    | assign id name v =>
      exact (tracks_assignVariable hσ htask).leaf (by rintro ν ⟨⟩)
    | bind f i =>
      exact (tracks_bindMethod hσ htask.1 htask.2).leaf (by rintro ν ⟨⟩)
    | call callee paren arguments => exact tracks_call hσ hscope htask hnext
    | enter callee paren arguments => exact tracks_enter hhost hσ hscope htask.1 htask.2 hnext
    | run f arguments => exact tracks_run hσ htask.1 htask.2 hnext
    | execute t => exact tracks_execute hσ htask hnext
    | executeAll ts => exact tracks_executeAll hσ htask hnext
    | repeatWhile condition body => exact tracks_repeatWhile hσ htask hnext
    | declareClass name superclass methods =>
      exact (tracks_declareClass hσ htask.1 htask.2).leaf (by rintro ν ⟨⟩)

end Tracker

end LoxWalk
