import LoxWalk.Proofs.Simulation.State

/-!
# What is known about references

A `Twin` may be exchanged for another that says something else about the distances of references, if
this makes no difference for their names (`Twin.Weaker`).  Code, values and machines that are related
stay related then (`Stmt.AllTwins.weaken`, `Twin.Machines.weaken`).  In this way one goes from one
table of distances to another.
-/

namespace LoxWalk

namespace Twin

/-- The same differences, with something else known about the references. -/
def withKnown (T : Twin) (known : Extent → NodeId → NodeId → Option Nat → Prop) : Twin :=
  { T with known := known }

variable {T : Twin} {known : Extent → NodeId → NodeId → Option Nat → Prop}

theorem Tokens.withKnown {flag : Bool} {t t' : Token} (h : T.Tokens flag t t') :
    (T.withKnown known).Tokens flag t t' :=
  ⟨h.kind, h.lexeme, h.renames, h.line⟩

/-- Every reference that `T` knows is also known otherwise, perhaps with another distance that makes
no difference for its name. -/
def Weaker (T : Twin) (known : Extent → NodeId → NodeId → Option Nat → Prop) (x : Extent) : Prop :=
  ∀ id id' d, T.known x id id' d → ∃ d', known x id id' d' ∧
    ∀ flags t t', T.Tokens (flagAt flags d) t t' → T.Tokens (flagAt flags d') t t'

end Twin

/-! ## Other knowledge -/

section

variable {T : Twin} {known : Extent → NodeId → NodeId → Option Nat → Prop} {x : Extent}
  {flags : List Bool}

mutual

theorem Expr.Twins.weaken (hw : T.Weaker known x) : {e e' : Expr} → e.Twins T x flags e' →
    e.Twins (T.withKnown known) x flags e'
  | .literal _, _ => fun h => h
  | .group _, _ => by
    rintro ⟨inner', rfl, hinner⟩
    exact ⟨inner', rfl, hinner.weaken hw⟩
  | .unary _ _, _ => by
    rintro ⟨operator', operand', rfl, hoperator, hoperand⟩
    exact ⟨operator', operand', rfl, hoperator.withKnown, hoperand.weaken hw⟩
  | .binary _ _ _, _ => by
    rintro ⟨left', operator', right', rfl, hleft, hoperator, hright⟩
    exact ⟨left', operator', right', rfl, hleft.weaken hw, hoperator.withKnown, hright.weaken hw⟩
  | .logical _ _ _, _ => by
    rintro ⟨left', operator', right', rfl, hleft, hoperator, hright⟩
    exact ⟨left', operator', right', rfl, hleft.weaken hw, hoperator.withKnown, hright.weaken hw⟩
  | .var _ _, _ => by
    rintro ⟨id', name', d, rfl, hk, hname⟩
    obtain ⟨d', hk', hd⟩ := hw _ _ _ hk
    exact ⟨id', name', d', rfl, hk', (hd _ _ _ hname).withKnown⟩
  | .assign _ _ _, _ => by
    rintro ⟨id', name', value', d, rfl, hvalue, hk, hname⟩
    obtain ⟨d', hk', hd⟩ := hw _ _ _ hk
    exact ⟨id', name', value', d', rfl, hvalue.weaken hw, hk', (hd _ _ _ hname).withKnown⟩
  | .call _ _ _, _ => by
    rintro ⟨callee', paren', arguments', rfl, hcallee, hparen, harguments⟩
    exact ⟨callee', paren', arguments', rfl, hcallee.weaken hw, hparen.withKnown,
      Expr.AllTwins.weaken hw harguments⟩
  | .get _ _, _ => by
    rintro ⟨object', name', rfl, hobject, hname⟩
    exact ⟨object', name', rfl, hobject.weaken hw, hname.withKnown⟩
  | .set _ _ _, _ => by
    rintro ⟨object', name', value', rfl, hobject, hname, hvalue⟩
    exact ⟨object', name', value', rfl, hobject.weaken hw, hname.withKnown, hvalue.weaken hw⟩
  | .this _ _, _ => by
    rintro ⟨id', keyword', d, rfl, hk, hkeyword⟩
    obtain ⟨d', hk', hd⟩ := hw _ _ _ hk
    exact ⟨id', keyword', d', rfl, hk', (hd _ _ _ hkeyword).withKnown⟩
  | .super _ _ _, _ => by
    rintro ⟨id', keyword', method', d, rfl, hk, hkeyword, hmethod⟩
    obtain ⟨d', hk', hd⟩ := hw _ _ _ hk
    exact ⟨id', keyword', method', d', rfl, hk', (hd _ _ _ hkeyword).withKnown,
      hmethod.withKnown⟩

theorem Expr.AllTwins.weaken (hw : T.Weaker known x) : {es es' : List Expr} →
    Expr.AllTwins T x flags es es' → Expr.AllTwins (T.withKnown known) x flags es es'
  | [], _ => fun h => h
  | _ :: _, _ => by
    rintro ⟨e', es', rfl, he, hes⟩
    exact ⟨e', es', rfl, he.weaken hw, Expr.AllTwins.weaken hw hes⟩

end

theorem Expr.Twins?.weaken (hw : T.Weaker known x) {e e' : Option Expr}
    (h : Expr.Twins? T x flags e e') : Expr.Twins? (T.withKnown known) x flags e e' := by
  cases e with
  | none => exact h
  | some e =>
    obtain ⟨e', rfl, he⟩ := h
    exact ⟨e', rfl, he.weaken hw⟩

end

section

variable {T : Twin} {known : Extent → NodeId → NodeId → Option Nat → Prop}

mutual

theorem Stmt.Twins.weaken (hl : T.Weaker known .lasting) {x : Extent} (hw : T.Weaker known x)
    {flags : List Bool} : {s s' : Stmt} → s.Twins T x flags s' →
      s.Twins (T.withKnown known) x flags s'
  | .expression _, _ => by
    rintro ⟨e', rfl, he⟩
    exact ⟨e', rfl, he.weaken hw⟩
  | .print _, _ => by
    rintro ⟨e', rfl, he⟩
    exact ⟨e', rfl, he.weaken hw⟩
  | .var _ _, _ => by
    rintro ⟨name', initializer', rfl, hname, hinitializer⟩
    exact ⟨name', initializer', rfl, hname.withKnown, hinitializer.weaken hw⟩
  | .block _, _ => by
    rintro ⟨flag, body', rfl, hbody⟩
    exact ⟨flag, body', rfl, Stmt.AllTwins.weaken hl hw hbody⟩
  | .if_ _ _ none, _ => by
    rintro ⟨condition', thenBranch', rfl, hcondition, hthen⟩
    exact ⟨condition', thenBranch', rfl, hcondition.weaken hw, hthen.weaken hl hw⟩
  | .if_ _ _ (some _), _ => by
    rintro ⟨condition', thenBranch', elseBranch', rfl, hcondition, hthen, helse⟩
    exact ⟨condition', thenBranch', elseBranch', rfl, hcondition.weaken hw, hthen.weaken hl hw,
      helse.weaken hl hw⟩
  | .while_ _ _, _ => by
    rintro ⟨condition', body', rfl, hcondition, hbody⟩
    exact ⟨condition', body', rfl, hcondition.weaken hw, hbody.weaken hl hw⟩
  | .fun_ _, _ => by
    rintro ⟨f', rfl, hname, hf⟩
    exact ⟨f', rfl, hname.withKnown, Stmt.FunTwins.weaken hl hf⟩
  | .return_ _ _, _ => by
    rintro ⟨hx, keyword', value', rfl, hkeyword, hvalue⟩
    exact ⟨hx, keyword', value', rfl, hkeyword.withKnown, hvalue.weaken hw⟩
  | .class_ _ _ _, _ => by
    rintro ⟨name', superclass', methods', rfl, ⟨hname, hlexeme⟩, hsuperclass, hmethods⟩
    exact ⟨name', superclass', methods', rfl, ⟨hname.withKnown, hlexeme⟩, hsuperclass.weaken hw,
      Stmt.MethodsTwins.weaken hl hmethods⟩
termination_by structural s => s

theorem Stmt.AllTwins.weaken (hl : T.Weaker known .lasting) {x : Extent} (hw : T.Weaker known x)
    {flags : List Bool} : {ss ss' : List Stmt} → Stmt.AllTwins T x flags ss ss' →
      Stmt.AllTwins (T.withKnown known) x flags ss ss'
  | [], _ => fun h => h
  | _ :: _, _ => by
    rintro ⟨s', ss', rfl, hs, hss⟩
    exact ⟨s', ss', rfl, hs.weaken hl hw, Stmt.AllTwins.weaken hl hw hss⟩
termination_by structural ss => ss

theorem Stmt.FunTwins.weaken (hl : T.Weaker known .lasting) {flags : List Bool} :
    {f f' : FunDeclOf Stmt} → Stmt.FunTwins T flags f f' →
      Stmt.FunTwins (T.withKnown known) flags f f'
  | ⟨_, _, _⟩, _ => by
    rintro ⟨flag, name', params', body', rfl, hname, hparams, hbody⟩
    exact ⟨flag, name', params', body', rfl, hname.withKnown,
      hparams.imp fun _ _ hp => hp.withKnown, Stmt.AllTwins.weaken hl hl hbody⟩
termination_by structural f => f

theorem Stmt.MethodsTwins.weaken (hl : T.Weaker known .lasting) {flags : List Bool} :
    {fs fs' : List (FunDeclOf Stmt)} → Stmt.MethodsTwins T flags fs fs' →
      Stmt.MethodsTwins (T.withKnown known) flags fs fs'
  | [], _ => fun h => h
  | _ :: _, _ => by
    rintro ⟨f', fs', rfl, hf, hfs⟩
    exact ⟨f', fs', rfl, Stmt.FunTwins.weaken hl hf, Stmt.MethodsTwins.weaken hl hfs⟩
termination_by structural fs => fs

end

end

/-! ## Values and machines -/

namespace Twin

variable {T : Twin} {known : Extent → NodeId → NodeId → Option Nat → Prop} {W : List Bool}

theorem Closures.weaken (hl : T.Weaker known .lasting) {inner : List Bool} {f f' : Closure}
    (h : T.Closures W inner f f') : (T.withKnown known).Closures W inner f f' := by
  obtain ⟨flags, hflags, hcode⟩ := h.code
  exact ⟨h.id, h.scope, h.isInitializer, flags, hflags, Stmt.FunTwins.weaken hl hcode⟩

theorem Classes.weaken (hl : T.Weaker known .lasting) {c c' : Class} (h : T.Classes W c c') :
    (T.withKnown known).Classes W c c' :=
  List.Forall₂.imp (fun _ _ hb => ⟨hb.id, hb.name,
    fun x => rel_mono (fun _ _ hf => Closures.weaken hl hf) (hb.methods x)⟩) h

theorem Values.weaken (hl : T.Weaker known .lasting) {v v' : Value} (h : T.Values W v v') :
    (T.withKnown known).Values W v v' := by
  cases h with
  | nil => exact .nil
  | bool b => exact .bool b
  | number x => exact .number x
  | string s => exact .string s
  | native f => exact .native f
  | function h => exact .function (h.weaken hl)
  | class_ h => exact .class_ (h.weaken hl)
  | instance_ hr h => exact .instance_ hr (h.weaken hl)

/-- Machines stay related. -/
theorem Machines.weaken (hl : T.Weaker known .lasting) {m m' : Machine} (h : T.Machines W m m') :
    (T.withKnown known).Machines W m m' where
  store :=
    { size := h.store.size
      size' := h.store.size'
      frames := fun f x => rel_mono (fun _ _ hv => Values.weaken hl hv) (h.store.frames f x)
      records := h.store.records
      fields := fun r x => rel_mono (fun _ _ hv => Values.weaken hl hv) (h.store.fields r x)
      nextObject := h.store.nextObject }
  scope := h.scope
  callDepth := h.callDepth
  output := h.output
  globals := h.globals

end Twin

end LoxWalk
