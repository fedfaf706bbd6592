import LoxWalk.Proofs.Simulation.Steps

/-!
# Twins behave alike

Code that differs only as a `Twin` says ends alike when it runs on related machines
(`Twin.simulates`).  The proof is one induction on the fuel for all kinds of tasks at once; each task
is a lemma of its own that gets what holds for less fuel (`Twin.Simulates`).

Both executions get the same fuel, or the second one gets more; then the first one may run out of
fuel where the second goes on.
-/

namespace LoxWalk

open Exec

namespace Twin

/-- The fuel of the second execution is that of the first, or more if this one is exempt. -/
def Fuel (exempt : Prop) (n n' : Nat) : Prop :=
  n = n' ∨ exempt ∧ n ≤ n'

/-- With this fuel all tasks end alike. -/
structure Simulates (T : Twin) (s s' : Setting) (exempt : Prop) (n n' : Nat) : Prop where
  evaluate : ∀ {W x flags m m' e e'}, T.Machines W m m' → Flags W m.scope flags →
    e.Twins T x flags e' →
      T.Agree exempt false W m (evaluate s n e) (evaluate s' n' e') m m' T.Values
  evaluateAll : ∀ {W x flags m m' es es'}, T.Machines W m m' → Flags W m.scope flags →
    Expr.AllTwins T x flags es es' →
      T.Agree exempt false W m (evaluateAll s n es) (evaluateAll s' n' es') m m'
        fun W => List.Forall₂ (T.Values W)
  call : ∀ {W m m' v v' t t' vs vs'}, T.Machines W m m' → T.Values W v v' →
    T.Tokens false t t' → List.Forall₂ (T.Values W) vs vs' →
      T.Agree exempt false W m (call s n v t vs) (call s' n' v' t' vs') m m' T.Values
  enter : ∀ {W m m' v v' t t' vs vs'}, T.Machines W m m' → T.Values W v v' →
    T.Tokens false t t' → List.Forall₂ (T.Values W) vs vs' →
      T.Agree exempt false W m (enter s n v t vs) (enter s' n' v' t' vs') m m' T.Values
  run : ∀ {W m m' f f' vs vs'}, T.Machines W m m' → T.Closures W [] f f' →
    List.Forall₂ (T.Values W) vs vs' →
      T.Agree exempt false W m (run s n f vs) (run s' n' f' vs') m m' T.Values
  execute : ∀ {W x flags m m' t t'}, T.Machines W m m' → Flags W m.scope flags →
    t.Twins T x flags t' →
      T.Agree exempt (decide (x = .lasting)) W m (execute s n t) (execute s' n' t') m m'
        fun _ _ _ => True
  executeAll : ∀ {W x flags m m' ts ts'}, T.Machines W m m' → Flags W m.scope flags →
    Stmt.AllTwins T x flags ts ts' →
      T.Agree exempt (decide (x = .lasting)) W m (executeAll s n ts) (executeAll s' n' ts') m m'
        fun _ _ _ => True
  repeatWhile : ∀ {W x flags m m' e e' t t'}, T.Machines W m m' → Flags W m.scope flags →
    e.Twins T x flags e' → t.Twins T x flags t' →
      T.Agree exempt (decide (x = .lasting)) W m (repeatWhile s n e t) (repeatWhile s' n' e' t')
        m m' fun _ _ _ => True

variable {T : Twin} {s s' : Setting} {exempt : Prop} {n n' : Nat} {W : List Bool}
  {x : Extent} {flags : List Bool} {m m' : Machine}

namespace Simulates

theorem evaluate_succ (h : T.Simulates s s' exempt n n') (hset : T.Settings s s') {e e' : Expr}
    (hm : T.Machines W m m') (hflags : Flags W m.scope flags) (he : e.Twins T x flags e') :
    T.Agree exempt false W m (LoxWalk.evaluate s (n + 1) e) (LoxWalk.evaluate s' (n' + 1) e')
      m m' T.Values := by
  have hs := Stays.refl W m
  cases e with
  | literal v =>
    obtain rfl := he
    rw [LoxWalk.evaluate, LoxWalk.evaluate]
    refine .pure hs hm ?_
    cases v <;> constructor
  | group inner =>
    obtain ⟨inner', rfl, hinner⟩ := he
    rw [LoxWalk.evaluate, LoxWalk.evaluate]
    exact h.evaluate hm hflags hinner
  | unary operator operand =>
    obtain ⟨operator', operand', rfl, hoperator, hoperand⟩ := he
    rw [LoxWalk.evaluate, LoxWalk.evaluate]
    refine .bind hs (h.evaluate hm hflags hoperand) fun W₁ v v' m₁ m₁' hs₁ _ hm₁ hv => ?_
    exact agree_operate hs₁ hm₁ hoperator (applyUnary_eq hoperator hv)
  | binary left operator right =>
    obtain ⟨left', operator', right', rfl, hleft, hoperator, hright⟩ := he
    rw [LoxWalk.evaluate, LoxWalk.evaluate]
    refine .bind hs (h.evaluate hm hflags hleft) fun W₁ a a' m₁ m₁' hs₁ hW₁ hm₁ ha => ?_
    refine .bind hs₁ (h.evaluate hm₁ (hflags.stays hW₁ hs hs₁) hright) ?_
    intro W₂ b b' m₂ m₂' hs₂ hW₂ hm₂ hb
    exact agree_operate hs₂ hm₂ hoperator (applyBinary_eq hoperator (ha.mono hW₂) hb)
  | logical left operator right =>
    obtain ⟨left', operator', right', rfl, hleft, hoperator, hright⟩ := he
    rw [LoxWalk.evaluate, LoxWalk.evaluate]
    refine .bind hs (h.evaluate hm hflags hleft) fun W₁ a a' m₁ m₁' hs₁ hW₁ hm₁ ha => ?_
    have hdecides : decidesAlone operator' a' = decidesAlone operator a := by
      rw [decidesAlone, decidesAlone, Token.isKeyword, Token.isKeyword, hoperator.kind,
        ha.isTruthy_eq]
    rw [hdecides]
    split
    · exact .pure hs₁ hm₁ ha
    · exact .last hs₁ (h.evaluate hm₁ (hflags.stays hW₁ hs hs₁) hright)
  | var id name =>
    obtain ⟨id', name', d, rfl, hk, hname⟩ := he
    rw [LoxWalk.evaluate, LoxWalk.evaluate]
    exact agree_readVariable hset hs hm hflags hk hname
  | assign id name value =>
    obtain ⟨id', name', value', d, rfl, hvalue, hk, hname⟩ := he
    rw [LoxWalk.evaluate, LoxWalk.evaluate]
    refine .bind hs (h.evaluate hm hflags hvalue) fun W₁ v v' m₁ m₁' hs₁ hW₁ hm₁ hv => ?_
    refine .bind hs₁ (agree_assignVariable hset (.refl _ _) hm₁ (hflags.stays hW₁ hs hs₁) hk
      hname hv) ?_
    intro W₂ _ _ m₂ m₂' hs₂ hW₂ hm₂ _
    exact .pure hs₂ hm₂ (hv.mono hW₂)
  | call callee paren arguments =>
    obtain ⟨callee', paren', arguments', rfl, hcallee, hparen, harguments⟩ := he
    rw [LoxWalk.evaluate, LoxWalk.evaluate]
    refine .bind hs (h.evaluate hm hflags hcallee) fun W₁ f f' m₁ m₁' hs₁ hW₁ hm₁ hf => ?_
    refine .bind hs₁ (h.evaluateAll hm₁ (hflags.stays hW₁ hs hs₁) harguments) ?_
    intro W₂ vs vs' m₂ m₂' hs₂ hW₂ hm₂ hvs
    exact .last hs₂ (h.call hm₂ (hf.mono hW₂) hparen hvs)
  | get object name =>
    obtain ⟨object', name', rfl, hobject, hname⟩ := he
    rw [LoxWalk.evaluate, LoxWalk.evaluate]
    refine .bind hs (h.evaluate hm hflags hobject) fun W₁ v v' m₁ m₁' hs₁ _ hm₁ hv => ?_
    exact agree_getProperty hs₁ hm₁ hname hv
  | set object name value =>
    obtain ⟨object', name', value', rfl, hobject, hname, hvalue⟩ := he
    have hlexeme : name'.lexeme = name.lexeme := hname.lexeme
    rw [LoxWalk.evaluate, LoxWalk.evaluate]
    refine .bind hs (h.evaluate hm hflags hobject) fun W₁ v v' m₁ m₁' hs₁ hW₁ hm₁ hv => ?_
    refine .bind hs₁ (agree_fieldOwner (.refl _ _) hm₁ hname hv) ?_
    intro W₂ i i' m₂ m₂' hs₂ hW₂ hm₂ hi
    refine .bind hs₂ (h.evaluate hm₂ (hflags.stays (hW₁.trans hW₂) hs hs₂) hvalue) ?_
    intro W₃ w w' m₃ m₃' hs₃ hW₃ hm₃ hw
    have hσ := hm₃.store.setField hw i.record name.lexeme
    refine .bind_ok (a := ()) (b := ())
      (n := { m₃ with store := m₃.store.setField i.record name.lexeme w })
      (k := { m₃' with store := m₃'.store.setField i.record name.lexeme w' }) rfl ?_ ?_
    · rw [hi, hlexeme]
      rfl
    · exact .pure (hs₃.of_store (List.prefix_refl _) _) (hm₃.of_store (List.prefix_refl _) hσ) hw
  | this id keyword =>
    obtain ⟨id', keyword', d, rfl, hk, hkeyword⟩ := he
    rw [LoxWalk.evaluate, LoxWalk.evaluate]
    exact agree_readVariable hset hs hm hflags hk hkeyword
  | super id keyword method =>
    obtain ⟨id', keyword', method', d, rfl, hk, hkeyword, hmethod⟩ := he
    rw [LoxWalk.evaluate, LoxWalk.evaluate]
    exact agree_superMethod hset hs hm hflags hk hkeyword hmethod

theorem evaluateAll_succ (h : T.Simulates s s' exempt n n') {es es' : List Expr}
    (hm : T.Machines W m m') (hflags : Flags W m.scope flags)
    (hes : Expr.AllTwins T x flags es es') :
    T.Agree exempt false W m (LoxWalk.evaluateAll s (n + 1) es)
      (LoxWalk.evaluateAll s' (n' + 1) es') m m' fun W => List.Forall₂ (T.Values W) := by
  have hs := Stays.refl W m
  cases es with
  | nil =>
    obtain rfl := hes
    rw [LoxWalk.evaluateAll, LoxWalk.evaluateAll]
    exact .pure hs hm .nil
  | cons e es =>
    obtain ⟨e', es', rfl, he, hes⟩ := hes
    rw [LoxWalk.evaluateAll, LoxWalk.evaluateAll]
    refine .bind hs (h.evaluate hm hflags he) fun W₁ v v' m₁ m₁' hs₁ hW₁ hm₁ hv => ?_
    refine .bind hs₁ (h.evaluateAll hm₁ (hflags.stays hW₁ hs hs₁) hes) ?_
    intro W₂ vs vs' m₂ m₂' hs₂ hW₂ hm₂ hvs
    exact .pure hs₂ hm₂ (.cons (hv.mono hW₂) hvs)

/-- Nothing is bound in either frame. -/
theorem rel_empty (flag : Bool) (y : String) : Option.Rel (T.Values W)
    ((NameMap.empty : Bindings).get? y) ((NameMap.empty : Bindings).get? (T.name flag y)) :=
  .none

/-- Arguments that are bound to parameters. -/
theorem rel_insertAll (flag : Bool) {ps ps' : List Token} (hps : List.Forall₂ (T.Tokens flag) ps ps')
    {vs vs' : List Value} (hvs : List.Forall₂ (T.Values W) vs vs') {b b' : Bindings}
    (hb : ∀ y, Option.Rel (T.Values W) (b.get? y) (b'.get? (T.name flag y))) (y : String) :
    Option.Rel (T.Values W) ((b.insertAll ((ps.map Token.lexeme).zip vs)).get? y)
      ((b'.insertAll ((ps'.map Token.lexeme).zip vs')).get? (T.name flag y)) := by
  induction hps generalizing vs vs' b b' with
  | nil => exact hb y
  | cons hp _ ih =>
    cases hvs with
    | nil => exact hb y
    | cons hv hvs =>
      refine ih hvs fun z => ?_
      rw [NameMap.get?_insert, NameMap.get?_insert, hp.lexeme]
      simp only [T.name_inj]
      split
      · exact .some hv
      · exact hb z

theorem run_succ (h : T.Simulates s s' exempt n n') {f f' : Closure} {vs vs' : List Value}
    (hm : T.Machines W m m') (hf : T.Closures W [] f f') (hvs : List.Forall₂ (T.Values W) vs vs') :
    T.Agree exempt false W m (LoxWalk.run s (n + 1) f vs) (LoxWalk.run s' (n' + 1) f' vs') m m'
      T.Values := by
  have hs := Stays.refl W m
  obtain ⟨flags, hflags, hcode⟩ := hf.code
  obtain ⟨id, ⟨name, params, body⟩, scope, isInitializer⟩ := f
  obtain ⟨id', decl', scope', isInitializer'⟩ := f'
  obtain rfl : scope' = scope := hf.scope
  obtain rfl : isInitializer' = isInitializer := hf.isInitializer
  obtain ⟨flag, name', params', body', rfl, -, hparams, hbody⟩ := hcode
  have hW : W <+: W ++ [flag] := List.prefix_append _ _
  have hσ := hm.store.addFrame flag (rel_insertAll flag hparams hvs (rel_empty flag))
  rw [LoxWalk.run, LoxWalk.run]
  refine .bind_ok (a := .inside m.store.freshFrame scope') (b := .inside m.store.freshFrame scope')
    rfl (by rw [← hm.store.freshFrame_eq]; rfl) ?_
  have hs₁ := hs.of_store hW (m.store.addFrame
    (NameMap.empty.insertAll ((params.map Token.lexeme).zip vs)))
  have hm₁ := hm.of_store hW hσ
  refine .bind hs₁ (.catchReturn (.inScope (.refl _ _) hm.scope (h.executeAll (hm₁.enter _)
    ((hflags.mono hW).inside (hm.store.getElem?_freshFrame flag)) hbody))) ?_
  intro W₂ v v' m₂ m₂' hs₂ hW₂ hm₂ hv
  dsimp only
  split
  · -- the instance that the initializer was bound to
    have hthis := hm₂.store.getLocal? scope' thisName
    rw [name_this] at hthis
    refine .bind_ok (a := m₂) (b := m₂') rfl rfl ?_
    refine .pure hs₂ hm₂ ?_
    dsimp only
    revert hthis
    generalize m₂.store.getLocal? scope' thisName = found,
      m₂'.store.getLocal? scope' thisName = found'
    intro hthis
    cases hthis with
    | some hi => exact hi
    | none => exact .nil
  · exact .pure hs₂ hm₂ hv

theorem enter_succ (h : T.Simulates s s' exempt n n') (hset : T.Settings s s') {v v' : Value}
    {t t' : Token} {vs vs' : List Value} (hm : T.Machines W m m') (hv : T.Values W v v')
    (ht : T.Tokens false t t') (hvs : List.Forall₂ (T.Values W) vs vs') :
    T.Agree exempt false W m (LoxWalk.enter s (n + 1) v t vs) (LoxWalk.enter s' (n' + 1) v' t' vs')
      m m' T.Values := by
  have hs := Stays.refl W m
  cases hv with
  | native f =>
    obtain ⟨now, hnow, hnow'⟩ := hset.host
    rw [LoxWalk.enter, LoxWalk.enter, hnow, hnow', Host.clockAt, Host.clockAt]
    by_cases hclock : f.name = clockName
    · rw [if_pos hclock]
      exact .pure hs hm (.number now)
    · rw [if_neg hclock]
      exact .fault (e := .native ("no native function " ++ f.name)) hs hm ht
  | function hf =>
    rw [LoxWalk.enter, LoxWalk.enter]
    exact h.run hm hf hvs
  | @class_ c c' hc =>
    have hi : T.Values W (.instance_ ⟨m.store.freshRecord, c⟩)
        (.instance_ ⟨m'.store.freshRecord, c'⟩) := .instance_ hm.store.freshRecord_eq hc
    have hm₁ := hm.of_store (List.prefix_refl _) hm.store.addRecord
    have hs₁ := hs.of_store (List.prefix_refl _) m.store.addRecord
    rw [LoxWalk.enter, LoxWalk.enter]
    refine .bind_ok (a := ⟨m.store.freshRecord, c⟩) (b := ⟨m'.store.freshRecord, c'⟩) rfl rfl ?_
    dsimp only
    have hinit := hc.method initializerName
    revert hinit
    generalize c.method? initializerName = init, c'.method? initializerName = init'
    intro hinit
    cases hinit with
    | none => exact .pure hs₁ hm₁ hi
    | some hinit =>
      refine .bind hs₁ (agree_bindMethod (.refl _ _) hm₁ hinit hi) ?_
      intro W₂ g g' m₂ m₂' hs₂ hW₂ hm₂ hg
      refine .bind hs₂ (h.run hm₂ hg (allValues_mono hW₂ hvs)) ?_
      intro W₃ _ _ m₃ m₃' hs₃ hW₃ hm₃ _
      exact .pure hs₃ hm₃ ((hi.mono hW₂).mono hW₃)
  | _ =>
    simp only [LoxWalk.enter]
    exact .fault (e := .notCallable) hs hm ht

theorem call_succ (h : T.Simulates s s' exempt n n') (hset : T.Settings s s') {v v' : Value}
    {t t' : Token} {vs vs' : List Value} (hm : T.Machines W m m') (hv : T.Values W v v')
    (ht : T.Tokens false t t') (hvs : List.Forall₂ (T.Values W) vs vs') :
    T.Agree exempt false W m (LoxWalk.call s (n + 1) v t vs) (LoxWalk.call s' (n' + 1) v' t' vs')
      m m' T.Values := by
  have hs := Stays.refl W m
  rw [LoxWalk.call, LoxWalk.call, hv.arity?_eq, ← hvs.length_eq, hset.maxCallDepth]
  cases v.arity? with
  | none => exact .fault (e := .notCallable) hs hm ht
  | some arity =>
    dsimp only
    split
    · exact .fault (e := .wrongArity arity vs.length) hs hm ht
    · refine .bind_ok (a := m) (b := m') rfl rfl ?_
      rw [hm.callDepth, withStackFor_eq, withStackFor_eq]
      split
      · exact .fault (e := .stackOverflow) hs hm ht
      · refine .asCall (h.enter ⟨hm.store, hm.scope, ?_, hm.output, hm.globals⟩ hv ht hvs)
        exact congrArg (· + 1) hm.callDepth

theorem execute_succ (h : T.Simulates s s' exempt n n') {t t' : Stmt}
    (hm : T.Machines W m m') (hflags : Flags W m.scope flags) (ht : t.Twins T x flags t') :
    T.Agree exempt (decide (x = .lasting)) W m (LoxWalk.execute s (n + 1) t)
      (LoxWalk.execute s' (n' + 1) t') m m' fun _ _ _ => True := by
  have hs := Stays.refl W m
  cases t with
  | expression e =>
    obtain ⟨e', rfl, he⟩ := ht
    rw [LoxWalk.execute, LoxWalk.execute]
    refine .bind hs (.quiet (h.evaluate hm hflags he)) fun W₁ v v' m₁ m₁' hs₁ _ hm₁ _ => ?_
    exact .pure hs₁ hm₁ trivial
  | print e =>
    obtain ⟨e', rfl, he⟩ := ht
    rw [LoxWalk.execute, LoxWalk.execute]
    refine .bind hs (.quiet (h.evaluate hm hflags he)) fun W₁ v v' m₁ m₁' hs₁ _ hm₁ hv => ?_
    exact agree_print hs₁ hm₁ hv
  | var name initializer =>
    obtain ⟨name', initializer', rfl, hname, hinitializer⟩ := ht
    cases initializer with
    | none =>
      obtain rfl := hinitializer
      rw [LoxWalk.execute, LoxWalk.execute]
      exact agree_define hs hm hflags hname .nil
    | some e =>
      obtain ⟨e', rfl, he⟩ := hinitializer
      rw [LoxWalk.execute, LoxWalk.execute]
      refine .bind hs (.quiet (h.evaluate hm hflags he)) fun W₁ v v' m₁ m₁' hs₁ hW₁ hm₁ hv => ?_
      exact agree_define hs₁ hm₁ (hflags.stays hW₁ hs hs₁) hname hv
  | block body =>
    obtain ⟨flag, body', rfl, hbody⟩ := ht
    have hW : W <+: W ++ [flag] := List.prefix_append _ _
    have hσ := hm.store.addFrame flag (rel_empty flag)
    rw [LoxWalk.execute, LoxWalk.execute]
    refine .bind_ok (a := m) (b := m') rfl rfl ?_
    refine .bind_ok (a := .inside m.store.freshFrame m.scope)
      (b := .inside m.store.freshFrame m.scope) rfl
      (by rw [← hm.store.freshFrame_eq, ← hm.scope]; rfl) ?_
    have hs₁ := hs.of_store hW (m.store.addFrame NameMap.empty)
    exact .inScope hs₁ hm.scope (h.executeAll ((hm.of_store hW hσ).enter _)
      ((hflags.mono hW).inside (hm.store.getElem?_freshFrame flag)) hbody)
  | if_ condition thenBranch elseBranch =>
    cases elseBranch with
    | none =>
      obtain ⟨condition', thenBranch', rfl, hcondition, hthen⟩ := ht
      rw [LoxWalk.execute, LoxWalk.execute]
      refine .bind hs (.quiet (h.evaluate hm hflags hcondition)) ?_
      intro W₁ v v' m₁ m₁' hs₁ hW₁ hm₁ hv
      rw [hv.isTruthy_eq]
      split
      · exact .last hs₁ (h.execute hm₁ (hflags.stays hW₁ hs hs₁) hthen)
      · exact .pure hs₁ hm₁ trivial
    | some elseBranch =>
      obtain ⟨condition', thenBranch', elseBranch', rfl, hcondition, hthen, helse⟩ := ht
      rw [LoxWalk.execute, LoxWalk.execute]
      refine .bind hs (.quiet (h.evaluate hm hflags hcondition)) ?_
      intro W₁ v v' m₁ m₁' hs₁ hW₁ hm₁ hv
      rw [hv.isTruthy_eq]
      split
      · exact .last hs₁ (h.execute hm₁ (hflags.stays hW₁ hs hs₁) hthen)
      · exact .last hs₁ (h.execute hm₁ (hflags.stays hW₁ hs hs₁) helse)
  | while_ condition body =>
    obtain ⟨condition', body', rfl, hcondition, hbody⟩ := ht
    rw [LoxWalk.execute, LoxWalk.execute]
    exact h.repeatWhile hm hflags hcondition hbody
  | fun_ decl =>
    obtain ⟨decl', rfl, hname, hdecl⟩ := ht
    rw [LoxWalk.execute, LoxWalk.execute]
    refine .bind_ok (a := m) (b := m') rfl rfl ?_
    refine .bind_ok (a := ⟨m.store.freshObject, decl, m.scope, false⟩)
      (b := ⟨m'.store.freshObject, decl', m'.scope, false⟩)
      (n := { m with store := m.store.useObject }) rfl rfl ?_
    refine agree_define (hs.of_store (List.prefix_refl _) _)
      (hm.of_store (List.prefix_refl _) hm.store.useObject) hflags hname (.function ?_)
    exact ⟨hm.store.freshObject_eq, hm.scope, rfl, flags, hflags, hdecl⟩
  | return_ keyword value =>
    obtain ⟨rfl, keyword', value', rfl, -, hvalue⟩ := ht
    cases value with
    | none =>
      obtain rfl := hvalue
      rw [LoxWalk.execute, LoxWalk.execute]
      exact .error hs hm (.returning rfl .nil)
    | some e =>
      obtain ⟨e', rfl, he⟩ := hvalue
      rw [LoxWalk.execute, LoxWalk.execute]
      refine .bind hs (.quiet (h.evaluate hm hflags he)) fun W₁ v v' m₁ m₁' hs₁ _ hm₁ hv => ?_
      exact .error hs₁ hm₁ (.returning rfl hv)
  | class_ name superclass methods =>
    obtain ⟨name', superclass', methods', rfl, ⟨hname, hlexeme⟩, hsuperclass, hmethods⟩ := ht
    cases superclass with
    | none =>
      obtain rfl := hsuperclass
      rw [LoxWalk.execute, LoxWalk.execute]
      exact agree_declareClass hs hm hflags hname hlexeme .none hmethods
    | some e =>
      obtain ⟨e', rfl, he⟩ := hsuperclass
      rw [LoxWalk.execute, LoxWalk.execute]
      refine .bind hs (.quiet (h.evaluate hm hflags he)) fun W₁ v v' m₁ m₁' hs₁ hW₁ hm₁ hv => ?_
      refine .bind hs₁ (agree_superclassOf (.refl _ _) hm₁ hname he hv) ?_
      intro W₂ c c' m₂ m₂' hs₂ hW₂ hm₂ hc
      exact agree_declareClass hs₂ hm₂ (hflags.stays (hW₁.trans hW₂) hs hs₂) hname hlexeme
        (.some hc) hmethods

theorem executeAll_succ (h : T.Simulates s s' exempt n n') {ts ts' : List Stmt}
    (hm : T.Machines W m m') (hflags : Flags W m.scope flags)
    (hts : Stmt.AllTwins T x flags ts ts') :
    T.Agree exempt (decide (x = .lasting)) W m (LoxWalk.executeAll s (n + 1) ts)
      (LoxWalk.executeAll s' (n' + 1) ts') m m' fun _ _ _ => True := by
  have hs := Stays.refl W m
  cases ts with
  | nil =>
    obtain rfl := hts
    rw [LoxWalk.executeAll, LoxWalk.executeAll]
    exact .pure hs hm trivial
  | cons t ts =>
    obtain ⟨t', ts', rfl, ht, hts⟩ := hts
    rw [LoxWalk.executeAll, LoxWalk.executeAll]
    refine .bind hs (h.execute hm hflags ht) fun W₁ _ _ m₁ m₁' hs₁ hW₁ hm₁ _ => ?_
    exact .last hs₁ (h.executeAll hm₁ (hflags.stays hW₁ hs hs₁) hts)

theorem repeatWhile_succ (h : T.Simulates s s' exempt n n') {e e' : Expr} {t t' : Stmt}
    (hm : T.Machines W m m') (hflags : Flags W m.scope flags) (he : e.Twins T x flags e')
    (ht : t.Twins T x flags t') :
    T.Agree exempt (decide (x = .lasting)) W m (LoxWalk.repeatWhile s (n + 1) e t)
      (LoxWalk.repeatWhile s' (n' + 1) e' t') m m' fun _ _ _ => True := by
  have hs := Stays.refl W m
  rw [LoxWalk.repeatWhile, LoxWalk.repeatWhile]
  refine .bind hs (.quiet (h.evaluate hm hflags he)) fun W₁ v v' m₁ m₁' hs₁ hW₁ hm₁ hv => ?_
  rw [hv.isTruthy_eq]
  split
  · have hflags₁ := hflags.stays hW₁ hs hs₁
    refine .bind hs₁ (h.execute hm₁ hflags₁ ht) fun W₂ _ _ m₂ m₂' hs₂ hW₂ hm₂ _ => ?_
    exact .last hs₂ (h.repeatWhile hm₂ (hflags₁.stays hW₂ hs₁ hs₂) he ht)
  · exact .pure hs₁ hm₁ trivial

end Simulates

/-- Without fuel both executions end at once, or the first one does and is exempt. -/
theorem agree_outOfFuel {α β : Type} {returns : Bool} {Q : List Bool → α → β → Prop}
    (hn : Fuel exempt 0 n') (hm : T.Machines W m m') {x : Exec α} {x' : Exec β}
    (hx : x = throw .outOfFuel) (hx' : n' = 0 → x' = throw .outOfFuel) :
    T.Agree exempt returns W m x x' m m' Q := by
  subst hx
  rcases hn with rfl | ⟨hexempt, -⟩
  · rw [hx' rfl]
    exact .error (.refl W m) hm .outOfFuel
  · exact .exempt hexempt _ _

/-- With any fuel, all tasks end alike. -/
theorem simulates (hset : T.Settings s s') (hn : Fuel exempt n n') :
    T.Simulates s s' exempt n n' := by
  induction n generalizing n' with
  | zero =>
    exact
      { evaluate := fun hm _ _ =>
          agree_outOfFuel hn hm (by rw [evaluate]) (by rintro rfl; rw [evaluate])
        evaluateAll := fun hm _ _ =>
          agree_outOfFuel hn hm (by rw [evaluateAll]) (by rintro rfl; rw [evaluateAll])
        call := fun hm _ _ _ =>
          agree_outOfFuel hn hm (by rw [call]) (by rintro rfl; rw [call])
        enter := fun hm _ _ _ =>
          agree_outOfFuel hn hm (by rw [enter]) (by rintro rfl; rw [enter])
        run := fun hm _ _ =>
          agree_outOfFuel hn hm (by rw [run]) (by rintro rfl; rw [run])
        execute := fun hm _ _ =>
          agree_outOfFuel hn hm (by rw [execute]) (by rintro rfl; rw [execute])
        executeAll := fun hm _ _ =>
          agree_outOfFuel hn hm (by rw [executeAll]) (by rintro rfl; rw [executeAll])
        repeatWhile := fun hm _ _ _ =>
          agree_outOfFuel hn hm (by rw [repeatWhile]) (by rintro rfl; rw [repeatWhile]) }
  | succ n ih =>
    obtain ⟨k, rfl, hk⟩ : ∃ k, n' = k + 1 ∧ Fuel exempt n k := by
      rcases hn with rfl | ⟨hexempt, hle⟩
      · exact ⟨n, rfl, .inl rfl⟩
      · exact ⟨n' - 1, by omega, .inr ⟨hexempt, by omega⟩⟩
    have h := ih hk
    exact
      { evaluate := h.evaluate_succ hset
        evaluateAll := h.evaluateAll_succ
        call := h.call_succ hset
        enter := h.enter_succ hset
        run := h.run_succ
        execute := h.execute_succ
        executeAll := h.executeAll_succ
        repeatWhile := h.repeatWhile_succ }

end Twin

end LoxWalk
