import LoxWalk.Proofs.Loops.Steps

/-!
# Runs with extra scopes behave alike

Code that runs with extra scopes around it and its copy that runs without them end alike on related
machines (`Padding.simulates`).  The proof is one induction on the fuel for all kinds of tasks at
once; each task is a lemma of its own that gets what holds for less fuel (`Padding.Simulates`).

Both runs get the same fuel, or one of them more; then the other one may run out of fuel.
-/

namespace LoxWalk

open Exec

namespace Padding

/-- The fuel of both runs is the same, or the run that gets less may run out of it. -/
def Slack.Allows (L : Slack) (n n' : Nat) : Prop :=
  n = n' ∨ L.plain ∧ n ≤ n' ∨ L.padded ∧ n' ≤ n

/-- With this fuel all tasks end alike. -/
structure Simulates (L : Slack) (s : Setting) (n n' : Nat) : Prop where
  evaluate : ∀ {W k π m m'} {e : Expr}, Machines s W π m m' → e.Padded s k π →
    Agree L s W π (evaluate s n (e.shift k id)) (evaluate s n' e) m m' (Values s)
  evaluateAll : ∀ {W k π m m'} {es : List Expr}, Machines s W π m m' → Expr.AllPadded s k π es →
    Agree L s W π (evaluateAll s n (Expr.shiftAll k id es)) (evaluateAll s n' es) m m'
      fun W => List.Forall₂ (Values s W)
  call : ∀ {W π m m' v v' vs vs'} {t : Token}, Machines s W π m m' → Values s W v v' →
    List.Forall₂ (Values s W) vs vs' →
      Agree L s W π (call s n v t vs) (call s n' v' t vs') m m' (Values s)
  enter : ∀ {W π m m' v v' vs vs'} {t : Token}, Machines s W π m m' → Values s W v v' →
    List.Forall₂ (Values s W) vs vs' →
      Agree L s W π (enter s n v t vs) (enter s n' v' t vs') m m' (Values s)
  run : ∀ {W π m m' f f' vs vs'}, Machines s W π m m' → Closures s W [] f f' →
    List.Forall₂ (Values s W) vs vs' →
      Agree L s W π (run s n f vs) (run s n' f' vs') m m' (Values s)
  execute : ∀ {W k π m m'} {t : Stmt}, Machines s W π m m' → t.Padded s k π →
    Agree L s W π (execute s n (t.shift k id)) (execute s n' t) m m' fun _ _ _ => True
  executeAll : ∀ {W k π m m'} {ts : List Stmt}, Machines s W π m m' → Stmt.AllPadded s k π ts →
    Agree L s W π (executeAll s n (Stmt.shiftAll k id ts)) (executeAll s n' ts) m m'
      fun _ _ _ => True
  repeatWhile : ∀ {W k π m m'} {e : Expr} {t : Stmt}, Machines s W π m m' → e.Padded s k π →
    t.Padded s k π →
      Agree L s W π (repeatWhile s n (e.shift k id) (t.shift k id)) (repeatWhile s n' e t) m m'
        fun _ _ _ => True

variable {L : Slack} {s : Setting} {n n' : Nat} {W : Padding} {k : Nat} {π : List Bool}
  {m m' : Machine}

namespace Simulates

theorem evaluate_succ (h : Simulates L s n n') {e : Expr} (hm : Machines s W π m m')
    (he : e.Padded s k π) :
    Agree L s W π (LoxWalk.evaluate s (n + 1) (e.shift k id)) (LoxWalk.evaluate s (n' + 1) e) m m'
      (Values s) := by
  cases e with
  | literal v =>
    rw [Expr.shift, LoxWalk.evaluate, LoxWalk.evaluate]
    refine .pure hm ?_
    cases v <;> constructor
  | group inner =>
    rw [Expr.shift, LoxWalk.evaluate, LoxWalk.evaluate]
    exact h.evaluate hm he
  | unary operator operand =>
    rw [Expr.shift, LoxWalk.evaluate, LoxWalk.evaluate, Token.relined_id]
    refine .bind (h.evaluate hm he) fun W₁ v v' m₁ m₁' _ hm₁ hv => ?_
    rw [hv.applyUnary_eq]
    exact agree_operate hm₁ fun w => isPlain_of_applyUnary
  | binary left operator right =>
    rw [Expr.shift, LoxWalk.evaluate, LoxWalk.evaluate, Token.relined_id]
    refine .bind (h.evaluate hm he.1) fun W₁ a a' m₁ m₁' _ hm₁ ha => ?_
    refine .bind (h.evaluate hm₁ he.2) fun W₂ b b' m₂ m₂' hW₂ hm₂ hb => ?_
    rw [(ha.mono hW₂).applyBinary_eq hb]
    exact agree_operate hm₂ fun w => isPlain_of_applyBinary
  | logical left operator right =>
    rw [Expr.shift, LoxWalk.evaluate, LoxWalk.evaluate, Token.relined_id]
    refine .bind (h.evaluate hm he.1) fun W₁ a a' m₁ m₁' _ hm₁ ha => ?_
    have hdecides : decidesAlone operator a' = decidesAlone operator a := by
      rw [decidesAlone, decidesAlone, ha.isTruthy_eq]
    rw [hdecides]
    split
    · exact .pure hm₁ ha
    · exact h.evaluate hm₁ he.2
  | var r name =>
    rw [Expr.shift, LoxWalk.evaluate, LoxWalk.evaluate, Token.relined_id]
    exact agree_readVariable hm he
  | assign r name value =>
    rw [Expr.shift, LoxWalk.evaluate, LoxWalk.evaluate, Token.relined_id]
    refine .bind (h.evaluate hm he.1) fun W₁ v v' m₁ m₁' _ hm₁ hv => ?_
    refine .bind (agree_assignVariable hm₁ he.2 hv) fun W₂ _ _ m₂ m₂' hW₂ hm₂ _ => ?_
    exact .pure hm₂ (hv.mono hW₂)
  | call callee paren arguments =>
    rw [Expr.shift, LoxWalk.evaluate, LoxWalk.evaluate, Token.relined_id]
    refine .bind (h.evaluate hm he.1) fun W₁ f f' m₁ m₁' _ hm₁ hf => ?_
    refine .bind (h.evaluateAll hm₁ he.2) fun W₂ vs vs' m₂ m₂' hW₂ hm₂ hvs => ?_
    exact h.call hm₂ (hf.mono hW₂) hvs
  | get object name =>
    rw [Expr.shift, LoxWalk.evaluate, LoxWalk.evaluate, Token.relined_id]
    refine .bind (h.evaluate hm he) fun W₁ v v' m₁ m₁' _ hm₁ hv => ?_
    exact agree_getProperty hm₁ hv
  | set object name value =>
    rw [Expr.shift, LoxWalk.evaluate, LoxWalk.evaluate, Token.relined_id]
    refine .bind (h.evaluate hm he.1) fun W₁ v v' m₁ m₁' _ hm₁ hv => ?_
    refine .bind (agree_fieldOwner hm₁ hv) fun W₂ i i' m₂ m₂' _ hm₂ hi => ?_
    refine .bind (h.evaluate hm₂ he.2) fun W₃ w w' m₃ m₃' _ hm₃ hw => ?_
    have hσ := hm₃.store.setField hw i.record name.lexeme
    refine .bind_ok (a := ()) (b := ())
      (n := { m₃ with store := m₃.store.setField i.record name.lexeme w })
      (k := { m₃' with store := m₃'.store.setField i.record name.lexeme w' }) rfl ?_ ?_
    · rw [hi]
      rfl
    · exact .pure (hm₃.of_store (List.prefix_refl _) hσ) hw
  | this r keyword =>
    rw [Expr.shift, LoxWalk.evaluate, LoxWalk.evaluate, Token.relined_id]
    exact agree_readVariable hm he
  | super r keyword method =>
    rw [Expr.shift, LoxWalk.evaluate, LoxWalk.evaluate, Token.relined_id, Token.relined_id]
    exact agree_superMethod hm he.1 he.2

theorem evaluateAll_succ (h : Simulates L s n n') {es : List Expr} (hm : Machines s W π m m')
    (hes : Expr.AllPadded s k π es) :
    Agree L s W π (LoxWalk.evaluateAll s (n + 1) (Expr.shiftAll k id es))
      (LoxWalk.evaluateAll s (n' + 1) es) m m' fun W => List.Forall₂ (Values s W) := by
  cases es with
  | nil =>
    rw [Expr.shiftAll, LoxWalk.evaluateAll, LoxWalk.evaluateAll]
    exact .pure hm .nil
  | cons e es =>
    rw [Expr.shiftAll, LoxWalk.evaluateAll, LoxWalk.evaluateAll]
    refine .bind (h.evaluate hm hes.1) fun W₁ v v' m₁ m₁' _ hm₁ hv => ?_
    refine .bind (h.evaluateAll hm₁ hes.2) fun W₂ vs vs' m₂ m₂' hW₂ hm₂ hvs => ?_
    exact .pure hm₂ (.cons (hv.mono hW₂) hvs)

/-- Nothing is bound in either frame. -/
theorem rel_empty (W : Padding) (y : String) : Option.Rel (Values s W)
    ((NameMap.empty : Bindings).get? y) ((NameMap.empty : Bindings).get? y) :=
  .none

/-- Arguments that are bound to parameters. -/
theorem rel_insertAll (xs : List String) {vs vs' : List Value}
    (hvs : List.Forall₂ (Values s W) vs vs') {b b' : Bindings}
    (hb : ∀ y, Option.Rel (Values s W) (b.get? y) (b'.get? y)) (y : String) :
    Option.Rel (Values s W) ((b.insertAll (xs.zip vs)).get? y)
      ((b'.insertAll (xs.zip vs')).get? y) := by
  induction xs generalizing vs vs' b b' with
  | nil => exact hb y
  | cons x xs ih =>
    cases hvs with
    | nil => exact hb y
    | cons hv hvs =>
      refine ih hvs fun z => ?_
      rw [NameMap.get?_insert, NameMap.get?_insert]
      split
      · exact .some hv
      · exact hb z

theorem run_succ (h : Simulates L s n n') {f f' : Closure} {vs vs' : List Value}
    (hm : Machines s W π m m') (hf : Closures s W [] f f')
    (hvs : List.Forall₂ (Values s W) vs vs') :
    Agree L s W π (LoxWalk.run s (n + 1) f vs) (LoxWalk.run s (n' + 1) f' vs') m m' (Values s) := by
  obtain ⟨k, ρ, hdecl, hscope, hhead, hcode⟩ := hf.code
  obtain ⟨_, decl, scope, isInitializer⟩ := f
  obtain ⟨_, ⟨name, params, body⟩, scope', isInitializer'⟩ := f'
  obtain rfl : isInitializer' = isInitializer := hf.isInitializer
  obtain rfl : decl = ⟨name, params, Stmt.shiftAll k id body⟩ := by
    have hparams : params.map (Token.relined id) = params := List.map_id params
    rwa [Stmt.shiftFun, Token.relined_id, hparams] at hdecl
  have hW : W <+: W ++ [some m.store.freshFrame] := List.prefix_append _ _
  have hσ := hm.store.addFrame (rel_insertAll (params.map Token.lexeme) hvs (rel_empty W))
  have hm₁ := hm.of_store hW hσ
  -- both runs open the scope of the call, so it is not extra
  rw [LoxWalk.run, LoxWalk.run]
  refine .bind_ok (a := .inside m.store.freshFrame scope) (b := .inside m'.store.freshFrame scope')
    rfl rfl ?_
  refine .extend hW (.bind (.catchReturn (.inScope hm₁.scope (h.executeAll (hm₁.enter
    (.inside hm.store.stands_freshFrame (hscope.mono hW))) hcode))) ?_)
  intro W₂ v v' m₂ m₂' hW₂ hm₂ hv
  dsimp only
  split
  · -- the instance that the initializer was bound to
    have hthis := hm₂.store.getLocal? ((hscope.mono (hW.trans hW₂)).stands hhead) thisName
    refine .bind_ok (a := m₂) (b := m₂') rfl rfl (.pure hm₂ ?_)
    dsimp only
    revert hthis
    generalize m₂.store.getLocal? scope thisName = found,
      m₂'.store.getLocal? scope' thisName = found'
    intro hthis
    cases hthis with
    | some hi => exact hi
    | none => exact .nil
  · exact .pure hm₂ hv

theorem enter_succ (h : Simulates L s n n') (hhost : ∃ now, s.host = .clockAt now) {v v' : Value}
    {t : Token} {vs vs' : List Value} (hm : Machines s W π m m') (hv : Values s W v v')
    (hvs : List.Forall₂ (Values s W) vs vs') :
    Agree L s W π (LoxWalk.enter s (n + 1) v t vs) (LoxWalk.enter s (n' + 1) v' t vs') m m'
      (Values s) := by
  cases hv with
  | native f =>
    obtain ⟨now, hnow⟩ := hhost
    rw [LoxWalk.enter, LoxWalk.enter, hnow, Host.clockAt, Host.clockAt]
    by_cases hclock : f.name = clockName
    · rw [if_pos hclock]
      exact .pure hm (.number now)
    · rw [if_neg hclock]
      exact .fault hm
  | function hf =>
    rw [LoxWalk.enter, LoxWalk.enter]
    exact h.run hm hf hvs
  | @class_ c c' hc =>
    have hi : Values s W (.instance_ ⟨m.store.freshRecord, c⟩)
        (.instance_ ⟨m'.store.freshRecord, c'⟩) := .instance_ hm.store.freshRecord_eq hc
    have hm₁ := hm.of_store (List.prefix_refl _) hm.store.addRecord
    rw [LoxWalk.enter, LoxWalk.enter]
    refine .bind_ok (a := ⟨m.store.freshRecord, c⟩) (b := ⟨m'.store.freshRecord, c'⟩) rfl rfl ?_
    dsimp only
    have hinit := hc.method initializerName
    revert hinit
    generalize c.method? initializerName = init, c'.method? initializerName = init'
    intro hinit
    cases hinit with
    | none => exact .pure hm₁ hi
    | some hinit =>
      refine .bind (agree_bindMethod hm₁ hinit hi) fun W₂ g g' m₂ m₂' hW₂ hm₂ hg => ?_
      refine .bind (h.run hm₂ hg (allValues_mono hW₂ hvs)) fun W₃ _ _ m₃ m₃' hW₃ hm₃ _ => ?_
      exact .pure hm₃ ((hi.mono hW₂).mono hW₃)
  | _ =>
    simp only [LoxWalk.enter]
    exact .fault hm

theorem call_succ (h : Simulates L s n n') {v v' : Value} {t : Token} {vs vs' : List Value}
    (hm : Machines s W π m m') (hv : Values s W v v') (hvs : List.Forall₂ (Values s W) vs vs') :
    Agree L s W π (LoxWalk.call s (n + 1) v t vs) (LoxWalk.call s (n' + 1) v' t vs') m m'
      (Values s) := by
  rw [LoxWalk.call, LoxWalk.call, hv.arity?_eq, ← hvs.length_eq]
  cases v.arity? with
  | none => exact .fault hm
  | some arity =>
    dsimp only
    split
    · exact .fault hm
    · refine .bind_ok (a := m) (b := m') rfl rfl ?_
      rw [hm.callDepth, withStackFor_eq, withStackFor_eq]
      split
      · exact .fault hm
      · refine .asCall (h.enter ⟨hm.store, hm.scope, ?_, hm.output, hm.globals⟩ hv hvs)
        exact congrArg (· + 1) hm.callDepth

theorem execute_succ (h : Simulates L s n n') {t : Stmt} (hm : Machines s W π m m')
    (ht : t.Padded s k π) :
    Agree L s W π (LoxWalk.execute s (n + 1) (t.shift k id)) (LoxWalk.execute s (n' + 1) t) m m'
      fun _ _ _ => True := by
  cases t with
  | expression e =>
    rw [Stmt.shift, LoxWalk.execute, LoxWalk.execute]
    refine .bind (h.evaluate hm ht) fun W₁ v v' m₁ m₁' _ hm₁ _ => ?_
    exact .pure hm₁ trivial
  | print e =>
    rw [Stmt.shift, LoxWalk.execute, LoxWalk.execute]
    refine .bind (h.evaluate hm ht) fun W₁ v v' m₁ m₁' _ hm₁ hv => ?_
    exact agree_print hm₁ hv
  | var name initializer =>
    obtain ⟨hπ, hinitializer⟩ := ht
    cases initializer with
    | none =>
      rw [Stmt.shift, Option.map_none, LoxWalk.execute, LoxWalk.execute, Token.relined_id]
      exact agree_define hm hπ .nil
    | some e =>
      rw [Stmt.shift, Option.map_some, LoxWalk.execute, LoxWalk.execute, Token.relined_id]
      refine .bind (h.evaluate hm hinitializer) fun W₁ v v' m₁ m₁' _ hm₁ hv => ?_
      exact agree_define hm₁ hπ hv
  | block body =>
    have hW : W <+: W ++ [some m.store.freshFrame] := List.prefix_append _ _
    have hσ := hm.store.addFrame (rel_empty W)
    have hm₁ := hm.of_store hW hσ
    rw [Stmt.shift, LoxWalk.execute, LoxWalk.execute]
    refine .bind_ok (a := m) (b := m') rfl rfl ?_
    refine .bind_ok (a := .inside m.store.freshFrame m.scope)
      (b := .inside m'.store.freshFrame m'.scope) rfl rfl ?_
    exact .extend hW (.inScope hm₁.scope
      (h.executeAll (hm₁.enter (.inside hm.store.stands_freshFrame hm₁.scope)) ht))
  | if_ condition thenBranch elseBranch =>
    cases elseBranch with
    | none =>
      rw [Stmt.shift, LoxWalk.execute, LoxWalk.execute]
      refine .bind (h.evaluate hm ht.1) fun W₁ v v' m₁ m₁' _ hm₁ hv => ?_
      rw [hv.isTruthy_eq]
      split
      · exact h.execute hm₁ ht.2
      · exact .pure hm₁ trivial
    | some elseBranch =>
      rw [Stmt.shift, LoxWalk.execute, LoxWalk.execute]
      refine .bind (h.evaluate hm ht.1) fun W₁ v v' m₁ m₁' _ hm₁ hv => ?_
      rw [hv.isTruthy_eq]
      split
      · exact h.execute hm₁ ht.2.1
      · exact h.execute hm₁ ht.2.2
  | while_ condition body =>
    rw [Stmt.shift, LoxWalk.execute, LoxWalk.execute]
    exact h.repeatWhile hm ht.1 ht.2
  | fun_ decl =>
    obtain ⟨hπ, hdecl⟩ := ht
    have hname : (Stmt.shiftFun k id decl).name = decl.name := by
      obtain ⟨name, params, body⟩ := decl
      rfl
    rw [Stmt.shift, LoxWalk.execute, LoxWalk.execute, hname]
    refine .bind_ok (a := m) (b := m') rfl rfl ?_
    refine .bind_ok (a := ⟨m.store.freshObject, Stmt.shiftFun k id decl, m.scope, false⟩)
      (b := ⟨m'.store.freshObject, decl, m'.scope, false⟩)
      (n := { m with store := m.store.useObject }) rfl rfl ?_
    refine agree_define (hm.of_store (List.prefix_refl _) hm.store.useObject) hπ (.function ?_)
    exact ⟨hm.store.freshObject_eq, rfl, k, π, rfl, hm.scope, hπ, hdecl⟩
  | return_ keyword value =>
    cases value with
    | none =>
      rw [Stmt.shift, Option.map_none, LoxWalk.execute, LoxWalk.execute]
      exact .error (List.prefix_refl _) hm (.returning .nil)
    | some e =>
      rw [Stmt.shift, Option.map_some, LoxWalk.execute, LoxWalk.execute]
      refine .bind (h.evaluate hm ht) fun W₁ v v' m₁ m₁' _ hm₁ hv => ?_
      exact .error (List.prefix_refl _) hm₁ (.returning hv)
  | class_ name superclass methods =>
    obtain ⟨hπ, hsuperclass, hmethods⟩ := ht
    cases superclass with
    | none =>
      rw [Stmt.shift, Option.map_none, LoxWalk.execute, LoxWalk.execute, Token.relined_id]
      exact agree_declareClass hm hπ .none hmethods
    | some e =>
      rw [Stmt.shift, Option.map_some, LoxWalk.execute, LoxWalk.execute, Token.relined_id]
      refine .bind (h.evaluate hm hsuperclass) fun W₁ v v' m₁ m₁' _ hm₁ hv => ?_
      refine .bind (agree_superclassOf e hm₁ hv) fun W₂ c c' m₂ m₂' _ hm₂ hc => ?_
      exact agree_declareClass hm₂ hπ (.some hc) hmethods

theorem executeAll_succ (h : Simulates L s n n') {ts : List Stmt} (hm : Machines s W π m m')
    (hts : Stmt.AllPadded s k π ts) :
    Agree L s W π (LoxWalk.executeAll s (n + 1) (Stmt.shiftAll k id ts))
      (LoxWalk.executeAll s (n' + 1) ts) m m' fun _ _ _ => True := by
  cases ts with
  | nil =>
    rw [Stmt.shiftAll, LoxWalk.executeAll, LoxWalk.executeAll]
    exact .pure hm trivial
  | cons t ts =>
    rw [Stmt.shiftAll, LoxWalk.executeAll, LoxWalk.executeAll]
    refine .bind (h.execute hm hts.1) fun W₁ _ _ m₁ m₁' _ hm₁ _ => ?_
    exact h.executeAll hm₁ hts.2

theorem repeatWhile_succ (h : Simulates L s n n') {e : Expr} {t : Stmt} (hm : Machines s W π m m')
    (he : e.Padded s k π) (ht : t.Padded s k π) :
    Agree L s W π (LoxWalk.repeatWhile s (n + 1) (e.shift k id) (t.shift k id))
      (LoxWalk.repeatWhile s (n' + 1) e t) m m' fun _ _ _ => True := by
  rw [LoxWalk.repeatWhile, LoxWalk.repeatWhile]
  refine .bind (h.evaluate hm he) fun W₁ v v' m₁ m₁' _ hm₁ hv => ?_
  rw [hv.isTruthy_eq]
  split
  · refine .bind (h.execute hm₁ ht) fun W₂ _ _ m₂ m₂' _ hm₂ _ => ?_
    exact h.repeatWhile hm₂ he ht
  · exact .pure hm₁ trivial

end Simulates

/-- A run without fuel ends at once.  Then the other one does so too, or the first one may. -/
theorem agree_outOfFuel {α β : Type} {Q : Padding → α → β → Prop} (hn : L.Allows n n')
    (hzero : n = 0 ∨ n' = 0) (hm : Machines s W π m m') {x : Exec α} {x' : Exec β}
    (hx : n = 0 → x = throw .outOfFuel) (hx' : n' = 0 → x' = throw .outOfFuel) :
    Agree L s W π x x' m m' Q := by
  rcases hzero with rfl | rfl
  · rw [hx rfl]
    rcases hn with rfl | ⟨h, -⟩ | ⟨h, hle⟩
    · rw [hx' rfl]
      exact .error (List.prefix_refl _) hm .outOfFuel
    · exact .plain h _ _
    · rw [hx' (Nat.le_zero.mp hle)]
      exact .padded h _ _
  · rw [hx' rfl]
    rcases hn with rfl | ⟨h, hle⟩ | ⟨h, -⟩
    · rw [hx rfl]
      exact .error (List.prefix_refl _) hm .outOfFuel
    · rw [hx (Nat.le_zero.mp hle)]
      exact .plain h _ _
    · exact .padded h _ _

theorem simulates_zero (hn : L.Allows n n') (hzero : n = 0 ∨ n' = 0) : Simulates L s n n' where
  evaluate hm _ := agree_outOfFuel hn hzero hm (by rintro rfl; rw [evaluate])
    (by rintro rfl; rw [evaluate])
  evaluateAll hm _ := agree_outOfFuel hn hzero hm (by rintro rfl; rw [evaluateAll])
    (by rintro rfl; rw [evaluateAll])
  call hm _ _ := agree_outOfFuel hn hzero hm (by rintro rfl; rw [call]) (by rintro rfl; rw [call])
  enter hm _ _ := agree_outOfFuel hn hzero hm (by rintro rfl; rw [enter])
    (by rintro rfl; rw [enter])
  run hm _ _ := agree_outOfFuel hn hzero hm (by rintro rfl; rw [run]) (by rintro rfl; rw [run])
  execute hm _ := agree_outOfFuel hn hzero hm (by rintro rfl; rw [execute])
    (by rintro rfl; rw [execute])
  executeAll hm _ := agree_outOfFuel hn hzero hm (by rintro rfl; rw [executeAll])
    (by rintro rfl; rw [executeAll])
  repeatWhile hm _ _ := agree_outOfFuel hn hzero hm (by rintro rfl; rw [repeatWhile])
    (by rintro rfl; rw [repeatWhile])

/-- With any fuel that is allowed, all tasks end alike. -/
theorem simulates (hhost : ∃ now, s.host = .clockAt now) (hn : L.Allows n n') :
    Simulates L s n n' := by
  induction n generalizing n' with
  | zero => exact simulates_zero hn (.inl rfl)
  | succ n ih =>
    -- both runs spend one unit of fuel on every task, so what is allowed stays allowed
    cases n' with
    | zero => exact simulates_zero hn (.inr rfl)
    | succ n' =>
      have h : Simulates L s n n' := ih (hn.imp Nat.succ.inj
        (Or.imp (And.imp_right Nat.le_of_succ_le_succ) (And.imp_right Nat.le_of_succ_le_succ)))
      exact
        { evaluate := h.evaluate_succ
          evaluateAll := h.evaluateAll_succ
          call := h.call_succ
          enter := h.enter_succ hhost
          run := h.run_succ
          execute := h.execute_succ
          executeAll := h.executeAll_succ
          repeatWhile := h.repeatWhile_succ }

end Padding

end LoxWalk
