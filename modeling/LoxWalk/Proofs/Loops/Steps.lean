import LoxWalk.Evaluation
import LoxWalk.Proofs.Execution.Outcomes
import LoxWalk.Proofs.Loops.Padding
import LoxWalk.Proofs.Simulation.Steps

/-!
# Single steps with extra scopes

`Padding.Agree` says of a part of the plain run and one of the padded run that they end alike: both
with results or both with the same interruption, on machines that are related again.  A run that has
some slack may also run out of fuel where the other one goes on.

Here are the rules for putting parts together, and the steps that run no part of the program.
-/

namespace LoxWalk

open Exec

namespace Padding

/-! ## Outcomes -/

/-- Which of the runs may run out of fuel where the other one goes on. -/
structure Slack where
  plain : Prop
  padded : Prop

/-- Neither run may run out of fuel alone. -/
def Slack.none : Slack :=
  ⟨False, False⟩

/-- Two interruptions. -/
inductive Interrupts (s : Setting) (W : Padding) : Interrupt → Interrupt → Prop where
  | returning {v v' : Value} (hv : Values s W v v') : Interrupts s W (.returning v) (.returning v')
  | fault (e : RuntimeError) : Interrupts s W (.fault e) (.fault e)
  | channelFull : Interrupts s W .channelFull .channelFull
  | outOfFuel : Interrupts s W .outOfFuel .outOfFuel

/-- Two outcomes.  Frames may have been added since the runs began, but their scopes are related as
they were. -/
inductive Outcomes {α β : Type} (L : Slack) (s : Setting) (W : Padding) (π : List Bool)
    (Q : Padding → α → β → Prop) :
    EStateM.Result Interrupt Machine α → EStateM.Result Interrupt Machine β → Prop where
  | ok {W₁ : Padding} {m m' : Machine} {a : α} {b : β} (hW : W <+: W₁) (hm : Machines s W₁ π m m')
      (hq : Q W₁ a b) : Outcomes L s W π Q (.ok a m) (.ok b m')
  | error {W₁ : Padding} {m m' : Machine} {e e' : Interrupt} (hW : W <+: W₁)
      (hm : Machines s W₁ π m m') (he : Interrupts s W₁ e e') :
      Outcomes L s W π Q (.error e m) (.error e' m')
  | plain (h : L.plain) (m : Machine) (r : EStateM.Result Interrupt Machine β) :
      Outcomes L s W π Q (.error .outOfFuel m) r
  | padded (h : L.padded) (r : EStateM.Result Interrupt Machine α) (m' : Machine) :
      Outcomes L s W π Q r (.error .outOfFuel m')

/-- A part of the plain run and one of the padded run end alike. -/
def Agree {α β : Type} (L : Slack) (s : Setting) (W : Padding) (π : List Bool) (x : Exec α)
    (x' : Exec β) (m m' : Machine) (Q : Padding → α → β → Prop) : Prop :=
  Outcomes L s W π Q (x m) (x' m')

variable {L : Slack} {s : Setting} {W W₁ : Padding} {π : List Bool} {m m' : Machine}

namespace Agree

variable {α β γ δ : Type} {x : Exec α} {x' : Exec β} {f : α → Exec γ} {f' : β → Exec δ}
  {Q : Padding → α → β → Prop} {R : Padding → γ → δ → Prop}

theorem pure {a : α} {b : β} (hm : Machines s W π m m') (hq : Q W a b) :
    Agree L s W π (Pure.pure a) (Pure.pure b) m m' Q :=
  .ok (List.prefix_refl _) hm hq

theorem fault {t : Token} {e : RuntimeFault} (hm : Machines s W π m m') :
    Agree L s W π (Exec.fault t e : Exec α) (Exec.fault t e : Exec β) m m' Q :=
  .error (List.prefix_refl _) hm (.fault _)

/-- What runs on after frames were added. -/
theorem extend (hW : W <+: W₁) (hx : Agree L s W₁ π x x' m m' Q) : Agree L s W π x x' m m' Q := by
  unfold Agree at hx ⊢
  revert hx
  generalize x m = r, x' m' = r'
  intro hx
  cases hx with
  | ok hW' hm hq => exact .ok (hW.trans hW') hm hq
  | error hW' hm he => exact .error (hW.trans hW') hm he
  | plain h m₁ _ => exact .plain h m₁ _
  | padded h _ m₁ => exact .padded h _ m₁

theorem bind (hx : Agree L s W π x x' m m' Q)
    (hf : ∀ W₁ a b m₁ m₁', W <+: W₁ → Machines s W₁ π m₁ m₁' → Q W₁ a b →
      Agree L s W₁ π (f a) (f' b) m₁ m₁' R) :
    Agree L s W π (x >>= f) (x' >>= f') m m' R := by
  unfold Agree at hx ⊢
  change Outcomes _ _ _ _ _ (EStateM.bind x f m) (EStateM.bind x' f' m')
  unfold EStateM.bind
  revert hx
  generalize x m = r, x' m' = r'
  intro hx
  cases hx with
  | ok hW hm hq => exact (hf _ _ _ _ _ hW hm hq).extend hW
  | error hW hm he => exact .error hW hm he
  | plain h m₁ _ => exact .plain h m₁ _
  | padded h _ m₁ => exact .padded h _ m₁

/-- Two steps that are known to succeed. -/
theorem bind_ok {a : α} {b : β} {n k : Machine} (hx : x m = .ok a n) (hx' : x' m' = .ok b k)
    (hf : Agree L s W π (f a) (f' b) n k R) : Agree L s W π (x >>= f) (x' >>= f') m m' R := by
  unfold Agree at hf ⊢
  rwa [bind_of_ok hx, bind_of_ok hx']

/-! ### Parts of the program that run inside -/

theorem asCall (hx : Agree L s W π x x' { m with callDepth := m.callDepth + 1 }
      { m' with callDepth := m'.callDepth + 1 } Q) :
    Agree L s W π x.asCall x'.asCall m m' Q := by
  have hmachines : ∀ {W₁ m₁ m₁'}, Machines s W₁ π m₁ m₁' →
      Machines s W₁ π { m₁ with callDepth := m₁.callDepth - 1 }
        { m₁' with callDepth := m₁'.callDepth - 1 } :=
    fun hm => ⟨hm.store, hm.scope, congrArg (· - 1) hm.callDepth, hm.output, hm.globals⟩
  unfold Agree at hx ⊢
  unfold Exec.asCall
  revert hx
  generalize x { m with callDepth := m.callDepth + 1 } = r,
    x' { m' with callDepth := m'.callDepth + 1 } = r'
  intro hx
  cases hx with
  | ok hW hm hq => exact .ok hW (hmachines hm) hq
  | error hW hm he => exact .error hW (hmachines hm) he
  | plain h m₁ _ => exact .plain h _ _
  | padded h _ m₁ => exact .padded h _ _

/-- Parts that run in other scopes; these may have other extra scopes around them. -/
theorem inScope {ρ : List Bool} {scope scope' : Scope} (hs : Scopes W π m.scope m'.scope)
    (hx : Agree L s W ρ x x' { m with scope := scope } { m' with scope := scope' } Q) :
    Agree L s W π (Exec.inScope scope x) (Exec.inScope scope' x') m m' Q := by
  have hmachines : ∀ {W₁ m₁ m₁'}, W <+: W₁ → Machines s W₁ ρ m₁ m₁' →
      Machines s W₁ π { m₁ with scope := m.scope } { m₁' with scope := m'.scope } :=
    fun hW hm => ⟨hm.store, hs.mono hW, hm.callDepth, hm.output, hm.globals⟩
  unfold Agree at hx ⊢
  unfold Exec.inScope
  revert hx
  dsimp only
  generalize x { m with scope := scope } = r, x' { m' with scope := scope' } = r'
  intro hx
  cases hx with
  | ok hW hm hq => exact .ok hW (hmachines hW hm) hq
  | error hW hm he => exact .error hW (hmachines hW hm) he
  | plain h m₁ _ => exact .plain h _ _
  | padded h _ m₁ => exact .padded h _ _

theorem catchReturn {x x' : Exec Unit} {Q : Padding → Unit → Unit → Prop}
    (hx : Agree L s W π x x' m m' Q) :
    Agree L s W π (Exec.catchReturn x) (Exec.catchReturn x') m m' (Values s) := by
  unfold Agree at hx ⊢
  unfold Exec.catchReturn
  revert hx
  generalize x m = r, x' m' = r'
  intro hx
  cases hx with
  | ok hW hm hq => exact .ok hW hm .nil
  | error hW hm he =>
    cases he with
    | returning hv => exact .ok hW hm hv
    | fault e => exact .error hW hm (.fault e)
    | channelFull => exact .error hW hm .channelFull
    | outOfFuel => exact .error hW hm .outOfFuel
  | plain h m₁ _ => exact .plain h _ _
  | padded h _ m₁ => exact .padded h _ _

end Agree

/-! ## Operators -/

theorem Values.of_isPlain {v : Value} (h : v.IsPlain) : Values s W v v := by
  cases v with
  | nil => exact .nil
  | bool b => exact .bool b
  | number x => exact .number x
  | string t => exact .string t
  | _ => exact h.elim

theorem Values.applyUnary_eq {v v' : Value} (h : Values s W v v') (o : Token) :
    applyUnary o v' = applyUnary o v := by
  unfold applyUnary
  rw [h.isTruthy_eq]
  cases h <;> rfl

theorem Values.applyBinary_eq {a a' b b' : Value} (ha : Values s W a a') (hb : Values s W b b')
    (o : Token) : applyBinary o a' b' = applyBinary o a b := by
  have hadd : add a' b' = add a b := by
    cases ha <;> cases hb <;> rfl
  unfold applyBinary
  rw [hadd, ha.equals_eq hb]
  split
  · rfl
  · rfl
  · rfl
  · cases ha with
    | number x => cases hb <;> rfl
    | _ => rfl

theorem agree_operate {o : Token} {r : Except RuntimeFault Value} (hm : Machines s W π m m')
    (hr : ∀ w, r = .ok w → w.IsPlain) :
    Agree L s W π (operate o r) (operate o r) m m' (Values s) := by
  cases r with
  | ok w => exact .pure hm (.of_isPlain (hr w rfl))
  | error e => exact .fault hm

/-! ## Variables -/

section

variable {k : Nat} {r : NodeId} {t : Token} {v v' : Value}

theorem agree_found {found found' : Option Value} (hm : Machines s W π m m')
    (h : Option.Rel (Values s W) found found') :
    Agree L s W π (Twin.found t found) (Twin.found t found') m m' (Values s) := by
  cases h with
  | some hv => exact .pure hm hv
  | none => exact .fault hm

theorem agree_readVariable (hm : Machines s W π m m') (hr : Known s k π r) :
    Agree L s W π (readVariable s (r.shift k) t) (readVariable s r t) m m' (Values s) := by
  refine .bind_ok (a := m) (n := m) (b := m') rfl rfl ?_
  dsimp only
  rw [show s.distances.distance? r = _ from hr]
  refine agree_found hm ?_
  cases s.distances.distance? (r.shift k) with
  | some d => exact hm.store.getAt? hm.scope d t.lexeme
  | none => exact hm.store.get? hm.globals t.lexeme

theorem Machines.of_store {σ σ' : Store} (hm : Machines s W π m m') (hW : W <+: W₁)
    (hσ : Stores s W₁ σ σ') :
    Machines s W₁ π { m with store := σ } { m' with store := σ' } :=
  ⟨hσ, hm.scope.mono hW, hm.callDepth, hm.output, hm.globals.mono hW⟩

/-- Two machines that go into other scopes. -/
theorem Machines.enter {ρ : List Bool} {scope scope' : Scope} (hm : Machines s W π m m')
    (hs : Scopes W ρ scope scope') :
    Machines s W ρ { m with scope := scope } { m' with scope := scope' } :=
  ⟨hm.store, hs, hm.callDepth, hm.output, hm.globals⟩

theorem agree_rebind {owner owner' : Option Scope} (hm : Machines s W π m m')
    (h : Option.Rel (fun a a' => Stands W a.frame a'.frame) owner owner') (hv : Values s W v v') :
    Agree L s W π (Twin.rebind t v owner) (Twin.rebind t v' owner') m m' fun _ _ _ => True := by
  cases h with
  | some hf =>
    have hσ := hm.store.define hf hv t.lexeme
    exact .ok (List.prefix_refl _) (hm.of_store (List.prefix_refl _) hσ) trivial
  | none => exact .fault hm

theorem agree_assignVariable (hm : Machines s W π m m') (hr : Known s k π r)
    (hv : Values s W v v') :
    Agree L s W π (assignVariable s (r.shift k) t v) (assignVariable s r t v') m m'
      fun _ _ _ => True := by
  refine .bind_ok (a := m) (n := m) (b := m') rfl rfl ?_
  dsimp only
  rw [show s.distances.distance? r = _ from hr]
  refine agree_rebind hm ?_ hv
  cases s.distances.distance? (r.shift k) with
  | some d => exact hm.store.ownerAt? hm.scope d t.lexeme
  | none => exact hm.store.owner? hm.globals t.lexeme

theorem agree_define (hm : Machines s W π m m') (hπ : π.head? ≠ some true) (hv : Values s W v v') :
    Agree L s W π (define t v) (define t v') m m' fun _ _ _ => True :=
  .ok (List.prefix_refl _)
    (hm.of_store (List.prefix_refl _) (hm.store.define (hm.scope.stands hπ) hv _)) trivial

theorem agree_print (hm : Machines s W π m m') (hv : Values s W v v') :
    Agree L s W π (print v) (print v') m m' fun _ _ _ => True := by
  unfold Agree print
  rw [hv.text_eq, hm.output]
  cases m.output.writeLine v.text with
  | mk accepted output =>
    have hm' : Machines s W π { m with output := output } { m' with output := output } :=
      ⟨hm.store, hm.scope, hm.callDepth, rfl, hm.globals⟩
    cases accepted with
    | true => exact .ok (List.prefix_refl _) hm' trivial
    | false => exact .error (List.prefix_refl _) hm' .channelFull

/-- The fault is reported where the superclass is named, if it is. -/
theorem agree_superclassOf {name : Token} (e : Expr) (hm : Machines s W π m m')
    (hv : Values s W v v') :
    Agree L s W π (superclassOf name (e.shift k id) v) (superclassOf name e v') m m'
      (Classes s) := by
  unfold superclassOf
  cases hv with
  | class_ h => exact .pure hm h
  | _ => cases e <;> exact .fault hm

/-! ## Functions, classes and instances -/

/-- The bindings of a frame with one name. -/
theorem rel_single (hv : Values s W v v') (x y : String) :
    Option.Rel (Values s W) ((NameMap.empty.insert x v).get? y)
      ((NameMap.empty.insert x v').get? y) := by
  rw [NameMap.get?_insert, NameMap.get?_insert]
  split
  · exact .some hv
  · exact .none

/-- Methods together with their instances. -/
theorem agree_bindMethod {f f' : Closure} {i i' : Instance} (hm : Machines s W π m m')
    (hf : Closures s W [false] f f') (hi : Values s W (.instance_ i) (.instance_ i')) :
    Agree L s W π (bindMethod f i) (bindMethod f' i') m m' fun W g g' => Closures s W [] g g' := by
  have hW : W <+: W ++ [some m.store.freshFrame] := List.prefix_append _ _
  have hσ := (hm.store.addFrame (rel_single hi thisName)).useObject
  obtain ⟨k, ρ, hdecl, hscope, hhead, hcode⟩ := hf.code
  refine .ok hW (hm.of_store hW hσ) ⟨?_, hf.isInitializer, k, false :: ρ, hdecl,
    .inside hm.store.stands_freshFrame (hscope.mono hW), hhead, hcode⟩
  change m'.store.freshObject = m.store.freshObject
  exact hm.store.freshObject_eq

/-- Methods of classes that are declared in related scopes. -/
theorem agree_newMethods {ρ : List Bool} {scope scope' : Scope} {fs : List FunDecl}
    {table table' : NameMap Closure} (hm : Machines s W π m m') (hs : Scopes W ρ scope scope')
    (hfs : Stmt.MethodsPadded s k ρ fs)
    (htable : ∀ y, Option.Rel (Closures s W [false]) (table.get? y) (table'.get? y)) :
    Agree L s W π (newMethods scope (Stmt.shiftMethods k id fs) table)
      (newMethods scope' fs table') m m'
      fun W t t' => ∀ y, Option.Rel (Closures s W [false]) (t.get? y) (t'.get? y) := by
  induction fs generalizing table table' m m' with
  | nil => exact .pure hm htable
  | cons f fs ih =>
    obtain ⟨hf, hfs⟩ := hfs
    have hname : (Stmt.shiftFun k id f).name = f.name := by
      obtain ⟨name, params, body⟩ := f
      rfl
    have hinit : (Stmt.shiftFun k id f).isInitializer = f.isInitializer := by
      rw [FunDeclOf.isInitializer, FunDeclOf.isInitializer, hname]
    have hclosure : Closures s W [false]
        ⟨m.store.freshObject, Stmt.shiftFun k id f, scope, (Stmt.shiftFun k id f).isInitializer⟩
        ⟨m'.store.freshObject, f, scope', f.isInitializer⟩ :=
      ⟨hm.store.freshObject_eq, hinit.symm, k, ρ, rfl, hs, by simp, hf⟩
    rw [Stmt.shiftMethods, newMethods, newMethods]
    refine .bind_ok
      (a := ⟨m.store.freshObject, Stmt.shiftFun k id f, scope,
        (Stmt.shiftFun k id f).isInitializer⟩)
      (b := ⟨m'.store.freshObject, f, scope', f.isInitializer⟩)
      (n := { m with store := m.store.useObject }) rfl rfl ?_
    refine ih (hm.of_store (List.prefix_refl _) hm.store.useObject) hfs fun y => ?_
    rw [hname, NameMap.get?_insert, NameMap.get?_insert]
    split
    · exact .some hclosure
    · exact htable y

/-- The last steps of the declaration of a class: its methods in their scope, and its name. -/
theorem agree_newClass {ρ : List Bool} {scope scope' : Scope} {name : Token}
    {superclass superclass' : Option Class} {methods : List FunDecl} (hm : Machines s W π m m')
    (hπ : π.head? ≠ some true) (hs : Scopes W ρ scope scope')
    (hsuper : Option.Rel (Classes s W) superclass superclass')
    (hmethods : Stmt.MethodsPadded s k ρ methods) :
    Agree L s W π
      (do
        let table ← newMethods scope (Stmt.shiftMethods k id methods) .empty
        let own : ClassBody := ⟨← newObject, name.lexeme, table⟩
        define name (.class_ (match superclass with
          | some c => .derived own c
          | none => .base own)))
      (do
        let table ← newMethods scope' methods .empty
        let own : ClassBody := ⟨← newObject, name.lexeme, table⟩
        define name (.class_ (match superclass' with
          | some c => .derived own c
          | none => .base own)))
      m m' fun _ _ _ => True := by
  refine .bind (agree_newMethods hm hs hmethods fun y => .none) ?_
  intro W₁ table table' m₁ m₁' hW₁ hm₁ htable
  refine .bind_ok (a := m₁.store.freshObject) (b := m₁'.store.freshObject)
    (n := { m₁ with store := m₁.store.useObject }) rfl rfl ?_
  have hbody : Bodies s W₁ ⟨m₁.store.freshObject, name.lexeme, table⟩
      ⟨m₁'.store.freshObject, name.lexeme, table'⟩ :=
    ⟨hm₁.store.freshObject_eq, rfl, htable⟩
  refine agree_define (hm₁.of_store (List.prefix_refl _) hm₁.store.useObject) hπ (.class_ ?_)
  cases hsuper with
  | some hc => exact .cons hbody (hc.mono hW₁)
  | none => exact .cons hbody .nil

theorem agree_declareClass {name : Token} {superclass superclass' : Option Class}
    {methods : List FunDecl} (hm : Machines s W π m m') (hπ : π.head? ≠ some true)
    (hsuper : Option.Rel (Classes s W) superclass superclass')
    (hmethods : Stmt.MethodsPadded s k (if superclass.isSome then false :: π else π) methods) :
    Agree L s W π (declareClass name superclass (Stmt.shiftMethods k id methods))
      (declareClass name superclass' methods) m m' fun _ _ _ => True := by
  rw [declareClass, declareClass]
  refine .bind (agree_define hm hπ .nil) ?_
  intro W₁ _ _ m₁ m₁' hW₁ hm₁ _
  refine .bind_ok (a := m₁) (b := m₁') rfl rfl ?_
  dsimp only
  cases hsuper with
  | none =>
    exact .bind_ok (a := m₁.scope) (b := m₁'.scope) rfl rfl
      (agree_newClass hm₁ hπ hm₁.scope .none hmethods)
  | @some c c' hc =>
    have hW : W₁ <+: W₁ ++ [some m₁.store.freshFrame] := List.prefix_append _ _
    have hσ := hm₁.store.addFrame (rel_single (.class_ (hc.mono hW₁)) superName)
    refine .bind_ok (a := .inside m₁.store.freshFrame m₁.scope)
      (b := .inside m₁'.store.freshFrame m₁'.scope)
      (n := { m₁ with store := m₁.store.addFrame (NameMap.empty.insert superName (.class_ c)) })
      (k := { m₁' with store := m₁'.store.addFrame (NameMap.empty.insert superName (.class_ c')) })
      rfl rfl ?_
    exact .extend hW (agree_newClass (hm₁.of_store hW hσ) hπ
      (.inside hm₁.store.stands_freshFrame (hm₁.scope.mono hW)) (.some ((hc.mono hW₁).mono hW))
      hmethods)

/-! ## Properties -/

theorem agree_fieldOwner {name : Token} (hm : Machines s W π m m') (hv : Values s W v v') :
    Agree L s W π (fieldOwner v name) (fieldOwner v' name) m m'
      fun _ i i' => i'.record = i.record := by
  cases hv with
  | instance_ hr h => exact .pure hm hr
  | _ => exact .fault hm

/-- Methods that classes have, bound to instances. -/
theorem agree_methodFor {c c' : Class} {i i' : Instance} {name : Token} (hm : Machines s W π m m')
    (hc : Classes s W c c') (hi : Values s W (.instance_ i) (.instance_ i')) :
    Agree L s W π (c.methodFor i name) (c'.methodFor i' name) m m' (Values s) := by
  have hmethod := hc.method name.lexeme
  unfold Class.methodFor
  revert hmethod
  generalize c.method? name.lexeme = f, c'.method? name.lexeme = f'
  intro hmethod
  cases hmethod with
  | some hf =>
    refine .bind (agree_bindMethod hm hf hi) ?_
    intro W₁ g g' m₁ m₁' _ hm₁ hg
    exact .pure hm₁ (.function hg)
  | none => exact .fault hm

theorem agree_getProperty {name : Token} (hm : Machines s W π m m') (hv : Values s W v v') :
    Agree L s W π (getProperty v name) (getProperty v' name) m m' (Values s) := by
  cases hv with
  | @instance_ i i' hr h =>
    refine .bind_ok (a := m) (b := m') rfl rfl ?_
    rw [hr]
    have hfield := hm.store.fields i.record name.lexeme
    revert hfield
    generalize m.store.field? i.record name.lexeme = found,
      m'.store.field? i.record name.lexeme = found'
    intro hfield
    cases hfield with
    | some hv => exact .pure hm hv
    | none => exact agree_methodFor hm h (.instance_ hr h)
  | _ => exact .fault hm

theorem agree_superMethod {keyword method : Token} (hm : Machines s W π m m')
    (hr : Known s k π r) (hsuper : ∀ d, s.distances.distance? (r.shift k) = some d →
      distance π (d - 1) = distance π d - 1) :
    Agree L s W π (superMethod s (r.shift k) keyword method) (superMethod s r keyword method)
      m m' (Values s) := by
  refine .bind_ok (a := m) (b := m') rfl rfl ?_
  rw [show s.distances.distance? r = _ from hr]
  cases hd : s.distances.distance? (r.shift k) with
  | none => exact .fault hm
  | some d =>
    have hclass := hm.store.getAt? hm.scope d superName
    have hthis := hm.store.getAt? hm.scope (d - 1) thisName
    -- between superclass and instance is no extra scope, so both runs go in by one
    rw [hsuper d hd] at hthis
    dsimp only [Option.map_some]
    revert hclass hthis
    generalize m.store.getAt? m.scope d superName = found,
      m'.store.getAt? m'.scope (distance π d) superName = found',
      m.store.getAt? m.scope (d - 1) thisName = this,
      m'.store.getAt? m'.scope (distance π d - 1) thisName = this'
    intro hclass hthis
    cases hclass with
    | none => exact .fault hm
    | some hc =>
      cases hthis with
      | none => cases hc <;> exact .fault hm
      | some hi =>
        cases hc with
        | @class_ c c' hc =>
          cases hi with
          | instance_ hr h => exact agree_methodFor hm hc (.instance_ hr h)
          | _ => exact .fault hm
        | _ => exact .fault hm

end

end Padding

end LoxWalk
