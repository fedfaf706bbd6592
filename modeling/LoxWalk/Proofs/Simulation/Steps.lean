import LoxWalk.Evaluation
import LoxWalk.Proofs.Execution.Outcomes
import LoxWalk.Proofs.Simulation.State

/-!
# Single steps side by side

`Twin.Agree` says of two parts of an execution that they end alike: both with results or both with
the same kind of interruption, on machines that are related again, and with the same current scope
and the same number of active calls as before.  If the first one is exempt, it may also run out of
fuel where the second goes on.

Here are the rules for putting parts together, and the steps that run no part of the program.
-/

namespace LoxWalk

open Exec

/-- A fault in which the name of a variable is written differently. -/
def RuntimeFault.rename (g : String → String) : RuntimeFault → RuntimeFault
  | .undefinedVariable x => .undefinedVariable (g x)
  | fault => fault

namespace Twin

variable (T : Twin)

/-! ## Outcomes -/

/-- A fault that is noticed at the name `x` names no other variable that could be changed. -/
def Names (x : String) (fault : RuntimeFault) : Prop :=
  ∀ z, fault = .undefinedVariable z → z = x ∨ T.rename z = z

/-- Two errors differ in their line, and perhaps in the name at which they were noticed. -/
structure Errors (e e' : RuntimeError) : Prop where
  line : T.line e.line e'.line
  name : ∃ flag, e'.lexeme = T.name flag e.lexeme ∧
    e'.fault = e.fault.rename (T.name flag) ∧
      (flag = true → T.renames e.lexeme ∧ T.Names e.lexeme e.fault)

/-- Two interruptions; only where `returns` is set can one be a `return`. -/
inductive Interrupts (returns : Bool) (W : List Bool) : Interrupt → Interrupt → Prop where
  | returning {v v' : Value} (hr : returns = true) (hv : T.Values W v v') :
      Interrupts returns W (.returning v) (.returning v')
  | fault {e e' : RuntimeError} (h : T.Errors e e') : Interrupts returns W (.fault e) (.fault e')
  | channelFull : Interrupts returns W .channelFull .channelFull
  | outOfFuel : Interrupts returns W .outOfFuel .outOfFuel

/-- From `m₀` to `m` frames may be added, but the scope and the active calls are the same. -/
structure Stays (W₀ : List Bool) (m₀ : Machine) (W : List Bool) (m : Machine) : Prop where
  flags : W₀ <+: W
  scope : m.scope = m₀.scope
  callDepth : m.callDepth = m₀.callDepth

/-- Two outcomes. -/
inductive Outcomes {α β : Type} (exempt : Prop) (returns : Bool) (W₀ : List Bool) (m₀ : Machine)
    (Q : List Bool → α → β → Prop) :
    EStateM.Result Interrupt Machine α → EStateM.Result Interrupt Machine β → Prop where
  | ok {W : List Bool} {m m' : Machine} {a : α} {b : β} (hs : Stays W₀ m₀ W m)
      (hm : T.Machines W m m') (hq : Q W a b) :
      Outcomes exempt returns W₀ m₀ Q (.ok a m) (.ok b m')
  | error {W : List Bool} {m m' : Machine} {e e' : Interrupt} (hs : Stays W₀ m₀ W m)
      (hm : T.Machines W m m') (he : T.Interrupts returns W e e') :
      Outcomes exempt returns W₀ m₀ Q (.error e m) (.error e' m')
  | exempt (h : exempt) (m : Machine) (r : EStateM.Result Interrupt Machine β) :
      Outcomes exempt returns W₀ m₀ Q (.error .outOfFuel m) r

/-- Two parts of an execution end alike. -/
def Agree {α β : Type} (exempt : Prop) (returns : Bool) (W₀ : List Bool) (m₀ : Machine)
    (x : Exec α) (x' : Exec β) (m m' : Machine) (Q : List Bool → α → β → Prop) : Prop :=
  T.Outcomes exempt returns W₀ m₀ Q (x m) (x' m')

variable {T} {W₀ W W' : List Bool} {m₀ m m' : Machine}

theorem Stays.refl (W : List Bool) (m : Machine) : Stays W m W m :=
  ⟨List.prefix_refl _, rfl, rfl⟩

theorem Stays.trans {m₁ : Machine} (h : Stays W₀ m₀ W m) (h' : Stays W m W' m₁) :
    Stays W₀ m₀ W' m₁ :=
  ⟨h.flags.trans h'.flags, h'.scope.trans h.scope, h'.callDepth.trans h.callDepth⟩

theorem Interrupts.weaken {returns : Bool} {e e' : Interrupt} (h : T.Interrupts false W e e') :
    T.Interrupts returns W e e' := by
  cases h with
  | returning hr hv => cases hr
  | fault h => exact .fault h
  | channelFull => exact .channelFull
  | outOfFuel => exact .outOfFuel

namespace Agree

variable {α β γ δ : Type} {exempt : Prop} {returns : Bool} {x : Exec α} {x' : Exec β}
  {f : α → Exec γ} {f' : β → Exec δ} {Q : List Bool → α → β → Prop} {R : List Bool → γ → δ → Prop}

theorem pure {a : α} {b : β} (hs : Stays W₀ m₀ W m) (hm : T.Machines W m m') (hq : Q W a b) :
    T.Agree exempt returns W₀ m₀ (Pure.pure a) (Pure.pure b) m m' Q :=
  .ok hs hm hq

theorem fault {flag : Bool} {t t' : Token} {e : RuntimeFault} (hs : Stays W₀ m₀ W m)
    (hm : T.Machines W m m') (ht : T.Tokens flag t t')
    (he : flag = true → T.Names t.lexeme e := by simp [Names]) :
    T.Agree exempt returns W₀ m₀ (Exec.fault t e : Exec α)
      (Exec.fault t' (e.rename (T.name flag)) : Exec β) m m' Q :=
  .error hs hm (.fault ⟨ht.line, flag, ht.lexeme, rfl, fun hf => ⟨ht.renames hf, he hf⟩⟩)

theorem bind (hs : Stays W₀ m₀ W m) (hx : T.Agree exempt returns W m x x' m m' Q)
    (hf : ∀ W₁ a b m₁ m₁', Stays W₀ m₀ W₁ m₁ → W <+: W₁ → T.Machines W₁ m₁ m₁' → Q W₁ a b →
      T.Agree exempt returns W₀ m₀ (f a) (f' b) m₁ m₁' R) :
    T.Agree exempt returns W₀ m₀ (x >>= f) (x' >>= f') m m' R := by
  unfold Agree at hx ⊢
  change T.Outcomes _ _ _ _ _ (EStateM.bind x f m) (EStateM.bind x' f' m')
  unfold EStateM.bind
  revert hx
  generalize x m = r, x' m' = r'
  intro hx
  cases hx with
  | ok hs' hm' hq => exact hf _ _ _ _ _ (hs.trans hs') hs'.flags hm' hq
  | error hs' hm' he => exact .error (hs.trans hs') hm' he
  | exempt h m₁ r => exact .exempt h m₁ _

/-- Two steps that are known to succeed. -/
theorem bind_ok {a : α} {b : β} {n k : Machine} (hx : x m = .ok a n) (hx' : x' m' = .ok b k)
    (hf : T.Agree exempt returns W₀ m₀ (f a) (f' b) n k R) :
    T.Agree exempt returns W₀ m₀ (x >>= f) (x' >>= f') m m' R := by
  unfold Agree at hf ⊢
  rwa [bind_of_ok hx, bind_of_ok hx']

/-- The last of several steps. -/
theorem last (hs : Stays W₀ m₀ W m) (hx : T.Agree exempt returns W m x x' m m' Q) :
    T.Agree exempt returns W₀ m₀ x x' m m' Q := by
  unfold Agree at hx ⊢
  revert hx
  generalize x m = r, x' m' = r'
  intro hx
  cases hx with
  | ok hs' hm' hq => exact .ok (hs.trans hs') hm' hq
  | error hs' hm' he => exact .error (hs.trans hs') hm' he
  | exempt h m₁ r => exact .exempt h m₁ _

/-- What never returns may stand where something may. -/
theorem quiet (hx : T.Agree exempt false W₀ m₀ x x' m m' Q) :
    T.Agree exempt returns W₀ m₀ x x' m m' Q := by
  unfold Agree at hx ⊢
  revert hx
  generalize x m = r, x' m' = r'
  intro hx
  cases hx with
  | ok hs hm hq => exact .ok hs hm hq
  | error hs hm he => exact .error hs hm he.weaken
  | exempt he m₁ r => exact .exempt he m₁ _

/-! ### Parts of the program that run inside -/

theorem asCall (hx : T.Agree exempt returns W { m with callDepth := m.callDepth + 1 } x x'
      { m with callDepth := m.callDepth + 1 } { m' with callDepth := m'.callDepth + 1 } Q) :
    T.Agree exempt returns W m x.asCall x'.asCall m m' Q := by
  have hstays : ∀ {W₁ m₁}, Stays W { m with callDepth := m.callDepth + 1 } W₁ m₁ →
      Stays W m W₁ { m₁ with callDepth := m₁.callDepth - 1 } := by
    intro W₁ m₁ hs
    refine ⟨hs.flags, hs.scope, ?_⟩
    rw [hs.callDepth, Nat.add_sub_cancel]
  have hmachines : ∀ {W₁ m₁ m₁'}, T.Machines W₁ m₁ m₁' →
      T.Machines W₁ { m₁ with callDepth := m₁.callDepth - 1 }
        { m₁' with callDepth := m₁'.callDepth - 1 } := by
    intro W₁ m₁ m₁' hm
    exact ⟨hm.store, hm.scope, congrArg (· - 1) hm.callDepth, hm.output, hm.globals⟩
  unfold Agree at hx ⊢
  unfold Exec.asCall
  revert hx
  generalize x { m with callDepth := m.callDepth + 1 } = r,
    x' { m' with callDepth := m'.callDepth + 1 } = r'
  intro hx
  cases hx with
  | ok hs hm hq => exact .ok (hstays hs) (hmachines hm) hq
  | error hs hm he => exact .error (hstays hs) (hmachines hm) he
  | exempt he m₁ r => exact .exempt he _ _

theorem inScope {scope : Scope} (hs : Stays W₀ m₀ W m) (hscope : m'.scope = m.scope)
    (hx : T.Agree exempt returns W { m with scope := scope } x x'
      { m with scope := scope } { m' with scope := scope } Q) :
    T.Agree exempt returns W₀ m₀ (Exec.inScope scope x) (Exec.inScope scope x') m m' Q := by
  have hstays : ∀ {W₁ m₁}, Stays W { m with scope := scope } W₁ m₁ →
      Stays W₀ m₀ W₁ { m₁ with scope := m.scope } :=
    fun hs' => hs.trans ⟨hs'.flags, rfl, hs'.callDepth⟩
  have hmachines : ∀ {W₁ m₁ m₁'}, T.Machines W₁ m₁ m₁' →
      T.Machines W₁ { m₁ with scope := m.scope } { m₁' with scope := m'.scope } :=
    fun hm => ⟨hm.store, hscope, hm.callDepth, hm.output, hm.globals⟩
  unfold Agree at hx ⊢
  unfold Exec.inScope
  revert hx
  dsimp only
  generalize x { m with scope := scope } = r, x' { m' with scope := scope } = r'
  intro hx
  cases hx with
  | ok hs' hm hq => exact .ok (hstays hs') (hmachines hm) hq
  | error hs' hm he => exact .error (hstays hs') (hmachines hm) he
  | exempt he m₁ r => exact .exempt he _ _

theorem catchReturn {x x' : Exec Unit} {Q : List Bool → Unit → Unit → Prop}
    (hx : T.Agree exempt true W₀ m₀ x x' m m' Q) :
    T.Agree exempt returns W₀ m₀ (Exec.catchReturn x) (Exec.catchReturn x') m m' T.Values := by
  unfold Agree at hx ⊢
  unfold Exec.catchReturn
  revert hx
  generalize x m = r, x' m' = r'
  intro hx
  cases hx with
  | ok hs hm hq => exact .ok hs hm .nil
  | error hs hm he =>
    cases he with
    | returning _ hv => exact .ok hs hm hv
    | fault h => exact .error hs hm (.fault h)
    | channelFull => exact .error hs hm .channelFull
    | outOfFuel => exact .error hs hm .outOfFuel
  | exempt he m₁ r => exact .exempt he _ _

end Agree

/-! ## Operators -/

@[simp]
theorem rename_name_false (e : RuntimeFault) : e.rename (T.name false) = e := by
  cases e <;> rfl

theorem isSymbol_eq {t t' : Token} {flag : Bool} (h : T.Tokens flag t t') (k : Symbol) :
    t'.isSymbol k = t.isSymbol k := by
  rw [Token.isSymbol, Token.isSymbol, h.kind]

theorem Values.of_isPlain {v : Value} (h : v.IsPlain) : T.Values W v v := by
  cases v with
  | nil => exact .nil
  | bool b => exact .bool b
  | number x => exact .number x
  | string s => exact .string s
  | _ => exact h.elim

theorem applyUnary_eq {o o' : Token} {v v' : Value} (ho : T.Tokens false o o')
    (hv : T.Values W v v') :
    applyUnary o' v' = applyUnary o v ∧ ∀ w, applyUnary o v = .ok w → T.Values W w w := by
  have heq : applyUnary o' v' = applyUnary o v := by
    unfold applyUnary
    rw [isSymbol_eq ho, isSymbol_eq ho, hv.isTruthy_eq]
    cases hv <;> rfl
  exact ⟨heq, fun w hw => Values.of_isPlain (isPlain_of_applyUnary hw)⟩

theorem applyBinary_eq {o o' : Token} {a a' b b' : Value} (ho : T.Tokens false o o')
    (ha : T.Values W a a') (hb : T.Values W b b') :
    applyBinary o' a' b' = applyBinary o a b ∧ ∀ w, applyBinary o a b = .ok w → T.Values W w w := by
  have hadd : add a' b' = add a b := by
    cases ha <;> cases hb <;> rfl
  have harith : ∀ x y, arithmetic o' x y = arithmetic o x y := by
    intro x y
    rw [arithmetic, arithmetic, ho.kind]
  have heq : applyBinary o' a' b' = applyBinary o a b := by
    unfold applyBinary
    rw [ho.kind, hadd, ha.equals_eq hb]
    split
    · rfl
    · rfl
    · rfl
    · cases ha with
      | number x =>
        cases hb with
        | number y => exact harith x y
        | _ => rfl
      | _ => rfl
  exact ⟨heq, fun w hw => Values.of_isPlain (isPlain_of_applyBinary hw)⟩

section

variable {exempt : Prop} {returns : Bool} {s s' : Setting} {flags : List Bool} {x : Extent}
  {id id' : NodeId} {d : Option Nat} {t t' : Token} {v v' : Value}

theorem agree_operate {o o' : Token} {r r' : Except RuntimeFault Value} (hs : Stays W₀ m₀ W m)
    (hm : T.Machines W m m') (ho : T.Tokens false o o')
    (hr : r' = r ∧ ∀ w, r = .ok w → T.Values W w w) :
    T.Agree exempt returns W₀ m₀ (operate o r) (operate o' r') m m' T.Values := by
  obtain ⟨rfl, hr⟩ := hr
  cases r' with
  | ok w => exact .pure hs hm (hr w rfl)
  | error e =>
    have hfault : T.Agree exempt returns W₀ m₀ _ _ m m' T.Values := Agree.fault (e := e) hs hm ho
    rwa [rename_name_false] at hfault

/-! ## Variables -/

/-- The value that a variable was found to have. -/
def found (t : Token) : Option Value → Exec Value
  | some v => Pure.pure v
  | none => Exec.fault t (.undefinedVariable t.lexeme)

theorem agree_found {found? found?' : Option Value} (hs : Stays W₀ m₀ W m) (hm : T.Machines W m m')
    {flag : Bool} (ht : T.Tokens flag t t') (h : Option.Rel (T.Values W) found? found?') :
    T.Agree exempt returns W₀ m₀ (found t found?) (found t' found?') m m' T.Values := by
  cases h with
  | some hv => exact .pure hs hm hv
  | none =>
    unfold found
    rw [ht.lexeme]
    exact .fault (e := .undefinedVariable t.lexeme) hs hm ht

theorem agree_readVariable (hset : T.Settings s s') (hs : Stays W₀ m₀ W m)
    (hm : T.Machines W m m') (hflags : Flags W m.scope flags) (hk : T.known x id id' d)
    (ht : T.Tokens (flagAt flags d) t t') :
    T.Agree exempt returns W₀ m₀ (readVariable s id t) (readVariable s' id' t') m m' T.Values := by
  obtain ⟨hd, hd'⟩ := hset.distances x id id' d hk
  refine .bind_ok (a := m) (n := m) (b := m') rfl rfl ?_
  dsimp only
  rw [hd, hd', hm.scope, hset.globals, hset.globals']
  refine agree_found hs hm ht ?_
  cases d with
  | some d =>
    rw [ht.lexeme]
    exact hm.store.getAt? hflags d t.lexeme
  | none =>
    rw [show t'.lexeme = t.lexeme from ht.lexeme]
    exact hm.store.get? hm.globals t.lexeme

theorem Machines.of_store {σ σ' : Store} (hm : T.Machines W m m') (hW : W <+: W')
    (hσ : T.Stores W' σ σ') :
    T.Machines W' { m with store := σ } { m' with store := σ' } :=
  ⟨hσ, hm.scope, hm.callDepth, hm.output, fun f hf => getElem?_mono hW (hm.globals f hf)⟩

/-- Two machines that go into the same scope. -/
theorem Machines.enter (hm : T.Machines W m m') (scope : Scope) :
    T.Machines W { m with scope := scope } { m' with scope := scope } :=
  ⟨hm.store, rfl, hm.callDepth, hm.output, hm.globals⟩

theorem Stays.of_store (hs : Stays W₀ m₀ W m) (hW : W <+: W') (σ : Store) :
    Stays W₀ m₀ W' { m with store := σ } :=
  ⟨hs.flags.trans hW, hs.scope, hs.callDepth⟩

/-- A variable that belongs to a scope gets a new value. -/
def rebind (t : Token) (v : Value) : Option Scope → Exec Unit
  | some scope => modifyStore (·.define scope t.lexeme v)
  | none => Exec.fault t (.undefinedVariable t.lexeme)

theorem agree_rebind {owner : Option Scope} (hs : Stays W₀ m₀ W m) (hm : T.Machines W m m')
    {flag : Bool} (ht : T.Tokens flag t t') (hv : T.Values W v v')
    (hframe : ∀ scope ∈ owner, frameFlag W scope.frame = flag) :
    T.Agree exempt returns W₀ m₀ (rebind t v owner) (rebind t' v' owner) m m'
      fun _ _ _ => True := by
  cases owner with
  | some scope =>
    have hσ := hm.store.define hv scope t.lexeme
    rw [hframe scope rfl, ← ht.lexeme] at hσ
    exact .ok (hs.of_store (List.prefix_refl _) _) (hm.of_store (List.prefix_refl _) hσ) trivial
  | none =>
    unfold rebind
    rw [ht.lexeme]
    exact .fault (e := .undefinedVariable t.lexeme) hs hm ht

theorem agree_assignVariable (hset : T.Settings s s') (hs : Stays W₀ m₀ W m)
    (hm : T.Machines W m m') (hflags : Flags W m.scope flags) (hk : T.known x id id' d)
    (ht : T.Tokens (flagAt flags d) t t') (hv : T.Values W v v') :
    T.Agree exempt returns W₀ m₀ (assignVariable s id t v) (assignVariable s' id' t' v') m m'
      fun _ _ _ => True := by
  obtain ⟨hd, hd'⟩ := hset.distances x id id' d hk
  refine .bind_ok (a := m) (n := m) (b := m') rfl rfl ?_
  dsimp only
  rw [hd, hd', hm.scope, hset.globals, hset.globals']
  cases d with
  | some d =>
    have heq := hm.store.ownerAt?_eq hflags d t.lexeme
    rw [← ht.lexeme] at heq
    dsimp only
    rw [heq]
    refine agree_rebind hs hm ht hv fun scope hscope => ?_
    exact hflags.frameFlag_ancestor (Option.filter_eq_some_iff.mp hscope).1
  | none =>
    have heq : m'.store.owner? T.globals t'.lexeme = m.store.owner? T.globals t.lexeme := by
      rw [show t'.lexeme = t.lexeme from ht.lexeme]
      exact hm.store.owner?_eq hm.globals t.lexeme
    dsimp only
    rw [heq]
    refine agree_rebind hs hm ht hv fun scope hscope => ?_
    rw [frameFlag, hm.globals _ (Store.frame_mem_of_owner? hscope)]
    rfl

theorem agree_define (hs : Stays W₀ m₀ W m) (hm : T.Machines W m m')
    (hflags : Flags W m.scope flags) (ht : T.Tokens (flagHere flags) t t')
    (hv : T.Values W v v') :
    T.Agree exempt returns W₀ m₀ (define t v) (define t' v') m m' fun _ _ _ => True := by
  have hσ := hm.store.define hv m.scope t.lexeme
  rw [hflags.frameFlag_here, ← ht.lexeme] at hσ
  have hm' := hm.of_store (List.prefix_refl _) hσ
  rw [← congrArg (m'.store.define · t'.lexeme v') hm.scope] at hm'
  exact .ok (hs.of_store (List.prefix_refl _) _) hm' trivial

theorem agree_print (hs : Stays W₀ m₀ W m) (hm : T.Machines W m m') (hv : T.Values W v v') :
    T.Agree exempt returns W₀ m₀ (print v) (print v') m m' fun _ _ _ => True := by
  unfold Agree print
  rw [hv.text_eq, hm.output]
  cases m.output.writeLine v.text with
  | mk accepted output =>
    have hs' : Stays W₀ m₀ W { m with output := output } := ⟨hs.flags, hs.scope, hs.callDepth⟩
    have hm' : T.Machines W { m with output := output } { m' with output := output } :=
      ⟨hm.store, hm.scope, hm.callDepth, rfl, hm.globals⟩
    cases accepted with
    | true => exact .ok hs' hm' trivial
    | false => exact .error hs' hm' .channelFull

theorem agree_superclassOf {name name' : Token} {e e' : Expr} (hs : Stays W₀ m₀ W m)
    (hm : T.Machines W m m') (hname : T.Tokens (flagHere flags) name name')
    (he : e.Twins T x flags e') (hv : T.Values W v v') :
    T.Agree exempt returns W₀ m₀ (superclassOf name e v) (superclassOf name' e' v') m m'
      T.Classes := by
  unfold superclassOf
  cases hv with
  | class_ h => exact .pure hs hm h
  | _ =>
    -- no class: the fault is reported where the superclass is named, if it is
    rcases he.var_or_not with ⟨_, _, t, t', flag, rfl, rfl, ht⟩ | ⟨he, he'⟩
    · exact .fault (e := .superclassNotClass) hs hm ht
    · dsimp only
      split
      · exact absurd rfl (he _ _)
      · exact .fault (e := .superclassNotClass) hs hm hname

/-! ## Functions, classes and instances -/

/-- The bindings of a frame with one name. -/
theorem rel_single (flag : Bool) {y : String} (hy : T.name flag y = y) (hv : T.Values W v v')
    (z : String) : Option.Rel (T.Values W) ((NameMap.empty.insert y v).get? z)
      ((NameMap.empty.insert y v').get? (T.name flag z)) := by
  rw [NameMap.get?_insert, NameMap.get?_insert]
  have hiff : y = T.name flag z ↔ y = z := by
    nth_rewrite 1 [← hy]
    exact T.name_inj
  simp only [hiff]
  split
  · exact .some hv
  · exact .none

/-- Methods together with their instances. -/
theorem agree_bindMethod {f f' : Closure} {i i' : Instance} (hs : Stays W₀ m₀ W m)
    (hm : T.Machines W m m') (hf : T.Closures W [false] f f')
    (hi : T.Values W (.instance_ i) (.instance_ i')) :
    T.Agree exempt returns W₀ m₀ (bindMethod f i) (bindMethod f' i') m m'
      fun W g g' => T.Closures W [] g g' := by
  have hW : W <+: W ++ [false] := List.prefix_append _ _
  have hσ := (hm.store.addFrame false (rel_single false (y := thisName) rfl hi)).useObject
  obtain ⟨flags, hflags, hcode⟩ := hf.code
  refine .ok (hs.of_store hW _) (hm.of_store hW hσ) ⟨?_, ?_, hf.isInitializer, _, ?_, hcode⟩
  · change m'.store.freshObject = m.store.freshObject
    exact hm.store.freshObject_eq
  · change Scope.inside m'.store.freshFrame f'.scope = .inside m.store.freshFrame f.scope
    rw [hm.store.freshFrame_eq, hf.scope]
  · exact (hflags.mono hW).inside (hm.store.getElem?_freshFrame false)

/-- Methods of classes that are declared in the same scope. -/
theorem agree_newMethods {scope : Scope} {fs fs' : List FunDecl} {table table' : NameMap Closure}
    (hs : Stays W₀ m₀ W m) (hm : T.Machines W m m') (hflags : Flags W scope flags)
    (hfs : Stmt.MethodsTwins T flags fs fs')
    (htable : ∀ y, Option.Rel (T.Closures W [false]) (table.get? y) (table'.get? y)) :
    T.Agree exempt returns W₀ m₀ (newMethods scope fs table) (newMethods scope fs' table') m m'
      fun W t t' => ∀ y, Option.Rel (T.Closures W [false]) (t.get? y) (t'.get? y) := by
  induction fs generalizing fs' table table' m m' with
  | nil =>
    obtain rfl := hfs
    exact .pure hs hm htable
  | cons f fs ih =>
    obtain ⟨f', fs', rfl, hf, hfs⟩ := hfs
    have hname : f'.name.lexeme = f.name.lexeme := by
      obtain ⟨name, params, body⟩ := f
      obtain ⟨_, _, _, _, rfl, hname, -⟩ := hf
      exact hname.lexeme
    have hclosure : T.Closures W [false] ⟨m.store.freshObject, f, scope, f.isInitializer⟩
        ⟨m'.store.freshObject, f', scope, f'.isInitializer⟩ := by
      refine ⟨hm.store.freshObject_eq, rfl, ?_, flags, hflags, hf⟩
      rw [FunDeclOf.isInitializer, FunDeclOf.isInitializer, hname]
    rw [newMethods, newMethods]
    refine .bind_ok (a := ⟨m.store.freshObject, f, scope, f.isInitializer⟩)
      (b := ⟨m'.store.freshObject, f', scope, f'.isInitializer⟩)
      (n := { m with store := m.store.useObject }) rfl rfl ?_
    refine ih (hs.of_store (List.prefix_refl _) _) (hm.of_store (List.prefix_refl _) hm.store.useObject)
      hfs fun y => ?_
    rw [hname, NameMap.get?_insert, NameMap.get?_insert]
    split
    · exact .some hclosure
    · exact htable y

/-- The flags of the current scope stay those they were. -/
theorem Flags.stays {m₁ : Machine} (h : Flags W m.scope flags) (hW : W <+: W')
    (hs : Stays W₀ m₀ W m) (hs' : Stays W₀ m₀ W' m₁) : Flags W' m₁.scope flags := by
  rw [hs'.scope, ← hs.scope]
  exact h.mono hW

/-- The last steps of the declaration of a class: its methods in their scope, and its name. -/
theorem agree_newClass {scope : Scope} {inner : List Bool} {name name' : Token}
    {superclass superclass' : Option Class} {methods methods' : List FunDecl}
    (hs : Stays W₀ m₀ W m) (hm : T.Machines W m m') (hflags : Flags W m.scope flags)
    (hinner : Flags W scope inner) (hname : T.Tokens (flagHere flags) name name')
    (hlexeme : name'.lexeme = name.lexeme)
    (hsuper : Option.Rel (T.Classes W) superclass superclass')
    (hmethods : Stmt.MethodsTwins T inner methods methods') :
    T.Agree exempt returns W₀ m₀
      (do
        let table ← newMethods scope methods .empty
        let own : ClassBody := ⟨← newObject, name.lexeme, table⟩
        define name (.class_ (match superclass with
          | some c => .derived own c
          | none => .base own)))
      (do
        let table ← newMethods scope methods' .empty
        let own : ClassBody := ⟨← newObject, name'.lexeme, table⟩
        define name' (.class_ (match superclass' with
          | some c => .derived own c
          | none => .base own)))
      m m' fun _ _ _ => True := by
  refine .bind hs (agree_newMethods (.refl _ _) hm hinner hmethods fun y => .none) ?_
  intro W₁ table table' m₁ m₁' hs₁ hW₁ hm₁ htable
  have hflags₁ := hflags.stays hW₁ hs hs₁
  refine .bind_ok (a := m₁.store.freshObject) (b := m₁'.store.freshObject)
    (n := { m₁ with store := m₁.store.useObject }) rfl rfl ?_
  have hbody : T.Bodies W₁ ⟨m₁.store.freshObject, name.lexeme, table⟩
      ⟨m₁'.store.freshObject, name'.lexeme, table'⟩ :=
    ⟨hm₁.store.freshObject_eq, hlexeme, htable⟩
  refine agree_define (hs₁.of_store (List.prefix_refl _) _)
    (hm₁.of_store (List.prefix_refl _) hm₁.store.useObject) hflags₁ hname (.class_ ?_)
  cases hsuper with
  | some hc => exact .cons hbody (hc.mono hW₁)
  | none => exact .cons hbody .nil

theorem agree_declareClass {name name' : Token} {superclass superclass' : Option Class}
    {methods methods' : List FunDecl} (hs : Stays W₀ m₀ W m) (hm : T.Machines W m m')
    (hflags : Flags W m.scope flags) (hname : T.Tokens (flagHere flags) name name')
    (hlexeme : name'.lexeme = name.lexeme)
    (hsuper : Option.Rel (T.Classes W) superclass superclass')
    (hmethods : Stmt.MethodsTwins T (if superclass.isSome then false :: flags else flags)
      methods methods') :
    T.Agree exempt returns W₀ m₀ (declareClass name superclass methods)
      (declareClass name' superclass' methods') m m' fun _ _ _ => True := by
  rw [declareClass, declareClass]
  refine .bind hs (agree_define (.refl _ _) hm hflags hname .nil) ?_
  intro W₁ _ _ m₁ m₁' hs₁ hW₁ hm₁ _
  have hflags₁ := hflags.stays hW₁ hs hs₁
  refine .bind_ok (a := m₁) (b := m₁') rfl rfl ?_
  dsimp only
  cases hsuper with
  | none =>
    refine .bind_ok (a := m₁.scope) (b := m₁.scope) rfl (congrArg (EStateM.Result.ok · m₁') hm₁.scope)
      ?_
    exact agree_newClass hs₁ hm₁ hflags₁ hflags₁ hname hlexeme .none hmethods
  | @some c c' hc =>
    have hW : W₁ <+: W₁ ++ [false] := List.prefix_append _ _
    have hσ := hm₁.store.addFrame false
      (rel_single false (y := superName) rfl (.class_ (hc.mono hW₁)))
    refine .bind_ok (a := .inside m₁.store.freshFrame m₁.scope)
      (b := .inside m₁.store.freshFrame m₁.scope)
      (n := { m₁ with store := m₁.store.addFrame (NameMap.empty.insert superName (.class_ c)) })
      (k := { m₁' with store := m₁'.store.addFrame (NameMap.empty.insert superName (.class_ c')) })
      rfl ?_ ?_
    · rw [← hm₁.store.freshFrame_eq, ← hm₁.scope]
      rfl
    · refine agree_newClass (hs₁.of_store hW _) (hm₁.of_store hW hσ) (hflags₁.mono hW)
        ((hflags₁.mono hW).inside (hm₁.store.getElem?_freshFrame false)) hname hlexeme
        (.some ((hc.mono hW₁).mono hW)) hmethods

/-! ## Properties -/

theorem agree_fieldOwner {name name' : Token} (hs : Stays W₀ m₀ W m) (hm : T.Machines W m m')
    (hname : T.Tokens false name name') (hv : T.Values W v v') :
    T.Agree exempt returns W₀ m₀ (fieldOwner v name) (fieldOwner v' name') m m'
      fun _ i i' => i'.record = i.record := by
  cases hv with
  | instance_ hr h => exact .pure hs hm hr
  | _ => exact .fault (e := .fieldOfNonInstance) hs hm hname

/-- Methods that classes have, bound to instances. -/
theorem agree_methodFor {c c' : Class} {i i' : Instance} {name name' : Token}
    (hs : Stays W₀ m₀ W m) (hm : T.Machines W m m') (hname : T.Tokens false name name')
    (hc : T.Classes W c c') (hi : T.Values W (.instance_ i) (.instance_ i')) :
    T.Agree exempt returns W₀ m₀ (c.methodFor i name) (c'.methodFor i' name') m m' T.Values := by
  have hlexeme : name'.lexeme = name.lexeme := hname.lexeme
  have hmethod := hc.method name.lexeme
  unfold Class.methodFor
  rw [hlexeme]
  revert hmethod
  generalize c.method? name.lexeme = f, c'.method? name.lexeme = f'
  intro hmethod
  cases hmethod with
  | some hf =>
    refine .bind hs (agree_bindMethod (.refl _ _) hm hf hi) ?_
    intro W₁ g g' m₁ m₁' hs₁ _ hm₁ hg
    exact .pure hs₁ hm₁ (.function hg)
  | none => exact .fault (e := .undefinedProperty name.lexeme) hs hm hname

theorem agree_getProperty {name name' : Token} (hs : Stays W₀ m₀ W m) (hm : T.Machines W m m')
    (hname : T.Tokens false name name') (hv : T.Values W v v') :
    T.Agree exempt returns W₀ m₀ (getProperty v name) (getProperty v' name') m m' T.Values := by
  cases hv with
  | @instance_ i i' hr h =>
    refine .bind_ok (a := m) (b := m') rfl rfl ?_
    have hfield : Option.Rel (T.Values W) (m.store.field? i.record name.lexeme)
        (m'.store.field? i'.record name'.lexeme) := by
      rw [hr, show name'.lexeme = name.lexeme from hname.lexeme]
      exact hm.store.fields i.record name.lexeme
    revert hfield
    generalize m.store.field? i.record name.lexeme = found,
      m'.store.field? i'.record name'.lexeme = found'
    intro hfield
    cases hfield with
    | some hv => exact .pure hs hm hv
    | none => exact agree_methodFor hs hm hname h (.instance_ hr h)
  | _ => exact .fault (e := .propertyOfNonInstance) hs hm hname

theorem agree_superMethod {keyword keyword' method method' : Token} (hset : T.Settings s s')
    (hs : Stays W₀ m₀ W m) (hm : T.Machines W m m') (hflags : Flags W m.scope flags)
    (hk : T.known x id id' d) (hkeyword : T.Tokens (flagAt flags d) keyword keyword')
    (hmethod : T.Tokens false method method') :
    T.Agree exempt returns W₀ m₀ (superMethod s id keyword method)
      (superMethod s' id' keyword' method') m m' T.Values := by
  obtain ⟨hd, hd'⟩ := hset.distances x id id' d hk
  have hundefined : T.Agree exempt returns W₀ m₀
      (Exec.fault keyword (.undefinedVariable superName) : Exec Value)
      (Exec.fault keyword' (.undefinedVariable superName) : Exec Value) m m' T.Values := by
    have hfault : T.Agree exempt returns W₀ m₀ _ _ m m' T.Values :=
      Agree.fault (e := .undefinedVariable superName) hs hm hkeyword (by simp [Names, T.rename_super])
    rwa [RuntimeFault.rename, name_super] at hfault
  refine .bind_ok (a := m) (b := m') rfl rfl ?_
  rw [hd, hd']
  cases d with
  | none => exact hundefined
  | some d =>
    have hclass := hm.store.getAt? hflags d superName
    have hthis := hm.store.getAt? hflags (d - 1) thisName
    rw [name_super] at hclass
    rw [name_this] at hthis
    dsimp only
    rw [hm.scope]
    revert hclass hthis
    generalize m.store.getAt? m.scope d superName = found,
      m'.store.getAt? m.scope d superName = found',
      m.store.getAt? m.scope (d - 1) thisName = this,
      m'.store.getAt? m.scope (d - 1) thisName = this'
    intro hclass hthis
    cases hclass with
    | none => exact hundefined
    | some hc =>
      cases hthis with
      | none => cases hc <;> exact hundefined
      | some hi =>
        cases hc with
        | @class_ c c' hc =>
          cases hi with
          | instance_ hr h => exact agree_methodFor hs hm hmethod hc (.instance_ hr h)
          | _ => exact hundefined
        | _ => exact hundefined

end

end Twin

end LoxWalk
