import LoxWalk.Proofs.Binding.Sites

/-!
# Code that fits the place where it runs

`Fits known pending st os` says of code what a run of it relies on when the scopes around it are
those of the place `st`, opened for the origins `os`: the references are known with the distances
that their names have at `st`, and the names that are declared are names of variables.

The place is the one at which the code *runs*.  An initializer is bound behind the declaration of its
variable, but runs before it, so a name may be bound to the innermost scope without being defined
there.  The static rules exclude this for all references but assignments; `pending` says for which
of them it may be so.

The code of an accepted unit fits (`Static.fits_unit`).
-/

namespace LoxWalk

/-- The scopes around a place and what they are opened for, with the kind of class that is around it.
A class with a superclass opens two scopes around its methods, of which the inner one is that of the
instance. -/
inductive Layers : ClassContext → List (NameMap Bool) → List Origin → Prop where
  | top : Layers .outside [] []
  | code {c : ClassContext} {names : NameMap Bool} {o : Origin} {scopes : List (NameMap Bool)}
      {os : List Origin} (ho : (∃ body, o = .block body) ∨ ∃ f, o = .call f)
      (hthis : names.contains thisName = false) (hsuper : names.contains superName = false)
      (outer : Layers c scopes os) : Layers c (names :: scopes) (o :: os)
  | this {c : ClassContext} {names : NameMap Bool} {f : FunDecl} {scopes : List (NameMap Bool)}
      {os : List Origin} (hnames : ∀ x, names.contains x = true ↔ x = thisName)
      (outer : Layers c scopes os) : Layers .base (names :: scopes) (.this f :: os)
  | super {c : ClassContext} {names names' : NameMap Bool} {f : FunDecl} {fs : List FunDecl}
      {scopes : List (NameMap Bool)} {os : List Origin} (hf : f ∈ fs)
      (hnames : ∀ x, names.contains x = true ↔ x = thisName)
      (hnames' : ∀ x, names'.contains x = true ↔ x = superName) (outer : Layers c scopes os) :
      Layers .derived (names :: names' :: scopes) (.this f :: .super fs :: os)

/-- The place lies in the text of the method `f`, with `d` scopes in between; if it lies in several
methods, the innermost is meant. -/
structure InMethod (os : List Origin) (d : Nat) (f : FunDecl) : Prop where
  here : os[d]? = some (.this f)
  innermost : ∀ k < d, ∀ g, os[k]? ≠ some (.this g)

/-- Whether names can be declared in the innermost scope. -/
def Declarable : List Origin → Prop
  | .this _ :: _ => False
  | .super _ :: _ => False
  | _ => True

/-! ## Code that fits -/

section

variable (known : Site → Prop) (pending : String → NodeId → Prop)

mutual

/-- An expression fits. -/
def Expr.Fits (st : Static) (os : List Origin) : Expr → Prop
  | .literal _ => True
  | .group inner => inner.Fits st os
  | .unary _ operand => operand.Fits st os
  | .binary left _ right => left.Fits st os ∧ right.Fits st os
  | .logical left _ right => left.Fits st os ∧ right.Fits st os
  | .var id name => known (st.site os id name.lexeme)
  | .assign id name value =>
    name.IsName ∧ value.Fits st os ∧
      (known (st.site os id name.lexeme) ∨
        st.scopes ≠ [] ∧ known ⟨id, os, some 0, st.extent⟩ ∧ pending name.lexeme id)
  | .call callee _ arguments => callee.Fits st os ∧ Expr.AllFit st os arguments
  | .get object _ => object.Fits st os
  | .set object _ value => object.Fits st os ∧ value.Fits st os
  | .this id keyword =>
    keyword.lexeme = thisName ∧ known (st.site os id thisName) ∧
      ∃ d f, st.distance? thisName = some d ∧ InMethod os d f
  | .super id _ _ =>
    known (st.site os id superName) ∧
      ∃ d f fs, st.distance? superName = some (d + 1) ∧ InMethod os d f ∧
        os[d + 1]? = some (.super fs) ∧ f ∈ fs

/-- Several expressions fit. -/
def Expr.AllFit (st : Static) (os : List Origin) : List Expr → Prop
  | [] => True
  | e :: es => e.Fits st os ∧ Expr.AllFit st os es

end

/-- An expression that may be left out fits. -/
def Expr.Fits? (st : Static) (os : List Origin) : Option Expr → Prop
  | some e => e.Fits known pending st os
  | none => True

mutual

/-- A statement fits. -/
def Stmt.Fits (st : Static) (os : List Origin) : Stmt → Prop
  | .expression e => e.Fits known pending st os
  | .print e => e.Fits known pending st os
  | .var name initializer => name.IsName ∧ Expr.Fits? known pending st os initializer
  | .block body => Stmt.AllFit (st.enter []) (.block body :: os) body
  | .if_ condition thenBranch none =>
    condition.Fits known pending st os ∧ thenBranch.Fits st os ∧ (st.stmt thenBranch).1 = st
  | .if_ condition thenBranch (some elseBranch) =>
    condition.Fits known pending st os ∧
      (thenBranch.Fits st os ∧ (st.stmt thenBranch).1 = st) ∧
        elseBranch.Fits st os ∧ (st.stmt elseBranch).1 = st
  | .while_ condition body =>
    condition.Fits known pending st os ∧ body.Fits st os ∧ (st.stmt body).1 = st
  | .fun_ f => f.name.IsName ∧ Stmt.FunFits (st.declared f.name) .function os f
  | .return_ _ value => st.function ≠ .topLevel ∧ Expr.Fits? known pending st os value
  | .class_ name superclass methods =>
    name.IsName ∧ Expr.Fits? known pending st os superclass ∧
      Stmt.MethodsFit ((st.declared name).methodsPlace superclass.isSome)
        (Static.methodOrigins os superclass.isSome methods) methods

/-- Statements that follow each other fit. -/
def Stmt.AllFit (st : Static) (os : List Origin) : List Stmt → Prop
  | [] => True
  | s :: ss => s.Fits st os ∧ Stmt.AllFit (st.stmt s).1 os ss

/-- A function fits that is declared at `st`. -/
def Stmt.FunFits (st : Static) (context : FunctionContext) (os : List Origin) :
    FunDeclOf Stmt → Prop
  | ⟨name, params, body⟩ =>
    (∀ p ∈ params, p.IsName) ∧
      Stmt.AllFit (st.body context ⟨name, params, body⟩) (.call ⟨name, params, body⟩ :: os) body

/-- The methods of a class fit. -/
def Stmt.MethodsFit (st : Static) (os : List Origin) : List (FunDeclOf Stmt) → Prop
  | [] => True
  | f :: fs =>
    Stmt.FunFits st (Static.methodContext f) (.this f :: os) f ∧ Stmt.MethodsFit st os fs

end

end

/-! ## Places -/

namespace NameMap

variable {α : Type}

theorem contains_insert (m : NameMap α) (x y : String) (a : α) :
    (m.insert x a).contains y = (decide (x = y) || m.contains y) := by
  unfold contains
  rw [get?_insert]
  by_cases h : x = y <;> simp [h]

@[simp]
theorem contains_empty (x : String) : (empty : NameMap α).contains x = false := rfl

end NameMap

namespace Static

theorem distance?_cons {st : Static} {names : NameMap Bool} {outer : List (NameMap Bool)}
    (h : st.scopes = names :: outer) (x : String) :
    st.distance? x =
      if names.contains x then some 0 else (outer.findIdx? (·.contains x)).map (· + 1) := by
  rw [distance?, h, List.findIdx?_cons]

/-! ### Declarations -/

theorem scopes_declare_nil {st : Static} (h : st.scopes = []) (name : Token) :
    st.declare name = st := by
  unfold declare
  rw [h]

theorem scopes_declared_nil {st : Static} (h : st.scopes = []) (name : Token) :
    st.declared name = st := by
  rw [declared, scopes_declare_nil h, define, h]

theorem scopes_declare_cons {st : Static} {names : NameMap Bool} {outer : List (NameMap Bool)}
    (h : st.scopes = names :: outer) (name : Token) :
    ∃ names', (st.declare name).scopes = names' :: outer ∧
      ∀ x, names'.contains x = (decide (name.lexeme = x) || names.contains x) := by
  unfold declare
  rw [h]
  dsimp only
  split
  · rename_i hname
    refine ⟨names, h, fun x => ?_⟩
    by_cases hx : name.lexeme = x
    · simp [← hx, hname]
    · simp [hx]
  · exact ⟨_, rfl, fun x => NameMap.contains_insert _ _ _ _⟩

theorem scopes_define_cons {st : Static} {names : NameMap Bool} {outer : List (NameMap Bool)}
    (h : st.scopes = names :: outer) (name : Token) :
    (st.define name).scopes = names.insert name.lexeme true :: outer := by
  unfold define
  rw [h]

theorem scopes_declared_cons {st : Static} {names : NameMap Bool} {outer : List (NameMap Bool)}
    (h : st.scopes = names :: outer) (name : Token) :
    ∃ names', (st.declared name).scopes = names' :: outer ∧
      ∀ x, names'.contains x = (decide (name.lexeme = x) || names.contains x) := by
  obtain ⟨names', h', hnames'⟩ := scopes_declare_cons h name
  refine ⟨_, scopes_define_cons h' name, fun x => ?_⟩
  rw [NameMap.contains_insert, hnames', ← Bool.or_assoc, Bool.or_self]

/-- A declaration changes what one name means. -/
theorem distance?_declared_of_ne (st : Static) (name : Token) {x : String}
    (h : name.lexeme ≠ x) : (st.declared name).distance? x = st.distance? x := by
  cases hs : st.scopes with
  | nil => rw [scopes_declared_nil hs]
  | cons names outer =>
    obtain ⟨names', hs', hnames'⟩ := scopes_declared_cons hs name
    rw [distance?_cons hs, distance?_cons hs', hnames' x]
    simp [h]

/-! ### The enclosing function -/

@[simp]
theorem function_declare (st : Static) (name : Token) : (st.declare name).function = st.function := by
  unfold declare
  split
  · rfl
  · split <;> rfl

@[simp]
theorem function_define (st : Static) (name : Token) : (st.define name).function = st.function := by
  unfold define
  split <;> rfl

@[simp]
theorem function_declared (st : Static) (name : Token) :
    (st.declared name).function = st.function := by
  simp [declared]

@[simp]
theorem function_params (st : Static) (ps : List Token) : (st.params ps).1.function = st.function := by
  induction ps generalizing st with
  | nil => rfl
  | cons p ps ih => simp [params, ih]

@[simp]
theorem function_body (st : Static) (context : FunctionContext) (f : FunDecl) :
    (st.body context f).function = context := by
  simp [body, enter]

@[simp]
theorem function_stmt (st : Static) (s : Stmt) : (st.stmt s).1.function = st.function := by
  cases s with
  | var name _ => exact st.function_declared name
  | if_ _ thenBranch elseBranch =>
    have hthen := st.function_stmt thenBranch
    cases elseBranch with
    | none => exact hthen
    | some elseBranch => exact (function_stmt _ elseBranch).trans hthen
  | while_ _ body => exact st.function_stmt body
  | fun_ f => exact st.function_declared f.name
  | class_ name _ _ => exact st.function_declared name
  | _ => rfl

/-! ### The enclosing class -/

@[simp]
theorem inClass_declare (st : Static) (name : Token) : (st.declare name).inClass = st.inClass := by
  unfold declare
  split
  · rfl
  · split <;> rfl

@[simp]
theorem inClass_define (st : Static) (name : Token) : (st.define name).inClass = st.inClass := by
  unfold define
  split <;> rfl

@[simp]
theorem inClass_declared (st : Static) (name : Token) :
    (st.declared name).inClass = st.inClass := by
  simp [declared]

theorem methodContext_ne (f : FunDecl) : methodContext f ≠ .topLevel := by
  unfold methodContext
  split <;> simp

/-! ### Statements that declare nothing -/

/-- A statement that declares nothing leaves the place as it is. -/
theorem stmt_of_declares_eq_false (st : Static) (s : Stmt) (hw : s.WellFormed)
    (hd : s.declares = false) : (st.stmt s).1 = st := by
  cases s with
  | var _ _ => cases hd
  | if_ _ thenBranch elseBranch =>
    cases elseBranch with
    | none => exact st.stmt_of_declares_eq_false thenBranch hw.2.1 hw.2.2
    | some elseBranch =>
      obtain ⟨-, ⟨hthen, hthen'⟩, helse, helse'⟩ := hw
      have hst := st.stmt_of_declares_eq_false thenBranch hthen hthen'
      have hst' := st.stmt_of_declares_eq_false elseBranch helse helse'
      simp only [stmt, hst, hst']
  | while_ _ body => exact st.stmt_of_declares_eq_false body hw.2.1 hw.2.2
  | fun_ _ => cases hd
  | class_ _ _ _ => cases hd
  | _ => rfl

end Static

/-! ## Layers -/

namespace InMethod

variable {os : List Origin} {d : Nat} {f : FunDecl}

theorem of_head (f : FunDecl) (os : List Origin) : InMethod (.this f :: os) 0 f :=
  ⟨rfl, fun _ hk => absurd hk (Nat.not_lt_zero _)⟩

/-- One more scope that is not that of an instance. -/
theorem cons (h : InMethod os d f) {o : Origin} (ho : ∀ g, o ≠ .this g) :
    InMethod (o :: os) (d + 1) f := by
  refine ⟨h.here, fun k hk g hg => ?_⟩
  cases k with
  | zero => exact ho g (Option.some.inj hg)
  | succ k => exact h.innermost k (Nat.lt_of_succ_lt_succ hk) g hg

/-- There is one innermost method. -/
theorem unique (h : InMethod os d f) {d' : Nat} {f' : FunDecl} (h' : InMethod os d' f') :
    d = d' ∧ f = f' := by
  have hd : d = d' := by
    rcases Nat.lt_trichotomy d d' with hlt | heq | hlt
    · exact absurd h.here (h'.innermost d hlt f)
    · exact heq
    · exact absurd h'.here (h.innermost d' hlt f')
  subst hd
  exact ⟨rfl, by simpa using h.here.symm.trans h'.here⟩

end InMethod

namespace Layers

variable {c : ClassContext} {scopes : List (NameMap Bool)} {os : List Origin} {st : Static}

theorem ne_this_of_code {o : Origin} (ho : (∃ body, o = .block body) ∨ ∃ f, o = .call f)
    (g : FunDecl) : o ≠ .this g := by
  rcases ho with ⟨body, rfl⟩ | ⟨f, rfl⟩
  · exact Origin.noConfusion
  · exact Origin.noConfusion

/-- Inside a class, `this` is found in the scope of the instance of the innermost method. -/
theorem place_of_this (h : Layers c scopes os) (hc : c ≠ .outside) :
    ∃ d f, scopes.findIdx? (·.contains thisName) = some d ∧ InMethod os d f := by
  induction h with
  | top => exact absurd rfl hc
  | code ho hthis _ _ ih =>
    obtain ⟨d, f, hd, hf⟩ := ih hc
    refine ⟨d + 1, f, ?_, hf.cons (ne_this_of_code ho)⟩
    rw [List.findIdx?_cons, hthis, hd]
    rfl
  | @this _ _ f _ os hnames =>
    refine ⟨0, f, ?_, .of_head f os⟩
    rw [List.findIdx?_cons, (hnames thisName).mpr rfl]
    rfl
  | @super _ _ _ f fs _ os _ hnames =>
    refine ⟨0, f, ?_, .of_head f (.super fs :: os)⟩
    rw [List.findIdx?_cons, (hnames thisName).mpr rfl]
    rfl

/-- Inside a class with a superclass, `super` is found in the scope of that superclass, and the next
scope inside it is that of the instance of the innermost method, which is one of the class. -/
theorem place_of_super (h : Layers c scopes os) (hc : c = .derived) :
    ∃ d f fs, scopes.findIdx? (·.contains superName) = some (d + 1) ∧ InMethod os d f ∧
      os[d + 1]? = some (.super fs) ∧ f ∈ fs := by
  have hne : superName ≠ thisName := by decide
  induction h with
  | top => cases hc
  | code ho _ hsuper _ ih =>
    obtain ⟨d, f, fs, hd, hf, hfs, hmem⟩ := ih hc
    refine ⟨d + 1, f, fs, ?_, hf.cons (ne_this_of_code ho), hfs, hmem⟩
    rw [List.findIdx?_cons, hsuper, hd]
    rfl
  | this => cases hc
  | @super _ _ _ f fs _ os hf hnames hnames' =>
    refine ⟨0, f, fs, ?_, .of_head f (.super fs :: os), rfl, hf⟩
    rw [List.findIdx?_cons, Bool.eq_false_iff.mpr (mt (hnames superName).mp hne),
      List.findIdx?_cons, (hnames' superName).mpr rfl]
    rfl

/-- A name that is declared in the innermost scope. -/
theorem declared (h : Layers st.inClass st.scopes os) (ho : Declarable os) {name : Token}
    (hname : name.IsName) : Layers (st.declared name).inClass (st.declared name).scopes os := by
  rw [Static.inClass_declared]
  cases hs : st.scopes with
  | nil => rwa [Static.scopes_declared_nil hs]
  | cons names outer =>
    obtain ⟨names', hs', hnames'⟩ := Static.scopes_declared_cons hs name
    rw [hs] at h
    rw [hs']
    generalize st.inClass = c at h ⊢
    cases h with
    | code hcode hthis hsuper houter =>
      exact .code hcode (by simp [hnames', hthis, hname.ne.1])
        (by simp [hnames', hsuper, hname.ne.2])
        houter
    | this => exact ho.elim
    | super => exact ho.elim

/-- A new scope for a part of the text in which names can be declared. -/
theorem enter (h : Layers st.inClass st.scopes os) {o : Origin}
    (ho : (∃ body, o = .block body) ∨ ∃ f, o = .call f) :
    Layers (st.enter []).inClass (st.enter []).scopes (o :: os) :=
  .code ho rfl rfl h

theorem params (h : Layers st.inClass st.scopes os) (ho : Declarable os) {ps : List Token}
    (hps : ∀ p ∈ ps, p.IsName) : Layers (st.params ps).1.inClass (st.params ps).1.scopes os := by
  induction ps generalizing st with
  | nil => exact h
  | cons p ps ih =>
    obtain ⟨hp, hps⟩ := List.forall_mem_cons.mp hps
    exact ih (h.declared ho hp) hps

/-- The body of a function. -/
theorem body (h : Layers st.inClass st.scopes os) (context : FunctionContext) {f : FunDecl}
    (hf : ∀ p ∈ f.params, p.IsName) :
    Layers (st.body context f).inClass (st.body context f).scopes (.call f :: os) := by
  have h' : Layers { st with function := context }.inClass
      { st with function := context }.scopes os := h
  have hinside := h'.enter (.inr ⟨f, rfl⟩)
  exact hinside.params trivial hf

/-- The methods of a class. -/
theorem methodsPlace (h : Layers st.inClass st.scopes os) (hasSuperclass : Bool) {f : FunDecl}
    {fs : List FunDecl} (hf : f ∈ fs) :
    Layers (st.methodsPlace hasSuperclass).inClass (st.methodsPlace hasSuperclass).scopes
      (.this f :: Static.methodOrigins os hasSuperclass fs) := by
  have hsingle (x y : String) :
      (NameMap.empty.insertAll ([x].map (·, true))).contains y = true ↔ y = x := by
    simp [NameMap.insertAll, NameMap.contains_insert, eq_comm]
  cases hasSuperclass with
  | false => exact .this (hsingle thisName) h
  | true => exact .super hf (hsingle thisName) (hsingle superName) h

/-- The place behind a statement. -/
theorem stmt (h : Layers st.inClass st.scopes os) (ho : Declarable os) {s : Stmt}
    (hs : s.WellFormed) : Layers (st.stmt s).1.inClass (st.stmt s).1.scopes os := by
  cases hd : s.declares with
  | false => rwa [st.stmt_of_declares_eq_false s hs hd]
  | true =>
    cases s with
    | var => exact h.declared ho hs.1
    | fun_ => exact h.declared ho hs.1
    | class_ => exact h.declared ho hs.1
    | _ => cases hd

end Layers

/-! ## Initializers -/

mutual

/-- The variables that are declared with an initializer in a statement. -/
def Stmt.initializers : Stmt → List (Token × Expr)
  | .expression _ => []
  | .print _ => []
  | .var name initializer => (initializer.map (name, ·)).toList
  | .block body => Stmt.allInitializers body
  | .if_ _ thenBranch none => thenBranch.initializers
  | .if_ _ thenBranch (some elseBranch) => thenBranch.initializers ++ elseBranch.initializers
  | .while_ _ body => body.initializers
  | .fun_ f => Stmt.funInitializers f
  | .return_ _ _ => []
  | .class_ _ _ methods => Stmt.methodInitializers methods

/-- The variables that are declared with an initializer in several statements. -/
def Stmt.allInitializers : List Stmt → List (Token × Expr)
  | [] => []
  | s :: ss => s.initializers ++ Stmt.allInitializers ss

/-- The variables that are declared with an initializer in a function. -/
def Stmt.funInitializers : FunDeclOf Stmt → List (Token × Expr)
  | ⟨_, _, body⟩ => Stmt.allInitializers body

/-- The variables that are declared with an initializer in the methods of a class. -/
def Stmt.methodInitializers : List (FunDeclOf Stmt) → List (Token × Expr)
  | [] => []
  | f :: fs => Stmt.funInitializers f ++ Stmt.methodInitializers fs

end

mutual

theorem Stmt.mem_ids_of_mem_initializers {p : Token × Expr} {id : NodeId} (hid : id ∈ p.2.ids) :
    (s : Stmt) → p ∈ s.initializers → id ∈ s.ids
  | .var name (some e), hp => by
    obtain rfl := List.mem_singleton.mp hp
    exact hid
  | .block body, hp => Stmt.mem_allIds_of_mem_initializers hid body hp
  | .if_ _ thenBranch none, hp =>
    List.mem_append_right _ (mem_ids_of_mem_initializers hid thenBranch hp)
  | .if_ _ thenBranch (some elseBranch), hp => by
    have hmem := (List.mem_append.mp hp).imp (mem_ids_of_mem_initializers hid thenBranch)
      (mem_ids_of_mem_initializers hid elseBranch)
    simp only [Stmt.ids, List.mem_append]
    exact .inr hmem
  | .while_ _ body, hp => List.mem_append_right _ (mem_ids_of_mem_initializers hid body hp)
  | .fun_ f, hp => Stmt.mem_funIds_of_mem_initializers hid f hp
  | .class_ _ _ methods, hp =>
    List.mem_append_right _ (Stmt.mem_methodIds_of_mem_initializers hid methods hp)

theorem Stmt.mem_allIds_of_mem_initializers {p : Token × Expr} {id : NodeId} (hid : id ∈ p.2.ids) :
    (ss : List Stmt) → p ∈ Stmt.allInitializers ss → id ∈ Stmt.allIds ss
  | s :: ss, hp => List.mem_append.mpr ((List.mem_append.mp hp).imp
      (mem_ids_of_mem_initializers hid s) (mem_allIds_of_mem_initializers hid ss))

theorem Stmt.mem_funIds_of_mem_initializers {p : Token × Expr} {id : NodeId} (hid : id ∈ p.2.ids) :
    (f : FunDeclOf Stmt) → p ∈ Stmt.funInitializers f → id ∈ Stmt.funIds f
  | ⟨_, _, body⟩, hp => mem_allIds_of_mem_initializers hid body hp

theorem Stmt.mem_methodIds_of_mem_initializers {p : Token × Expr} {id : NodeId}
    (hid : id ∈ p.2.ids) :
    (fs : List (FunDeclOf Stmt)) → p ∈ Stmt.methodInitializers fs → id ∈ Stmt.methodIds fs
  | f :: fs, hp => List.mem_append.mpr ((List.mem_append.mp hp).imp
      (mem_funIds_of_mem_initializers hid f) (mem_methodIds_of_mem_initializers hid fs))

end

/-! ## Code that the static rules accept fits -/

/-- The place `st'` is `st`, except that names in `P` may be declared, but not yet defined, in the
innermost scope. -/
structure Static.Awaits (st' st : Static) (P : String → Prop) : Prop where
  extent : st'.extent = st.extent
  inClass : st'.inClass = st.inClass
  own : ∀ x, x = thisName ∨ x = superName → st'.distance? x = st.distance? x
  read : ∀ x, st'.isPending x = false → st'.distance? x = st.distance? x
  assigned : ∀ x, st'.distance? x = st.distance? x ∨
    st.scopes ≠ [] ∧ st'.distance? x = some 0 ∧ P x

namespace Static.Awaits

theorem refl (st : Static) : st.Awaits st fun _ => False :=
  ⟨rfl, rfl, fun _ _ => rfl, fun _ _ => rfl, fun _ => .inl rfl⟩

/-- A variable during its initializer. -/
theorem declare (st : Static) {name : Token} (hname : name.IsName) :
    (st.declare name).Awaits st (· = name.lexeme) := by
  have hextent : (st.declare name).extent = st.extent := by
    rw [Static.extent, Static.extent, function_declare]
  cases hs : st.scopes with
  | nil =>
    have hst := scopes_declare_nil hs name
    rw [hst]
    exact ⟨rfl, rfl, fun _ _ => rfl, fun _ _ => rfl, fun _ => .inl rfl⟩
  | cons names outer =>
    obtain ⟨names', hs', hnames'⟩ := scopes_declare_cons hs name
    have hother : ∀ x, name.lexeme ≠ x → (st.declare name).distance? x = st.distance? x := by
      intro x hx
      rw [distance?_cons hs, distance?_cons hs', hnames' x]
      simp [hx]
    refine ⟨hextent, st.inClass_declare name, ?_, fun x hx => ?_, fun x => ?_⟩
    · rintro x (rfl | rfl)
      · exact hother _ hname.ne.1
      · exact hother _ hname.ne.2
    · by_cases hx' : name.lexeme = x
      · subst hx'
        -- a second declaration changes nothing, and a first one leaves the name pending
        by_cases hc : names.contains name.lexeme = true
        · rw [Static.declare, hs]
          simp [hc]
        · simp [isPending, Static.declare, hs, hc] at hx
      · exact hother x hx'
    · by_cases hx : name.lexeme = x
      · refine .inr ⟨by simp [hs], ?_, hx.symm⟩
        rw [distance?_cons hs', hnames' x]
        simp [hx]
      · exact .inl (hother x hx)

end Static.Awaits

section

variable {known : Site → Prop} {pending : String → NodeId → Prop}

namespace Static

variable {st st' : Static} {os : List Origin} {P : String → Prop}

mutual

theorem fits_expr (ha : st'.Awaits st P) (hl : Layers st.inClass st.scopes os) :
    (e : Expr) → e.WellFormed → (st'.expr e).errors = [] → (∀ s ∈ st'.exprSites os e, known s) →
      (∀ x, P x → ∀ id ∈ e.ids, pending x id) → e.Fits known pending st os
  | .literal _, _, _, _, _ => trivial
  | .group inner, hw, he, hk, hp => fits_expr ha hl inner hw he hk hp
  | .unary _ operand, hw, he, hk, hp => fits_expr ha hl operand hw he hk hp
  | .binary left _ right, hw, he, hk, hp => by
    simp only [expr, Findings.errors_append, List.append_eq_nil_iff] at he
    simp only [exprSites, List.forall_mem_append] at hk
    simp only [Expr.ids, List.forall_mem_append] at hp
    exact ⟨fits_expr ha hl left hw.1 he.1 hk.1 fun x hx => (hp x hx).1,
      fits_expr ha hl right hw.2 he.2 hk.2 fun x hx => (hp x hx).2⟩
  | .logical left _ right, hw, he, hk, hp => by
    simp only [expr, Findings.errors_append, List.append_eq_nil_iff] at he
    simp only [exprSites, List.forall_mem_append] at hk
    simp only [Expr.ids, List.forall_mem_append] at hp
    exact ⟨fits_expr ha hl left hw.1 he.1 hk.1 fun x hx => (hp x hx).1,
      fits_expr ha hl right hw.2 he.2 hk.2 fun x hx => (hp x hx).2⟩
  | .var id name, hw, he, hk, hp => by
    simp only [expr, Findings.errors_append, List.append_eq_nil_iff, Findings.errors_brokenIf] at he
    have hsite := hk _ List.mem_cons_self
    rwa [site, ha.read _ he.1, ha.extent] at hsite
  | .assign id name value, hw, he, hk, hp => by
    simp only [expr, Findings.errors_append, List.append_eq_nil_iff] at he
    simp only [exprSites, List.forall_mem_append] at hk
    simp only [Expr.ids, List.forall_mem_append] at hp
    refine ⟨hw.1, fits_expr ha hl value hw.2 he.1 hk.1 fun x hx => (hp x hx).1, ?_⟩
    have hsite := hk.2 _ List.mem_cons_self
    rw [site, ha.extent] at hsite
    rcases ha.assigned name.lexeme with hd | ⟨hne, hd, hP⟩
    · exact .inl (by rwa [hd] at hsite)
    · exact .inr ⟨hne, by rwa [hd] at hsite, (hp _ hP).2 id List.mem_cons_self⟩
  | .call callee _ arguments, hw, he, hk, hp => by
    simp only [expr, Findings.errors_append, List.append_eq_nil_iff] at he
    simp only [exprSites, List.forall_mem_append] at hk
    simp only [Expr.ids, List.forall_mem_append] at hp
    exact ⟨fits_expr ha hl callee hw.1 he.1 hk.1 fun x hx => (hp x hx).1,
      fits_exprs ha hl arguments hw.2 he.2 hk.2 fun x hx => (hp x hx).2⟩
  | .get object _, hw, he, hk, hp => fits_expr ha hl object hw he hk hp
  | .set object _ value, hw, he, hk, hp => by
    simp only [expr, Findings.errors_append, List.append_eq_nil_iff] at he
    simp only [exprSites, List.forall_mem_append] at hk
    simp only [Expr.ids, List.forall_mem_append] at hp
    exact ⟨fits_expr ha hl object hw.1 he.2 hk.1 fun x hx => (hp x hx).1,
      fits_expr ha hl value hw.2 he.1 hk.2 fun x hx => (hp x hx).2⟩
  | .this id keyword, hw, he, hk, _ => by
    have hsite := hk _ List.mem_cons_self
    rw [Expr.WellFormed] at hw
    rw [site, hw, ha.own _ (.inl rfl), ha.extent] at hsite
    refine ⟨hw, hsite, hl.place_of_this fun hc => ?_⟩
    rw [expr, ha.inClass, hc] at he
    cases he
  | .super id keyword _, hw, he, hk, _ => by
    have hsite := hk _ List.mem_cons_self
    rw [Expr.WellFormed] at hw
    rw [site, hw, ha.own _ (.inr rfl), ha.extent] at hsite
    refine ⟨hsite, hl.place_of_super ?_⟩
    rw [expr, ha.inClass] at he
    cases hc : st.inClass with
    | derived => rfl
    | _ =>
      rw [hc] at he
      cases he

theorem fits_exprs (ha : st'.Awaits st P) (hl : Layers st.inClass st.scopes os) :
    (es : List Expr) → Expr.AllWellFormed es → (st'.exprs es).errors = [] →
      (∀ s ∈ st'.exprsSites os es, known s) → (∀ x, P x → ∀ id ∈ Expr.allIds es, pending x id) →
        Expr.AllFit known pending st os es
  | [], _, _, _, _ => trivial
  | e :: es, hw, he, hk, hp => by
    simp only [exprs, Findings.errors_append, List.append_eq_nil_iff] at he
    simp only [exprsSites, List.forall_mem_append] at hk
    simp only [Expr.allIds, List.forall_mem_append] at hp
    exact ⟨fits_expr ha hl e hw.1 he.1 hk.1 fun x hx => (hp x hx).1,
      fits_exprs ha hl es hw.2 he.2 hk.2 fun x hx => (hp x hx).2⟩

end

/-- Away from initializers nothing is pending. -/
theorem fits_expr_of_place (hl : Layers st.inClass st.scopes os) {e : Expr} (hw : e.WellFormed)
    (he : (st.expr e).errors = []) (hk : ∀ s ∈ st.exprSites os e, known s) :
    e.Fits known pending st os :=
  fits_expr (.refl st) hl e hw he hk fun _ h => h.elim

theorem fits_expr?_of_place (hl : Layers st.inClass st.scopes os) {e : Option Expr}
    (hw : Expr.WellFormed? e) (he : (st.expr? e).errors = []) (hk : ∀ s ∈ st.exprSites? os e, known s) :
    Expr.Fits? known pending st os e := by
  cases e with
  | none => trivial
  | some e => exact fits_expr_of_place hl hw he hk

/-- The superclass of a class runs before the class is declared, and is not the class itself. -/
theorem fits_superclass (name : Token) {e : Option Expr} (hw : Expr.IsSuperclass? e)
    (he : ((st.declared name).superclass name e).errors = [])
    (hk : ∀ s ∈ { st.declared name with inClass := .derived }.exprSites? os e, known s) :
    Expr.Fits? known pending st os e := by
  cases e with
  | none => trivial
  | some e =>
    obtain ⟨id, superclass, rfl, -⟩ := hw
    simp only [Static.superclass, Findings.errors_append, List.append_eq_nil_iff,
      Findings.errors_brokenIf, decide_eq_false_iff_not] at he
    have hsite : known ((st.declared name).site os id superclass.lexeme) :=
      hk _ List.mem_cons_self
    rwa [site, distance?_declared_of_ne st name (Ne.symm he.1), Static.extent,
      function_declared] at hsite

mutual

theorem fits_stmt (st : Static) (os : List Origin) (hl : Layers st.inClass st.scopes os)
    (ho : Declarable os) :
    (s : Stmt) → s.WellFormed → (st.stmt s).2.errors = [] → (∀ t ∈ st.stmtSites os s, known t) →
      (∀ p ∈ s.initializers, ∀ id ∈ p.2.ids, pending p.1.lexeme id) → s.Fits known pending st os
  | .expression e, hw, he, hk, _ => fits_expr_of_place hl hw he hk
  | .print e, hw, he, hk, _ => fits_expr_of_place hl hw he hk
  | .var name none, hw, _, _, _ => ⟨hw.1, trivial⟩
  | .var name (some e), hw, he, hk, hp => by
    simp only [stmt, Findings.errors_append, List.append_eq_nil_iff] at he
    refine ⟨hw.1, fits_expr (.declare st hw.1) hl e hw.2 he.2 hk ?_⟩
    rintro x rfl
    exact hp (name, e) List.mem_cons_self
  | .block body, hw, he, hk, hp =>
    fits_stmts _ _ (hl.enter (.inl ⟨body, rfl⟩)) trivial body hw he hk hp
  | .if_ condition thenBranch none, hw, he, hk, hp => by
    simp only [stmt, Findings.errors_append, List.append_eq_nil_iff] at he
    simp only [stmtSites, List.forall_mem_append] at hk
    exact ⟨fits_expr_of_place hl hw.1 he.1 hk.1,
      fits_stmt st os hl ho thenBranch hw.2.1 he.2 hk.2 hp,
      st.stmt_of_declares_eq_false _ hw.2.1 hw.2.2⟩
  | .if_ condition thenBranch (some elseBranch), hw, he, hk, hp => by
    obtain ⟨hc, ⟨hthen, hthen'⟩, helse, helse'⟩ := hw
    have hst := st.stmt_of_declares_eq_false _ hthen hthen'
    simp only [stmt, hst, Findings.errors_append, List.append_eq_nil_iff] at he
    simp only [stmtSites, hst, List.forall_mem_append] at hk
    simp only [Stmt.initializers, List.forall_mem_append] at hp
    exact ⟨fits_expr_of_place hl hc he.1.1 hk.1,
      ⟨fits_stmt st os hl ho thenBranch hthen he.1.2 hk.2.1 hp.1, hst⟩,
      fits_stmt st os hl ho elseBranch helse he.2 hk.2.2 hp.2,
      st.stmt_of_declares_eq_false _ helse helse'⟩
  | .while_ condition body, hw, he, hk, hp => by
    simp only [stmt, Findings.errors_append, List.append_eq_nil_iff] at he
    simp only [stmtSites, List.forall_mem_append] at hk
    exact ⟨fits_expr_of_place hl hw.1 he.1 hk.1,
      fits_stmt st os hl ho body hw.2.1 he.2 hk.2 hp,
      st.stmt_of_declares_eq_false _ hw.2.1 hw.2.2⟩
  | .fun_ f, hw, he, hk, hp => by
    simp only [stmt, Findings.errors_append, List.append_eq_nil_iff] at he
    exact ⟨hw.1, fits_fun _ os (hl.declared ho hw.1) .function f hw.2 he.2 hk hp⟩
  | .return_ _ value, hw, he, hk, _ => by
    simp only [stmt, returned, Findings.errors_append, List.append_eq_nil_iff,
      Findings.errors_brokenIf, decide_eq_false_iff_not] at he
    exact ⟨he.1.1, fits_expr?_of_place hl hw he.2 hk⟩
  | .class_ name superclass methods, hw, he, hk, hp => by
    simp only [stmt, Findings.errors_append, List.append_eq_nil_iff] at he
    simp only [stmtSites, List.forall_mem_append] at hk
    exact ⟨hw.1, fits_superclass name hw.2.1 he.1.2 hk.1,
      fits_methods _ _ methods (fun _ hf => (hl.declared ho hw.1).methodsPlace _ hf) hw.2.2 he.2
        hk.2 hp⟩

theorem fits_stmts (st : Static) (os : List Origin) (hl : Layers st.inClass st.scopes os)
    (ho : Declarable os) :
    (ss : List Stmt) → Stmt.AllWellFormed ss → (st.stmts ss).2.errors = [] →
      (∀ t ∈ st.stmtsSites os ss, known t) →
        (∀ p ∈ Stmt.allInitializers ss, ∀ id ∈ p.2.ids, pending p.1.lexeme id) →
          Stmt.AllFit known pending st os ss
  | [], _, _, _, _ => trivial
  | s :: ss, hw, he, hk, hp => by
    simp only [stmts, Findings.errors_append, List.append_eq_nil_iff] at he
    simp only [stmtsSites, List.forall_mem_append] at hk
    simp only [Stmt.allInitializers, List.forall_mem_append] at hp
    exact ⟨fits_stmt st os hl ho s hw.1 he.1 hk.1 hp.1,
      fits_stmts _ os (hl.stmt ho hw.1) ho ss hw.2 he.2 hk.2 hp.2⟩

theorem fits_fun (st : Static) (os : List Origin) (hl : Layers st.inClass st.scopes os)
    (context : FunctionContext) :
    (f : FunDeclOf Stmt) → Stmt.FunWellFormed f → (st.funDecl context f).errors = [] →
      (∀ t ∈ st.funSites context os f, known t) →
        (∀ p ∈ Stmt.funInitializers f, ∀ id ∈ p.2.ids, pending p.1.lexeme id) →
          Stmt.FunFits known pending st context os f
  | ⟨name, params, body⟩, hw, he, hk, hp => by
    simp only [funDecl, Findings.errors_append, List.append_eq_nil_iff] at he
    exact ⟨hw.1, fits_stmts _ _ (hl.body context (f := ⟨name, params, body⟩) hw.1) trivial body hw.2
      he.2 hk hp⟩

theorem fits_methods (st : Static) (os : List Origin) :
    (fs : List (FunDeclOf Stmt)) → (∀ f ∈ fs, Layers st.inClass st.scopes (.this f :: os)) →
      Stmt.MethodsWellFormed fs → (st.methods fs).errors = [] →
      (∀ t ∈ st.methodsSites os fs, known t) →
        (∀ p ∈ Stmt.methodInitializers fs, ∀ id ∈ p.2.ids, pending p.1.lexeme id) →
          Stmt.MethodsFit known pending st os fs
  | [], _, _, _, _, _ => trivial
  | f :: fs, hl, hw, he, hk, hp => by
    simp only [methods, Findings.errors_append, List.append_eq_nil_iff] at he
    simp only [methodsSites, List.forall_mem_append] at hk
    simp only [Stmt.methodInitializers, List.forall_mem_append] at hp
    obtain ⟨hf, hl⟩ := List.forall_mem_cons.mp hl
    exact ⟨fits_fun st _ hf (methodContext f) f hw.1 he.1 hk.1 hp.1,
      fits_methods st os fs hl hw.2 he.2 hk.2 hp.2⟩

end

/-- The code of an accepted unit fits the top level. -/
theorem fits_unit {unit : List Stmt} (hw : Stmt.AllWellFormed unit)
    (he : (findings unit).errors = []) (hk : ∀ s ∈ sites unit, known s)
    (hp : ∀ p ∈ Stmt.allInitializers unit, ∀ id ∈ p.2.ids, pending p.1.lexeme id) :
    Stmt.AllFit known pending Static.top [] unit :=
  fits_stmts .top [] .top trivial unit hw he hk hp

end Static

/-! ## Less has to be known of code that lasts -/

variable {known' : Site → Prop} {pending' : String → NodeId → Prop} {st : Static}
  {os : List Origin}

/-- What is known of references that last is known in another way too. -/
structure Lasts (known : Site → Prop) (pending : String → NodeId → Prop) (known' : Site → Prop)
    (pending' : String → NodeId → Prop) : Prop where
  known : ∀ s : Site, s.extent = .lasting → known s → known' s
  pending : ∀ x id, pending x id → pending' x id

namespace Lasts

theorem site (h : Lasts known pending known' pending') (hst : st.function ≠ .topLevel)
    {id : NodeId} {d : Option Nat} (hk : known ⟨id, os, d, st.extent⟩) :
    known' ⟨id, os, d, st.extent⟩ :=
  h.known _ (if_neg hst) hk

mutual

theorem expr (h : Lasts known pending known' pending') (hst : st.function ≠ .topLevel) :
    (e : Expr) → e.Fits known pending st os → e.Fits known' pending' st os
  | .literal _, _ => trivial
  | .group inner, hf => h.expr hst inner hf
  | .unary _ operand, hf => h.expr hst operand hf
  | .binary left _ right, hf => ⟨h.expr hst left hf.1, h.expr hst right hf.2⟩
  | .logical left _ right, hf => ⟨h.expr hst left hf.1, h.expr hst right hf.2⟩
  | .var _ _, hf => h.site hst hf
  | .assign _ _ value, hf =>
    ⟨hf.1, h.expr hst value hf.2.1,
      hf.2.2.imp (h.site hst) fun hf => ⟨hf.1, h.site hst hf.2.1, h.pending _ _ hf.2.2⟩⟩
  | .call callee _ arguments, hf => ⟨h.expr hst callee hf.1, h.exprs hst arguments hf.2⟩
  | .get object _, hf => h.expr hst object hf
  | .set object _ value, hf => ⟨h.expr hst object hf.1, h.expr hst value hf.2⟩
  | .this _ _, hf => ⟨hf.1, h.site hst hf.2.1, hf.2.2⟩
  | .super _ _ _, hf => ⟨h.site hst hf.1, hf.2⟩

theorem exprs (h : Lasts known pending known' pending') (hst : st.function ≠ .topLevel) :
    (es : List Expr) → Expr.AllFit known pending st os es → Expr.AllFit known' pending' st os es
  | [], _ => trivial
  | e :: es, hf => ⟨h.expr hst e hf.1, h.exprs hst es hf.2⟩

end

theorem expr? (h : Lasts known pending known' pending') (hst : st.function ≠ .topLevel)
    {e : Option Expr} (hf : Expr.Fits? known pending st os e) :
    Expr.Fits? known' pending' st os e := by
  cases e with
  | none => trivial
  | some e => exact h.expr hst e hf

mutual

theorem stmt (h : Lasts known pending known' pending') {st : Static} {os : List Origin}
    (hst : st.function ≠ .topLevel) :
    (s : Stmt) → s.Fits known pending st os → s.Fits known' pending' st os
  | .expression e, hf => h.expr hst e hf
  | .print e, hf => h.expr hst e hf
  | .var _ _, hf => ⟨hf.1, h.expr? hst hf.2⟩
  | .block body, hf => h.stmts (show (st.enter []).function ≠ .topLevel from hst) body hf
  | .if_ condition thenBranch none, hf =>
    ⟨h.expr hst condition hf.1, h.stmt hst thenBranch hf.2.1, hf.2.2⟩
  | .if_ condition thenBranch (some elseBranch), hf =>
    ⟨h.expr hst condition hf.1, ⟨h.stmt hst thenBranch hf.2.1.1, hf.2.1.2⟩,
      h.stmt hst elseBranch hf.2.2.1, hf.2.2.2⟩
  | .while_ condition body, hf => ⟨h.expr hst condition hf.1, h.stmt hst body hf.2.1, hf.2.2⟩
  | .fun_ f, hf => ⟨hf.1, h.function (by simp) f hf.2⟩
  | .return_ _ _, hf => ⟨hst, h.expr? hst hf.2⟩
  | .class_ _ _ methods, hf => ⟨hf.1, h.expr? hst hf.2.1, h.methods methods hf.2.2⟩

theorem stmts (h : Lasts known pending known' pending') {st : Static} {os : List Origin}
    (hst : st.function ≠ .topLevel) :
    (ss : List Stmt) → Stmt.AllFit known pending st os ss → Stmt.AllFit known' pending' st os ss
  | [], _ => trivial
  | s :: ss, hf => ⟨h.stmt hst s hf.1, h.stmts (by simpa using hst) ss hf.2⟩

theorem function (h : Lasts known pending known' pending') {st : Static} {os : List Origin}
    {context : FunctionContext} (hc : context ≠ .topLevel) :
    (f : FunDeclOf Stmt) → Stmt.FunFits known pending st context os f →
      Stmt.FunFits known' pending' st context os f
  | ⟨_, _, body⟩, hf => ⟨hf.1, h.stmts (by simpa using hc) body hf.2⟩

theorem methods (h : Lasts known pending known' pending') {st : Static} {os : List Origin} :
    (fs : List (FunDeclOf Stmt)) → Stmt.MethodsFit known pending st os fs →
      Stmt.MethodsFit known' pending' st os fs
  | [], _ => trivial
  | f :: fs, hf => ⟨h.function (Static.methodContext_ne f) f hf.1, h.methods fs hf.2⟩

end

end Lasts

end

end LoxWalk
