import Mathlib.Data.List.Forall2
import LoxWalk.Proofs.Execution.Moments

/-!
# Classes and their declarations

A class holds the classes that it inherits from, so that a search for a method needs nothing but the
class: it goes through `Class.upwards`, nearest first.  What a class holds goes back to the moment at
which it was declared (`Moment.Declares`): its superclass is the one of that moment, and of several
methods that were declared under one name it has the last.
-/

namespace LoxWalk

open Exec

/-! ## A class and those above it -/

namespace Class

/-- The class and all classes that it inherits from, nearest first. -/
def upwards : Class → List Class
  | base c => [base c]
  | derived c s => derived c s :: s.upwards

theorem map_own_upwards (c : Class) : c.upwards.map own = c.lineage := by
  induction c with
  | base c => rfl
  | derived c s ih => rw [upwards, List.map_cons, ih, own, lineage]

theorem method?_eq_findSome?_upwards (c : Class) (x : String) :
    c.method? x = c.upwards.findSome? (·.own.methods.get? x) := by
  rw [method?_eq_findSome?, ← map_own_upwards, List.findSome?_map]
  rfl

end Class

/-! ## Looking a method up -/

/-- If the bodies of two classes and of those above them have related methods, so have the classes. -/
theorem Class.rel_method? {R : ClassBody → ClassBody → Prop} {Q : Closure → Closure → Prop}
    {c c' : Class} {x : String} (h : List.Forall₂ R c.lineage c'.lineage)
    (hR : ∀ b b', R b b' → Option.Rel Q (b.methods.get? x) (b'.methods.get? x)) :
    Option.Rel Q (c.method? x) (c'.method? x) := by
  rw [method?_eq_findSome?, method?_eq_findSome?]
  generalize c.lineage = l, c'.lineage = l' at h
  induction h with
  | nil => exact .none
  | @cons b b' _ _ hb _ ih =>
    rw [List.findSome?_cons, List.findSome?_cons]
    have hfound := hR b b' hb
    revert hfound
    generalize b.methods.get? x = f, b'.methods.get? x = f'
    intro hfound
    cases hfound with
    | none => exact ih
    | some hf => exact .some hf

/-- The method of that name, bound to the instance; without one the name is reported. -/
def Class.methodFor (c : Class) (i : Instance) (name : Token) : Exec Value :=
  match c.method? name.lexeme with
  | some f => do return .function (← bindMethod f i)
  | none => fault name (.undefinedProperty name.lexeme)

section

variable {c : Class} {i : Instance} {name : Token} {m : Machine}

theorem Class.methodFor_of_some {f : Closure} (h : c.method? name.lexeme = some f) :
    c.methodFor i name = do return .function (← bindMethod f i) := by
  rw [methodFor, h]

theorem Class.methodFor_of_none (h : c.method? name.lexeme = none) :
    c.methodFor i name = fault name (.undefinedProperty name.lexeme) := by
  rw [methodFor, h]

theorem Exec.getProperty_of_field {v : Value}
    (h : m.store.field? i.record name.lexeme = some v) :
    getProperty (.instance_ i) name m = .ok v m := by
  unfold getProperty
  dsimp only
  rewrite [get_bind, h]
  rfl

theorem Exec.getProperty_of_no_field (h : m.store.field? i.record name.lexeme = none) :
    getProperty (.instance_ i) name m = i.ofClass.methodFor i name m := by
  unfold getProperty
  dsimp only
  rewrite [get_bind, h]
  cases hf : i.ofClass.method? name.lexeme with
  | none =>
    rewrite [Class.methodFor_of_none hf]
    rfl
  | some f =>
    rewrite [Class.methodFor_of_some hf]
    rfl

theorem Exec.superMethod_eq {s : Setting} {id : NodeId} {keyword : Token} {d : Nat}
    (hd : s.distances.distance? id = some d)
    (hc : m.store.getAt? m.scope d superName = some (.class_ c))
    (hi : m.store.getAt? m.scope (d - 1) thisName = some (.instance_ i)) :
    superMethod s id keyword name m = c.methodFor i name m := by
  unfold superMethod
  rewrite [get_bind, hd]
  dsimp only
  rewrite [hc, hi]
  dsimp only
  cases hf : c.method? name.lexeme with
  | none =>
    rewrite [Class.methodFor_of_none hf]
    rfl
  | some f =>
    rewrite [Class.methodFor_of_some hf]
    rfl

theorem Exec.superMethod_of_not_found {s : Setting} {id : NodeId} {keyword : Token}
    (h : ∀ d c j, s.distances.distance? id = some d →
      m.store.getAt? m.scope d superName = some (.class_ c) →
        m.store.getAt? m.scope (d - 1) thisName ≠ some (.instance_ j)) :
    superMethod s id keyword name m =
      .error (.fault (.atToken keyword (.undefinedVariable superName))) m := by
  cases hd : s.distances.distance? id with
  | none =>
    simp only [superMethod, hd]
    rfl
  | some d =>
    simp only [superMethod, hd]
    rw [get_bind]
    cases hc : m.store.getAt? m.scope d superName with
    | none => rfl
    | some v =>
      cases v with
      | class_ c =>
        cases hj : m.store.getAt? m.scope (d - 1) thisName with
        | none => rfl
        | some w =>
          cases w with
          | instance_ j => exact absurd hj (h d c j hd hc)
          | _ => rfl
      | _ => rfl

/-- A method on `super` is looked up in a superclass that is at hand together with an instance, or it
is not looked up at all. -/
theorem Exec.superMethod_cases (s : Setting) (id : NodeId) (keyword name : Token) (m : Machine) :
    (∃ d c i, s.distances.distance? id = some d ∧
      m.store.getAt? m.scope d superName = some (.class_ c) ∧
        m.store.getAt? m.scope (d - 1) thisName = some (.instance_ i) ∧
          superMethod s id keyword name m = c.methodFor i name m) ∨
    (∀ d c i, s.distances.distance? id = some d →
      m.store.getAt? m.scope d superName = some (.class_ c) →
        m.store.getAt? m.scope (d - 1) thisName ≠ some (.instance_ i)) ∧
      superMethod s id keyword name m = fault keyword (.undefinedVariable superName) m := by
  by_cases hfound : ∃ d c i, s.distances.distance? id = some d ∧
      m.store.getAt? m.scope d superName = some (.class_ c) ∧
        m.store.getAt? m.scope (d - 1) thisName = some (.instance_ i)
  · obtain ⟨d, c, i, hd, hc, hi⟩ := hfound
    exact .inl ⟨d, c, i, hd, hc, hi, superMethod_eq hd hc hi⟩
  · have hnot : ∀ d c i, s.distances.distance? id = some d →
        m.store.getAt? m.scope d superName = some (.class_ c) →
          m.store.getAt? m.scope (d - 1) thisName ≠ some (.instance_ i) :=
      fun d c i hd hc hi => hfound ⟨d, c, i, hd, hc, hi⟩
    exact .inr ⟨hnot, superMethod_of_not_found hnot⟩

end

/-! ## The methods of a class -/

/-- The last of several functions that have one name. -/
def lastNamed? (methods : List FunDecl) (x : String) : Option FunDecl :=
  methods.reverse.find? (·.name.lexeme == x)

theorem lastNamed?_cons (f : FunDecl) (methods : List FunDecl) (x : String) :
    lastNamed? (f :: methods) x =
      (lastNamed? methods x).or (if f.name.lexeme = x then some f else none) := by
  rw [lastNamed?, List.reverse_cons, List.find?_append, lastNamed?]
  by_cases h : f.name.lexeme = x <;> simp [h]

theorem lastNamed?_eq_none_iff {methods : List FunDecl} {x : String} :
    lastNamed? methods x = none ↔ ∀ f ∈ methods, f.name.lexeme ≠ x := by
  simp [lastNamed?]

theorem mem_of_lastNamed? {methods : List FunDecl} {x : String} {f : FunDecl}
    (h : lastNamed? methods x = some f) : f ∈ methods :=
  List.mem_reverse.mp (List.mem_of_find?_eq_some h)

/-- The entry of a table under a name after methods were put into it, in the order of their
declaration. -/
def Entered (scope : Scope) (decls : List FunDecl) (table table' : NameMap Closure) (x : String) :
    Prop :=
  match lastNamed? decls x with
  | none => table'.get? x = table.get? x
  | some decl => ∃ id, table'.get? x = some ⟨id, decl, scope, decl.isInitializer⟩

/-- What a table holds that was not there before is one of the new methods. -/
theorem Entered.of_get? {scope : Scope} {decls : List FunDecl} {table table' : NameMap Closure}
    {x : String} (h : Entered scope decls table table' x) {f : Closure}
    (hf : table'.get? x = some f) :
    table.get? x = some f ∨
      f.decl ∈ decls ∧ f.scope = scope ∧ f.isInitializer = f.decl.isInitializer := by
  unfold Entered at h
  cases hlast : lastNamed? decls x with
  | none =>
    rw [hlast] at h
    exact .inl (h ▸ hf)
  | some decl =>
    rw [hlast] at h
    obtain ⟨id, hid⟩ := h
    obtain rfl : ⟨id, decl, scope, decl.isInitializer⟩ = f := Option.some.inj (hid.symm.trans hf)
    exact .inr ⟨mem_of_lastNamed? hlast, rfl, rfl⟩

/-- Making the methods of a class changes no frame and no record, and the last method counts that is
declared under a name. -/
theorem exists_newMethods (scope : Scope) (decls : List FunDecl) (table : NameMap Closure)
    (m : Machine) :
    ∃ table' k, newMethods scope decls table m =
        .ok table' { m with store := { m.store with nextObject := k } } ∧
      ∀ x, Entered scope decls table table' x := by
  induction decls generalizing table m with
  | nil => exact ⟨table, m.store.nextObject, rfl, fun x => rfl⟩
  | cons decl decls ih =>
    let f : Closure := ⟨m.store.freshObject, decl, scope, decl.isInitializer⟩
    obtain ⟨table', k, heq, hall⟩ := ih (table.insert decl.name.lexeme f)
      { m with store := m.store.useObject }
    refine ⟨table', k, heq, fun x => ?_⟩
    have hx := hall x
    unfold Entered at hx ⊢
    rw [lastNamed?_cons]
    cases hlast : lastNamed? decls x with
    | some g =>
      rw [hlast] at hx
      exact hx
    | none =>
      -- no later method has the name, so it is the first one that counts
      rw [hlast, NameMap.get?_insert] at hx
      by_cases hname : decl.name.lexeme = x
      · rw [if_pos hname] at hx ⊢
        exact ⟨f.id, hx⟩
      · rw [if_neg hname] at hx ⊢
        exact hx

/-! ## Declarations -/

/-- A class with these parts. -/
def Class.ofParts (own : ClassBody) : Option Class → Class
  | some s => .derived own s
  | none => .base own

@[simp]
theorem Class.own_ofParts (own : ClassBody) (s : Option Class) : (ofParts own s).own = own := by
  cases s <;> rfl

@[simp]
theorem Class.superclass?_ofParts (own : ClassBody) (s : Option Class) :
    (ofParts own s).superclass? = s := by
  cases s <;> rfl

/-- The machine on which the methods of a class are made: the name of the class is reserved, and
there is one more frame if there is a superclass. -/
def Machine.reserved (m : Machine) (name : Token) (superclass : Option Class) : Machine :=
  let σ := m.store.define m.scope name.lexeme .nil
  match superclass with
  | some c => { m with store := σ.addFrame (NameMap.empty.insert superName (.class_ c)) }
  | none => { m with store := σ }

/-- The scope of the methods of a class. -/
def Machine.methodScope (m : Machine) : Option Class → Scope
  | some _ => .inside m.store.freshFrame m.scope
  | none => m.scope

theorem Machine.frame_lt_reserved {m : Machine} (h : m.scope.frame.index < m.store.frames.size)
    (name : Token) (superclass : Option Class) :
    m.scope.frame.index < (m.reserved name superclass).store.frames.size := by
  cases superclass with
  | none => simpa [reserved, Store.define] using h
  | some c =>
    simp only [reserved, Store.define, Store.addFrame, Array.size_push, Array.size_modify]
    omega

/-- The machine on which the class is declared. -/
def Machine.withClass (m : Machine) (name : Token) (superclass : Option Class) (own : ClassBody)
    (k : Nat) : Machine :=
  { m with
    store := ({ (m.reserved name superclass).store with nextObject := k }).define m.scope name.lexeme
      (.class_ (.ofParts own superclass)) }

theorem Machine.getLocal?_withClass {m : Machine} {name : Token} {superclass : Option Class}
    (h : m.scope.frame.index < (m.reserved name superclass).store.frames.size) (own : ClassBody)
    (k : Nat) :
    (m.withClass name superclass own k).store.getLocal? m.scope name.lexeme =
      some (.class_ (.ofParts own superclass)) :=
  (Store.getLocal?_define _ _ _ _ _ _ h).trans (if_pos ⟨rfl, rfl⟩)

/-- A declaration always succeeds.  It makes the methods, and then binds the name of the class. -/
theorem exists_declareClass (name : Token) (superclass : Option Class) (methods : List FunDecl)
    (m : Machine) :
    ∃ own k, own.name = name.lexeme ∧
      (∀ x, Entered (m.methodScope superclass) methods .empty own.methods x) ∧
      declareClass name superclass methods m = .ok () (m.withClass name superclass own k) := by
  obtain ⟨table, k, hmade, htable⟩ := exists_newMethods (m.methodScope superclass) methods .empty
    (m.reserved name superclass)
  refine ⟨⟨⟨k⟩, name.lexeme, table⟩, k + 1, rfl, htable, ?_⟩
  have hreserve : define name .nil m =
      .ok () { m with store := m.store.define m.scope name.lexeme .nil } := rfl
  unfold declareClass
  rw [bind_of_ok hreserve]
  refine (get_bind _ _).trans ?_
  cases superclass with
  | none =>
    refine (bind_of_ok (a := m.scope) rfl).trans ?_
    exact (bind_of_ok hmade).trans rfl
  | some c =>
    have hfresh : (m.store.define m.scope name.lexeme .nil).freshFrame = m.store.freshFrame := by
      simp [Store.freshFrame, Store.define]
    have hopened : newScope m.scope (NameMap.empty.insert superName (.class_ c))
        { m with store := m.store.define m.scope name.lexeme .nil } =
          .ok (m.methodScope (some c)) (m.reserved name (some c)) := by
      show EStateM.Result.ok (Scope.inside _ m.scope) _ = _
      rw [hfresh]
      rfl
    refine (bind_of_ok hopened).trans ?_
    exact (bind_of_ok hmade).trans rfl

/-- The class `c` is declared at the moment with these methods: carrying out the task binds the name
of the class to it. -/
def Moment.Declares (μ : Moment) (c : Class) (methods : List FunDecl) : Prop :=
  ∃ name m', μ.task = .declareClass name c.superclass? methods ∧
    declareClass name c.superclass? methods μ.machine = .ok () m' ∧
      m'.store.getLocal? μ.machine.scope name.lexeme = some (.class_ c)

theorem Moment.declares_ofParts {n : Nat} {name : Token} {superclass : Option Class}
    {methods : List FunDecl} {m : Machine} {own : ClassBody} {k : Nat}
    (hlt : m.scope.frame.index < m.store.frames.size)
    (h : declareClass name superclass methods m = .ok () (m.withClass name superclass own k)) :
    Declares ⟨n, .declareClass name superclass methods, m⟩ (.ofParts own superclass) methods := by
  refine ⟨name, m.withClass name superclass own k, ?_, ?_, ?_⟩
  · rw [Class.superclass?_ofParts]
  · rwa [Class.superclass?_ofParts]
  · exact m.getLocal?_withClass (m.frame_lt_reserved hlt name superclass) own k

end LoxWalk
