import LoxWalk.Proofs.Confinement.Cells
import LoxWalk.Proofs.Execution.Balance
import LoxWalk.Proofs.Execution.Outcomes

/-!
# Code without loops

A statement is free of loops if there is no `while` anywhere in it, be it in the body of a function
or of a method that it declares.  A value is free of loops if its functions and methods are.

Code that runs finds its callees in the store.  For some cells, those that it can get at, a store is
tame if everything bound in them is free of loops and refers to such cells again (`Store.Tame`).
Every single step leaves a tame store behind if it starts with one, and yields a tame value
(`Exec.Tames`): functions and methods come from code that runs, and that is free of loops too.
-/

namespace LoxWalk

open Exec

/-! ## Trees -/

mutual

/-- There is no loop in a statement, nor in the functions and methods that it declares. -/
def Stmt.LoopFree : Stmt → Prop
  | .expression _ => True
  | .print _ => True
  | .var _ _ => True
  | .block body => Stmt.AllLoopFree body
  | .if_ _ thenBranch elseBranch => Stmt.LoopFree thenBranch ∧ Stmt.LoopFree? elseBranch
  | .while_ _ _ => False
  | .fun_ decl => Stmt.FunLoopFree decl
  | .return_ _ _ => True
  | .class_ _ _ methods => Stmt.MethodsLoopFree methods

def Stmt.AllLoopFree : List Stmt → Prop
  | [] => True
  | t :: ts => Stmt.LoopFree t ∧ Stmt.AllLoopFree ts

def Stmt.FunLoopFree : FunDeclOf Stmt → Prop
  | ⟨_, _, body⟩ => Stmt.AllLoopFree body

def Stmt.MethodsLoopFree : List (FunDeclOf Stmt) → Prop
  | [] => True
  | decl :: decls => Stmt.FunLoopFree decl ∧ Stmt.MethodsLoopFree decls

def Stmt.LoopFree? : Option Stmt → Prop
  | none => True
  | some t => Stmt.LoopFree t

end

theorem Stmt.funLoopFree_of_mem {decls : List FunDecl} (h : Stmt.MethodsLoopFree decls)
    {decl : FunDecl} (hdecl : decl ∈ decls) : Stmt.FunLoopFree decl := by
  induction decls with
  | nil => cases hdecl
  | cons d decls ih =>
    rw [Stmt.MethodsLoopFree] at h
    rcases List.mem_cons.mp hdecl with rfl | hdecl
    · exact h.1
    · exact ih h.2 hdecl

/-! ## Values -/

/-- There is no loop in the body of a function. -/
def Closure.LoopFree (f : Closure) : Prop :=
  Stmt.FunLoopFree f.decl

theorem Closure.LoopFree.body {f : Closure} (h : f.LoopFree) : Stmt.AllLoopFree f.decl.body := by
  obtain ⟨_, ⟨_, _, _⟩, _, _⟩ := f
  exact h

/-- There is no loop in the methods of a class, the inherited ones among them. -/
def Class.LoopFree (c : Class) : Prop :=
  ∀ own ∈ c.lineage, ∀ x f, own.methods.get? x = some f → f.LoopFree

/-- There is no loop in the functions and methods of a value. -/
def Value.LoopFree : Value → Prop
  | function f => f.LoopFree
  | class_ c => c.LoopFree
  | instance_ i => i.ofClass.LoopFree
  | _ => True

theorem Class.LoopFree.method {c : Class} (h : c.LoopFree) {x : String} {f : Closure}
    (hf : c.method? x = some f) : f.LoopFree := by
  rw [Class.method?_eq_findSome?] at hf
  obtain ⟨own, hown, hf⟩ := List.exists_of_findSome?_eq_some hf
  exact h own hown x f hf

/-- A host whose functions make no loops: what they give back is free of loops if their arguments
are. -/
def Host.LoopFree (host : Host) : Prop :=
  ∀ name arguments v, host name arguments = .ok v → (∀ a ∈ arguments, a.LoopFree) → v.LoopFree

theorem Host.loopFree_clockAt (now : Float) : (Host.clockAt now).LoopFree := by
  intro name arguments v hv _
  unfold Host.clockAt at hv
  split at hv <;> cases hv
  trivial

/-! ## Tame stores -/

variable {R : Cell → Prop}

/-- All frames of a scope are among the cells. -/
def Scope.Within (R : Cell → Prop) (scope : Scope) : Prop :=
  ∀ p, scope.Refers p → R p

/-- A value that is free of loops and leads only to the cells. -/
structure Value.Tame (R : Cell → Prop) (v : Value) : Prop where
  refers : ∀ p, v.Refers p → R p
  loopFree : v.LoopFree

/-- All values in the cells are tame, and new cells are among them. -/
structure Store.Tame (R : Cell → Prop) (σ : Store) : Prop where
  values : ∀ p b x v, R p → σ.at? p = some b → b.get? x = some v → v.Tame R
  fresh : ∀ p, σ.at? p = none → R p

namespace Value.Tame

theorem of_isPlain {v : Value} (h : v.IsPlain) : v.Tame R := by
  cases v with
  | function f => exact h.elim
  | class_ c => exact h.elim
  | instance_ i => exact h.elim
  | _ => exact ⟨fun _ hp => hp.elim, trivial⟩

theorem method {c : Class} (h : (Value.class_ c).Tame R) {x : String} {f : Closure}
    (hf : c.method? x = some f) : (Value.function f).Tame R :=
  ⟨fun p hp => h.refers p (.of_method hf hp), Class.LoopFree.method h.loopFree hf⟩

theorem ofClass {i : Instance} (h : (Value.instance_ i).Tame R) : (Value.class_ i.ofClass).Tame R :=
  ⟨fun p hp => h.refers p (.inr hp), h.loopFree⟩

end Value.Tame

namespace Store.Tame

variable {σ σ' : Store}

theorem getLocal? (h : σ.Tame R) {scope : Scope} (hscope : scope.Within R) {x : String} {v : Value}
    (hv : σ.getLocal? scope x = some v) : v.Tame R := by
  obtain ⟨b, hb, hv⟩ := Store.at?_of_getLocal? hv
  exact h.values _ b x v (hscope _ scope.refers_frame) hb hv

theorem getAt? (h : σ.Tame R) {scope : Scope} (hscope : scope.Within R) {d : Nat} {x : String}
    {v : Value} (hv : σ.getAt? scope d x = some v) : v.Tame R := by
  obtain ⟨outer, houter, hv⟩ := Option.bind_eq_some_iff.mp hv
  exact h.getLocal? (fun p hp => hscope p (Scope.refers_of_ancestor? houter hp)) hv

theorem get? (h : σ.Tame R) {scope : Scope} (hscope : scope.Within R) {x : String} {v : Value}
    (hv : σ.get? scope x = some v) : v.Tame R := by
  obtain ⟨owner, howner, hv⟩ := Option.bind_eq_some_iff.mp hv
  exact h.getLocal? (fun p hp => hscope p (Store.refers_of_owner? howner hp)) hv

theorem field? (h : σ.Tame R) {r : RecordId} (hr : R (.record r)) {x : String} {v : Value}
    (hv : σ.field? r x = some v) : v.Tame R := by
  obtain ⟨b, hb, hv⟩ := Store.at?_of_field? hv
  exact h.values _ b x v hr hb hv

/-- Binding a name of one cell. -/
theorem insert (h : σ.Tame R) {q : Cell} {x : String} {v : Value} (hv : v.Tame R)
    (hat : ∀ p, σ'.at? p = σ.at? p ∨ p = q ∧ σ'.at? p = (σ.at? p).map (·.insert x v)) :
    σ'.Tame R := by
  refine ⟨fun p b y w hp hb hw => ?_, fun p hp => h.fresh p ?_⟩
  · rcases hat p with heq | ⟨-, heq⟩
    · exact h.values p b y w hp (heq ▸ hb) hw
    · rw [heq] at hb
      obtain ⟨b', hb', rfl⟩ := Option.map_eq_some_iff.mp hb
      exact NameMap.forall_insert (fun z u hu => h.values p b' z u hp hb' hu) hv y w hw
  · rcases hat p with heq | ⟨-, heq⟩
    · rw [← heq, hp]
    · rwa [heq, Option.map_eq_none_iff] at hp

theorem define (h : σ.Tame R) (scope : Scope) (x : String) {v : Value} (hv : v.Tame R) :
    (σ.define scope x v).Tame R :=
  h.insert hv (σ.at?_define scope x v)

theorem setField (h : σ.Tame R) (r : RecordId) (x : String) {v : Value} (hv : v.Tame R) :
    (σ.setField r x v).Tame R :=
  h.insert hv (σ.at?_setField r x v)

/-- Adding one cell. -/
theorem add (h : σ.Tame R) {q : Cell} {c : Bindings} (hc : ∀ x v, c.get? x = some v → v.Tame R)
    (hq : σ'.at? q = some c) (hat : ∀ p, p ≠ q → σ'.at? p = σ.at? p) : σ'.Tame R := by
  refine ⟨fun p b x v hp hb hv => ?_, fun p hp => ?_⟩
  · by_cases hpq : p = q
    · rw [hpq, hq] at hb
      cases hb
      exact hc x v hv
    · exact h.values p b x v hp (hat p hpq ▸ hb) hv
  · by_cases hpq : p = q
    · rw [hpq, hq] at hp
      cases hp
    · exact h.fresh p (hat p hpq ▸ hp)

theorem addFrame (h : σ.Tame R) {b : Bindings} (hb : ∀ x v, b.get? x = some v → v.Tame R) :
    (σ.addFrame b).Tame R :=
  h.add hb (σ.at?_addFrame_self b) fun _ hp => σ.at?_addFrame_of_ne b hp

theorem addRecord (h : σ.Tame R) : σ.addRecord.Tame R :=
  h.add (fun _ _ hv => by cases hv) σ.at?_addRecord_self fun _ hp => σ.at?_addRecord_of_ne hp

/-- The identities of functions and classes are no part of a cell. -/
theorem withObjects (h : σ.Tame R) (k : Nat) : Store.Tame R { σ with nextObject := k } :=
  ⟨fun p => by cases p <;> exact h.values _, fun p hp => h.fresh p (by cases p <;> exact hp)⟩

/-- The next frame inside a scope. -/
theorem within_freshFrame (h : σ.Tame R) {outer : Scope} (houter : outer.Within R) :
    (Scope.inside σ.freshFrame outer).Within R := by
  rintro p ⟨f, hf, rfl⟩
  rcases List.mem_cons.mp hf with rfl | hf
  · exact h.fresh _ (Array.getElem?_eq_none (Nat.le_refl _))
  · exact houter _ ⟨f, hf, rfl⟩

theorem freshRecord (h : σ.Tame R) {c : Class} (hc : (Value.class_ c).Tame R) :
    (Value.instance_ ⟨σ.freshRecord, c⟩).Tame R := by
  refine ⟨?_, hc.loopFree⟩
  rintro p (rfl | hp)
  · exact h.fresh _ (Array.getElem?_eq_none (Nat.le_refl _))
  · exact hc.refers p hp

end Store.Tame

/-! ## Single steps -/

/-- A value that is returned is tame; and an execution that is out of fuel has not ended. -/
def Interrupt.Tame (R : Cell → Prop) : Interrupt → Prop
  | .returning v => v.Tame R
  | .outOfFuel => False
  | _ => True

/-- `x` ends on the machine `m`, with a tame store; what it yields has the property `Q`. -/
def Exec.Tames {α : Type} (R : Cell → Prop) (x : Exec α) (m : Machine) (Q : α → Prop) : Prop :=
  x.Ends m (fun a m' => m'.store.Tame R ∧ Q a) fun i m' => m'.store.Tame R ∧ i.Tame R

namespace Exec.Tames

variable {α β : Type} {m n : Machine} {Q : α → Prop}

theorem of_ok {x : Exec α} {a : α} (hx : x m = .ok a n) (hn : n.store.Tame R) (ha : Q a) :
    x.Tames R m Q := by
  unfold Tames Ends
  rw [hx]
  exact ⟨hn, ha⟩

theorem pure {a : α} (h : m.store.Tame R) (ha : Q a) : (Pure.pure a : Exec α).Tames R m Q :=
  of_ok rfl h ha

theorem throw {i : Interrupt} (h : m.store.Tame R) (hi : i.Tame R) :
    (MonadExcept.throw i : Exec α).Tames R m Q :=
  ⟨h, hi⟩

theorem fault {t : Token} {e : RuntimeFault} (h : m.store.Tame R) :
    (Exec.fault t e : Exec α).Tames R m Q :=
  throw h trivial

theorem bind_ok {x : Exec α} {f : α → Exec β} {P : β → Prop} {a : α} (hx : x m = .ok a n)
    (hf : (f a).Tames R n P) : (x >>= f).Tames R m P := by
  unfold Tames Ends at hf ⊢
  rwa [bind_of_ok hx]

/-! ### Operators and variables -/

theorem operate {operator : Token} {outcome : Except RuntimeFault Value} (h : m.store.Tame R)
    (hv : ∀ v, outcome = .ok v → v.IsPlain) :
    (Exec.operate operator outcome).Tames R m (Value.Tame R) := by
  cases outcome with
  | ok v => exact .pure h (.of_isPlain (hv v rfl))
  | error e => exact .fault h

theorem readVariable {s : Setting} {id : NodeId} {name : Token} (h : m.store.Tame R)
    (hscope : m.scope.Within R) (hglobals : s.globals.Within R) :
    (Exec.readVariable s id name).Tames R m (Value.Tame R) := by
  refine .bind_ok (a := m) (n := m) rfl ?_
  dsimp only
  split
  · rename_i v hv
    refine .pure h ?_
    split at hv
    · exact h.getAt? hscope hv
    · exact h.get? hglobals hv
  · exact .fault h

theorem assignVariable {s : Setting} {id : NodeId} {name : Token} {v : Value}
    (h : m.store.Tame R) (hv : v.Tame R) :
    (Exec.assignVariable s id name v).Tames R m fun _ => True := by
  refine .bind_ok (a := m) (n := m) rfl ?_
  dsimp only
  split
  · exact .of_ok rfl (h.define _ _ hv) trivial
  · exact .fault h

theorem define {name : Token} {v : Value} (h : m.store.Tame R) (hv : v.Tame R) :
    (Exec.define name v).Tames R m fun _ => True :=
  .of_ok rfl (h.define _ _ hv) trivial

theorem print {v : Value} (h : m.store.Tame R) : (Exec.print v).Tames R m fun _ => True := by
  unfold Tames Ends Exec.print
  cases m.output.writeLine v.text with
  | mk accepted output => cases accepted <;> exact ⟨h, trivial⟩

/-! ### Functions, classes and instances -/

/-- A method together with its instance has the code of the method. -/
theorem bindMethod {f : Closure} {i : Instance} (h : m.store.Tame R)
    (hf : (Value.function f).Tame R) (hi : (Value.instance_ i).Tame R) :
    (Exec.bindMethod f i).Tames R m fun g => (Value.function g).Tame R := by
  refine .of_ok rfl ((h.addFrame (NameMap.forall_single (x := thisName) hi)).withObjects _)
    ⟨?_, hf.loopFree⟩
  exact Store.Tame.within_freshFrame h hf.refers

theorem boundInstance {f : Closure} (h : m.store.Tame R) (hf : (Value.function f).Tame R) :
    (Exec.boundInstance f).Tames R m (Value.Tame R) := by
  refine .of_ok (n := m) rfl h ?_
  cases hv : m.store.getLocal? f.scope thisName with
  | none => exact .of_isPlain trivial
  | some v => exact h.getLocal? hf.refers hv

/-- The methods of a class have the code that its declaration has. -/
theorem tame_of_methods {own : ClassBody} {scope : Scope} {methods : List FunDecl}
    (hscope : scope.Within R) (hmethods : Stmt.MethodsLoopFree methods)
    (hown : ∀ x f, own.methods.get? x = some f → f.decl ∈ methods ∧ f.scope = scope)
    {superclass : Option Class} (hsuper : ∀ c ∈ superclass, (Value.class_ c).Tame R) :
    (Value.class_ (match superclass with
      | some c => .derived own c
      | none => .base own)).Tame R := by
  have hbase : (Value.class_ (.base own)).Tame R := by
    refine ⟨?_, ?_⟩
    · rintro p ⟨own', hown', x, f, hf, hp⟩
      obtain rfl := List.mem_singleton.mp hown'
      exact hscope p ((hown x f hf).2 ▸ hp)
    · intro own' hown' x f hf
      obtain rfl := List.mem_singleton.mp hown'
      exact Stmt.funLoopFree_of_mem hmethods (hown x f hf).1
  cases superclass with
  | none => exact hbase
  | some c =>
    have hc := hsuper c rfl
    refine ⟨?_, ?_⟩
    · rintro p ⟨own', hown', hp⟩
      rcases List.mem_cons.mp hown' with rfl | hown'
      · exact hbase.refers p ⟨own', List.mem_singleton_self _, hp⟩
      · exact hc.refers p ⟨own', hown', hp⟩
    · intro own' hown'
      rcases List.mem_cons.mp hown' with rfl | hown'
      · exact hbase.loopFree own' (List.mem_singleton_self _)
      · exact hc.loopFree own' hown'

theorem declareClass {name : Token} {superclass : Option Class} {methods : List FunDecl}
    (h : m.store.Tame R) (hscope : m.scope.Within R) (hmethods : Stmt.MethodsLoopFree methods)
    (hsuper : ∀ c ∈ superclass, (Value.class_ c).Tame R) :
    (Exec.declareClass name superclass methods).Tames R m fun _ => True := by
  have hrest : ∀ (m : Machine) (scope : Scope), m.store.Tame R → scope.Within R →
      Tames R (do
        let table ← newMethods scope methods .empty
        let own : ClassBody := ⟨← newObject, name.lexeme, table⟩
        Exec.define name (.class_ (match superclass with
          | some c => .derived own c
          | none => .base own))) m fun _ => True := by
    intro m scope h hscope
    obtain ⟨table, k, heq, htable⟩ := World.newMethods_eq scope methods .empty m
    refine .bind_ok heq (.bind_ok rfl (.define ((h.withObjects k).withObjects _) ?_))
    refine tame_of_methods hscope hmethods (fun x f hf => ?_) hsuper
    rcases htable x f hf with hf | hf
    · cases hf
    · exact hf
  -- the name is bound first
  have hm := h.define m.scope name.lexeme (v := .nil) (.of_isPlain trivial)
  refine .bind_ok (a := ()) (n := { m with store := m.store.define m.scope name.lexeme .nil }) rfl ?_
  refine .bind_ok rfl ?_
  cases superclass with
  | none => exact hrest _ m.scope hm hscope
  | some c =>
    refine .bind_ok rfl (hrest _ _ (hm.addFrame ?_) (hm.within_freshFrame hscope))
    exact NameMap.forall_single (hsuper c rfl)

/-! ### Properties -/

theorem methodFor {c : Class} {i : Instance} {name : Token} (h : m.store.Tame R)
    (hc : (Value.class_ c).Tame R) (hi : (Value.instance_ i).Tame R) :
    (c.methodFor i name).Tames R m (Value.Tame R) := by
  unfold Class.methodFor
  split
  · rename_i f hf
    exact bindMethod h (hc.method hf) hi
  · exact .fault h

theorem getProperty {v : Value} {name : Token} (h : m.store.Tame R) (hv : v.Tame R) :
    (Exec.getProperty v name).Tames R m (Value.Tame R) := by
  cases v with
  | instance_ i =>
    refine .bind_ok (a := m) (n := m) rfl ?_
    split
    · rename_i w hw
      exact .pure h (h.field? (hv.refers _ (.inl rfl)) hw)
    · exact methodFor h hv.ofClass hv
  | _ => exact .fault h

theorem fieldOwner {v : Value} {name : Token} (h : m.store.Tame R) :
    (Exec.fieldOwner v name).Tames R m fun _ => True := by
  unfold Exec.fieldOwner
  split
  · exact .pure h trivial
  · exact .fault h

theorem superclassOf {name : Token} {e : Expr} {v : Value} (h : m.store.Tame R) (hv : v.Tame R) :
    (Exec.superclassOf name e v).Tames R m fun c => (Value.class_ c).Tame R := by
  unfold Exec.superclassOf
  split
  · exact .pure h hv
  · split <;> exact .fault h

theorem superMethod {s : Setting} {id : NodeId} {keyword method : Token} (h : m.store.Tame R)
    (hscope : m.scope.Within R) :
    (Exec.superMethod s id keyword method).Tames R m (Value.Tame R) := by
  refine .bind_ok (a := m) (n := m) rfl ?_
  split
  · exact .fault h
  · split
    · rename_i c i hc hi
      exact methodFor h (h.getAt? hscope hc) (h.getAt? hscope hi)
    · exact .fault h

end Exec.Tames

end LoxWalk
