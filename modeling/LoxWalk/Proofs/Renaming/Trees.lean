import Mathlib.Logic.Equiv.Basic
import LoxWalk.Proofs.Grammar.Trees
import LoxWalk.Proofs.Grammar.Words
import LoxWalk.Proofs.Simulation.Code

/-!
# Renaming a local variable

A `LocalRenaming` changes the name of a variable that is declared in one of the local scopes of a
program: in a block, or in a function, whose parameters share the scope of its body.  It changes the
declaration, and those references by that name for which the recorded distance leads to this scope
(`Stmt.renameAll`).

The result differs from the program as a `Twin` says that flags this scope (`Stmt.twins_renameAll`).
-/

namespace LoxWalk

/-! ## Local scopes -/

/-- A block without parameters, or a function. -/
structure LocalScope where
  params : List Token
  body : List Stmt

/-- The scope declares a variable `x`, as a parameter or by `var`. -/
def LocalScope.DeclaresVariable (scope : LocalScope) (x : String) : Prop :=
  (∃ p ∈ scope.params, p.lexeme = x) ∨
    ∃ name initializer, .var name initializer ∈ scope.body ∧ name.lexeme = x

mutual

/-- The local scopes in a statement, each in front of those inside it. -/
def Stmt.localScopes : Stmt → List LocalScope
  | .expression _ => []
  | .print _ => []
  | .var _ _ => []
  | .block body => ⟨[], body⟩ :: Stmt.allLocalScopes body
  | .if_ _ thenBranch none => thenBranch.localScopes
  | .if_ _ thenBranch (some elseBranch) => thenBranch.localScopes ++ elseBranch.localScopes
  | .while_ _ body => body.localScopes
  | .fun_ f => Stmt.funLocalScopes f
  | .return_ _ _ => []
  | .class_ _ _ methods => Stmt.methodLocalScopes methods

/-- The local scopes in several statements. -/
def Stmt.allLocalScopes : List Stmt → List LocalScope
  | [] => []
  | s :: ss => s.localScopes ++ Stmt.allLocalScopes ss

/-- The local scopes in a function, itself included. -/
def Stmt.funLocalScopes : FunDeclOf Stmt → List LocalScope
  | ⟨_, params, body⟩ => ⟨params, body⟩ :: Stmt.allLocalScopes body

/-- The local scopes in the methods of a class. -/
def Stmt.methodLocalScopes : List (FunDeclOf Stmt) → List LocalScope
  | [] => []
  | f :: fs => Stmt.funLocalScopes f ++ Stmt.methodLocalScopes fs

end

/-! ## Renamings -/

/-- The variable `old` in the local scope with the number `scope` gets the name `new`; for the
references, `recorded` is the distance that leads to the scope in which they are declared. -/
structure LocalRenaming where
  recorded : NodeId → Option Nat
  scope : Nat
  old : String
  new : String

section

variable (R : LocalRenaming)

/-- A name that belongs to a scope, which is the one of the renaming if the flag is set. -/
def LocalRenaming.token (flag : Bool) (t : Token) : Token :=
  if flag = true ∧ t.lexeme = R.old then { t with lexeme := R.new } else t

/-- Whether the local scope with the number `i` is the one of the renaming. -/
def LocalRenaming.at (i : Nat) : Bool :=
  decide (i = R.scope)

mutual

/-- An expression with the variable renamed; among the scopes around it the flags mark the one of
the renaming. -/
def Expr.rename (flags : List Bool) : Expr → Expr
  | .literal v => .literal v
  | .group inner => .group (inner.rename flags)
  | .unary operator operand => .unary operator (operand.rename flags)
  | .binary left operator right => .binary (left.rename flags) operator (right.rename flags)
  | .logical left operator right => .logical (left.rename flags) operator (right.rename flags)
  | .var id name => .var id (R.token (Twin.flagAt flags (R.recorded id)) name)
  | .assign id name value =>
    .assign id (R.token (Twin.flagAt flags (R.recorded id)) name) (value.rename flags)
  | .call callee paren arguments =>
    .call (callee.rename flags) paren (Expr.renameAll flags arguments)
  | .get object name => .get (object.rename flags) name
  | .set object name value => .set (object.rename flags) name (value.rename flags)
  | .this id keyword => .this id keyword
  | .super id keyword method => .super id keyword method

/-- Expressions with the variable renamed. -/
def Expr.renameAll (flags : List Bool) : List Expr → List Expr
  | [] => []
  | e :: es => e.rename flags :: Expr.renameAll flags es

end

mutual

/-- A statement with the variable renamed; `i` is the number of the first local scope in it. -/
def Stmt.rename (i : Nat) (flags : List Bool) : Stmt → Stmt
  | .expression e => .expression (e.rename R flags)
  | .print e => .print (e.rename R flags)
  | .var name initializer =>
    .var (R.token (Twin.flagHere flags) name) (initializer.map (Expr.rename R flags))
  | .block body => .block (Stmt.renameAll (i + 1) (R.at i :: flags) body)
  | .if_ condition thenBranch none =>
    .if_ (condition.rename R flags) (thenBranch.rename i flags) none
  | .if_ condition thenBranch (some elseBranch) =>
    .if_ (condition.rename R flags) (thenBranch.rename i flags)
      (some (elseBranch.rename (i + thenBranch.localScopes.length) flags))
  | .while_ condition body => .while_ (condition.rename R flags) (body.rename i flags)
  | .fun_ f => .fun_ (Stmt.renameFun i flags f)
  | .return_ keyword value => .return_ keyword (value.map (Expr.rename R flags))
  | .class_ name superclass methods =>
    .class_ name (superclass.map (Expr.rename R flags))
      (Stmt.renameMethods i (if superclass.isSome then false :: flags else flags) methods)

/-- Statements with the variable renamed. -/
def Stmt.renameAll (i : Nat) (flags : List Bool) : List Stmt → List Stmt
  | [] => []
  | s :: ss => s.rename i flags :: Stmt.renameAll (i + s.localScopes.length) flags ss

/-- A function with the variable renamed. -/
def Stmt.renameFun (i : Nat) (flags : List Bool) : FunDeclOf Stmt → FunDeclOf Stmt
  | ⟨name, params, body⟩ =>
    ⟨name, params.map (R.token (R.at i)), Stmt.renameAll (i + 1) (R.at i :: flags) body⟩

/-- The methods of a class with the variable renamed; around each is the scope of its instance. -/
def Stmt.renameMethods (i : Nat) (flags : List Bool) :
    List (FunDeclOf Stmt) → List (FunDeclOf Stmt)
  | [] => []
  | f :: fs => Stmt.renameFun i (false :: flags) f ::
      Stmt.renameMethods (i + (Stmt.funLocalScopes f).length) flags fs

end

end

/-! ## Functions and classes keep their names -/

/-- The name of a function or of a class, which a renaming of variables leaves alone. -/
def Stmt.keptName? : Stmt → Option Token
  | .fun_ f => some f.name
  | .class_ name _ _ => some name
  | _ => none

theorem Stmt.keptName?_of_declares_eq_false {s : Stmt} (h : s.declares = false) :
    s.keptName? = none := by
  cases s <;> first | rfl | cases h

/-- None of the statements is a function or a class with the name `x`. -/
def Stmt.Spare (x : String) (ss : List Stmt) : Prop :=
  ∀ s ∈ ss, ∀ t, s.keptName? = some t → t.lexeme ≠ x

namespace LocalRenaming

variable (R : LocalRenaming)

/-- The names of a renaming are names of variables. -/
structure Proper : Prop where
  old : R.old ≠ thisName ∧ R.old ≠ superName
  new : R.new ≠ thisName ∧ R.new ≠ superName

/-- How a program and its renaming differ. -/
def twin (hR : R.Proper) (globals : Scope) : Twin where
  line := Eq
  rename := Equiv.swap R.old R.new
  renames z := z ≠ R.new
  rename_rename := Equiv.swap_apply_self R.old R.new
  rename_this := Equiv.swap_apply_of_ne_of_ne hR.old.1.symm hR.new.1.symm
  rename_super := Equiv.swap_apply_of_ne_of_ne hR.old.2.symm hR.new.2.symm
  known _ id id' d := id' = id ∧ R.recorded id = d
  globals := globals

/-- If the scope of the renaming is among these, the first of which has the number `i`, then no
function or class in it has the old name. -/
def Spares (i : Nat) (scopes : List LocalScope) : Prop :=
  ∀ j scope, scopes[j]? = some scope → i + j = R.scope → Stmt.Spare R.old scope.body

variable {R} {i : Nat}

theorem Spares.append {a b : List LocalScope} (h : R.Spares i (a ++ b)) :
    R.Spares i a ∧ R.Spares (i + a.length) b := by
  refine ⟨fun j scope hj he => h j scope ?_ he, fun j scope hj he => ?_⟩
  · rw [List.getElem?_append_left (List.getElem?_eq_some_iff.mp hj).1, hj]
  · refine h (a.length + j) scope ?_ (by omega)
    rw [List.getElem?_append_right (Nat.le_add_right _ _), Nat.add_sub_cancel_left, hj]

theorem Spares.cons {scope : LocalScope} {scopes : List LocalScope}
    (h : R.Spares i (scope :: scopes)) :
    (R.at i = true → Stmt.Spare R.old scope.body) ∧ R.Spares (i + 1) scopes := by
  refine ⟨fun hi => h 0 scope rfl (of_decide_eq_true hi), fun j scope hj he => ?_⟩
  exact h (j + 1) scope hj (by omega)

end LocalRenaming

/-! ## Renamed code is a twin -/

section

variable {R : LocalRenaming} (hR : R.Proper) (globals : Scope)

namespace LocalRenaming

theorem tokens_kept {t : Token} {flag : Bool} (ht : flag = true → t.lexeme ≠ R.old)
    (hnew : t.lexeme ≠ R.new) : (R.twin hR globals).Tokens flag t t := by
  refine ⟨rfl, ?_, fun _ => hnew, rfl⟩
  cases flag with
  | false => rfl
  | true => exact (Equiv.swap_apply_of_ne_of_ne (ht rfl) hnew).symm

theorem tokens_token {t : Token} (flag : Bool) (hnew : t.lexeme ≠ R.new) :
    (R.twin hR globals).Tokens flag t (R.token flag t) := by
  unfold token
  split
  · rename_i h
    obtain ⟨rfl, hold⟩ := h
    refine ⟨rfl, ?_, fun _ => hnew, rfl⟩
    rw [hold]
    exact (Equiv.swap_apply_left R.old R.new).symm
  · rename_i h
    exact tokens_kept hR globals (fun hflag hold => h ⟨hflag, hold⟩) hnew

/-- A token that belongs to no scope. -/
theorem tokens_false {t : Token} (hnew : t.lexeme ≠ R.new) :
    (R.twin hR globals).Tokens false t t :=
  tokens_kept hR globals (fun h => nomatch h) hnew

end LocalRenaming

open LocalRenaming

variable {x : Extent} {flags : List Bool}

mutual

theorem Expr.twins_rename : (e : Expr) → e.WellFormed → (∀ t ∈ e.words, t.lexeme ≠ R.new) →
    e.Twins (R.twin hR globals) x flags (e.rename R flags)
  | .literal _, _, _ => rfl
  | .group inner, hf, hw => ⟨_, rfl, inner.twins_rename hf hw⟩
  | .unary _ operand, hf, hw => by
    obtain ⟨ht, hw⟩ := List.forall_mem_cons.mp hw
    exact ⟨_, _, rfl, tokens_false hR globals ht, operand.twins_rename hf hw⟩
  | .binary left _ right, hf, hw => by
    obtain ⟨hl, hw⟩ := List.forall_mem_append.mp hw
    obtain ⟨ht, hr⟩ := List.forall_mem_cons.mp hw
    exact ⟨_, _, _, rfl, left.twins_rename hf.1 hl, tokens_false hR globals ht,
      right.twins_rename hf.2 hr⟩
  | .logical left _ right, hf, hw => by
    obtain ⟨hl, hw⟩ := List.forall_mem_append.mp hw
    obtain ⟨ht, hr⟩ := List.forall_mem_cons.mp hw
    exact ⟨_, _, _, rfl, left.twins_rename hf.1 hl, tokens_false hR globals ht,
      right.twins_rename hf.2 hr⟩
  | .var id name, _, hw =>
    ⟨_, _, _, rfl, ⟨rfl, rfl⟩, tokens_token hR globals _ (hw name List.mem_cons_self)⟩
  | .assign id name value, hf, hw => by
    obtain ⟨ht, hw⟩ := List.forall_mem_cons.mp hw
    exact ⟨_, _, _, _, rfl, value.twins_rename hf.2 hw, ⟨rfl, rfl⟩, tokens_token hR globals _ ht⟩
  | .call callee _ arguments, hf, hw => by
    obtain ⟨hc, hw⟩ := List.forall_mem_append.mp hw
    obtain ⟨ht, ha⟩ := List.forall_mem_cons.mp hw
    exact ⟨_, _, _, rfl, callee.twins_rename hf.1 hc, tokens_false hR globals ht,
      Expr.twins_renameAll arguments hf.2 ha⟩
  | .get object name, hf, hw => by
    obtain ⟨ho, ht⟩ := List.forall_mem_append.mp hw
    exact ⟨_, _, rfl, object.twins_rename hf ho,
      tokens_false hR globals (ht name List.mem_cons_self)⟩
  | .set object _ value, hf, hw => by
    obtain ⟨ho, hw⟩ := List.forall_mem_append.mp hw
    obtain ⟨ht, hv⟩ := List.forall_mem_cons.mp hw
    exact ⟨_, _, _, rfl, object.twins_rename hf.1 ho, tokens_false hR globals ht,
      value.twins_rename hf.2 hv⟩
  | .this _ keyword, hf, hw => by
    rw [Expr.WellFormed] at hf
    refine ⟨_, _, _, rfl, ⟨rfl, rfl⟩, tokens_kept hR globals (fun _ => ?_)
      (hw keyword List.mem_cons_self)⟩
    rw [hf]
    exact hR.old.1.symm
  | .super _ keyword method, hf, hw => by
    obtain ⟨ht, hm⟩ := List.forall_mem_cons.mp hw
    rw [Expr.WellFormed] at hf
    refine ⟨_, _, _, _, rfl, ⟨rfl, rfl⟩, tokens_kept hR globals (fun _ => ?_) ht,
      tokens_false hR globals (hm method List.mem_cons_self)⟩
    rw [hf]
    exact hR.old.2.symm

theorem Expr.twins_renameAll : (es : List Expr) → Expr.AllWellFormed es →
    (∀ t ∈ Expr.allWords es, t.lexeme ≠ R.new) →
      Expr.AllTwins (R.twin hR globals) x flags es (Expr.renameAll R flags es)
  | [], _, _ => rfl
  | e :: es, hf, hw => by
    obtain ⟨he, hes⟩ := List.forall_mem_append.mp hw
    exact ⟨_, _, rfl, e.twins_rename hf.1 he, Expr.twins_renameAll es hf.2 hes⟩

end

theorem Expr.twins_rename? {e : Option Expr} (hf : Expr.WellFormed? e)
    (hw : ∀ t ∈ Expr.words? e, t.lexeme ≠ R.new) :
    Expr.Twins? (R.twin hR globals) x flags e (e.map (Expr.rename R flags)) := by
  cases e with
  | none => rfl
  | some e => exact ⟨_, rfl, e.twins_rename hR globals hf hw⟩

/-- A superclass is an expression like others. -/
theorem Expr.IsSuperclass?.wellFormed? {e : Option Expr} (h : Expr.IsSuperclass? e) :
    Expr.WellFormed? e := by
  cases e with
  | none => trivial
  | some e =>
    obtain ⟨id, name, rfl, hname⟩ := h
    exact hname

end

section

open LocalRenaming

variable {R : LocalRenaming} (hR : R.Proper) (globals : Scope)

mutual

theorem Stmt.twins_rename {i : Nat} {flags : List Bool} : (s : Stmt) → s.WellFormed →
    (∀ t ∈ s.words, t.lexeme ≠ R.new) →
      (Twin.flagHere flags = true → ∀ t, s.keptName? = some t → t.lexeme ≠ R.old) →
        R.Spares i s.localScopes → s.Twins (R.twin hR globals) .lasting flags (s.rename R i flags)
  | .expression e, hf, hw, _, _ => ⟨_, rfl, e.twins_rename hR globals hf hw⟩
  | .print e, hf, hw, _, _ => ⟨_, rfl, e.twins_rename hR globals hf hw⟩
  | .var _ _, hf, hw, _, _ => by
    obtain ⟨ht, hw⟩ := List.forall_mem_cons.mp hw
    exact ⟨_, _, rfl, tokens_token hR globals _ ht, Expr.twins_rename? hR globals hf.2 hw⟩
  | .block body, hf, hw, _, hs => by
    obtain ⟨hhere, hs⟩ := hs.cons
    exact ⟨_, _, rfl, Stmt.twins_renameAll body hf hw hhere hs⟩
  | .if_ condition thenBranch none, hf, hw, _, hs => by
    obtain ⟨hc, ht⟩ := List.forall_mem_append.mp hw
    exact ⟨_, _, rfl, condition.twins_rename hR globals hf.1 hc,
      thenBranch.twins_rename hf.2.1 ht (fun _ => by simp [keptName?_of_declares_eq_false hf.2.2])
        hs⟩
  | .if_ condition thenBranch (some elseBranch), hf, hw, _, hs => by
    obtain ⟨hc, hw⟩ := List.forall_mem_append.mp hw
    obtain ⟨ht, he⟩ := List.forall_mem_append.mp hw
    obtain ⟨hst, hse⟩ := hs.append
    obtain ⟨hfc, ⟨hft, hdt⟩, hfe, hde⟩ := hf
    exact ⟨_, _, _, rfl, condition.twins_rename hR globals hfc hc,
      thenBranch.twins_rename hft ht (fun _ => by simp [keptName?_of_declares_eq_false hdt]) hst,
      elseBranch.twins_rename hfe he (fun _ => by simp [keptName?_of_declares_eq_false hde]) hse⟩
  | .while_ condition body, hf, hw, _, hs => by
    obtain ⟨hc, hb⟩ := List.forall_mem_append.mp hw
    exact ⟨_, _, rfl, condition.twins_rename hR globals hf.1 hc,
      body.twins_rename hf.2.1 hb (fun _ => by simp [keptName?_of_declares_eq_false hf.2.2]) hs⟩
  | .fun_ ⟨name, params, body⟩, hf, hw, hk, hs => by
    have ht : name.lexeme ≠ R.new := hw name List.mem_cons_self
    exact ⟨_, rfl, tokens_kept hR globals (fun hflag => hk hflag name rfl) ht,
      Stmt.twins_renameFun ⟨name, params, body⟩ hf.2 hw hs⟩
  | .return_ _ _, hf, hw, _, _ => by
    obtain ⟨ht, hw⟩ := List.forall_mem_cons.mp hw
    exact ⟨rfl, _, _, rfl, tokens_false hR globals ht, Expr.twins_rename? hR globals hf hw⟩
  | .class_ name _ methods, hf, hw, hk, hs => by
    obtain ⟨ht, hw⟩ := List.forall_mem_cons.mp hw
    obtain ⟨hsuper, hw⟩ := List.forall_mem_append.mp hw
    exact ⟨_, _, _, rfl, ⟨tokens_kept hR globals (fun hflag => hk hflag name rfl) ht, rfl⟩,
      Expr.twins_rename? hR globals hf.2.1.wellFormed? hsuper,
      Stmt.twins_renameMethods methods hf.2.2 hw hs⟩

theorem Stmt.twins_renameAll {i : Nat} {flags : List Bool} : (ss : List Stmt) →
    Stmt.AllWellFormed ss → (∀ t ∈ Stmt.allWords ss, t.lexeme ≠ R.new) →
      (Twin.flagHere flags = true → Stmt.Spare R.old ss) → R.Spares i (Stmt.allLocalScopes ss) →
        Stmt.AllTwins (R.twin hR globals) .lasting flags ss (Stmt.renameAll R i flags ss)
  | [], _, _, _, _ => rfl
  | s :: ss, hf, hw, hk, hs => by
    obtain ⟨hws, hwss⟩ := List.forall_mem_append.mp hw
    obtain ⟨hsp, hsps⟩ := hs.append
    exact ⟨_, _, rfl,
      s.twins_rename hf.1 hws (fun hflag => hk hflag s List.mem_cons_self) hsp,
      Stmt.twins_renameAll ss hf.2 hwss
        (fun hflag t ht => hk hflag t (List.mem_cons_of_mem s ht)) hsps⟩

theorem Stmt.twins_renameFun {i : Nat} {flags : List Bool} : (f : FunDeclOf Stmt) →
    Stmt.FunWellFormed f → (∀ t ∈ Stmt.funWords f, t.lexeme ≠ R.new) →
      R.Spares i (Stmt.funLocalScopes f) →
        Stmt.FunTwins (R.twin hR globals) flags f (Stmt.renameFun R i flags f)
  | ⟨name, params, body⟩, hf, hw, hs => by
    obtain ⟨ht, hw⟩ := List.forall_mem_cons.mp hw
    obtain ⟨hp, hb⟩ := List.forall_mem_append.mp hw
    obtain ⟨hhere, hs⟩ := hs.cons
    refine ⟨R.at i, _, _, _, rfl, tokens_false hR globals ht, ?_,
      Stmt.twins_renameAll body hf.2 hb hhere hs⟩
    refine List.forall₂_map_right_iff.mpr (List.forall₂_same.mpr fun p hmem => ?_)
    exact tokens_token hR globals _ (hp p hmem)

theorem Stmt.twins_renameMethods {i : Nat} {flags : List Bool} : (fs : List (FunDeclOf Stmt)) →
    Stmt.MethodsWellFormed fs → (∀ t ∈ Stmt.methodWords fs, t.lexeme ≠ R.new) →
      R.Spares i (Stmt.methodLocalScopes fs) →
        Stmt.MethodsTwins (R.twin hR globals) flags fs (Stmt.renameMethods R i flags fs)
  | [], _, _, _ => rfl
  | f :: fs, hf, hw, hs => by
    obtain ⟨hwf, hwfs⟩ := List.forall_mem_append.mp hw
    obtain ⟨hsf, hsfs⟩ := hs.append
    exact ⟨_, _, rfl, Stmt.twins_renameFun f hf.1 hwf hsf,
      Stmt.twins_renameMethods fs hf.2 hwfs hsfs⟩

end

end

end LoxWalk
