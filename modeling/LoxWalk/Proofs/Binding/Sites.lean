import LoxWalk.Proofs.Grammar.Trees

/-!
# References and the scopes around them

An `Origin` is a part of the text for which scopes are opened while it runs: a block, the call of a
function, the binding of a method to its instance, and the declaration of a class with a
superclass.  A `Site` is a reference together with the origins of the scopes around it, innermost
first, and the distance that its name has there.

The findings of a tree are exactly the distances of its sites (`mem_bound_iff`).
-/

namespace LoxWalk

/-- What a scope is opened for. -/
inductive Origin where
  | block (body : List Stmt)
  | call (f : FunDecl)
  | this (method : FunDecl)
  | super (methods : List FunDecl)

/-- A reference with the origins of the scopes around it, its distance, if it has one, and how long
that is needed. -/
structure Site where
  id : NodeId
  origins : List Origin
  distance? : Option Nat
  extent : Extent

/-- What is found at a site. -/
def Site.bound? (s : Site) : Option BoundReference :=
  s.distance?.map (⟨s.id, ·, s.extent⟩)

namespace Static

/-- The site of a reference to the name `x`. -/
def site (st : Static) (os : List Origin) (id : NodeId) (x : String) : Site :=
  ⟨id, os, st.distance? x, st.extent⟩

/-- The place behind the declaration of a name. -/
def declared (st : Static) (name : Token) : Static :=
  (st.declare name).define name

/-- The place of the body of a function. -/
def body (st : Static) (context : FunctionContext) (f : FunDecl) : Static :=
  (({ st with function := context }.enter []).params f.params).1

/-- The origins of the scopes around the methods of a class, apart from that of the instance. -/
def methodOrigins (os : List Origin) (hasSuperclass : Bool) (methods : List FunDecl) :
    List Origin :=
  if hasSuperclass then .super methods :: os else os

mutual

/-- The sites in an expression. -/
def exprSites (st : Static) (os : List Origin) : Expr → List Site
  | .literal _ => []
  | .group inner => st.exprSites os inner
  | .unary _ operand => st.exprSites os operand
  | .binary left _ right => st.exprSites os left ++ st.exprSites os right
  | .logical left _ right => st.exprSites os left ++ st.exprSites os right
  | .var id name => [st.site os id name.lexeme]
  | .assign id name value => st.exprSites os value ++ [st.site os id name.lexeme]
  | .call callee _ arguments => st.exprSites os callee ++ st.exprsSites os arguments
  | .get object _ => st.exprSites os object
  | .set object _ value => st.exprSites os object ++ st.exprSites os value
  | .this id keyword => [st.site os id keyword.lexeme]
  | .super id keyword _ => [st.site os id keyword.lexeme]

/-- The sites in several expressions. -/
def exprsSites (st : Static) (os : List Origin) : List Expr → List Site
  | [] => []
  | e :: es => st.exprSites os e ++ st.exprsSites os es

end

/-- The sites in an expression that may be left out. -/
def exprSites? (st : Static) (os : List Origin) : Option Expr → List Site
  | some e => st.exprSites os e
  | none => []

mutual

/-- The sites in a statement. -/
def stmtSites (st : Static) (os : List Origin) : Stmt → List Site
  | .expression e => st.exprSites os e
  | .print e => st.exprSites os e
  | .var name initializer => (st.declare name).exprSites? os initializer
  | .block body => (st.enter []).stmtsSites (.block body :: os) body
  | .if_ condition thenBranch none => st.exprSites os condition ++ st.stmtSites os thenBranch
  | .if_ condition thenBranch (some elseBranch) =>
    st.exprSites os condition ++
      (st.stmtSites os thenBranch ++ (st.stmt thenBranch).1.stmtSites os elseBranch)
  | .while_ condition body => st.exprSites os condition ++ st.stmtSites os body
  | .fun_ f => (st.declared f.name).funSites .function os f
  | .return_ _ value => st.exprSites? os value
  | .class_ name superclass methods =>
    { st.declared name with inClass := .derived }.exprSites? os superclass ++
      ((st.declared name).methodsPlace superclass.isSome).methodsSites
        (methodOrigins os superclass.isSome methods) methods

/-- The sites in statements that follow each other. -/
def stmtsSites (st : Static) (os : List Origin) : List Stmt → List Site
  | [] => []
  | s :: ss => st.stmtSites os s ++ (st.stmt s).1.stmtsSites os ss

/-- The sites in a function. -/
def funSites (st : Static) (context : FunctionContext) (os : List Origin) :
    FunDeclOf Stmt → List Site
  | ⟨name, params, body⟩ =>
    (st.body context ⟨name, params, body⟩).stmtsSites (.call ⟨name, params, body⟩ :: os) body

/-- The sites in the methods of a class. -/
def methodsSites (st : Static) (os : List Origin) : List (FunDeclOf Stmt) → List Site
  | [] => []
  | f :: fs => st.funSites (methodContext f) (.this f :: os) f ++ st.methodsSites os fs

end

end Static

/-- The sites in a unit. -/
def sites (unit : List Stmt) : List Site :=
  Static.top.stmtsSites [] unit

/-! ## Sites and identities -/

namespace Static

mutual

theorem map_id_exprSites (st : Static) (os : List Origin) :
    (e : Expr) → (st.exprSites os e).map Site.id = e.ids
  | .literal _ => rfl
  | .group inner => st.map_id_exprSites os inner
  | .unary _ operand => st.map_id_exprSites os operand
  | .binary left _ right => by
    simp only [exprSites, Expr.ids, List.map_append, map_id_exprSites]
  | .logical left _ right => by
    simp only [exprSites, Expr.ids, List.map_append, map_id_exprSites]
  | .var _ _ => rfl
  | .assign _ _ value => by
    simp only [exprSites, Expr.ids, List.map_append, map_id_exprSites]
    rfl
  | .call callee _ arguments => by
    simp only [exprSites, Expr.ids, List.map_append, map_id_exprSites, map_id_exprsSites]
  | .get object _ => st.map_id_exprSites os object
  | .set object _ value => by
    simp only [exprSites, Expr.ids, List.map_append, map_id_exprSites]
  | .this _ _ => rfl
  | .super _ _ _ => rfl

theorem map_id_exprsSites (st : Static) (os : List Origin) :
    (es : List Expr) → (st.exprsSites os es).map Site.id = Expr.allIds es
  | [] => rfl
  | e :: es => by
    simp only [exprsSites, Expr.allIds, List.map_append, map_id_exprSites, map_id_exprsSites]

end

theorem map_id_exprSites? (st : Static) (os : List Origin) (e : Option Expr) :
    (st.exprSites? os e).map Site.id = Expr.ids? e := by
  cases e with
  | none => rfl
  | some e => exact st.map_id_exprSites os e

mutual

theorem map_id_stmtSites (st : Static) (os : List Origin) :
    (s : Stmt) → (st.stmtSites os s).map Site.id = s.ids
  | .expression e => st.map_id_exprSites os e
  | .print e => st.map_id_exprSites os e
  | .var _ initializer => map_id_exprSites? _ os initializer
  | .block body => map_id_stmtsSites _ _ body
  | .if_ _ _ none => by
    simp only [stmtSites, Stmt.ids, List.map_append, map_id_exprSites, map_id_stmtSites]
  | .if_ _ _ (some _) => by
    simp only [stmtSites, Stmt.ids, List.map_append, map_id_exprSites, map_id_stmtSites]
  | .while_ _ _ => by
    simp only [stmtSites, Stmt.ids, List.map_append, map_id_exprSites, map_id_stmtSites]
  | .fun_ f => map_id_funSites _ _ _ f
  | .return_ _ value => st.map_id_exprSites? os value
  | .class_ _ superclass methods => by
    simp only [stmtSites, Stmt.ids, List.map_append, map_id_exprSites?, map_id_methodsSites]

theorem map_id_stmtsSites (st : Static) (os : List Origin) :
    (ss : List Stmt) → (st.stmtsSites os ss).map Site.id = Stmt.allIds ss
  | [] => rfl
  | s :: ss => by
    simp only [stmtsSites, Stmt.allIds, List.map_append, map_id_stmtSites, map_id_stmtsSites]

theorem map_id_funSites (st : Static) (context : FunctionContext) (os : List Origin) :
    (f : FunDeclOf Stmt) → (st.funSites context os f).map Site.id = Stmt.funIds f
  | ⟨_, _, body⟩ => map_id_stmtsSites _ _ body

theorem map_id_methodsSites (st : Static) (os : List Origin) :
    (fs : List (FunDeclOf Stmt)) → (st.methodsSites os fs).map Site.id = Stmt.methodIds fs
  | [] => rfl
  | f :: fs => by
    simp only [methodsSites, Stmt.methodIds, List.map_append, map_id_funSites, map_id_methodsSites]

end

end Static

/-! ## Sites and findings -/

namespace Findings

@[simp]
theorem bound_none : Findings.none.bound = [] := rfl

@[simp]
theorem errors_none : Findings.none.errors = [] := rfl

@[simp]
theorem bound_append (f g : Findings) : (f ++ g).bound = f.bound ++ g.bound := rfl

@[simp]
theorem errors_append (f g : Findings) : (f ++ g).errors = f.errors ++ g.errors := rfl

@[simp]
theorem bound_brokenIf (condition : Bool) (t : Token) (fault : ResolveFault) :
    (brokenIf condition t fault).bound = [] := by
  cases condition <;> rfl

@[simp]
theorem errors_brokenIf (condition : Bool) (t : Token) (fault : ResolveFault) :
    (brokenIf condition t fault).errors = [] ↔ condition = false := by
  cases condition <;> simp [brokenIf, broken]

end Findings

namespace Static

@[simp]
theorem errors_bind (st : Static) (id : NodeId) (name : Token) : (st.bind id name).errors = [] := by
  unfold bind
  split <;> rfl

@[simp]
theorem bound_redeclaration (st : Static) (name : Token) : (st.redeclaration name).bound = [] :=
  Findings.bound_brokenIf _ _ _

@[simp]
theorem bound_returned (st : Static) (keyword : Token) (hasValue : Bool) :
    (st.returned keyword hasValue).bound = [] := by
  simp [returned]

@[simp]
theorem bound_params (st : Static) (ps : List Token) : (st.params ps).2.bound = [] := by
  induction ps generalizing st with
  | nil => rfl
  | cons p ps ih => simp [params, ih]

@[simp]
theorem bound_bind (st : Static) (os : List Origin) (id : NodeId) (name : Token) :
    (st.bind id name).bound = (st.site os id name.lexeme).bound?.toList := by
  unfold bind site Site.bound?
  cases st.distance? name.lexeme <;> rfl

/-- The findings are those at the given sites; where a rule is broken, some may be missing. -/
structure Covers (found : Findings) (sites : List Site) : Prop where
  sound : ∀ r ∈ found.bound, r ∈ sites.filterMap Site.bound?
  complete : found.errors = [] → ∀ r ∈ sites.filterMap Site.bound?, r ∈ found.bound

namespace Covers

variable {f g : Findings} {a b : List Site}

theorem none : Covers .none [] :=
  ⟨fun _ hr => (nomatch hr), fun _ _ hr => nomatch hr⟩

theorem append (hf : Covers f a) (hg : Covers g b) : Covers (f ++ g) (a ++ b) := by
  refine ⟨fun r hr => ?_, fun he r hr => ?_⟩
  · rw [List.filterMap_append, List.mem_append]
    rw [Findings.bound_append, List.mem_append] at hr
    exact hr.imp (hf.sound r) (hg.sound r)
  · rw [Findings.errors_append, List.append_eq_nil_iff] at he
    rw [Findings.bound_append, List.mem_append]
    rw [List.filterMap_append, List.mem_append] at hr
    exact hr.imp (hf.complete he.1 r) (hg.complete he.2 r)

theorem comm (h : Covers f (a ++ b)) : Covers f (b ++ a) := by
  have hmem : ∀ r, r ∈ (b ++ a).filterMap Site.bound? ↔ r ∈ (a ++ b).filterMap Site.bound? := by
    intro r
    rw [List.filterMap_append, List.filterMap_append, List.mem_append, List.mem_append, or_comm]
  exact ⟨fun r hr => (hmem r).mpr (h.sound r hr),
    fun he r hr => h.complete he r ((hmem r).mp hr)⟩

/-- Findings without references before others. -/
theorem behind (h : Covers f a) (hg : g.bound = []) : Covers (g ++ f) a := by
  refine ⟨fun r hr => ?_, fun he r hr => ?_⟩
  · rw [Findings.bound_append, hg, List.nil_append] at hr
    exact h.sound r hr
  · rw [Findings.errors_append, List.append_eq_nil_iff] at he
    rw [Findings.bound_append, hg, List.nil_append]
    exact h.complete he.2 r hr

theorem bind (st : Static) (os : List Origin) (id : NodeId) (name : Token) :
    Covers (st.bind id name) [st.site os id name.lexeme] := by
  have hmem : ∀ r, r ∈ (st.bind id name).bound ↔
      r ∈ [st.site os id name.lexeme].filterMap Site.bound? := by
    intro r
    rw [st.bound_bind os, List.filterMap_cons]
    cases (st.site os id name.lexeme).bound? <;> simp
  exact ⟨fun r hr => (hmem r).mp hr, fun _ r hr => (hmem r).mpr hr⟩

/-- A place where the reference is an error. -/
theorem broken (t : Token) (fault : ResolveFault) : Covers (.broken t fault) a :=
  ⟨fun _ hr => (nomatch hr), fun he => nomatch he⟩

end Covers

mutual

theorem covers_expr (st : Static) (os : List Origin) :
    (e : Expr) → Covers (st.expr e) (st.exprSites os e)
  | .literal _ => .none
  | .group inner => st.covers_expr os inner
  | .unary _ operand => st.covers_expr os operand
  | .binary left _ right => (st.covers_expr os left).append (st.covers_expr os right)
  | .logical left _ right => (st.covers_expr os left).append (st.covers_expr os right)
  | .var id name => (Covers.bind st os id name).behind (by simp)
  | .assign id name value => (st.covers_expr os value).append (.bind st os id name)
  | .call callee _ arguments => (st.covers_expr os callee).append (st.covers_exprs os arguments)
  | .get object _ => st.covers_expr os object
  | .set object _ value => ((st.covers_expr os value).append (st.covers_expr os object)).comm
  | .this id keyword => by
    unfold expr
    split
    · exact .broken _ _
    · exact .bind st os id keyword
  | .super id keyword _ => by
    unfold expr
    split
    · exact .broken _ _
    · exact .broken _ _
    · exact .bind st os id keyword

theorem covers_exprs (st : Static) (os : List Origin) :
    (es : List Expr) → Covers (st.exprs es) (st.exprsSites os es)
  | [] => .none
  | e :: es => (st.covers_expr os e).append (st.covers_exprs os es)

end

theorem covers_expr? (st : Static) (os : List Origin) (e : Option Expr) :
    Covers (st.expr? e) (st.exprSites? os e) := by
  cases e with
  | none => exact .none
  | some e => exact st.covers_expr os e

theorem covers_superclass (st : Static) (os : List Origin) (name : Token) (e : Option Expr) :
    Covers (st.superclass name e) ({ st with inClass := .derived }.exprSites? os e) := by
  cases e with
  | none => exact .none
  | some e =>
    refine (covers_expr _ os e).behind ?_
    split <;> simp

mutual

theorem covers_stmt (st : Static) (os : List Origin) :
    (s : Stmt) → Covers (st.stmt s).2 (st.stmtSites os s)
  | .expression e => st.covers_expr os e
  | .print e => st.covers_expr os e
  | .var _ initializer => (covers_expr? _ os initializer).behind (by simp)
  | .block body => covers_stmts _ _ body
  | .if_ condition thenBranch none =>
    (st.covers_expr os condition).append (st.covers_stmt os thenBranch)
  | .if_ condition thenBranch (some elseBranch) => by
    rw [stmtSites, ← List.append_assoc]
    exact ((st.covers_expr os condition).append (st.covers_stmt os thenBranch)).append
      (covers_stmt _ os elseBranch)
  | .while_ condition body => (st.covers_expr os condition).append (st.covers_stmt os body)
  | .fun_ f => (covers_funDecl _ .function os f).behind (by simp)
  | .return_ _ value => (st.covers_expr? os value).behind (by simp)
  | .class_ name superclass methods =>
    ((covers_superclass _ os name superclass).behind (by simp)).append (covers_methods _ _ methods)

theorem covers_stmts (st : Static) (os : List Origin) :
    (ss : List Stmt) → Covers (st.stmts ss).2 (st.stmtsSites os ss)
  | [] => .none
  | s :: ss => (st.covers_stmt os s).append (covers_stmts _ os ss)

theorem covers_funDecl (st : Static) (context : FunctionContext) (os : List Origin) :
    (f : FunDeclOf Stmt) → Covers (st.funDecl context f) (st.funSites context os f)
  | ⟨_, _, body⟩ => (covers_stmts _ _ body).behind (by simp)

theorem covers_methods (st : Static) (os : List Origin) :
    (fs : List (FunDeclOf Stmt)) → Covers (st.methods fs) (st.methodsSites os fs)
  | [] => .none
  | f :: fs => (st.covers_funDecl (methodContext f) _ f).append (st.covers_methods os fs)

end

end Static

/-- Whatever is found in a unit is the distance of a site. -/
theorem exists_site_of_mem_bound {unit : List Stmt} {r : BoundReference}
    (h : r ∈ (findings unit).bound) : ∃ s ∈ sites unit, s.bound? = some r :=
  List.mem_filterMap.mp ((Static.covers_stmts Static.top [] unit).sound r h)

/-- The findings of an accepted unit are the distances of its sites. -/
theorem mem_bound_iff {unit : List Stmt} (h : (findings unit).errors = []) (r : BoundReference) :
    r ∈ (findings unit).bound ↔ ∃ s ∈ sites unit, s.bound? = some r :=
  ⟨exists_site_of_mem_bound, fun hr =>
    (Static.covers_stmts Static.top [] unit).complete h r (List.mem_filterMap.mpr hr)⟩

/-- The identities of the sites are those of the references in the unit. -/
theorem map_id_sites (unit : List Stmt) : (sites unit).map Site.id = Stmt.allIds unit :=
  Static.map_id_stmtsSites Static.top [] unit

end LoxWalk
