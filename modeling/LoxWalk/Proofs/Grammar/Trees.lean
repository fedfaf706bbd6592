import LoxWalk.Binding
import LoxWalk.Proofs.Grammar.Acceptance
import LoxWalk.Proofs.Scanning

/-!
# What the trees of programs look like

The reader hands out the identities of references one after the other, so no two references of a
program share one (`Reads.freshIds`).  And not every tree comes from a text: what is declared and
assigned never has the name of a reserved word, the branches of an `if` and the body of a loop
declare nothing, and a superclass is a name (`Stmt.WellFormed`, `Reads.wellFormed`).
-/

namespace LoxWalk

/-! ## The references of a tree -/

mutual

/-- The identities of the references in an expression. -/
def Expr.ids : Expr → List NodeId
  | .literal _ => []
  | .group inner => inner.ids
  | .unary _ operand => operand.ids
  | .binary left _ right => left.ids ++ right.ids
  | .logical left _ right => left.ids ++ right.ids
  | .var id _ => [id]
  | .assign id _ value => value.ids ++ [id]
  | .call callee _ arguments => callee.ids ++ Expr.allIds arguments
  | .get object _ => object.ids
  | .set object _ value => object.ids ++ value.ids
  | .this id _ => [id]
  | .super id _ _ => [id]

/-- The identities of the references in several expressions. -/
def Expr.allIds : List Expr → List NodeId
  | [] => []
  | e :: es => e.ids ++ Expr.allIds es

end

/-- The identities of the references in an expression that may be left out. -/
def Expr.ids? : Option Expr → List NodeId
  | some e => e.ids
  | none => []

mutual

/-- The identities of the references in a statement. -/
def Stmt.ids : Stmt → List NodeId
  | .expression e => e.ids
  | .print e => e.ids
  | .var _ initializer => Expr.ids? initializer
  | .block body => Stmt.allIds body
  | .if_ condition thenBranch none => condition.ids ++ thenBranch.ids
  | .if_ condition thenBranch (some elseBranch) =>
    condition.ids ++ (thenBranch.ids ++ elseBranch.ids)
  | .while_ condition body => condition.ids ++ body.ids
  | .fun_ f => Stmt.funIds f
  | .return_ _ value => Expr.ids? value
  | .class_ _ superclass methods => Expr.ids? superclass ++ Stmt.methodIds methods

/-- The identities of the references in several statements. -/
def Stmt.allIds : List Stmt → List NodeId
  | [] => []
  | s :: ss => s.ids ++ Stmt.allIds ss

/-- The identities of the references in a function. -/
def Stmt.funIds : FunDeclOf Stmt → List NodeId
  | ⟨_, _, body⟩ => Stmt.allIds body

/-- The identities of the references in the methods of a class. -/
def Stmt.methodIds : List (FunDeclOf Stmt) → List NodeId
  | [] => []
  | f :: fs => Stmt.funIds f ++ Stmt.methodIds fs

end

/-- The identities of the references in a fragment. -/
def Fragment.ids : Fragment → List NodeId
  | .expr e => e.ids
  | .expr? e => Expr.ids? e
  | .exprs es => Expr.allIds es
  | .names _ => []
  | .stmt s => s.ids
  | .stmt? s => (s.map Stmt.ids).getD []
  | .stmts ss => Stmt.allIds ss
  | .decl f => Stmt.funIds f
  | .decls fs => Stmt.methodIds fs

/-- The references `ids` are those in `before` and new ones, whose identities go from `n` up to
`n'`, each used at most once. -/
def FreshIds (before : List NodeId) (n n' : Nat) (ids : List NodeId) : Prop :=
  n ≤ n' ∧ ∃ new, ids.Perm (before ++ new) ∧ new.Nodup ∧ ∀ id ∈ new, n ≤ id.index ∧ id.index < n'

namespace FreshIds

variable {n n₁ n' : Nat} {a b c : List NodeId}

theorem refl (a : List NodeId) (n : Nat) : FreshIds a n n a :=
  ⟨Nat.le_refl n, [], by simp, List.nodup_nil, by simp⟩

theorem single (n : Nat) : FreshIds [] n (n + 1) [⟨n⟩] :=
  ⟨Nat.le_succ n, [⟨n⟩], .refl _, by simp, by simp⟩

theorem perm (h : FreshIds a n n' b) (hp : c.Perm b) : FreshIds a n n' c := by
  obtain ⟨hle, new, hb, hnew⟩ := h
  exact ⟨hle, new, hp.trans hb, hnew⟩

theorem trans (h : FreshIds a n n₁ b) (h' : FreshIds b n₁ n' c) : FreshIds a n n' c := by
  obtain ⟨hle, new, hb, hnodup, hrange⟩ := h
  obtain ⟨hle', new', hc, hnodup', hrange'⟩ := h'
  refine ⟨Nat.le_trans hle hle', new ++ new', ?_, ?_, ?_⟩
  · rw [← List.append_assoc]
    exact hc.trans (hb.append_right new')
  · refine List.nodup_append.mpr ⟨hnodup, hnodup', ?_⟩
    rintro i hi j hj rfl
    have := (hrange i hi).2
    have := (hrange' i hj).1
    omega
  · intro i hi
    rcases List.mem_append.mp hi with hi | hi
    · have := hrange i hi
      omega
    · have := hrange' i hi
      omega

/-- The references of a part, in addition to others. -/
theorem behind (h : FreshIds [] n n' b) (a : List NodeId) : FreshIds a n n' (a ++ b) := by
  obtain ⟨hle, new, hb, hnew⟩ := h
  exact ⟨hle, new, hb.append_left a, hnew⟩

theorem append (h : FreshIds [] n n₁ a) (h' : FreshIds [] n₁ n' b) :
    FreshIds [] n n' (a ++ b) :=
  h.trans (h'.behind a)

/-- References that are left out of a tree. -/
theorem skip (h : FreshIds [] n n₁ a) (h' : FreshIds [] n₁ n' b) : FreshIds [] n n' b := by
  obtain ⟨hle, -⟩ := h
  obtain ⟨hle', new, hb, hnodup, hrange⟩ := h'
  refine ⟨Nat.le_trans hle hle', new, hb, hnodup, fun i hi => ?_⟩
  have := hrange i hi
  omega

end FreshIds

/-- The references of an expression that a rule goes on behind. -/
def Rule.idsBefore : Rule → List NodeId
  | binaryRest _ left => left.ids
  | callRest callee => callee.ids
  | _ => []

theorem Precedence.idsBefore_operand (p : Precedence) : p.operand.idsBefore = [] := by
  cases p <;> rfl

theorem Precedence.ids_node (p : Precedence) (left : Expr) (t : Token) (right : Expr) :
    (p.node left t right).ids = left.ids ++ right.ids := by
  cases p <;> rfl

theorem Stmt.ids_ofForClauses (initializer : Option Stmt) (condition increment : Option Expr)
    (body : Stmt) :
    (Stmt.ofForClauses initializer condition increment body).ids.Perm
      (Fragment.ids (.stmt? initializer) ++ (Expr.ids? condition ++
        (Expr.ids? increment ++ body.ids))) := by
  have hcomm (e : Expr) : (body.ids ++ e.ids).Perm (e.ids ++ body.ids) := List.perm_append_comm
  cases initializer <;> cases condition <;> cases increment <;>
    simp [ofForClauses, Stmt.ids, Stmt.allIds, Expr.ids, Expr.ids?, Fragment.ids, hcomm,
      List.perm_append_left_iff]

/-- A fragment brings new references with the identities that were free, in addition to those of
the expression it goes on behind. -/
theorem Reads.freshIds {r : Rule} {n n' : Nat} {w : List Token} {f : Fragment}
    (h : Reads r n w f n') : FreshIds r.idsBefore n n' f.ids := by
  induction h with
  | plain _ ih => exact ih
  | assign _ _ _ ihl ihv => exact (ihl.skip ihv).append (.single _)
  | set _ _ _ ihl ihv => exact ihl.append ihv
  | @binary p _ _ _ _ _ _ _ _ _ ihf ihm => exact (p.idsBefore_operand ▸ ihf).trans ihm
  | binaryStop => exact .refl _ _
  | @binaryMore p _ _ _ t _ _ left right _ _ _ _ iho ihm =>
    have hnode := p.ids_node left t right
    exact ((p.idsBefore_operand ▸ iho).behind _).trans (hnode ▸ ihm)
  | prefixed _ _ ih => exact ih
  | call _ _ ihf ihm => exact ihf.trans ihm
  | callStop => exact .refl _ _
  | callEmpty _ _ _ ih => simpa [Rule.idsBefore, Expr.ids, Expr.allIds] using ih
  | callWith _ _ _ _ iha ihm => exact (iha.behind _).trans ihm
  | property _ _ _ ih => exact ih
  | lastArgument _ _ ih => simpa [Fragment.ids, Expr.allIds, Rule.idsBefore] using ih
  | nextArgument _ _ _ _ ih ihm => exact ih.append ihm
  | literal _ => exact .refl _ _
  | this _ => exact .single _
  | super _ _ _ => exact .single _
  | name _ => exact .single _
  | group _ _ _ ih => exact ih
  | terminated _ _ _ ih => exact ih
  | omitted _ => exact .refl _ _
  | given _ ih => exact ih
  | parenthesized _ _ ih => exact ih
  | initialized _ _ _ ih => exact ih
  | uninitialized _ _ => exact .refl _ _
  | forNothing _ => exact .refl _ _
  | forVariable _ _ ih => exact ih
  | forExpression _ ih => exact ih
  | lastParameter _ _ => exact .refl _ _
  | nextParameter _ _ _ _ ih => exact ih
  | noParameters _ => exact .refl _ _
  | someParameters _ _ ih => exact ih
  | base _ => exact .refl _ _
  | derived _ _ _ => exact .single _
  | declaredClass _ _ ih => exact ih
  | declaredFunction _ _ ih => exact ih
  | declaredVariable _ _ ih => exact ih
  | statement _ ih => exact ih
  | classDeclaration _ _ _ ihh ihm => exact ihh.append ihm
  | noMethods _ => exact .refl _ _
  | nextMethod _ _ ih ihm => exact ih.append ihm
  | function _ _ _ _ _ ihp ihb => exact ihp.append ihb
  | blockEnd _ => exact .refl _ _
  | blockNext _ _ ih ihm => exact ih.append ihm
  | for_ _ _ _ _ _ _ ih₁ ih₂ ih₃ ih₄ =>
    exact (ih₁.append (ih₂.append (ih₃.append ih₄))).perm (Stmt.ids_ofForClauses _ _ _ _)
  | ifThen _ _ _ ih ih₁ => exact ih.append ih₁
  | ifElse _ _ _ _ _ ih ih₁ ih₂ => exact ih.append (ih₁.append ih₂)
  | while_ _ _ _ ih ih₁ => exact ih.append ih₁
  | return_ _ _ ih => exact ih
  | print _ _ ih => exact ih
  | block _ _ ih => exact ih
  | expressionStatement _ ih => exact ih
  | programEnd => exact .refl _ _
  | programNext _ _ ih ihm => exact ih.append ihm

/-! ## Well-formed trees -/

/-- A token that can name a variable. -/
def Token.IsName (t : Token) : Prop :=
  Source.IsIdentifier t.lexeme

/-- No variable is spelled like a name that the language binds itself. -/
theorem Token.IsName.ne {t : Token} (h : t.IsName) : t.lexeme ≠ thisName ∧ t.lexeme ≠ superName :=
  ⟨h.free .this_, h.free .super_⟩

/-- The name that a statement declares in the scope in which it stands. -/
def Stmt.declaredName? : Stmt → Option Token
  | .var name _ => some name
  | .fun_ f => some f.name
  | .class_ name _ _ => some name
  | _ => none

/-- Whether a statement declares a name in the scope in which it stands. -/
def Stmt.declares : Stmt → Bool
  | .var _ _ => true
  | .fun_ _ => true
  | .class_ _ _ _ => true
  | _ => false

mutual

/-- References have names that fit. -/
def Expr.WellFormed : Expr → Prop
  | .literal _ => True
  | .group inner => inner.WellFormed
  | .unary _ operand => operand.WellFormed
  | .binary left _ right => left.WellFormed ∧ right.WellFormed
  | .logical left _ right => left.WellFormed ∧ right.WellFormed
  | .var _ name => name.IsName
  | .assign _ name value => name.IsName ∧ value.WellFormed
  | .call callee _ arguments => callee.WellFormed ∧ Expr.AllWellFormed arguments
  | .get object _ => object.WellFormed
  | .set object _ value => object.WellFormed ∧ value.WellFormed
  | .this _ keyword => keyword.lexeme = thisName
  | .super _ keyword _ => keyword.lexeme = superName

def Expr.AllWellFormed : List Expr → Prop
  | [] => True
  | e :: es => e.WellFormed ∧ Expr.AllWellFormed es

end

/-- An expression that may be left out is well-formed. -/
def Expr.WellFormed? : Option Expr → Prop
  | some e => e.WellFormed
  | none => True

/-- A superclass is a name. -/
def Expr.IsSuperclass? : Option Expr → Prop
  | some e => ∃ id name, e = .var id name ∧ name.IsName
  | none => True

mutual

/-- Declarations have names that fit, and they stand only where declarations may stand. -/
def Stmt.WellFormed : Stmt → Prop
  | .expression e => e.WellFormed
  | .print e => e.WellFormed
  | .var name initializer => name.IsName ∧ Expr.WellFormed? initializer
  | .block body => Stmt.AllWellFormed body
  | .if_ condition thenBranch none =>
    condition.WellFormed ∧ thenBranch.WellFormed ∧ thenBranch.declares = false
  | .if_ condition thenBranch (some elseBranch) =>
    condition.WellFormed ∧ (thenBranch.WellFormed ∧ thenBranch.declares = false) ∧
      elseBranch.WellFormed ∧ elseBranch.declares = false
  | .while_ condition body => condition.WellFormed ∧ body.WellFormed ∧ body.declares = false
  | .fun_ f => f.name.IsName ∧ Stmt.FunWellFormed f
  | .return_ _ value => Expr.WellFormed? value
  | .class_ name superclass methods =>
    name.IsName ∧ Expr.IsSuperclass? superclass ∧ Stmt.MethodsWellFormed methods

def Stmt.AllWellFormed : List Stmt → Prop
  | [] => True
  | s :: ss => s.WellFormed ∧ Stmt.AllWellFormed ss

/-- The parameters and the body of a function are well-formed. -/
def Stmt.FunWellFormed : FunDeclOf Stmt → Prop
  | ⟨_, params, body⟩ => (∀ p ∈ params, p.IsName) ∧ Stmt.AllWellFormed body

def Stmt.MethodsWellFormed : List (FunDeclOf Stmt) → Prop
  | [] => True
  | f :: fs => Stmt.FunWellFormed f ∧ Stmt.MethodsWellFormed fs

end

/-- A fragment is well-formed. -/
def Fragment.WellFormed : Fragment → Prop
  | .expr e => e.WellFormed
  | .expr? e => Expr.WellFormed? e
  | .exprs es => Expr.AllWellFormed es
  | .names ts => ∀ t ∈ ts, t.IsName
  | .stmt s => s.WellFormed
  | .stmt? s => ∀ t ∈ s, t.WellFormed
  | .stmts ss => Stmt.AllWellFormed ss
  | .decl f => f.name.IsName ∧ Stmt.FunWellFormed f
  | .decls fs => Stmt.MethodsWellFormed fs

/-- The expression that a rule goes on behind is well-formed. -/
def Rule.WellFormedBefore : Rule → Prop
  | binaryRest _ left => left.WellFormed
  | callRest callee => callee.WellFormed
  | _ => True

theorem Precedence.wellFormedBefore_operand (p : Precedence) : p.operand.WellFormedBefore := by
  cases p <;> trivial

theorem Precedence.wellFormed_node (p : Precedence) {left right : Expr} (t : Token)
    (hl : left.WellFormed) (hr : right.WellFormed) : (p.node left t right).WellFormed := by
  cases p <;> exact ⟨hl, hr⟩

/-- Only declarations declare. -/
theorem Reads.declares_eq_false {o : Bool} {n n' : Nat} {w : List Token} {s : Stmt}
    (h : Reads (.statement o) n w (.stmt s) n') : s.declares = false := by
  cases h with
  | @for_ _ _ _ _ _ _ _ _ _ _ _ _ initializer _ _ _ => cases initializer <;> rfl
  | _ => rfl

theorem Stmt.wellFormed_ofForClauses {initializer : Option Stmt} {condition increment : Option Expr}
    {body : Stmt} (hi : ∀ s ∈ initializer, s.WellFormed) (hc : Expr.WellFormed? condition)
    (hs : Expr.WellFormed? increment) (hb : body.WellFormed) (hd : body.declares = false) :
    (Stmt.ofForClauses initializer condition increment body).WellFormed := by
  have hcondition : (condition.getD (.literal (.bool true))).WellFormed := by
    cases condition with
    | none => trivial
    | some e => exact hc
  have hloop : ∀ step : Stmt, step.WellFormed → step.declares = false →
      (Stmt.while_ (condition.getD (.literal (.bool true))) step).WellFormed :=
    fun step h h' => ⟨hcondition, h, h'⟩
  cases increment with
  | none =>
    cases initializer with
    | none => exact hloop _ hb hd
    | some s => exact ⟨hi s rfl, hloop _ hb hd, trivial⟩
  | some e =>
    have hstep : (Stmt.block [body, .expression e]).WellFormed := ⟨hb, hs, trivial⟩
    cases initializer with
    | none => exact hloop _ hstep rfl
    | some s => exact ⟨hi s rfl, hloop _ hstep rfl, trivial⟩

theorem Token.Genuine.isName {t : Token} (h : t.Genuine) (ht : t.kind = .identifier) : t.IsName :=
  h.isIdentifier ht

/-- A fragment is well-formed if its tokens are genuine and the expression it goes on behind is
well-formed. -/
theorem Reads.wellFormed {r : Rule} {n n' : Nat} {w : List Token} {f : Fragment}
    (h : Reads r n w f n') (hw : ∀ t ∈ w, t.Genuine) (hr : r.WellFormedBefore) : f.WellFormed := by
  induction h with
  | plain _ ih => exact ih hw trivial
  | assign _ _ _ ihl ihv =>
    simp only [List.forall_mem_append, List.forall_mem_cons] at hw
    exact ⟨ihl hw.1 trivial, ihv hw.2.2 trivial⟩
  | set _ _ _ ihl ihv =>
    simp only [List.forall_mem_append, List.forall_mem_cons] at hw
    exact ⟨ihl hw.1 trivial, ihv hw.2.2 trivial⟩
  | @binary p _ _ _ _ _ _ _ _ _ ihf ihm =>
    rw [List.forall_mem_append] at hw
    exact ihm hw.2 (ihf hw.1 p.wellFormedBefore_operand)
  | binaryStop => exact hr
  | @binaryMore p _ _ _ t _ _ left right _ _ _ _ iho ihm =>
    simp only [List.forall_mem_append, List.forall_mem_cons] at hw
    exact ihm hw.2.2 (p.wellFormed_node t hr (iho hw.2.1 p.wellFormedBefore_operand))
  | prefixed _ _ ih => exact ih (List.forall_mem_cons.mp hw).2 trivial
  | call _ _ ihf ihm =>
    rw [List.forall_mem_append] at hw
    exact ihm hw.2 (ihf hw.1 trivial)
  | callStop => exact hr
  | callEmpty _ _ _ ih =>
    simp only [List.forall_mem_cons] at hw
    exact ih hw.2.2 ⟨hr, trivial⟩
  | callWith _ _ _ _ iha ihm =>
    simp only [List.forall_mem_append, List.forall_mem_cons] at hw
    exact ihm hw.2.2.2 ⟨hr, iha hw.2.1 trivial⟩
  | property _ _ _ ih =>
    simp only [List.forall_mem_cons] at hw
    exact ih hw.2.2 hr
  | lastArgument _ _ ih => exact ⟨ih hw trivial, trivial⟩
  | nextArgument _ _ _ _ ih ihm =>
    simp only [List.forall_mem_append, List.forall_mem_cons] at hw
    exact ⟨ih hw.1 trivial, ihm hw.2.2 trivial⟩
  | literal _ => trivial
  | this ht => exact (hw _ List.mem_cons_self).lexeme_eq ht
  | super ht _ _ => exact (hw _ List.mem_cons_self).lexeme_eq ht
  | name ht => exact (hw _ List.mem_cons_self).isName ht
  | group _ _ _ ih =>
    simp only [List.forall_mem_append, List.forall_mem_cons] at hw
    exact ih hw.2.1 trivial
  | terminated _ _ _ ih => exact ih (List.forall_mem_append.mp hw).1 trivial
  | omitted _ => trivial
  | given _ ih => exact ih hw trivial
  | parenthesized _ _ ih => exact ih (List.forall_mem_cons.mp hw).2 trivial
  | initialized hname _ _ ih =>
    simp only [List.forall_mem_cons] at hw
    exact ⟨hw.1.isName hname, ih hw.2.2 trivial⟩
  | uninitialized hname _ => exact ⟨(hw _ List.mem_cons_self).isName hname, trivial⟩
  | forNothing _ => exact fun _ ht => nomatch ht
  | forVariable _ _ ih =>
    rintro _ ⟨⟩
    exact ih (List.forall_mem_cons.mp hw).2 trivial
  | forExpression _ ih =>
    rintro _ ⟨⟩
    exact ih hw trivial
  | lastParameter _ hname => exact fun t ht => (hw t ht).isName (by simp_all)
  | nextParameter _ hname _ _ ih =>
    simp only [List.forall_mem_cons] at hw
    exact List.forall_mem_cons.mpr ⟨hw.1.isName hname, ih hw.2.2 trivial⟩
  | noParameters _ => exact fun _ ht => nomatch ht
  | someParameters _ _ ih => exact ih (List.forall_mem_append.mp hw).1 trivial
  | base _ => trivial
  | derived _ hname _ =>
    simp only [List.forall_mem_cons] at hw
    exact hw.2.1.isName hname
  | declaredClass _ _ ih => exact ih (List.forall_mem_cons.mp hw).2 trivial
  | declaredFunction _ _ ih => exact ih (List.forall_mem_cons.mp hw).2 trivial
  | declaredVariable _ _ ih => exact ih (List.forall_mem_cons.mp hw).2 trivial
  | statement _ ih => exact ih hw trivial
  | classDeclaration hname header _ ihh ihm =>
    simp only [List.forall_mem_append, List.forall_mem_cons] at hw
    refine ⟨hw.1.isName hname, ?_, ihm hw.2.2 trivial⟩
    have hsuper := ihh hw.2.1 trivial
    cases header with
    | base => trivial
    | derived => exact ⟨_, _, rfl, hsuper⟩
  | noMethods _ => trivial
  | nextMethod _ _ ih ihm =>
    rw [List.forall_mem_append] at hw
    exact ⟨(ih hw.1 trivial).2, ihm hw.2 trivial⟩
  | function hname _ _ _ _ ihp ihb =>
    simp only [List.forall_mem_append, List.forall_mem_cons] at hw
    exact ⟨hw.1.isName hname, ihp hw.2.2.1 trivial, ihb hw.2.2.2.2 trivial⟩
  | blockEnd _ => trivial
  | blockNext _ _ ih ihm =>
    rw [List.forall_mem_append] at hw
    exact ⟨ih hw.1 trivial, ihm hw.2 trivial⟩
  | for_ _ _ _ _ _ h₄ ih₁ ih₂ ih₃ ih₄ =>
    simp only [List.forall_mem_append, List.forall_mem_cons] at hw
    obtain ⟨-, -, hw₁, hw₂, hw₃, hw₄⟩ := hw
    exact Stmt.wellFormed_ofForClauses (ih₁ hw₁ trivial) (ih₂ hw₂ trivial) (ih₃ hw₃ trivial)
      (ih₄ hw₄ trivial) h₄.declares_eq_false
  | ifThen _ _ h₁ ih ih₁ =>
    simp only [List.forall_mem_append, List.forall_mem_cons] at hw
    exact ⟨ih hw.2.1 trivial, ih₁ hw.2.2 trivial, h₁.declares_eq_false⟩
  | ifElse _ _ h₁ _ h₂ ih ih₁ ih₂ =>
    simp only [List.forall_mem_append, List.forall_mem_cons] at hw
    exact ⟨ih hw.2.1 trivial, ⟨ih₁ hw.2.2.1 trivial, h₁.declares_eq_false⟩,
      ih₂ hw.2.2.2.2 trivial, h₂.declares_eq_false⟩
  | while_ _ _ h₁ ih ih₁ =>
    simp only [List.forall_mem_append, List.forall_mem_cons] at hw
    exact ⟨ih hw.2.1 trivial, ih₁ hw.2.2 trivial, h₁.declares_eq_false⟩
  | return_ _ _ ih => exact ih (List.forall_mem_cons.mp hw).2 trivial
  | print _ _ ih => exact ih (List.forall_mem_cons.mp hw).2 trivial
  | block _ _ ih => exact ih (List.forall_mem_cons.mp hw).2 trivial
  | expressionStatement _ ih => exact ih hw trivial
  | programEnd => trivial
  | programNext _ _ ih ihm =>
    rw [List.forall_mem_append] at hw
    exact ⟨ih hw.1 trivial, ihm hw.2 trivial⟩

/-! ## The trees of accepted programs -/

namespace Grammar

variable {n : Nat} {ts : List Token} {source : String} {ss : List Stmt}

theorem nodup_of_program_eq_ok (h : (program n ts).result = .ok ss) : (Stmt.allIds ss).Nodup := by
  obtain ⟨-, new, hperm, hnodup, -⟩ := (reads_of_program_eq_ok h).freshIds
  exact hperm.nodup_iff.mpr hnodup

theorem index_of_program_eq_ok (h : (program n ts).result = .ok ss) {id : NodeId}
    (hid : id ∈ Stmt.allIds ss) : n ≤ id.index ∧ id.index < (program n ts).nextId := by
  obtain ⟨-, new, hperm, -, hrange⟩ := (reads_of_program_eq_ok h).freshIds
  exact hrange id (hperm.mem_iff.mp hid)

theorem wellFormed_of_program_eq_ok (h : (program n (Source.tokens source)).result = .ok ss) :
    Stmt.AllWellFormed ss := by
  refine (reads_of_program_eq_ok h).wellFormed (fun t ht => ?_) trivial
  exact Source.genuine_of_mem_tokens ((List.takeWhile_prefix _).subset ht)

end Grammar

end LoxWalk
