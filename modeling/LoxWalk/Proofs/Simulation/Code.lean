import Mathlib.Data.List.Forall2
import LoxWalk.Machine

/-!
# Code that differs in lines and in a name

A `Twin` says how two programs may differ that are run side by side: their tokens may stand on
different lines, and in some of the scopes one of them may use other names.  Which scopes these are
is a list of flags along the scopes around a place, innermost first, the top level included.

`Expr.Twins` and `Stmt.Twins` relate trees of the same shape.  A name in a tree is changed exactly
if the scope to which it belongs is flagged: for a declaration this is the innermost scope, and for a
reference the scope to which its distance leads.
-/

namespace LoxWalk

/-- How two executions may differ, to which names the first of them may apply `rename`, what is known
about corresponding references and their distance, and the top-level scope that they share. -/
structure Twin where
  line : Nat → Nat → Prop
  rename : String → String
  renames : String → Prop
  rename_rename : ∀ x, rename (rename x) = x
  rename_this : rename thisName = thisName
  rename_super : rename superName = superName
  known : Extent → NodeId → NodeId → Option Nat → Prop
  globals : Scope

namespace Twin

variable (T : Twin)

/-- A name as the second program writes it, in a scope that is flagged or not. -/
def name (flag : Bool) (x : String) : String :=
  if flag then T.rename x else x

@[simp]
theorem name_false (x : String) : T.name false x = x := rfl

@[simp]
theorem name_this (flag : Bool) : T.name flag thisName = thisName := by
  cases flag
  · rfl
  · exact T.rename_this

@[simp]
theorem name_super (flag : Bool) : T.name flag superName = superName := by
  cases flag
  · rfl
  · exact T.rename_super

@[simp]
theorem name_name (flag : Bool) (x : String) : T.name flag (T.name flag x) = x := by
  cases flag
  · rfl
  · exact T.rename_rename x

theorem name_inj {flag : Bool} {x y : String} : T.name flag x = T.name flag y ↔ x = y := by
  refine ⟨fun h => ?_, fun h => h ▸ rfl⟩
  rw [← T.name_name flag x, h, T.name_name]

/-- Tokens that differ in their line, and in the name if the flag is set. -/
structure Tokens (flag : Bool) (t t' : Token) : Prop where
  kind : t'.kind = t.kind
  lexeme : t'.lexeme = T.name flag t.lexeme
  renames : flag = true → T.renames t.lexeme
  line : T.line t.line t'.line

/-- The flag of the scope at a distance; the top level, where there is no distance, is not
flagged. -/
def flagAt (flags : List Bool) (d : Option Nat) : Bool :=
  (d.bind (flags[·]?)).getD false

/-- The flag of the innermost scope. -/
def flagHere (flags : List Bool) : Bool :=
  flags.head?.getD false

end Twin

/-! ## Expressions -/

section

variable (T : Twin) (x : Extent) (flags : List Bool)

mutual

/-- Two expressions differ only as `T` says. -/
def Expr.Twins : Expr → Expr → Prop
  | .literal v, e' => e' = .literal v
  | .group inner, e' => ∃ inner', e' = .group inner' ∧ inner.Twins inner'
  | .unary operator operand, e' => ∃ operator' operand', e' = .unary operator' operand' ∧
      T.Tokens false operator operator' ∧ operand.Twins operand'
  | .binary left operator right, e' => ∃ left' operator' right',
      e' = .binary left' operator' right' ∧ left.Twins left' ∧
        T.Tokens false operator operator' ∧ right.Twins right'
  | .logical left operator right, e' => ∃ left' operator' right',
      e' = .logical left' operator' right' ∧ left.Twins left' ∧
        T.Tokens false operator operator' ∧ right.Twins right'
  | .var id name, e' => ∃ id' name' d, e' = .var id' name' ∧ T.known x id id' d ∧
      T.Tokens (Twin.flagAt flags d) name name'
  | .assign id name value, e' => ∃ id' name' value' d, e' = .assign id' name' value' ∧
      value.Twins value' ∧ T.known x id id' d ∧ T.Tokens (Twin.flagAt flags d) name name'
  | .call callee paren arguments, e' => ∃ callee' paren' arguments',
      e' = .call callee' paren' arguments' ∧ callee.Twins callee' ∧
        T.Tokens false paren paren' ∧ Expr.AllTwins arguments arguments'
  | .get object name, e' => ∃ object' name', e' = .get object' name' ∧ object.Twins object' ∧
      T.Tokens false name name'
  | .set object name value, e' => ∃ object' name' value', e' = .set object' name' value' ∧
      object.Twins object' ∧ T.Tokens false name name' ∧ value.Twins value'
  | .this id keyword, e' => ∃ id' keyword' d, e' = .this id' keyword' ∧ T.known x id id' d ∧
      T.Tokens (Twin.flagAt flags d) keyword keyword'
  | .super id keyword method, e' => ∃ id' keyword' method' d, e' = .super id' keyword' method' ∧
      T.known x id id' d ∧ T.Tokens (Twin.flagAt flags d) keyword keyword' ∧
        T.Tokens false method method'

/-- The expressions of two lists differ only as `T` says. -/
def Expr.AllTwins : List Expr → List Expr → Prop
  | [], es' => es' = []
  | e :: es, es'' => ∃ e' es', es'' = e' :: es' ∧ e.Twins e' ∧ Expr.AllTwins es es'

end

/-- A name stands against a name and nothing else does. -/
theorem Expr.Twins.var_or_not {e e' : Expr} (h : e.Twins T x flags e') :
    (∃ id id' t t' flag, e = .var id t ∧ e' = .var id' t' ∧ T.Tokens flag t t') ∨
      (∀ id t, e ≠ .var id t) ∧ ∀ id t, e' ≠ .var id t := by
  cases e with
  | var id t =>
    obtain ⟨id', t', d, rfl, -, ht⟩ := h
    exact .inl ⟨id, id', t, t', _, rfl, rfl, ht⟩
  | _ =>
    refine .inr ⟨fun _ _ he => (nomatch he), fun id t he => ?_⟩
    simp [he, Expr.Twins] at h

/-- Two expressions that may be left out differ only as `T` says. -/
def Expr.Twins? : Option Expr → Option Expr → Prop
  | none, e' => e' = none
  | some e, e'' => ∃ e', e'' = some e' ∧ e.Twins T x flags e'

end

/-! ## Statements -/

section

variable (T : Twin)

mutual

/-- Two statements differ only as `T` says; only functions return. -/
def Stmt.Twins (x : Extent) (flags : List Bool) : Stmt → Stmt → Prop
  | .expression e, s' => ∃ e', s' = .expression e' ∧ e.Twins T x flags e'
  | .print e, s' => ∃ e', s' = .print e' ∧ e.Twins T x flags e'
  | .var name initializer, s' => ∃ name' initializer', s' = .var name' initializer' ∧
      T.Tokens (Twin.flagHere flags) name name' ∧ Expr.Twins? T x flags initializer initializer'
  | .block body, s' => ∃ flag body', s' = .block body' ∧
      Stmt.AllTwins x (flag :: flags) body body'
  | .if_ condition thenBranch none, s' => ∃ condition' thenBranch',
      s' = .if_ condition' thenBranch' none ∧ condition.Twins T x flags condition' ∧
        thenBranch.Twins x flags thenBranch'
  | .if_ condition thenBranch (some elseBranch), s' => ∃ condition' thenBranch' elseBranch',
      s' = .if_ condition' thenBranch' (some elseBranch') ∧
        condition.Twins T x flags condition' ∧ thenBranch.Twins x flags thenBranch' ∧
          elseBranch.Twins x flags elseBranch'
  | .while_ condition body, s' => ∃ condition' body', s' = .while_ condition' body' ∧
      condition.Twins T x flags condition' ∧ body.Twins x flags body'
  | .fun_ f, s' => ∃ f', s' = .fun_ f' ∧ T.Tokens (Twin.flagHere flags) f.name f'.name ∧
      Stmt.FunTwins flags f f'
  | .return_ keyword value, s' => x = .lasting ∧ ∃ keyword' value',
      s' = .return_ keyword' value' ∧ T.Tokens false keyword keyword' ∧
        Expr.Twins? T x flags value value'
  | .class_ name superclass methods, s' => ∃ name' superclass' methods',
      s' = .class_ name' superclass' methods' ∧
        (T.Tokens (Twin.flagHere flags) name name' ∧ name'.lexeme = name.lexeme) ∧
          Expr.Twins? T x flags superclass superclass' ∧
            Stmt.MethodsTwins (if superclass.isSome then false :: flags else flags)
              methods methods'
termination_by structural s => s

/-- The statements of two lists differ only as `T` says. -/
def Stmt.AllTwins (x : Extent) (flags : List Bool) : List Stmt → List Stmt → Prop
  | [], ss' => ss' = []
  | s :: ss, ss'' => ∃ s' ss', ss'' = s' :: ss' ∧ s.Twins x flags s' ∧
      Stmt.AllTwins x flags ss ss'
termination_by structural ss => ss

/-- Two functions that are declared in scopes with the given flags differ only as `T` says. -/
def Stmt.FunTwins (flags : List Bool) : FunDeclOf Stmt → FunDeclOf Stmt → Prop
  | ⟨name, params, body⟩, f' => ∃ flag name' params' body', f' = ⟨name', params', body'⟩ ∧
      T.Tokens false name name' ∧ List.Forall₂ (T.Tokens flag) params params' ∧
        Stmt.AllTwins .lasting (flag :: flags) body body'
termination_by structural f => f

/-- The methods of two classes differ only as `T` says; around each is the scope of its instance. -/
def Stmt.MethodsTwins (flags : List Bool) :
    List (FunDeclOf Stmt) → List (FunDeclOf Stmt) → Prop
  | [], fs' => fs' = []
  | f :: fs, fs'' => ∃ f' fs', fs'' = f' :: fs' ∧ Stmt.FunTwins (false :: flags) f f' ∧
      Stmt.MethodsTwins flags fs fs'
termination_by structural fs => fs

end

end

end LoxWalk
