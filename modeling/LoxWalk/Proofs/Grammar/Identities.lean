import LoxWalk.Proofs.Grammar.Shifting
import LoxWalk.Proofs.Unparsing.Rendering

/-!
# Trees that differ in their identities only

A program that is read when other identities are in use has larger identities, and nothing else is
different (`Grammar.program_add`).  So what remains when the identities are erased is the same
whatever the first free identity is (`Grammar.program_erased`).
-/

namespace LoxWalk

/-! ## Moving identities and erasing them -/

mutual

theorem Expr.erase_shift (k : Nat) : (e : Expr) → (e.shift k id).erase = e.erase
  | .literal _ | .var _ _ | .this _ _ | .super _ _ _ => rfl
  | .group inner => by rw [shift, erase, erase, inner.erase_shift]
  | .unary _ operand => by rw [shift, erase, erase, operand.erase_shift, Token.relined_id]
  | .binary left _ right | .logical left _ right => by
    rw [shift, erase, erase, left.erase_shift, right.erase_shift, Token.relined_id]
  | .assign _ _ value => by rw [shift, erase, erase, value.erase_shift, Token.relined_id]
  | .call callee _ arguments => by
    rw [shift, erase, erase, callee.erase_shift, Expr.eraseAll_shiftAll k arguments,
      Token.relined_id]
  | .get object _ => by rw [shift, erase, erase, object.erase_shift, Token.relined_id]
  | .set object _ value => by
    rw [shift, erase, erase, object.erase_shift, value.erase_shift, Token.relined_id]

theorem Expr.eraseAll_shiftAll (k : Nat) : (es : List Expr) →
    Expr.eraseAll (Expr.shiftAll k id es) = Expr.eraseAll es
  | [] => rfl
  | e :: es => by rw [shiftAll, eraseAll, eraseAll, e.erase_shift, eraseAll_shiftAll k es]

end

theorem Expr.map_erase_shift (k : Nat) (e : Option Expr) :
    (e.map (Expr.shift k id)).map Expr.erase = e.map Expr.erase := by
  cases e with
  | none => rfl
  | some e => exact congrArg some (e.erase_shift k)

mutual

theorem Stmt.erase_shift (k : Nat) : (s : Stmt) → (s.shift k id).erase = s.erase
  | .expression e | .print e => by rw [shift, erase, erase, e.erase_shift]
  | .var _ initializer => by rw [shift, erase, erase, Expr.map_erase_shift, Token.relined_id]
  | .block body => by rw [shift, erase, erase, Stmt.eraseAll_shiftAll k body]
  | .if_ condition thenBranch none => by
    rw [shift, erase, erase, condition.erase_shift, thenBranch.erase_shift]
  | .if_ condition thenBranch (some elseBranch) => by
    rw [shift, erase, erase, condition.erase_shift, thenBranch.erase_shift, elseBranch.erase_shift]
  | .while_ condition body => by
    rw [shift, erase, erase, condition.erase_shift, body.erase_shift]
  | .fun_ f => by rw [shift, erase, erase, Stmt.eraseFunction_shiftFun k f]
  | .return_ _ value => by rw [shift, erase, erase, Expr.map_erase_shift, Token.relined_id]
  | .class_ _ superclass methods => by
    rw [shift, erase, erase, Expr.map_erase_shift, Stmt.eraseMethods_shiftMethods k methods,
      Token.relined_id]

theorem Stmt.eraseAll_shiftAll (k : Nat) : (ss : List Stmt) →
    Stmt.eraseAll (Stmt.shiftAll k id ss) = Stmt.eraseAll ss
  | [] => rfl
  | s :: ss => by rw [shiftAll, eraseAll, eraseAll, s.erase_shift, eraseAll_shiftAll k ss]

theorem Stmt.eraseFunction_shiftFun (k : Nat) : (f : FunDeclOf Stmt) →
    Stmt.eraseFunction (Stmt.shiftFun k id f) = Stmt.eraseFunction f
  | ⟨name, params, body⟩ => by
    have hparams : params.map (Token.relined id) = params := List.map_id params
    rw [shiftFun, eraseFunction, eraseFunction, Stmt.eraseAll_shiftAll k body, Token.relined_id,
      hparams]

theorem Stmt.eraseMethods_shiftMethods (k : Nat) : (fs : List (FunDeclOf Stmt)) →
    Stmt.eraseMethods (Stmt.shiftMethods k id fs) = Stmt.eraseMethods fs
  | [] => rfl
  | f :: fs => by
    rw [shiftMethods, eraseMethods, eraseMethods, Stmt.eraseFunction_shiftFun k f,
      eraseMethods_shiftMethods k fs]

end

theorem Stmt.eraseAll_append (ss ss' : List Stmt) :
    Stmt.eraseAll (ss ++ ss') = Stmt.eraseAll ss ++ Stmt.eraseAll ss' := by
  induction ss with
  | nil => rfl
  | cons s ss ih => rw [List.cons_append, eraseAll, eraseAll, ih, List.cons_append]

/-! ## Programs without identities -/

namespace Grammar

/-- Apart from identities it does not matter which of them are in use. -/
theorem program_erased (n m : Nat) (ts : List Token) :
    (program n ts).result.map Stmt.eraseAll = (program m ts).result.map Stmt.eraseAll := by
  have hfirst (k : Nat) :
      (program k ts).result.map Stmt.eraseAll = (program 0 ts).result.map Stmt.eraseAll := by
    rw [← Nat.zero_add k, program_add]
    cases (program 0 ts).result with
    | ok ss => exact congrArg Except.ok (Stmt.eraseAll_shiftAll k ss)
    | error es => rfl
  rw [hfirst n, hfirst m]

variable {n : Nat} {ts : List Token}

/-- An accepted program is accepted whatever identities are in use. -/
theorem exists_program_eq_ok (m : Nat) {ss : List Stmt} (h : (program n ts).result = .ok ss) :
    ∃ ss', (program m ts).result = .ok ss' ∧ Stmt.eraseAll ss' = Stmt.eraseAll ss := by
  have herased := program_erased m n ts
  rw [h] at herased
  cases hm : (program m ts).result with
  | ok ss' =>
    rw [hm] at herased
    exact ⟨ss', rfl, Except.ok.inj herased⟩
  | error es =>
    rw [hm] at herased
    cases herased

/-- The errors do not depend on the identities that are in use. -/
theorem program_eq_error (m : Nat) {es : List ParseError}
    (h : (program n ts).result = .error es) : (program m ts).result = .error es := by
  have herased := program_erased m n ts
  rw [h] at herased
  cases hm : (program m ts).result with
  | ok ss =>
    rw [hm] at herased
    cases herased
  | error es' =>
    rw [hm] at herased
    exact congrArg Except.error (Except.error.inj herased)

end Grammar

end LoxWalk
