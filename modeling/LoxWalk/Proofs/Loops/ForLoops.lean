import LoxWalk.Evaluation
import LoxWalk.Proofs.Binding.Depths
import LoxWalk.Proofs.Binding.Shifting
import LoxWalk.Proofs.Grammar.Completeness
import LoxWalk.Proofs.Loops.Places

/-!
# Loops with clauses

There is no node for a `for` loop: the reader makes a `while` loop of it, in a block if there is an
initializer, and if there is an increment it puts this and the body into a block as well
(`ForLoop.desugared`).  Here is what such a loop means without that.  If it has an initializer it
opens one scope and runs the initializer in it, once.  Then it goes through rounds in this scope:
the condition, which is true if left out, the body, and the increment.  An interruption in any part
ends the loop at once (`ForLoop.execute`).  Its parts are bound where they run: the initializer in
the scope that the loop opens, and all others behind it (`ForLoop.findings`).
-/

namespace LoxWalk

open Exec

/-- A loop with its clauses. -/
structure ForLoop where
  initializer : Option Stmt
  condition : Option Expr
  increment : Option Expr
  body : Stmt

namespace ForLoop

/-! ## What the reader makes of it -/

/-- What is executed again and again in the tree that is read. -/
def step (l : ForLoop) : Stmt :=
  match l.increment with
  | some e => .block [l.body, .expression e]
  | none => l.body

/-- The loop without its initializer in the tree that is read. -/
def loop (l : ForLoop) : Stmt :=
  .while_ (l.condition.getD (.literal (.bool true))) l.step

/-- The tree that is read. -/
def desugared (l : ForLoop) : Stmt :=
  .ofForClauses l.initializer l.condition l.increment l.body

theorem desugared_of_none {l : ForLoop} (h : l.initializer = none) : l.desugared = l.loop := by
  rw [desugared, h]
  rfl

theorem desugared_of_some {l : ForLoop} {t : Stmt} (h : l.initializer = some t) :
    l.desugared = .block [t, l.loop] := by
  rw [desugared, h]
  rfl

/-- The tokens behind the word `for` are the clauses and the body of a loop. -/
def IsRead (o : Bool) (n : Nat) (w : List Token) (n' : Nat) (l : ForLoop) : Prop :=
  ∃ t w₁ w₂ w₃ w₄ n₁ n₂ n₃, w = t :: (w₁ ++ (w₂ ++ (w₃ ++ w₄))) ∧ t.kind = .symbol .leftParen ∧
    Reads .forInitializer n w₁ (.stmt? l.initializer) n₁ ∧
    Reads (.optional .semicolon) n₁ w₂ (.expr? l.condition) n₂ ∧
    Reads (.optional .rightParen) n₂ w₃ (.expr? l.increment) n₃ ∧
    Reads (.statement o) n₃ w₄ (.stmt l.body) n'

/-- What is read behind the word `for` is a loop, and nothing else is read of it. -/
theorem reads_iff {o : Bool} {n n' : Nat} {t : Token} {w : List Token}
    (ht : t.kind = .keyword .for_) (tree : Stmt) :
    Reads (.statement o) n (t :: w) (.stmt tree) n' ↔
      ∃ l : ForLoop, l.IsRead o n w n' ∧ tree = l.desugared := by
  constructor
  · intro h
    have hother : ∀ {k : TokenKind}, t.kind = k → k ≠ .keyword .for_ → False :=
      fun hk hne => hne (hk.symm.trans ht)
    generalize hv : t :: w = v at h
    cases h with
    | @for_ _ _ n₁ n₂ n₃ _ t₀ t' w₁ w₂ w₃ w₄ initializer condition increment body _ ht' h₁ h₂ h₃
        h₄ =>
      cases hv
      exact ⟨⟨initializer, condition, increment, body⟩,
        ⟨t', w₁, w₂, w₃, w₄, n₁, n₂, n₃, rfl, ht', h₁, h₂, h₃, h₄⟩, rfl⟩
    | expressionStatement h =>
      obtain ⟨t₀, w₀, rfl, hstart⟩ := h.starts rfl
      cases hv
      rw [ht] at hstart
      cases hstart
    | ifThen hk | ifElse hk | while_ hk | return_ hk | print hk | block hk =>
      cases hv
      exact (hother hk (by simp)).elim
  · rintro ⟨l, ⟨t', w₁, w₂, w₃, w₄, n₁, n₂, n₃, rfl, ht', h₁, h₂, h₃, h₄⟩, rfl⟩
    exact .for_ ht ht' h₁ h₂ h₃ h₄

/-- What every loop is like that is read: its parts are well-formed, its body declares nothing. -/
structure WellFormed (l : ForLoop) : Prop where
  initializer : ∀ t ∈ l.initializer, t.WellFormed
  condition : Expr.WellFormed? l.condition
  increment : Expr.WellFormed? l.increment
  body : l.body.WellFormed
  declares : l.body.declares = false

theorem IsRead.wellFormed {o : Bool} {n n' : Nat} {w : List Token} {l : ForLoop}
    (h : l.IsRead o n w n') (hw : ∀ u ∈ w, u.Genuine) : l.WellFormed := by
  obtain ⟨t, w₁, w₂, w₃, w₄, n₁, n₂, n₃, rfl, -, h₁, h₂, h₃, h₄⟩ := h
  simp only [List.forall_mem_cons, List.forall_mem_append] at hw
  obtain ⟨-, hw₁, hw₂, hw₃, hw₄⟩ := hw
  exact ⟨h₁.wellFormed hw₁ trivial, h₂.wellFormed hw₂ trivial, h₃.wellFormed hw₃ trivial,
    h₄.wellFormed hw₄ trivial, h₄.declares_eq_false⟩

/-- The same loop with identities that are larger by `k`. -/
def shift (k : Nat) (l : ForLoop) : ForLoop :=
  ⟨l.initializer.map (Stmt.shift k id), l.condition.map (Expr.shift k id),
    l.increment.map (Expr.shift k id), l.body.shift k id⟩

/-! ## What it means -/

section

variable (l : ForLoop) (st : Static)

/-- The place of the condition, the body and the increment: behind the initializer, in the scope
that the loop opens for it. -/
def inside : Static :=
  match l.initializer with
  | some t => ((st.enter []).stmt t).1
  | none => st

/-- The findings of the initializer. -/
def initialFindings : Findings :=
  match l.initializer with
  | some t => ((st.enter []).stmt t).2
  | none => .none

/-- The findings of the loop. -/
def findings : Findings :=
  l.initialFindings st ++ (l.inside st).expr? l.condition ++ ((l.inside st).stmt l.body).2
    ++ (l.inside st).expr? l.increment

end

section

variable (s : Setting) (fuel : Nat) (l : ForLoop)

/-- Whether there is another round. -/
def holds : Exec Bool :=
  match l.condition with
  | some e => do
    let v ← evaluate s fuel e
    pure v.isTruthy
  | none => pure true

/-- Goes on to the next round. -/
def advance : Exec Unit :=
  match l.increment with
  | some e => do
    let _ ← evaluate s fuel e
    pure ()
  | none => pure ()

/-- One round whose condition holds. -/
def round : Exec Unit := do
  execute s fuel l.body
  l.advance s fuel

/-- Round after round, as long as the condition holds. -/
def rounds : Nat → Exec Unit
  | 0 => throw .outOfFuel
  | fuel + 1 => do
    if ← l.holds s fuel then
      l.round s fuel
      rounds fuel
    else
      pure ()

/-- Executes the loop. -/
def execute : Exec Unit :=
  match l.initializer with
  | some t => do
    let scope ← newScope (← get).scope .empty
    inScope scope do
      LoxWalk.execute s fuel t
      l.rounds s fuel
  | none => l.rounds s fuel

end

/-! ## Its references -/

/-- The place of the condition, the body and the increment. -/
def place (l : ForLoop) (p : Surroundings) : Surroundings :=
  match l.initializer with
  | some t => (p.enter []).behind t.names
  | none => p

/-- The references in the initializer. -/
def initialReferences (l : ForLoop) (p : Surroundings) : List Reference :=
  match l.initializer with
  | some t => t.references (p.enter [])
  | none => []

/-- The references in a loop. -/
def references (l : ForLoop) (p : Surroundings) : List Reference :=
  l.initialReferences p ++ Expr.references? (l.place p) l.condition ++ l.body.references (l.place p)
    ++ Expr.references? (l.place p) l.increment

variable {l : ForLoop} {st : Static} {p : Surroundings}

theorem knows_inside (l : ForLoop) (h : st.Knows p) : (l.inside st).Knows (l.place p) := by
  unfold inside place
  cases l.initializer with
  | none => exact h
  | some t => exact (Static.resolve_stmt t h.block).1

/-- What is found in a loop is what is to be recorded of its references. -/
theorem resolve_findings (l : ForLoop) (h : st.Knows p) :
    (l.findings st).Resolve (l.references p) := by
  have hinside := l.knows_inside h
  have hinitial : (l.initialFindings st).Resolve (l.initialReferences p) := by
    unfold initialFindings initialReferences
    cases l.initializer with
    | none => exact .none
    | some t => exact (Static.resolve_stmt t h.block).2
  exact ((hinitial.append (Static.resolve_expr? hinside l.condition)).append
    (Static.resolve_stmt l.body hinside).2).append (Static.resolve_expr? hinside l.increment)

/-- The references of a loop are those of the tree that is read. -/
theorem map_id_references (l : ForLoop) (p : Surroundings) :
    ((l.references p).map Reference.id).Perm l.desugared.ids := by
  have hcondition : Expr.ids? l.condition = (l.condition.getD (.literal (.bool true))).ids := by
    cases l.condition <;> rfl
  have hstep : l.body.ids ++ Expr.ids? l.increment = l.step.ids := by
    unfold step
    cases l.increment with
    | none => exact List.append_nil _
    | some e => simp [Stmt.ids, Stmt.allIds, Expr.ids?]
  have hloop : ((Expr.references? (l.place p) l.condition ++ (l.body.references (l.place p)
      ++ Expr.references? (l.place p) l.increment)).map Reference.id).Perm l.loop.ids := by
    rw [loop, Stmt.ids, ← hcondition, ← hstep, List.map_append, List.map_append]
    exact (Expr.map_id_references? _ _).append
      ((Stmt.map_id_references _ _).append (Expr.map_id_references? _ _))
  rw [references, List.append_assoc, List.append_assoc, List.map_append]
  cases hinitializer : l.initializer with
  | none =>
    rw [desugared_of_none hinitializer, initialReferences, hinitializer]
    exact hloop
  | some t =>
    rw [desugared_of_some hinitializer, initialReferences, hinitializer, Stmt.ids, Stmt.allIds,
      Stmt.allIds, Stmt.allIds, List.append_nil]
    exact (Stmt.map_id_references _ _).append hloop

/-! ## The rules it breaks -/

/-- The place of the parts of a loop is one where statements may begin. -/
theorem WellFormed.atStatement (hl : l.WellFormed) (h : st.AtStatement) :
    (l.inside st).AtStatement := by
  unfold inside
  cases hinitializer : l.initializer with
  | none => exact h
  | some t => exact (Static.AtStatement.block st).stmt (hl.initializer t hinitializer)

/-- The tree that is read declares nothing. -/
theorem WellFormed.place_desugared (hl : l.WellFormed) (st : Static) :
    (st.stmt l.desugared).1 = st := by
  refine st.stmt_of_declares_eq_false _ (Stmt.wellFormed_ofForClauses hl.initializer hl.condition
    hl.increment hl.body hl.declares) ?_
  unfold desugared Stmt.ofForClauses
  cases l.initializer <;> rfl

/-- In the extra block nothing is declared either. -/
theorem WellFormed.place_body (hl : l.WellFormed) (st : Static) : (st.stmt l.body).1 = st :=
  st.stmt_of_declares_eq_false _ hl.body hl.declares

/-- What is executed again and again breaks the rules that the body and the increment break. -/
theorem WellFormed.errors_step (hl : l.WellFormed) (h : st.AtStatement) :
    (st.stmt l.step).2.errors = (st.stmt l.body).2.errors ++ (st.expr? l.increment).errors := by
  unfold step
  cases l.increment with
  | none => exact (List.append_nil _).symm
  | some e =>
    have hreads : st.ReadsAlike (st.enter []) := ⟨rfl, fun x => (h.isPending x).symm⟩
    have hplace : ((st.enter []).stmt l.body).1 = st.enter [] := hl.place_body _
    simp only [Static.stmt, Static.stmts, hplace]
    rw [Findings.errors_append, Findings.errors_append, Findings.errors_none,
      List.append_nil, h.errors_stmt_block l.body hl.body hl.declares, hreads.errors_expr]
    rfl

theorem WellFormed.errors_loop (hl : l.WellFormed) (h : st.AtStatement) :
    (st.stmt l.loop).2.errors = (st.expr? l.condition).errors ++
      ((st.stmt l.body).2.errors ++ (st.expr? l.increment).errors) := by
  have hcondition : st.expr (l.condition.getD (.literal (.bool true))) = st.expr? l.condition := by
    cases l.condition <;> rfl
  rw [loop, Static.stmt]
  dsimp only
  rw [Findings.errors_append, hl.errors_step h, hcondition]

/-- The tree that is read breaks the rules that the loop breaks. -/
theorem WellFormed.errors_desugared (hl : l.WellFormed) (h : st.AtStatement) :
    (st.stmt l.desugared).2.errors = (l.findings st).errors := by
  have hloop := hl.errors_loop (hl.atStatement h)
  rw [findings, Findings.errors_append, Findings.errors_append, Findings.errors_append,
    List.append_assoc, List.append_assoc, ← hloop]
  cases hinitializer : l.initializer with
  | none =>
    rw [desugared_of_none hinitializer, inside, initialFindings, hinitializer]
    rfl
  | some t =>
    rw [desugared_of_some hinitializer, inside, initialFindings, hinitializer]
    simp only [Static.stmt, Static.stmts]
    rw [Findings.errors_append, Findings.errors_append, Findings.errors_none, List.append_nil]

end ForLoop

end LoxWalk
