import LoxWalk.Proofs.Simulation.Shifts

/-!
# The first free identity and the lines do not matter

The reader only hands out identities and never looks at them, and it looks at a token's kind but not
at its line.  When it starts with `k` more identities in use, and the tokens stand on the lines to
which they `move`, every rule takes the same course: it reads the same tokens and makes the same
complaints, and its tree is the same but for the lines and for identities that are larger by `k`.
There is one lemma for each rule, by the recursion of the rules, and `Grammar.program_shift` for a
whole program.
-/

namespace LoxWalk

/-- The same complaint about a token on another line. -/
def Complaint.relined (move : Nat → Nat) (e : Complaint) : Complaint :=
  { e with token? := e.token?.map (Token.relined move) }

/-- The same place, when `k` more identities are in use and the tokens stand on other lines. -/
def Cursor.shift (k : Nat) (move : Nat → Nat) (c : Cursor) : Cursor :=
  ⟨c.rest.map (Token.relined move), c.complaints.map (Complaint.relined move), c.nextId + k⟩

@[simp]
theorem Cursor.length_rest_shift (k : Nat) (move : Nat → Nat) (c : Cursor) :
    (c.shift k move).rest.length = c.rest.length :=
  List.length_map _

theorem Cursor.rest_shift_eq_nil {k : Nat} {move : Nat → Nat} {c : Cursor} :
    (c.shift k move).rest = [] ↔ c.rest = [] :=
  List.map_eq_nil_iff

/-- The same token, when `k` more identities are in use and the tokens stand on other lines. -/
def Taken.shift {c : Cursor} (k : Nat) (move : Nat → Nat) (x : Taken c) : Taken (c.shift k move) :=
  ⟨x.token.relined move, x.next.shift k move, by
    rw [Cursor.length_rest_shift, Cursor.length_rest_shift]
    exact x.shorter⟩

/-! ## Steps -/

/-- Two steps take the same course, the second when `k` more identities are in use and the tokens
stand on other lines; `f` does with the result what this means for it. -/
inductive Step.Shifts (k : Nat) (move : Nat → Nat) {α : Type} (f : α → α) {m n : Nat} :
    Step α m → Step α n → Prop where
  | ok (a : α) (c : Cursor) (h : c.rest.length < m) (h' : (c.shift k move).rest.length < n) :
      Shifts k move f (.ok a c h) (.ok (f a) (c.shift k move) h')
  | failed (e : Complaint) (c : Cursor) (h : c.rest.length ≤ m)
      (h' : (c.shift k move).rest.length ≤ n) :
      Shifts k move f (.failed e c h) (.failed (e.relined move) (c.shift k move) h')

namespace Step

variable {α β : Type} {k m m' n n' : Nat} {move : Nat → Nat} {f : α → α} {g : β → β}

theorem Shifts.of_eq {a a' : α} {c c' : Cursor} {h : c.rest.length < m} {h' : c'.rest.length < n}
    (ha : a' = f a) (hc : c' = c.shift k move) :
    Shifts k move f (.ok a c h : Step α m) (.ok a' c' h' : Step α n) := by
  subst ha hc
  exact .ok a c h h'

theorem Shifts.andThen {x : Step α m} {x' : Step α m'}
    {F : (a : α) → (c : Cursor) → c.rest.length < m → Step β n}
    {F' : (a : α) → (c : Cursor) → c.rest.length < m' → Step β n'} {hle : m ≤ n} {hle' : m' ≤ n'}
    (hx : Shifts k move f x x')
    (hF : ∀ a c h h', Shifts k move g (F a c h) (F' (f a) (c.shift k move) h')) :
    Shifts k move g (x.andThen F hle) (x'.andThen F' hle') := by
  cases hx with
  | ok a c h h' => exact hF a c h h'
  | failed e c h h' => exact .failed e c _ _

theorem Shifts.widen {x : Step α m} {x' : Step α m'} {hle : m ≤ n} {hle' : m' ≤ n'}
    (hx : Shifts k move f x x') : Shifts k move f (x.widen hle) (x'.widen hle') := by
  cases hx with
  | ok a c h h' => exact .ok a c _ _
  | failed e c h h' => exact .failed e c _ _

end Step

namespace Cursor

open Step (Shifts)

variable (k : Nat) (move : Nat → Nat)

theorem useId_shift (c : Cursor) : (c.shift k move).useId = c.useId.shift k move := by
  simp only [useId, shift, Nat.add_right_comm]

theorem takeIf?_shift (c : Cursor) {p : Token → Bool} (hp : ∀ t, p (t.relined move) = p t) :
    (c.shift k move).takeIf? p = (c.takeIf? p).map (Taken.shift k move) := by
  obtain ⟨rest, complaints, nextId⟩ := c
  cases rest with
  | nil => rfl
  | cons t ts =>
    change (if p (t.relined move) then some _ else none) = Option.map _ (if p t then some _ else none)
    rw [hp]
    split <;> rfl

theorem take?_shift (c : Cursor) (kind : TokenKind) :
    (c.shift k move).take? kind = (c.take? kind).map (Taken.shift k move) :=
  takeIf?_shift k move c fun _ => rfl

theorem symbol?_shift (c : Cursor) (s : Symbol) :
    (c.shift k move).symbol? s = (c.symbol? s).map (Taken.shift k move) :=
  take?_shift k move c _

theorem keyword?_shift (c : Cursor) (w : Keyword) :
    (c.shift k move).keyword? w = (c.keyword? w).map (Taken.shift k move) :=
  take?_shift k move c _

/-- The next token is the same one, on another line. -/
theorem complaint_shift (c : Cursor) (fault : ParseFault) :
    (c.shift k move).complaint fault = (c.complaint fault).relined move := by
  obtain ⟨rest, complaints, nextId⟩ := c
  cases rest <;> rfl

theorem fail_shifts {α : Type} {f : α → α} {m n : Nat} (c : Cursor) (fault : ParseFault)
    {h : c.rest.length ≤ m} {h' : (c.shift k move).rest.length ≤ n} :
    Shifts k move f (c.fail fault h) ((c.shift k move).fail fault h') := by
  rw [fail, fail, complaint_shift]
  exact .failed _ c h h'

theorem expect_shifts (c : Cursor) (kind : TokenKind) (what : Expected) :
    Shifts k move (Token.relined move) (c.expect kind what) ((c.shift k move).expect kind what) := by
  unfold expect
  rw [take?_shift]
  cases c.take? kind with
  | none => exact c.fail_shifts k move _
  | some t => exact .ok _ _ _ _

theorem checkArity_shift (c : Cursor) (count : Nat) (fault : ParseFault) :
    (c.shift k move).checkArity count fault = (c.checkArity count fault).shift k move := by
  unfold checkArity
  rw [complaint_shift]
  split <;> rfl

/-! ## Expressions -/

theorem node_shift (p : Precedence) (left right : Expr) (operator : Token) :
    p.node (left.shift k move) (operator.relined move) (right.shift k move) =
      (p.node left operator right).shift k move := by
  cases p <;> rfl

theorem assign_shift (c : Cursor) (left value : Expr) (equals : Token) :
    (c.shift k move).assign (left.shift k move) (equals.relined move) (value.shift k move) =
      ((c.assign left equals value).1.shift k move,
        (c.assign left equals value).2.shift k move) := by
  cases left with
  | var id name =>
    have hid : (c.shift k move).freshId = c.freshId.shift k := rfl
    rw [Expr.shift, assign, assign, hid, useId_shift]
    rfl
  | _ => rfl

mutual

theorem expression_shifts (c : Cursor) :
    Shifts k move (Expr.shift k move) (expression c) (expression (c.shift k move)) := by
  rw [expression, expression]
  refine (binary_shifts .or c).andThen fun left c₁ _ _ => ?_
  rw [symbol?_shift]
  cases c₁.symbol? .equal with
  | none => exact .ok _ _ _ _
  | some t =>
    obtain ⟨equals, c₂, _⟩ := t
    refine (expression_shifts c₂).andThen fun value c₃ _ _ => ?_
    have hassign := assign_shift k move c₃ left value equals
    exact .of_eq (congrArg Prod.fst hassign) (congrArg Prod.snd hassign)
termination_by c.rest.length * 16 + 15
decreasing_by
  · simp only [Precedence.height]
    omega
  · omega

theorem binary_shifts (p : Precedence) (c : Cursor) :
    Shifts k move (Expr.shift k move) (binary p c) (binary p (c.shift k move)) := by
  rw [binary, binary]
  split
  · rename_i q _
    exact (binary_shifts q c).andThen fun left c₁ _ _ => (binaryRest_shifts p left c₁).widen
  · exact (unary_shifts c).andThen fun left c₁ _ _ => (binaryRest_shifts p left c₁).widen
termination_by c.rest.length * 16 + 7 + p.height
decreasing_by
  all_goals have := p.height_le
  · have := Precedence.height_lt_of_tighter? ‹p.tighter? = some _›
    omega
  all_goals omega

theorem binaryRest_shifts (p : Precedence) (left : Expr) (c : Cursor) :
    Shifts k move (Expr.shift k move) (binaryRest p left c)
      (binaryRest p (left.shift k move) (c.shift k move)) := by
  rw [binaryRest, binaryRest, takeIf?_shift k move c fun _ => rfl]
  cases c.takeIf? (p.operators.contains ·.kind) with
  | none => exact .ok _ _ _ _
  | some t =>
    obtain ⟨operator, c₁, _⟩ := t
    dsimp only [Option.map_some, Taken.shift]
    split
    · rename_i q _
      refine (binary_shifts q c₁).andThen fun right c₂ _ _ => ?_
      rw [node_shift]
      exact (binaryRest_shifts p _ c₂).widen
    · refine (unary_shifts c₁).andThen fun right c₂ _ _ => ?_
      rw [node_shift]
      exact (binaryRest_shifts p _ c₂).widen
termination_by c.rest.length * 16 + 14
decreasing_by
  all_goals have := p.height_le
  · have := Precedence.height_lt_of_tighter? ‹p.tighter? = some _›
    omega
  all_goals omega

theorem unary_shifts (c : Cursor) :
    Shifts k move (Expr.shift k move) (unary c) (unary (c.shift k move)) := by
  rw [unary, unary, takeIf?_shift k move c fun _ => rfl]
  cases c.takeIf? (fun t => t.isSymbol .bang || t.isSymbol .minus) with
  | none => exact (primary_shifts c).andThen fun e c₁ _ _ => (callRest_shifts e c₁).widen
  | some t =>
    obtain ⟨operator, c₁, _⟩ := t
    exact (unary_shifts c₁).andThen fun operand c₂ _ _ => .ok _ _ _ _
termination_by c.rest.length * 16 + 2
decreasing_by all_goals omega

theorem callRest_shifts (e : Expr) (c : Cursor) :
    Shifts k move (Expr.shift k move) (callRest e c)
      (callRest (e.shift k move) (c.shift k move)) := by
  rw [callRest, callRest, symbol?_shift]
  cases c.symbol? .leftParen with
  | some t =>
    obtain ⟨opening, c₁, _⟩ := t
    dsimp only [Option.map_some, Taken.shift]
    rw [symbol?_shift]
    cases c₁.symbol? .rightParen with
    | some t =>
      obtain ⟨paren, c₂, _⟩ := t
      exact (callRest_shifts (.call e paren []) c₂).widen
    | none =>
      refine (arguments_shifts 0 c₁).andThen fun es c₂ _ _ => ?_
      refine (c₂.expect_shifts k move _ _).andThen fun paren c₃ _ _ => ?_
      exact (callRest_shifts (.call e paren es) c₃).widen
  | none =>
    dsimp only [Option.map_none]
    rw [symbol?_shift]
    cases c.symbol? .dot with
    | some t =>
      obtain ⟨dot, c₁, _⟩ := t
      refine (c₁.expect_shifts k move _ _).andThen fun name c₂ _ _ => ?_
      exact (callRest_shifts (.get e name) c₂).widen
    | none => exact .ok _ _ _ _
termination_by c.rest.length * 16 + 1
decreasing_by all_goals omega

theorem arguments_shifts (count : Nat) (c : Cursor) :
    Shifts k move (Expr.shiftAll k move) (arguments count c)
      (arguments count (c.shift k move)) := by
  have same : (c.checkArity count .tooManyArguments).rest.length = c.rest.length := by simp
  have hfirst : Shifts k move (Expr.shift k move) (expression (c.checkArity count .tooManyArguments))
      (expression ((c.shift k move).checkArity count .tooManyArguments)) := by
    rw [checkArity_shift]
    exact expression_shifts _
  rw [arguments, arguments]
  refine hfirst.andThen fun e c₁ _ _ => ?_
  rw [symbol?_shift]
  cases c₁.symbol? .comma with
  | some t =>
    obtain ⟨comma, c₂, _⟩ := t
    exact (arguments_shifts (count + 1) c₂).andThen fun es c₃ _ _ => .ok _ _ _ _
  | none => exact .ok _ _ _ _
termination_by c.rest.length * 16 + 16
decreasing_by all_goals omega

theorem primary_shifts (c : Cursor) :
    Shifts k move (Expr.shift k move) (primary c) (primary (c.shift k move)) := by
  rw [primary, primary, takeIf?_shift k move c fun _ => rfl]
  cases c.takeIf? (fun _ => true) with
  | none => exact c.fail_shifts k move _
  | some t =>
    obtain ⟨t, c₁, _⟩ := t
    dsimp only [Option.map_some, Taken.shift, Token.kind_relined]
    split
    · exact .ok _ _ _ _
    · exact .of_eq rfl (useId_shift k move c₁)
    · refine (c₁.expect_shifts k move _ _).andThen fun dot c₂ _ _ => ?_
      refine (c₂.expect_shifts k move _ _).andThen fun method c₃ _ _ => ?_
      exact .of_eq rfl (useId_shift k move c₃)
    · exact .of_eq rfl (useId_shift k move c₁)
    · refine (expression_shifts c₁).andThen fun inner c₂ _ _ => ?_
      exact (c₂.expect_shifts k move _ _).andThen fun closing c₃ _ _ => .ok _ _ _ _
    · exact c.fail_shifts k move _
termination_by c.rest.length * 16
decreasing_by all_goals omega

end

/-! ## Parts of statements -/

theorem terminated_shifts (s : Symbol) (what : Expected) (c : Cursor) :
    Shifts k move (Expr.shift k move) (terminated s what c)
      (terminated s what (c.shift k move)) := by
  unfold terminated
  refine (c.expression_shifts k move).andThen fun e c₁ _ _ => ?_
  exact (c₁.expect_shifts k move _ _).andThen fun _ c₂ _ _ => .ok _ _ _ _

theorem optional_shifts (s : Symbol) (what : Expected) (c : Cursor) :
    Shifts k move (Option.map (Expr.shift k move)) (optional s what c)
      (optional s what (c.shift k move)) := by
  unfold optional
  rw [symbol?_shift]
  cases c.symbol? s with
  | some t => exact .ok _ _ _ _
  | none => exact (c.terminated_shifts k move s what).andThen fun e c₁ _ _ => .ok _ _ _ _

theorem parenthesized_shifts (opening closing : Expected) (c : Cursor) :
    Shifts k move (Expr.shift k move) (parenthesized opening closing c)
      (parenthesized opening closing (c.shift k move)) := by
  unfold parenthesized
  refine (c.expect_shifts k move _ _).andThen fun _ c₁ _ _ => ?_
  exact (c₁.terminated_shifts k move _ _).andThen fun e c₂ _ _ => .ok _ _ _ _

theorem variableDeclaration_shifts (c : Cursor) :
    Shifts k move (Stmt.shift k move) (variableDeclaration c)
      (variableDeclaration (c.shift k move)) := by
  unfold variableDeclaration
  refine (c.expect_shifts k move _ _).andThen fun name c₁ _ _ => ?_
  rw [symbol?_shift]
  cases c₁.symbol? .equal with
  | some t =>
    obtain ⟨_, c₂, _⟩ := t
    exact (c₂.terminated_shifts k move _ _).andThen fun e c₃ _ _ => .ok _ _ _ _
  | none => exact (c₁.expect_shifts k move _ _).andThen fun _ c₂ _ _ => .ok _ _ _ _

theorem expressionStatement_shifts (c : Cursor) :
    Shifts k move (Stmt.shift k move) (expressionStatement c)
      (expressionStatement (c.shift k move)) := by
  unfold expressionStatement
  exact (c.terminated_shifts k move _ _).andThen fun e c₁ _ _ => .ok _ _ _ _

theorem forInitializer_shifts (c : Cursor) :
    Shifts k move (Option.map (Stmt.shift k move)) (forInitializer c)
      (forInitializer (c.shift k move)) := by
  unfold forInitializer
  rw [symbol?_shift, keyword?_shift]
  cases c.symbol? .semicolon with
  | some t => exact .ok _ _ _ _
  | none =>
    cases c.keyword? .var_ with
    | some t =>
      obtain ⟨_, c₁, _⟩ := t
      exact (c₁.variableDeclaration_shifts k move).andThen fun s c₂ _ _ => .ok _ _ _ _
    | none => exact (c.expressionStatement_shifts k move).andThen fun s c₁ _ _ => .ok _ _ _ _

theorem parameters_shifts (count : Nat) (c : Cursor) :
    Shifts k move (List.map (Token.relined move)) (parameters count c)
      (parameters count (c.shift k move)) := by
  have same : (c.checkArity count .tooManyParameters).rest.length = c.rest.length := by simp
  have hfirst := (c.checkArity count .tooManyParameters).expect_shifts k move .identifier
    .parameterName
  rw [← checkArity_shift] at hfirst
  rw [parameters, parameters]
  refine hfirst.andThen fun name c₁ _ _ => ?_
  rw [symbol?_shift]
  cases c₁.symbol? .comma with
  | some t =>
    obtain ⟨_, c₂, _⟩ := t
    exact (parameters_shifts (count + 1) c₂).andThen fun names c₃ _ _ => .ok _ _ _ _
  | none => exact .ok _ _ _ _
termination_by c.rest.length
decreasing_by omega

theorem parameterList_shifts (c : Cursor) :
    Shifts k move (List.map (Token.relined move)) (parameterList c)
      (parameterList (c.shift k move)) := by
  unfold parameterList
  rw [symbol?_shift]
  cases c.symbol? .rightParen with
  | some t => exact .ok _ _ _ _
  | none =>
    refine (c.parameters_shifts k move 0).andThen fun names c₁ _ _ => ?_
    exact (c₁.expect_shifts k move _ _).andThen fun _ c₂ _ _ => .ok _ _ _ _

theorem classHeader_shifts (c : Cursor) :
    Shifts k move (Option.map (Expr.shift k move)) (classHeader c)
      (classHeader (c.shift k move)) := by
  unfold classHeader
  rw [symbol?_shift]
  cases c.symbol? .less with
  | some t =>
    obtain ⟨_, c₁, _⟩ := t
    refine (c₁.expect_shifts k move _ _).andThen fun name c₂ _ _ => ?_
    refine (c₂.expect_shifts k move _ _).andThen fun _ c₃ _ _ => ?_
    exact .of_eq rfl (useId_shift k move c₃)
  | none => exact (c.expect_shifts k move _ _).andThen fun _ c₁ _ _ => .ok _ _ _ _

/-! ## Declarations and statements -/

theorem resumeAfter_relined (last : Token) (ts : List Token) :
    resumeAfter (last.relined move) (ts.map (Token.relined move)) =
      (resumeAfter last ts).map (Token.relined move) := by
  induction ts generalizing last with
  | nil => rfl
  | cons t ts ih =>
    have hsame : ((last.relined move).isSymbol .semicolon || (t.relined move).startsStatement) =
        (last.isSymbol .semicolon || t.startsStatement) := rfl
    rw [List.map_cons, resumeAfter, resumeAfter, hsame, ih]
    split <;> rfl

theorem resume_shift (c : Cursor) : (c.shift k move).resume = c.resume.shift k move := by
  obtain ⟨rest, complaints, nextId⟩ := c
  cases rest with
  | nil => rfl
  | cons t ts => simp only [resume, shift, List.map_cons, resumeAfter_relined]

end Cursor

theorem Stmt.shiftAll_append (k : Nat) (move : Nat → Nat) (ss ss' : List Stmt) :
    Stmt.shiftAll k move (ss ++ ss') = Stmt.shiftAll k move ss ++ Stmt.shiftAll k move ss' := by
  induction ss with
  | nil => rfl
  | cons s ss ih => simp only [List.cons_append, Stmt.shiftAll, ih]

theorem Stmt.shiftAll_toList (k : Nat) (move : Nat → Nat) (s : Option Stmt) :
    Stmt.shiftAll k move s.toList = (s.map (Stmt.shift k move)).toList := by
  cases s <;> rfl

theorem Stmt.shift_ofForClauses (k : Nat) (move : Nat → Nat) (initializer : Option Stmt)
    (condition increment : Option Expr) (body : Stmt) :
    (Stmt.ofForClauses initializer condition increment body).shift k move =
      .ofForClauses (initializer.map (Stmt.shift k move)) (condition.map (Expr.shift k move))
        (increment.map (Expr.shift k move)) (body.shift k move) := by
  cases initializer <;> cases condition <;> cases increment <;> rfl

/-- The same declaration, when `k` more identities are in use and the tokens stand on other lines. -/
def Declared.shift {c : Cursor} (k : Nat) (move : Nat → Nat) (d : Declared c) :
    Declared (c.shift k move) :=
  ⟨d.result.map (Stmt.shift k move), d.next.shift k move, by
    rw [Cursor.length_rest_shift, Cursor.length_rest_shift]
    exact d.shorter⟩

namespace Cursor

open Step (Shifts)

variable (k : Nat) (move : Nat → Nat)

mutual

theorem declared_shift (c : Cursor) (h : c.rest ≠ []) (h' : (c.shift k move).rest ≠ []) :
    declared (c.shift k move) h' = (declared c h).shift k move := by
  have hdeclaration := declaration_shifts c
  rw [declared, declared]
  revert hdeclaration
  generalize declaration c = x, declaration (c.shift k move) = x'
  intro hdeclaration
  cases hdeclaration with
  | ok s c₁ _ _ => rfl
  | failed e c₁ _ _ =>
    simp only [Declared.shift, ← resume_shift]
    rfl
termination_by c.rest.length * 8 + 3

theorem declaration_shifts (c : Cursor) :
    Shifts k move (Stmt.shift k move) (declaration c) (declaration (c.shift k move)) := by
  rw [declaration, declaration, keyword?_shift, keyword?_shift, keyword?_shift]
  cases c.keyword? .class_ with
  | some t =>
    obtain ⟨_, c₁, _⟩ := t
    exact (classDeclaration_shifts c₁).widen
  | none =>
    cases c.keyword? .fun_ with
    | some t =>
      obtain ⟨_, c₁, _⟩ := t
      exact (function_shifts .function c₁).andThen fun f c₂ _ _ => .ok _ _ _ _
    | none =>
      cases c.keyword? .var_ with
      | some t =>
        obtain ⟨_, c₁, _⟩ := t
        exact (c₁.variableDeclaration_shifts k move).widen
      | none => exact statement_shifts c
termination_by c.rest.length * 8 + 2
decreasing_by all_goals omega

theorem classDeclaration_shifts (c : Cursor) :
    Shifts k move (Stmt.shift k move) (classDeclaration c) (classDeclaration (c.shift k move)) := by
  rw [classDeclaration, classDeclaration]
  refine (c.expect_shifts k move _ _).andThen fun name c₁ _ _ => ?_
  refine (c₁.classHeader_shifts k move).andThen fun superclass c₂ _ _ => ?_
  exact (methods_shifts c₂).andThen fun ms c₃ _ _ => .ok _ _ _ _
termination_by c.rest.length * 8
decreasing_by omega

theorem methods_shifts (c : Cursor) :
    Shifts k move (Stmt.shiftMethods k move) (methods c) (methods (c.shift k move)) := by
  rw [methods, methods, symbol?_shift]
  cases c.symbol? .rightBrace with
  | some t => exact .ok _ _ _ _
  | none =>
    by_cases hrest : c.rest = []
    · rw [Option.map_none, if_pos hrest, if_pos (rest_shift_eq_nil.mpr hrest)]
      exact c.fail_shifts k move _
    · rw [Option.map_none, if_neg hrest, if_neg (mt rest_shift_eq_nil.mp hrest)]
      refine (function_shifts .method c).andThen fun f c₁ _ _ => ?_
      exact (methods_shifts c₁).andThen fun fs c₂ _ _ => .ok _ _ _ _
termination_by c.rest.length * 8 + 1
decreasing_by all_goals omega

theorem function_shifts (form : FunctionForm) (c : Cursor) :
    Shifts k move (Stmt.shiftFun k move) (function form c) (function form (c.shift k move)) := by
  rw [function, function]
  refine (c.expect_shifts k move _ _).andThen fun name c₁ _ _ => ?_
  refine (c₁.expect_shifts k move _ _).andThen fun _ c₂ _ _ => ?_
  refine (c₂.parameterList_shifts k move).andThen fun params c₃ _ _ => ?_
  refine (c₃.expect_shifts k move _ _).andThen fun _ c₄ _ _ => ?_
  exact (block_shifts c₄).andThen fun body c₅ _ _ => .ok _ _ _ _
termination_by c.rest.length * 8
decreasing_by omega

theorem block_shifts (c : Cursor) :
    Shifts k move (Stmt.shiftAll k move) (block c) (block (c.shift k move)) := by
  rw [block, block, symbol?_shift]
  cases c.symbol? .rightBrace with
  | some t => exact .ok _ _ _ _
  | none =>
    by_cases hrest : c.rest = []
    · rw [Option.map_none, dif_pos hrest, dif_pos (rest_shift_eq_nil.mpr hrest)]
      exact c.fail_shifts k move _
    · have hrest' : (c.shift k move).rest ≠ [] := mt rest_shift_eq_nil.mp hrest
      rw [Option.map_none, dif_neg hrest, dif_neg hrest']
      dsimp only
      have hshorter := (declared c hrest).shorter
      rw [declared_shift c hrest hrest']
      refine (block_shifts (declared c hrest).next).andThen fun ss c₂ _ _ => ?_
      refine .of_eq ?_ rfl
      rw [Stmt.shiftAll_append, Stmt.shiftAll_toList]
      rfl
termination_by c.rest.length * 8 + 4
decreasing_by all_goals omega

theorem statement_shifts (c : Cursor) :
    Shifts k move (Stmt.shift k move) (statement c) (statement (c.shift k move)) := by
  rw [statement, statement, takeIf?_shift k move c fun _ => rfl]
  cases c.takeIf? (fun _ => true) with
  | none => exact c.expressionStatement_shifts k move
  | some t =>
    obtain ⟨t, c₁, _⟩ := t
    dsimp only [Option.map_some, Taken.shift, Token.kind_relined]
    split
    · refine (c₁.expect_shifts k move _ _).andThen fun _ c₂ _ _ => ?_
      refine (c₂.forInitializer_shifts k move).andThen fun initializer c₃ _ _ => ?_
      refine (c₃.optional_shifts k move _ _).andThen fun condition c₄ _ _ => ?_
      refine (c₄.optional_shifts k move _ _).andThen fun increment c₅ _ _ => ?_
      refine (statement_shifts c₅).andThen fun body c₆ _ _ => ?_
      exact .of_eq (Stmt.shift_ofForClauses k move initializer condition increment body).symm rfl
    · refine (c₁.parenthesized_shifts k move _ _).andThen fun condition c₂ _ _ => ?_
      refine (statement_shifts c₂).andThen fun thenBranch c₃ _ _ => ?_
      rw [keyword?_shift]
      cases c₃.keyword? .else_ with
      | some t =>
        obtain ⟨_, c₄, _⟩ := t
        exact (statement_shifts c₄).andThen fun elseBranch c₅ _ _ => .of_eq rfl rfl
      | none => exact .of_eq rfl rfl
    · refine (c₁.parenthesized_shifts k move _ _).andThen fun condition c₂ _ _ => ?_
      exact (statement_shifts c₂).andThen fun body c₃ _ _ => .ok _ _ _ _
    · exact (c₁.optional_shifts k move _ _).andThen fun value c₂ _ _ => .ok _ _ _ _
    · exact (c₁.terminated_shifts k move _ _).andThen fun e c₂ _ _ => .ok _ _ _ _
    · exact (block_shifts c₁).andThen fun body c₂ _ _ => .ok _ _ _ _
    · exact c.expressionStatement_shifts k move
termination_by c.rest.length * 8 + 1
decreasing_by all_goals omega

end

theorem program_shift (c : Cursor) : program (c.shift k move) =
    (Stmt.shiftAll k move (program c).1, (program c).2.shift k move) := by
  rw [program, program]
  by_cases hrest : c.rest = []
  · rw [dif_pos hrest, dif_pos (rest_shift_eq_nil.mpr hrest)]
    rfl
  · have hrest' : (c.shift k move).rest ≠ [] := mt rest_shift_eq_nil.mp hrest
    rw [dif_neg hrest, dif_neg hrest']
    dsimp only
    have hlater : program (Declared.shift k move (declared c hrest)).next = _ :=
      program_shift (declared c hrest).next
    rw [declared_shift k move c hrest hrest', hlater, Stmt.shiftAll_append, Stmt.shiftAll_toList]
    rfl
termination_by c.rest.length
decreasing_by exact (declared c hrest).shorter

end Cursor

/-! ## Whole programs -/

/-- The same error on another line. -/
def ParseError.relined (move : Nat → Nat) (e : ParseError) : ParseError :=
  { e with line := move e.line }

/-- What comes of the same tokens, when `k` more identities are in use and the tokens stand on other
lines. -/
def Parsed.shift (k : Nat) (move : Nat → Nat) (p : Parsed (List Stmt)) : Parsed (List Stmt) :=
  ⟨(p.result.map (Stmt.shiftAll k move)).mapError (List.map (ParseError.relined move)),
    p.nextId + k⟩

namespace Grammar

variable (k : Nat) (move : Nat → Nat)

theorem body_relined (ts : List Token) :
    body (ts.map (Token.relined move)) = (body ts).map (Token.relined move) :=
  List.takeWhile_map

/-- A list that is not empty ends on the line of one of its tokens. -/
theorem endLine_relined {ts : List Token} (hts : ts ≠ []) :
    endLine (ts.map (Token.relined move)) = move (endLine ts) := by
  have hdrop : (ts.map (Token.relined move)).dropWhile (!·.isEof) =
      (ts.dropWhile (!·.isEof)).map (Token.relined move) := List.dropWhile_map
  unfold endLine
  rw [hdrop, List.getLast?_map]
  cases ts.dropWhile (!·.isEof) with
  | cons t _ => rfl
  | nil =>
    rw [List.getLast?_eq_some_getLast hts]
    rfl

theorem toError_relined (line : Nat) (e : Complaint) :
    (e.relined move).toError (move line) = (e.toError line).relined move := by
  obtain ⟨t, fault⟩ := e
  cases t <;> rfl

/-- Without tokens there is nothing to complain about. -/
theorem errors_shift {ts : List Token} {c : Cursor} (h : c.complaints = [] ∨ ts ≠ []) :
    errors (ts.map (Token.relined move)) (c.shift k move) =
      (errors ts c).map (ParseError.relined move) := by
  unfold errors
  rcases h with hc | hts
  · rw [Cursor.shift, hc]
    rfl
  · rw [endLine_relined move hts, Cursor.shift, ← List.map_reverse, List.map_map, List.map_map]
    exact List.map_congr_left fun e _ => toError_relined move _ e

theorem conclude_shift {ts : List Token} {c : Cursor} (h : c.complaints = [] ∨ ts ≠ [])
    (tree : List Stmt) :
    conclude (ts.map (Token.relined move)) (Stmt.shiftAll k move tree) (c.shift k move) =
      (conclude ts tree c).shift k move := by
  unfold conclude
  rw [errors_shift k move h]
  cases errors ts c <;> rfl

/-- A program that is read when `k` more identities are in use and the tokens stand on other
lines. -/
theorem program_shift (n : Nat) (ts : List Token) :
    program (n + k) (ts.map (Token.relined move)) = (program n ts).shift k move := by
  have hstart : start (n + k) (ts.map (Token.relined move)) = (start n ts).shift k move := by
    rw [start, body_relined]
    rfl
  unfold program
  rw [hstart, Cursor.program_shift]
  refine conclude_shift k move ?_ _
  by_cases hts : ts = []
  · subst hts
    have hrest : (start n []).rest = [] := rfl
    rw [Cursor.program, dif_pos hrest]
    exact .inl rfl
  · exact .inr hts

/-- A program whose tokens stand on other lines. -/
theorem program_relined (n : Nat) (ts : List Token) :
    program n (ts.map (Token.relined move)) = (program n ts).shift 0 move :=
  program_shift 0 move n ts

/-- A program that is read when `k` more identities are in use. -/
theorem program_add (n k : Nat) (ts : List Token) :
    Grammar.program (n + k) ts =
      ⟨(Grammar.program n ts).result.map (Stmt.shiftAll k id),
        (Grammar.program n ts).nextId + k⟩ := by
  have hshift := program_shift k id n ts
  have htokens : ts.map (Token.relined id) = ts := List.map_id ts
  have herrors (es : List ParseError) : es.map (ParseError.relined id) = es := List.map_id es
  rw [htokens] at hshift
  rw [hshift, Parsed.shift]
  cases (program n ts).result with
  | ok unit => rfl
  | error es => rw [Except.map, Except.mapError, herrors]

end Grammar

end LoxWalk
