import LoxWalk.Proofs.Grammar.Reading
import LoxWalk.Proofs.Simulation.Knowledge

/-!
# Texts of twins

If a program comes from a text, then so does every program that differs from it only as a `Twin`
says, and the tokens of the two texts differ in the same way (`Reads.twin`).

What is known about the distances of references is of no importance here: a `Twin` may be exchanged
for another that knows less (`Stmt.Twins.weaken`).
-/

namespace LoxWalk

/-- Two tokens that may stand against each other. -/
def Twin.Alike (T : Twin) (t t' : Token) : Prop :=
  ∃ flag, T.Tokens flag t t'

/-! ## Fragments -/

section

variable (T : Twin) (x : Extent) (flags : List Bool)

/-- Two statements that may be left out differ only as `T` says. -/
def Stmt.Twins? : Option Stmt → Option Stmt → Prop
  | none, s' => s' = none
  | some s, s'' => ∃ s', s'' = some s' ∧ s.Twins T x flags s'

/-- Two fragments differ only as `T` says. -/
def Fragment.Twins : Fragment → Fragment → Prop
  | .expr e, f' => ∃ e', f' = .expr e' ∧ e.Twins T x flags e'
  | .expr? e, f' => ∃ e', f' = .expr? e' ∧ Expr.Twins? T x flags e e'
  | .exprs es, f' => ∃ es', f' = .exprs es' ∧ Expr.AllTwins T x flags es es'
  | .names ts, f' => ∃ flag ts', f' = .names ts' ∧ List.Forall₂ (T.Tokens flag) ts ts'
  | .stmt s, f' => ∃ s', f' = .stmt s' ∧ s.Twins T x flags s'
  | .stmt? s, f' => ∃ s', f' = .stmt? s' ∧ Stmt.Twins? T x flags s s'
  | .stmts ss, f' => ∃ ss', f' = .stmts ss' ∧ Stmt.AllTwins T x flags ss ss'
  | .decl f, f' => ∃ g, f' = .decl g ∧ Stmt.FunTwins T flags f g
  | .decls fs, f' => ∃ fs', f' = .decls fs' ∧ Stmt.MethodsTwins T flags fs fs'

/-- Two rules that go on behind expressions which differ only as `T` says. -/
def Rule.Twins : Rule → Rule → Prop
  | .binaryRest p left, r' => ∃ left', r' = .binaryRest p left' ∧ left.Twins T x flags left'
  | .callRest callee, r' => ∃ callee', r' = .callRest callee' ∧ callee.Twins T x flags callee'
  | r, r' => r' = r

end

section

variable {T : Twin} {x : Extent} {flags : List Bool}

theorem Precedence.eq_of_twins_operand {p : Precedence} {r' : Rule}
    (h : p.operand.Twins T x flags r') : r' = p.operand := by
  revert h
  cases p <;> exact id

/-- An operator with its operands, taken apart. -/
theorem Precedence.exists_of_twins_node {p : Precedence} {left right e' : Expr} {t : Token}
    (h : (p.node left t right).Twins T x flags e') : ∃ left' t' right', e' = p.node left' t' right' ∧
      left.Twins T x flags left' ∧ T.Tokens false t t' ∧ right.Twins T x flags right' := by
  cases p <;> exact h

/-- The parts of a desugared loop. -/
theorem Stmt.exists_of_twins_ofForClauses {initializer : Option Stmt}
    {condition increment : Option Expr} {body s' : Stmt}
    (h : (Stmt.ofForClauses initializer condition increment body).Twins T x flags s') :
    ∃ initializer' condition' increment' body',
      s' = .ofForClauses initializer' condition' increment' body' ∧
        (∃ flags, Stmt.Twins? T x flags initializer initializer') ∧
          (∃ flags, Expr.Twins? T x flags condition condition') ∧
            (∃ flags, Expr.Twins? T x flags increment increment') ∧
              ∃ flags, body.Twins T x flags body' := by
  have hcondition : ∀ {flags c'}, (condition.getD (.literal (.bool true))).Twins T x flags c' →
      ∃ condition', c' = condition'.getD (.literal (.bool true)) ∧
        Expr.Twins? T x flags condition condition' := by
    intro flags c' hc
    cases condition with
    | none => exact ⟨none, hc, rfl⟩
    | some c => exact ⟨some c', rfl, c', rfl, hc⟩
  have hloop : ∀ {flags l'},
      (Stmt.ofForClauses none condition increment body).Twins T x flags l' →
      ∃ condition' increment' body', l' = .ofForClauses none condition' increment' body' ∧
        Expr.Twins? T x flags condition condition' ∧
          (∃ flags, Expr.Twins? T x flags increment increment') ∧
            ∃ flags, body.Twins T x flags body' := by
    rintro flags l' ⟨c', step', rfl, hc, hstep⟩
    obtain ⟨condition', rfl, hc'⟩ := hcondition hc
    cases increment with
    | none => exact ⟨condition', none, step', rfl, hc', ⟨flags, rfl⟩, flags, hstep⟩
    | some e =>
      obtain ⟨flag, _, rfl, body', _, rfl, hbody, _, _, rfl, ⟨e', rfl, he⟩, rfl⟩ := hstep
      exact ⟨condition', some e', body', rfl, hc', ⟨_, e', rfl, he⟩, _, hbody⟩
  cases initializer with
  | none =>
    obtain ⟨condition', increment', body', rfl, hc, hi, hb⟩ := hloop h
    exact ⟨none, condition', increment', body', rfl, ⟨flags, rfl⟩, ⟨flags, hc⟩, hi, hb⟩
  | some s =>
    obtain ⟨flag, _, rfl, s', _, rfl, hs, l', _, rfl, hl, rfl⟩ := h
    obtain ⟨condition', increment', body', rfl, hc, hi, hb⟩ := hloop hl
    exact ⟨some s', condition', increment', body', rfl, ⟨_, s', rfl, hs⟩, ⟨_, hc⟩, hi, hb⟩

end

/-! ## Texts -/

section

variable {T : Twin} {c : Nat}

/-- A token that is not part of any tree. -/
theorem Twin.exists_alike (hline : ∀ l, ∃ l', T.line l l') {t : Token} {k : TokenKind}
    (ht : t.kind = k) : ∃ t', T.Alike t t' ∧ t'.kind = k := by
  obtain ⟨l, hl⟩ := hline t.line
  exact ⟨⟨t.kind, t.lexeme, l⟩, ⟨false, rfl, rfl, (fun h => nomatch h), hl⟩, ht⟩

theorem Twin.Tokens.alike {flag : Bool} {t t' : Token} (h : T.Tokens flag t t') : T.Alike t t' :=
  ⟨flag, h⟩

/-- Whatever differs only as `T` says from a fragment that is read from tokens is itself read from
tokens, which differ in the same way. -/
theorem Reads.twin (hknown : ∀ x id id' d, T.known x id id' d ↔ id'.index = id.index + c)
    (hline : ∀ l, ∃ l', T.line l l') {r : Rule} {n n' : Nat} {w : List Token} {f : Fragment}
    (h : Reads r n w f n') : ∀ {x flags f'}, f.Twins T x flags f' → ∃ r' w',
      r.Twins T x flags r' ∧ List.Forall₂ T.Alike w w' ∧ Reads r' (n + c) w' f' (n' + c) := by
  have hid : ∀ {x n d} {id' : NodeId}, T.known x ⟨n⟩ id' d → id' = ⟨n + c⟩ := by
    intro x n d id' hk
    have := (hknown _ _ _ _).mp hk
    cases id'
    exact congrArg NodeId.mk this
  induction h with
  | plain _ ih =>
    rintro x flags _ ⟨e', rfl, he⟩
    obtain ⟨_, w', rfl, hw, hr⟩ := ih ⟨e', rfl, he⟩
    exact ⟨_, w', rfl, hw, .plain hr⟩
  | @assign n n₁ n₂ w w₁ id name t v left ht _ ihl ihv =>
    rintro x flags _ ⟨_, rfl, id', name', v', d, rfl, hv, hk, hname⟩
    obtain rfl := hid hk
    obtain ⟨t', halike, ht'⟩ := Twin.exists_alike hline ht
    -- the reference on the left has an identity of its own that is given up
    obtain ⟨_, u, rfl, hu, hl⟩ := @ihl x [Twin.flagAt flags d] _
      ⟨_, rfl, ⟨id.index + c⟩, name', some 0, rfl, (hknown _ _ _ _).mpr rfl, hname⟩
    obtain ⟨_, u', rfl, hu', hr⟩ := ihv ⟨v', rfl, hv⟩
    refine ⟨_, u ++ t' :: u', rfl, List.rel_append hu (.cons halike hu'), ?_⟩
    rw [Nat.add_right_comm]
    exact .assign hl ht' hr
  | set _ ht _ ihl ihv =>
    rintro x flags _ ⟨_, rfl, object', name', v', rfl, hobject, hname, hv⟩
    obtain ⟨t', halike, ht'⟩ := Twin.exists_alike hline ht
    obtain ⟨_, u, rfl, hu, hl⟩ := ihl ⟨_, rfl, object', name', rfl, hobject, hname⟩
    obtain ⟨_, u', rfl, hu', hr⟩ := ihv ⟨v', rfl, hv⟩
    exact ⟨_, u ++ t' :: u', rfl, List.rel_append hu (.cons halike hu'), .set hl ht' hr⟩
  | @binary p _ _ _ _ _ _ _ _ _ ihf ihm =>
    rintro x flags _ ⟨e', rfl, he⟩
    obtain ⟨_, u', ⟨left', rfl, hleft⟩, hu', hm⟩ := ihm ⟨e', rfl, he⟩
    obtain ⟨_, u, hrule, hu, hf⟩ := ihf ⟨left', rfl, hleft⟩
    rw [Precedence.eq_of_twins_operand hrule] at hf
    exact ⟨_, u ++ u', rfl, List.rel_append hu hu', .binary hf hm⟩
  | binaryStop =>
    rintro x flags _ ⟨left', rfl, hleft⟩
    exact ⟨_, [], ⟨left', rfl, hleft⟩, .nil, .binaryStop⟩
  | @binaryMore p _ _ _ t _ _ left right _ ht _ _ iho ihm =>
    rintro x flags _ ⟨e', rfl, he⟩
    obtain ⟨_, u', ⟨_, rfl, hnode⟩, hu', hm⟩ := ihm ⟨e', rfl, he⟩
    obtain ⟨left', t', right', rfl, hleft, htt, hright⟩ := Precedence.exists_of_twins_node hnode
    obtain ⟨_, u, hrule, hu, ho⟩ := iho ⟨right', rfl, hright⟩
    rw [Precedence.eq_of_twins_operand hrule] at ho
    exact ⟨_, t' :: (u ++ u'), ⟨left', rfl, hleft⟩, .cons htt.alike (List.rel_append hu hu'),
      .binaryMore (htt.kind ▸ ht) ho hm⟩
  | prefixed ht _ ih =>
    rintro x flags _ ⟨_, rfl, t', e', rfl, htt, he⟩
    obtain ⟨_, u, rfl, hu, hr⟩ := ih ⟨e', rfl, he⟩
    exact ⟨_, t' :: u, rfl, .cons htt.alike hu, .prefixed (htt.kind ▸ ht) hr⟩
  | call _ _ ihf ihm =>
    rintro x flags _ ⟨e', rfl, he⟩
    obtain ⟨_, u', ⟨callee', rfl, hcallee⟩, hu', hm⟩ := ihm ⟨e', rfl, he⟩
    obtain ⟨_, u, rfl, hu, hf⟩ := ihf ⟨callee', rfl, hcallee⟩
    exact ⟨_, u ++ u', rfl, List.rel_append hu hu', .call hf hm⟩
  | callStop =>
    rintro x flags _ ⟨e', rfl, he⟩
    exact ⟨_, [], ⟨e', rfl, he⟩, .nil, .callStop⟩
  | callEmpty ht ht' _ ih =>
    rintro x flags _ ⟨e', rfl, he⟩
    obtain ⟨u, halike, hu⟩ := Twin.exists_alike hline ht
    obtain ⟨_, w', ⟨_, rfl, callee', u', _, rfl, hcallee, huu, rfl⟩, hw, hr⟩ := ih ⟨e', rfl, he⟩
    exact ⟨_, u :: u' :: w', ⟨callee', rfl, hcallee⟩, .cons halike (.cons huu.alike hw),
      .callEmpty hu (huu.kind.trans ht') hr⟩
  | callWith ht _ ht' _ iha ihm =>
    rintro x flags _ ⟨e', rfl, he⟩
    obtain ⟨u, halike, hu⟩ := Twin.exists_alike hline ht
    obtain ⟨_, w', ⟨_, rfl, callee', u', es', rfl, hcallee, huu, hes⟩, hw', hm⟩ :=
      ihm ⟨e', rfl, he⟩
    obtain ⟨_, w, rfl, hw, ha⟩ := iha ⟨es', rfl, hes⟩
    exact ⟨_, u :: (w ++ u' :: w'), ⟨callee', rfl, hcallee⟩,
      .cons halike (List.rel_append hw (.cons huu.alike hw')),
      .callWith hu ha (huu.kind.trans ht') hm⟩
  | property ht hname _ ih =>
    rintro x flags _ ⟨e', rfl, he⟩
    obtain ⟨u, halike, hu⟩ := Twin.exists_alike hline ht
    obtain ⟨_, w', ⟨_, rfl, object', name', rfl, hobject, hnn⟩, hw, hr⟩ := ih ⟨e', rfl, he⟩
    exact ⟨_, u :: name' :: w', ⟨object', rfl, hobject⟩, .cons halike (.cons hnn.alike hw),
      .property hu (hnn.kind.trans hname) hr⟩
  | lastArgument hc _ ih =>
    rintro x flags _ ⟨_, rfl, e', _, rfl, he, rfl⟩
    obtain ⟨_, w', rfl, hw, hr⟩ := ih ⟨e', rfl, he⟩
    exact ⟨_, w', rfl, hw, .lastArgument hc hr⟩
  | nextArgument hc _ ht _ ih ihm =>
    rintro x flags _ ⟨_, rfl, e', es', rfl, he, hes⟩
    obtain ⟨u, halike, hu⟩ := Twin.exists_alike hline ht
    obtain ⟨_, w', rfl, hw, hr⟩ := ih ⟨e', rfl, he⟩
    obtain ⟨_, v', rfl, hv, hm⟩ := ihm ⟨es', rfl, hes⟩
    exact ⟨_, w' ++ u :: v', rfl, List.rel_append hw (.cons halike hv),
      .nextArgument hc hr hu hm⟩
  | @literal _ t _ hvalue =>
    rintro x flags _ ⟨_, rfl, rfl⟩
    obtain ⟨u, halike, hu⟩ := Twin.exists_alike (t := t) hline rfl
    exact ⟨_, [u], rfl, .cons halike .nil, .literal (hu ▸ hvalue)⟩
  | this ht =>
    rintro x flags _ ⟨_, rfl, id', t', d, rfl, hk, htt⟩
    obtain rfl := hid hk
    rw [Nat.add_right_comm]
    exact ⟨_, [t'], rfl, .cons htt.alike .nil, .this (htt.kind.trans ht)⟩
  | super ht hd hm =>
    rintro x flags _ ⟨_, rfl, id', t', method', d, rfl, hk, htt, hmm⟩
    obtain rfl := hid hk
    obtain ⟨u, halike, hu⟩ := Twin.exists_alike hline hd
    rw [Nat.add_right_comm]
    exact ⟨_, [t', u, method'], rfl, .cons htt.alike (.cons halike (.cons hmm.alike .nil)),
      .super (htt.kind.trans ht) hu (hmm.kind.trans hm)⟩
  | name ht =>
    rintro x flags _ ⟨_, rfl, id', t', d, rfl, hk, htt⟩
    obtain rfl := hid hk
    rw [Nat.add_right_comm]
    exact ⟨_, [t'], rfl, .cons htt.alike .nil, .name (htt.kind.trans ht)⟩
  | group ht _ ht' ih =>
    rintro x flags _ ⟨_, rfl, e', rfl, he⟩
    obtain ⟨u, halike, hu⟩ := Twin.exists_alike hline ht
    obtain ⟨u', halike', hu'⟩ := Twin.exists_alike hline ht'
    obtain ⟨_, w', rfl, hw, hr⟩ := ih ⟨e', rfl, he⟩
    exact ⟨_, u :: (w' ++ [u']), rfl, .cons halike (List.rel_append hw (.cons halike' .nil)),
      .group hu hr hu'⟩
  -- parts of statements
  | terminated hs _ ht ih =>
    rintro x flags _ ⟨e', rfl, he⟩
    obtain ⟨u, halike, hu⟩ := Twin.exists_alike hline ht
    obtain ⟨_, w', rfl, hw, hr⟩ := ih ⟨e', rfl, he⟩
    exact ⟨_, w' ++ [u], rfl, List.rel_append hw (.cons halike .nil), .terminated hs hr hu⟩
  | omitted ht =>
    rintro x flags _ ⟨_, rfl, rfl⟩
    obtain ⟨u, halike, hu⟩ := Twin.exists_alike hline ht
    exact ⟨_, [u], rfl, .cons halike .nil, .omitted hu⟩
  | given _ ih =>
    rintro x flags _ ⟨_, rfl, e', rfl, he⟩
    obtain ⟨_, w', rfl, hw, hr⟩ := ih ⟨e', rfl, he⟩
    exact ⟨_, w', rfl, hw, .given hr⟩
  | parenthesized ht _ ih =>
    rintro x flags _ ⟨e', rfl, he⟩
    obtain ⟨u, halike, hu⟩ := Twin.exists_alike hline ht
    obtain ⟨_, w', rfl, hw, hr⟩ := ih ⟨e', rfl, he⟩
    exact ⟨_, u :: w', rfl, .cons halike hw, .parenthesized hu hr⟩
  | initialized hname ht _ ih =>
    rintro x flags _ ⟨_, rfl, name', _, rfl, hnn, e', rfl, he⟩
    obtain ⟨u, halike, hu⟩ := Twin.exists_alike hline ht
    obtain ⟨_, w', rfl, hw, hr⟩ := ih ⟨e', rfl, he⟩
    exact ⟨_, name' :: u :: w', rfl, .cons hnn.alike (.cons halike hw),
      .initialized (hnn.kind.trans hname) hu hr⟩
  | uninitialized hname ht =>
    rintro x flags _ ⟨_, rfl, name', _, rfl, hnn, rfl⟩
    obtain ⟨u, halike, hu⟩ := Twin.exists_alike hline ht
    exact ⟨_, [name', u], rfl, .cons hnn.alike (.cons halike .nil),
      .uninitialized (hnn.kind.trans hname) hu⟩
  | forNothing ht =>
    rintro x flags _ ⟨_, rfl, rfl⟩
    obtain ⟨u, halike, hu⟩ := Twin.exists_alike hline ht
    exact ⟨_, [u], rfl, .cons halike .nil, .forNothing hu⟩
  | forVariable ht _ ih =>
    rintro x flags _ ⟨_, rfl, s', rfl, hs⟩
    obtain ⟨u, halike, hu⟩ := Twin.exists_alike hline ht
    obtain ⟨_, w', rfl, hw, hr⟩ := ih ⟨s', rfl, hs⟩
    exact ⟨_, u :: w', rfl, .cons halike hw, .forVariable hu hr⟩
  | forExpression _ ih =>
    rintro x flags _ ⟨_, rfl, _, rfl, e', rfl, he⟩
    obtain ⟨_, w', rfl, hw, hr⟩ := ih ⟨e', rfl, he⟩
    exact ⟨_, w', rfl, hw, .forExpression hr⟩
  | lastParameter hc hname =>
    rintro x flags _ ⟨flag, _, rfl, _ | ⟨hnn, _ | _⟩⟩
    exact ⟨_, _, rfl, .cons hnn.alike .nil, .lastParameter hc (hnn.kind.trans hname)⟩
  | nextParameter hc hname ht _ ih =>
    rintro x flags _ ⟨flag, _, rfl, _ | ⟨hnn, hnames⟩⟩
    obtain ⟨u, halike, hu⟩ := Twin.exists_alike hline ht
    obtain ⟨_, w', rfl, hw, hr⟩ := @ih x flags _ ⟨flag, _, rfl, hnames⟩
    exact ⟨_, _, rfl, .cons hnn.alike (.cons halike hw),
      .nextParameter hc (hnn.kind.trans hname) hu hr⟩
  | noParameters ht =>
    rintro x flags _ ⟨flag, _, rfl, _ | _⟩
    obtain ⟨u, halike, hu⟩ := Twin.exists_alike hline ht
    exact ⟨_, [u], rfl, .cons halike .nil, .noParameters hu⟩
  | someParameters _ ht ih =>
    rintro x flags _ ⟨flag, names', rfl, hnames⟩
    obtain ⟨u, halike, hu⟩ := Twin.exists_alike hline ht
    obtain ⟨_, w', rfl, hw, hr⟩ := @ih x flags _ ⟨flag, names', rfl, hnames⟩
    exact ⟨_, w' ++ [u], rfl, List.rel_append hw (.cons halike .nil), .someParameters hr hu⟩
  | base ht =>
    rintro x flags _ ⟨_, rfl, rfl⟩
    obtain ⟨u, halike, hu⟩ := Twin.exists_alike hline ht
    exact ⟨_, [u], rfl, .cons halike .nil, .base hu⟩
  | derived ht hname ht' =>
    rintro x flags _ ⟨_, rfl, _, rfl, id', name', d, rfl, hk, hnn⟩
    obtain rfl := hid hk
    obtain ⟨u, halike, hu⟩ := Twin.exists_alike hline ht
    obtain ⟨u', halike', hu'⟩ := Twin.exists_alike hline ht'
    rw [Nat.add_right_comm]
    exact ⟨_, [u, name', u'], rfl, .cons halike (.cons hnn.alike (.cons halike' .nil)),
      .derived hu (hnn.kind.trans hname) hu'⟩
  -- declarations
  | declaredClass ht _ ih =>
    rintro x flags _ ⟨s', rfl, hs⟩
    obtain ⟨u, halike, hu⟩ := Twin.exists_alike hline ht
    obtain ⟨_, w', rfl, hw, hr⟩ := ih ⟨s', rfl, hs⟩
    exact ⟨_, u :: w', rfl, .cons halike hw, .declaredClass hu hr⟩
  | declaredFunction ht _ ih =>
    rintro x flags _ ⟨_, rfl, f', rfl, -, hf⟩
    obtain ⟨u, halike, hu⟩ := Twin.exists_alike hline ht
    obtain ⟨_, w', rfl, hw, hr⟩ := ih (x := x) ⟨f', rfl, hf⟩
    exact ⟨_, u :: w', rfl, .cons halike hw, .declaredFunction hu hr⟩
  | declaredVariable ht _ ih =>
    rintro x flags _ ⟨s', rfl, hs⟩
    obtain ⟨u, halike, hu⟩ := Twin.exists_alike hline ht
    obtain ⟨_, w', rfl, hw, hr⟩ := ih ⟨s', rfl, hs⟩
    exact ⟨_, u :: w', rfl, .cons halike hw, .declaredVariable hu hr⟩
  | statement _ ih =>
    rintro x flags _ ⟨s', rfl, hs⟩
    obtain ⟨_, w', rfl, hw, hr⟩ := ih ⟨s', rfl, hs⟩
    exact ⟨_, w', rfl, hw, .statement hr⟩
  | classDeclaration hname _ _ ihh ihb =>
    rintro x flags _ ⟨_, rfl, name', superclass', fs', rfl, ⟨hnn, -⟩, hsuperclass, hfs⟩
    obtain ⟨_, w, rfl, hw, hh⟩ := ihh ⟨superclass', rfl, hsuperclass⟩
    obtain ⟨_, w', rfl, hw', hb⟩ := ihb (x := x) ⟨fs', rfl, hfs⟩
    exact ⟨_, name' :: (w ++ w'), rfl, .cons hnn.alike (List.rel_append hw hw'),
      .classDeclaration (hnn.kind.trans hname) hh hb⟩
  | noMethods ht =>
    rintro x flags _ ⟨_, rfl, rfl⟩
    obtain ⟨u, halike, hu⟩ := Twin.exists_alike hline ht
    exact ⟨_, [u], rfl, .cons halike .nil, .noMethods hu⟩
  | nextMethod _ _ ih ihm =>
    rintro x flags _ ⟨_, rfl, f', fs', rfl, hf, hfs⟩
    obtain ⟨_, w, rfl, hw, hr⟩ := ih (x := x) ⟨f', rfl, hf⟩
    obtain ⟨_, w', rfl, hw', hm⟩ := ihm (x := x) ⟨fs', rfl, hfs⟩
    exact ⟨_, w ++ w', rfl, List.rel_append hw hw', .nextMethod hr hm⟩
  | function hname ht _ ht' _ ihp ihb =>
    rintro x flags _ ⟨_, rfl, flag, name', params', body', rfl, hnn, hparams, hbody⟩
    obtain ⟨u, halike, hu⟩ := Twin.exists_alike hline ht
    obtain ⟨u', halike', hu'⟩ := Twin.exists_alike hline ht'
    obtain ⟨_, w, rfl, hw, hp⟩ := @ihp x flags _ ⟨flag, params', rfl, hparams⟩
    obtain ⟨_, w', rfl, hw', hb⟩ := ihb ⟨body', rfl, hbody⟩
    exact ⟨_, name' :: u :: (w ++ u' :: w'), rfl,
      .cons hnn.alike (.cons halike (List.rel_append hw (.cons halike' hw'))),
      .function (hnn.kind.trans hname) hu hp hu' hb⟩
  | blockEnd ht =>
    rintro x flags _ ⟨_, rfl, rfl⟩
    obtain ⟨u, halike, hu⟩ := Twin.exists_alike hline ht
    exact ⟨_, [u], rfl, .cons halike .nil, .blockEnd hu⟩
  | blockNext _ _ ih ihm =>
    rintro x flags _ ⟨_, rfl, s', ss', rfl, hs, hss⟩
    obtain ⟨_, w, rfl, hw, hr⟩ := ih ⟨s', rfl, hs⟩
    obtain ⟨_, w', rfl, hw', hm⟩ := ihm ⟨ss', rfl, hss⟩
    exact ⟨_, w ++ w', rfl, List.rel_append hw hw', .blockNext hr hm⟩
  -- statements
  | for_ ht ht' _ _ _ _ ih₁ ih₂ ih₃ ih₄ =>
    rintro x flags _ ⟨s', rfl, hs⟩
    obtain ⟨u, halike, hu⟩ := Twin.exists_alike hline ht
    obtain ⟨u', halike', hu'⟩ := Twin.exists_alike hline ht'
    obtain ⟨initializer', condition', increment', body', rfl, ⟨_, h₁⟩, ⟨_, h₂⟩, ⟨_, h₃⟩, _, h₄⟩ :=
      Stmt.exists_of_twins_ofForClauses hs
    obtain ⟨_, w₁, rfl, hw₁, hr₁⟩ := ih₁ ⟨initializer', rfl, h₁⟩
    obtain ⟨_, w₂, rfl, hw₂, hr₂⟩ := ih₂ ⟨condition', rfl, h₂⟩
    obtain ⟨_, w₃, rfl, hw₃, hr₃⟩ := ih₃ ⟨increment', rfl, h₃⟩
    obtain ⟨_, w₄, rfl, hw₄, hr₄⟩ := ih₄ ⟨body', rfl, h₄⟩
    exact ⟨_, _, rfl, .cons halike (.cons halike' (List.rel_append hw₁
      (List.rel_append hw₂ (List.rel_append hw₃ hw₄)))), .for_ hu hu' hr₁ hr₂ hr₃ hr₄⟩
  | ifThen ht _ _ ih ih₁ =>
    rintro x flags _ ⟨_, rfl, condition', thenBranch', rfl, hcondition, hthen⟩
    obtain ⟨u, halike, hu⟩ := Twin.exists_alike hline ht
    obtain ⟨_, w, rfl, hw, hr⟩ := ih ⟨condition', rfl, hcondition⟩
    obtain ⟨_, w₁, rfl, hw₁, hr₁⟩ := ih₁ ⟨thenBranch', rfl, hthen⟩
    exact ⟨_, u :: (w ++ w₁), rfl, .cons halike (List.rel_append hw hw₁), .ifThen hu hr hr₁⟩
  | ifElse ht _ _ ht' _ ih ih₁ ih₂ =>
    rintro x flags _ ⟨_, rfl, condition', thenBranch', elseBranch', rfl, hcondition, hthen, helse⟩
    obtain ⟨u, halike, hu⟩ := Twin.exists_alike hline ht
    obtain ⟨u', halike', hu'⟩ := Twin.exists_alike hline ht'
    obtain ⟨_, w, rfl, hw, hr⟩ := ih ⟨condition', rfl, hcondition⟩
    obtain ⟨_, w₁, rfl, hw₁, hr₁⟩ := ih₁ ⟨thenBranch', rfl, hthen⟩
    obtain ⟨_, w₂, rfl, hw₂, hr₂⟩ := ih₂ ⟨elseBranch', rfl, helse⟩
    exact ⟨_, u :: (w ++ (w₁ ++ u' :: w₂)), rfl,
      .cons halike (List.rel_append hw (List.rel_append hw₁ (.cons halike' hw₂))),
      .ifElse hu hr hr₁ hu' hr₂⟩
  | while_ ht _ _ ih ih₁ =>
    rintro x flags _ ⟨_, rfl, condition', body', rfl, hcondition, hbody⟩
    obtain ⟨u, halike, hu⟩ := Twin.exists_alike hline ht
    obtain ⟨_, w, rfl, hw, hr⟩ := ih ⟨condition', rfl, hcondition⟩
    obtain ⟨_, w₁, rfl, hw₁, hr₁⟩ := ih₁ ⟨body', rfl, hbody⟩
    exact ⟨_, u :: (w ++ w₁), rfl, .cons halike (List.rel_append hw hw₁), .while_ hu hr hr₁⟩
  | return_ ht _ ih =>
    rintro x flags _ ⟨_, rfl, -, keyword', value', rfl, hkeyword, hvalue⟩
    obtain ⟨_, w, rfl, hw, hr⟩ := ih ⟨value', rfl, hvalue⟩
    exact ⟨_, keyword' :: w, rfl, .cons hkeyword.alike hw,
      .return_ (hkeyword.kind.trans ht) hr⟩
  | print ht _ ih =>
    rintro x flags _ ⟨_, rfl, e', rfl, he⟩
    obtain ⟨u, halike, hu⟩ := Twin.exists_alike hline ht
    obtain ⟨_, w, rfl, hw, hr⟩ := ih ⟨e', rfl, he⟩
    exact ⟨_, u :: w, rfl, .cons halike hw, .print hu hr⟩
  | block ht _ ih =>
    rintro x flags _ ⟨_, rfl, flag, body', rfl, hbody⟩
    obtain ⟨u, halike, hu⟩ := Twin.exists_alike hline ht
    obtain ⟨_, w, rfl, hw, hr⟩ := ih ⟨body', rfl, hbody⟩
    exact ⟨_, u :: w, rfl, .cons halike hw, .block hu hr⟩
  | expressionStatement _ ih =>
    rintro x flags _ ⟨_, rfl, e', rfl, he⟩
    obtain ⟨_, w, rfl, hw, hr⟩ := ih ⟨e', rfl, he⟩
    exact ⟨_, w, rfl, hw, .expressionStatement hr⟩
  -- programs
  | programEnd =>
    rintro x flags _ ⟨_, rfl, rfl⟩
    exact ⟨_, [], rfl, .nil, .programEnd⟩
  | programNext _ _ ih ihm =>
    rintro x flags _ ⟨_, rfl, s', ss', rfl, hs, hss⟩
    obtain ⟨_, w, rfl, hw, hr⟩ := ih ⟨s', rfl, hs⟩
    obtain ⟨_, w', rfl, hw', hm⟩ := ihm ⟨ss', rfl, hss⟩
    exact ⟨_, w ++ w', rfl, List.rel_append hw hw', .programNext hr hm⟩

end

end LoxWalk
