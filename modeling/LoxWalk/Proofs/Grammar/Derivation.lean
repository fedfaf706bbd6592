import LoxWalk.Proofs.Grammar.Ebnf
import LoxWalk.Proofs.Grammar.Reading

/-!
# Every fragment has a derivation

`Rule.ebnf` is what a rule of the reader stands for in the notation of the grammar, and
`Reads.derives` says that the tokens of a fragment are derivable from it.

Only assignments need more than that: the reader takes the left side for an expression, whereas the
grammar writes out what it may be.  So the induction also keeps track of the tokens of names and of
property accesses (`Fragment.Target`).
-/

namespace LoxWalk

open Ebnf

/-! ## Derivations of single tokens -/

namespace Derives

variable {a b : Ebnf} {t : Token} {u v w : List Token}

theorem of_eq (h : Derives a w) (e : w = v) : Derives a v :=
  e ▸ h

theorem of_kind {k : TokenKind} (h : t.kind = k) : Derives (.token k) [t] := by
  refine .token ?_
  rw [h]
  cases k <;> simp [TokenKind.agrees]

theorem sym {s : Symbol} (h : t.kind = .symbol s) : Derives (.sym s) [t] :=
  .of_kind h

theorem word {k : Keyword} (h : t.kind = .keyword k) : Derives (.word k) [t] :=
  .of_kind h

theorem ident (h : t.kind = .identifier) : Derives .ident [t] :=
  .of_kind h

theorem operator {p : Precedence} (h : t.kind ∈ p.operators) : Derives (.operator p) [t] := by
  cases p with
  | or | and =>
    refine .word ?_
    simpa [Precedence.operators] using h
  | equality | term | factor =>
    simp only [Precedence.operators, List.mem_cons, List.not_mem_nil, or_false] at h
    exact h.elim (fun h => .altLeft (.sym h)) fun h => .altRight (.sym h)
  | comparison =>
    simp only [Precedence.operators, List.mem_cons, List.not_mem_nil, or_false] at h
    rcases h with h | h | h | h
    · exact .altLeft (.altLeft (.altLeft (.sym h)))
    · exact .altLeft (.altLeft (.altRight (.sym h)))
    · exact .altLeft (.altRight (.sym h))
    · exact .altRight (.sym h)

theorem literal {value : Literal} (h : Cursor.literal? t.kind = some value) :
    Derives (.rule .primary) [t] := by
  refine .rule (.altLeft (.altLeft (.altLeft (.altLeft ?_))))
  unfold Cursor.literal? at h
  split at h
  · rename_i hk
    exact .altLeft (.altRight (.word hk))
  · rename_i hk
    exact .altLeft (.altLeft (.altRight (.word hk)))
  · rename_i hk
    exact .altRight (.word hk)
  · rename_i hk
    exact .altLeft (.altLeft (.altLeft (.altLeft (.token (by rw [hk]; rfl)))))
  · rename_i hk
    exact .altLeft (.altLeft (.altLeft (.altRight (.token (by rw [hk]; rfl)))))
  · cases h

/-- A repetition gets one longer at its end. -/
theorem manySnoc (h : Derives (.many a) u) (last : Derives a v) : Derives (.many a) (u ++ v) := by
  generalize he : Ebnf.many a = b at h
  induction h with
  | manyNil =>
    cases he
    exact .of_eq (.manyCons last .manyNil) (by simp)
  | manyCons first _ _ ih =>
    cases he
    exact .of_eq (.manyCons first (ih rfl)) (by simp)
  | _ => cases he

end Derives

/-! ## What the rules stand for -/

/-- What may follow the callee in a call or a property access, once. -/
def Ebnf.callTail : Ebnf :=
  sym .leftParen ++ (rule .arguments).opt ++ sym .rightParen ||| sym .dot ++ ident

/-- What a rule stands for. -/
def Rule.ebnf : Rule → Ebnf
  | expression => rule .expression
  | binary p => rule (.level p)
  | binaryRest p _ => (operator p ++ rule (.operand p)).many
  | unary => rule .unary
  | callRest _ => callTail.many
  | arguments count =>
    rule .expression ++ (sym .comma ++ rule .expression).upTo (maxArity - 1 - count)
  | primary => rule .primary
  | terminated s => rule .expression ++ sym s
  | optional s => (rule .expression).opt ++ sym s
  | parenthesized => sym .leftParen ++ (rule .expression ++ sym .rightParen)
  | variableDeclaration => ident ++ (sym .equal ++ rule .expression).opt ++ sym .semicolon
  | forInitializer => rule .varDecl ||| rule .exprStmt ||| sym .semicolon
  | parameters count => ident ++ (sym .comma ++ ident).upTo (maxArity - 1 - count)
  | parameterList => (rule .parameters).opt ++ sym .rightParen
  | classHeader => (sym .less ++ ident).opt ++ sym .leftBrace
  | declaration _ => rule .declaration
  | classDeclaration =>
    ident ++ ((sym .less ++ ident).opt ++ sym .leftBrace)
      ++ ((rule .function).many ++ sym .rightBrace)
  | methods => (rule .function).many ++ sym .rightBrace
  | function => rule .function
  | block => (rule .declaration).many ++ sym .rightBrace
  | statement _ => rule .statement
  | program => (rule .declaration).many

theorem Precedence.ebnf_operand (p : Precedence) : p.operand.ebnf = rule (.operand p) := by
  cases p <;> rfl

/-- What the tokens of an expression look like if something can be assigned to it. -/
def Fragment.Target : Fragment → List Token → Prop
  | .expr (.var _ name), w => w = [name] ∧ name.kind = .identifier
  | .expr (.get _ name), w =>
    ∃ u d, w = u ++ [d, name] ∧ d.kind = .symbol .dot ∧ name.kind = .identifier ∧
      Derives (rule .call) u
  | _, _ => True

/-- What is known of the tokens of the fragment `f` when its rule can make targets of assignments;
a rule that goes on behind an expression adds its tokens to those of the expression. -/
def Rule.Describes (f : Fragment) : Rule → List Token → Prop
  | binary _, w | unary, w | primary, w => f.Target w
  | binaryRest _ left, w => ∀ u, (Fragment.expr left).Target u → f.Target (u ++ w)
  | callRest e, w =>
    ∀ u, Derives (rule .call) u → (Fragment.expr e).Target u → f.Target (u ++ w)
  | _, _ => True

theorem Precedence.target_of_describes {p : Precedence} {f : Fragment} {w : List Token}
    (h : p.operand.Describes f w) : f.Target w := by
  cases p <;> exact h

theorem Precedence.target_node (p : Precedence) (left : Expr) (t : Token) (right : Expr)
    (w : List Token) : (Fragment.expr (p.node left t right)).Target w := by
  cases p <;> trivial

namespace Derives

variable {t d name : Token} {u v w : List Token}

/-- A bounded list gets one longer at its front. -/
theorem commaCons {a : Ebnf} {count : Nat} (h : Derives a u) (ht : t.kind = .symbol .comma)
    (hc : count + 1 < maxArity)
    (more : Derives (a ++ (Ebnf.sym .comma ++ a).upTo (maxArity - 1 - (count + 1))) w) :
    Derives (a ++ (Ebnf.sym .comma ++ a).upTo (maxArity - 1 - count)) (u ++ t :: w) := by
  have hlen : maxArity - 1 - count = maxArity - 1 - (count + 1) + 1 := by omega
  rw [hlen]
  cases more with
  | seq first rest => exact .of_eq (.seq h (.upToCons (.seq (.sym ht) first) rest)) (by simp)

/-- A callee and what follows it once more. -/
theorem callSnoc (h : Derives (.rule .call) u) (last : Derives callTail v) :
    Derives (.rule .call) (u ++ v) := by
  cases h with
  | rule h =>
    cases h with
    | seq first more =>
      exact .rule (.of_eq (.seq first (more.manySnoc last)) (List.append_assoc _ _ _).symm)

/-- An assignment to a name or to a property. -/
theorem assignment (f : Fragment) (target : f.Target u)
    (hf : (∃ id name, f = .expr (.var id name)) ∨ ∃ object name, f = .expr (.get object name))
    (ht : t.kind = .symbol .equal) (value : Derives (.rule .expression) w) :
    Derives (.rule .expression) (u ++ t :: w) := by
  have value' : Derives (.rule .assignment) w := by
    cases value with
    | rule h => exact h
  refine .rule (r := .expression) (.rule (r := .assignment) (.altLeft ?_))
  rcases hf with ⟨id, name, rfl⟩ | ⟨object, name, rfl⟩
  · obtain ⟨rfl, hname⟩ := target
    exact .of_eq (.seq (.seq (.seq .optNone (.ident hname)) (.sym ht)) value') (by simp)
  · obtain ⟨u, d, rfl, hd, hname, hu⟩ := target
    exact .of_eq (.seq (.seq (.seq (.optSome (.seq hu (.sym hd))) (.ident hname)) (.sym ht)) value')
      (by simp)

/-! ### The parts of declarations and statements put together -/

theorem varDecl (ht : t.kind = .keyword .var_) (h : Derives Rule.variableDeclaration.ebnf w) :
    Derives (.rule .varDecl) (t :: w) := by
  cases h with
  | seq h hs =>
    cases h with
    | seq hname he =>
      exact .of_eq (.rule (.seq (.seq (.seq (.word ht) hname) he) hs)) (by simp)

theorem classDecl (ht : t.kind = .keyword .class_) (h : Derives Rule.classDeclaration.ebnf w) :
    Derives (.rule .classDecl) (t :: w) := by
  cases h with
  | seq h hbody =>
    cases h with
    | seq hname hheader =>
      cases hheader with
      | seq hsuper ho =>
        cases hbody with
        | seq hfs hc =>
          exact .of_eq (.rule (.seq (.seq (.seq (.seq (.seq (.word ht) hname) hsuper) ho) hfs) hc))
            (by simp)

theorem block (ht : t.kind = .symbol .leftBrace) (h : Derives Rule.block.ebnf w) :
    Derives (.rule .block) (t :: w) := by
  cases h with
  | seq hss hs => exact .of_eq (.rule (.seq (.seq (.sym ht) hss) hs)) (by simp)

theorem ifStmt (ht : t.kind = .keyword .if_) (hcondition : Derives Rule.parenthesized.ebnf u)
    (hthen : Derives (.rule .statement) v)
    (helse : Derives (Ebnf.word .else_ ++ .rule .statement).opt w) :
    Derives (.rule .statement) (t :: (u ++ (v ++ w))) := by
  cases hcondition with
  | seq ho h =>
    cases h with
    | seq he hc =>
      have hif := Derives.rule (r := .ifStmt)
        (.seq (.seq (.seq (.seq (.seq (.word ht) ho) he) hc) hthen) helse)
      exact .of_eq (.rule (.altLeft (.altLeft (.altLeft (.altLeft (.altRight hif)))))) (by simp)

end Derives

/-! ## The induction -/

theorem Reads.count_lt_of_arguments {count n n' : Nat} {w : List Token} {f : Fragment}
    (h : Reads (.arguments count) n w f n') : count < maxArity := by
  cases h <;> assumption

theorem Reads.count_lt_of_parameters {count n n' : Nat} {w : List Token} {f : Fragment}
    (h : Reads (.parameters count) n w f n') : count < maxArity := by
  cases h <;> assumption

theorem Reads.derives_and_describes {r : Rule} {n n' : Nat} {w : List Token} {f : Fragment}
    (h : Reads r n w f n') : Derives r.ebnf w ∧ r.Describes f w := by
  induction h with
  | plain _ ih => exact ⟨.rule (.rule (.altRight ih.1)), trivial⟩
  | @assign _ _ _ _ _ id name _ _ _ ht _ ihl ihv =>
    exact ⟨.assignment (.expr (.var id name)) ihl.2 (.inl ⟨_, _, rfl⟩) ht ihv.1, trivial⟩
  | @set _ _ _ _ _ object name _ _ _ ht _ ihl ihv =>
    exact ⟨.assignment (.expr (.get object name)) ihl.2 (.inr ⟨_, _, rfl⟩) ht ihv.1, trivial⟩
  | @binary p _ _ _ _ _ _ _ _ _ ihf ihm =>
    exact ⟨.rule (.seq (p.ebnf_operand ▸ ihf.1) ihm.1),
      ihm.2 _ (Precedence.target_of_describes ihf.2)⟩
  | binaryStop => exact ⟨.manyNil, fun u hu => by rwa [List.append_nil]⟩
  | @binaryMore p _ _ _ t w _ _ _ _ ht _ _ iho ihm =>
    refine ⟨.manyCons (.seq (.operator ht) (p.ebnf_operand ▸ iho.1)) ihm.1, fun u _ => ?_⟩
    have htarget := ihm.2 (u ++ t :: w) (p.target_node _ _ _ _)
    rwa [List.append_assoc] at htarget
  | prefixed ht _ ih =>
    have hop : Derives (sym .bang ||| sym .minus) [_] :=
      ht.elim (fun ht => .altLeft (.sym ht)) fun ht => .altRight (.sym ht)
    exact ⟨.of_eq (.rule (.altLeft (.seq hop ih.1))) rfl, trivial⟩
  | call _ _ ihf ihm =>
    have hcallee : Derives (rule .call) _ := .rule (.of_eq (.seq ihf.1 .manyNil) (List.append_nil _))
    exact ⟨.rule (.altRight (.rule (.seq ihf.1 ihm.1))), ihm.2 _ hcallee ihf.2⟩
  | callStop => exact ⟨.manyNil, fun u _ hu => by rwa [List.append_nil]⟩
  | callEmpty ht ht' _ ih =>
    have htail : Derives callTail [_, _] := .altLeft (.seq (.seq (.sym ht) .optNone) (.sym ht'))
    refine ⟨.manyCons htail ih.1, fun u hu _ => ?_⟩
    simpa using ih.2 _ (hu.callSnoc htail) trivial
  | callWith ht _ ht' _ iha ih =>
    have htail : Derives callTail _ :=
      .altLeft (.seq (.seq (.sym ht) (.optSome (.rule iha.1))) (.sym ht'))
    refine ⟨.of_eq (.manyCons htail ih.1) (by simp), fun u hu _ => ?_⟩
    simpa using ih.2 _ (hu.callSnoc htail) trivial
  | property ht hname _ ih =>
    have htail : Derives callTail [_, _] := .altRight (.seq (.sym ht) (.ident hname))
    refine ⟨.manyCons htail ih.1, fun u hu _ => ?_⟩
    simpa using ih.2 _ (hu.callSnoc htail) ⟨u, _, rfl, ht, hname, hu⟩
  | lastArgument _ _ ih => exact ⟨.of_eq (.seq ih.1 .upToNil) (List.append_nil _), trivial⟩
  | nextArgument _ _ ht more ih ihm =>
    exact ⟨.commaCons ih.1 ht more.count_lt_of_arguments ihm.1, trivial⟩
  | literal h => exact ⟨.literal h, trivial⟩
  | this ht => exact ⟨.rule (.altLeft (.altLeft (.altLeft (.altRight (.word ht))))), trivial⟩
  | super ht hd hm =>
    exact ⟨.rule (.altRight (.seq (.seq (.word ht) (.sym hd)) (.ident hm))), trivial⟩
  | name ht => exact ⟨.rule (.altLeft (.altLeft (.altRight (.ident ht)))), rfl, ht⟩
  | group ht _ ht' ih =>
    exact ⟨.of_eq (.rule (.altLeft (.altRight (.seq (.seq (.sym ht) ih.1) (.sym ht'))))) (by simp),
      trivial⟩
  | terminated _ _ ht ih => exact ⟨.seq ih.1 (.sym ht), trivial⟩
  | omitted ht => exact ⟨.seq .optNone (.sym ht), trivial⟩
  | given _ ih =>
    cases ih.1 with
    | seq he hs => exact ⟨.seq (.optSome he) hs, trivial⟩
  | parenthesized ht _ ih => exact ⟨.seq (.sym ht) ih.1, trivial⟩
  | initialized hname ht _ ih =>
    cases ih.1 with
    | seq he hs =>
      exact ⟨.of_eq (.seq (.seq (.ident hname) (.optSome (.seq (.sym ht) he))) hs) (by simp),
        trivial⟩
  | uninitialized hname ht => exact ⟨.seq (.seq (.ident hname) .optNone) (.sym ht), trivial⟩
  | forNothing ht => exact ⟨.altRight (.sym ht), trivial⟩
  | forVariable ht h ih =>
    exact ⟨.altLeft (.altLeft (.varDecl ht ih.1)), trivial⟩
  | forExpression _ ih => exact ⟨.altLeft (.altRight (.rule ih.1)), trivial⟩
  | lastParameter _ hname => exact ⟨.seq (.ident hname) .upToNil, trivial⟩
  | nextParameter _ hname ht more ih =>
    exact ⟨.commaCons (.ident hname) ht more.count_lt_of_parameters ih.1, trivial⟩
  | noParameters ht => exact ⟨.seq .optNone (.sym ht), trivial⟩
  | someParameters _ ht ih => exact ⟨.seq (.optSome (.rule ih.1)) (.sym ht), trivial⟩
  | base ht => exact ⟨.seq .optNone (.sym ht), trivial⟩
  | derived ht hname ht' =>
    exact ⟨.seq (.optSome (.seq (.sym ht) (.ident hname))) (.sym ht'), trivial⟩
  | declaredClass ht _ ih => exact ⟨.rule (.altLeft (.altLeft (.altLeft (.classDecl ht ih.1)))), trivial⟩
  | declaredFunction ht _ ih =>
    exact ⟨.rule (.altLeft (.altLeft (.altRight (.rule (.of_eq (.seq (.word ht) ih.1) rfl))))),
      trivial⟩
  | declaredVariable ht _ ih => exact ⟨.rule (.altLeft (.altRight (.varDecl ht ih.1))), trivial⟩
  | statement _ ih => exact ⟨.rule (.altRight ih.1), trivial⟩
  | classDeclaration hname _ _ ihh ihm =>
    exact ⟨.of_eq (.seq (.seq (.ident hname) ihh.1) ihm.1) (by simp), trivial⟩
  | noMethods ht => exact ⟨.seq .manyNil (.sym ht), trivial⟩
  | nextMethod _ _ ih ihm =>
    cases ihm.1 with
    | seq hfs hs => exact ⟨.of_eq (.seq (.manyCons ih.1 hfs) hs) (List.append_assoc _ _ _), trivial⟩
  | function hname ht _ ht' _ ihp ihb =>
    cases ihp.1 with
    | seq hp hs =>
      have hfunction := Derives.rule (r := .function)
        (.seq (.seq (.seq (.seq (.ident hname) (.sym ht)) hp) hs) (.block ht' ihb.1))
      exact ⟨.of_eq hfunction (by simp), trivial⟩
  | blockEnd ht => exact ⟨.seq .manyNil (.sym ht), trivial⟩
  | blockNext _ _ ih ihm =>
    cases ihm.1 with
    | seq hss hs => exact ⟨.of_eq (.seq (.manyCons ih.1 hss) hs) (List.append_assoc _ _ _), trivial⟩
  | for_ ht ht' _ _ _ _ ih₁ ih₂ ih₃ ih₄ =>
    cases ih₂.1 with
    | seq hc hs =>
      cases ih₃.1 with
      | seq hi hs' =>
        have hfor := Derives.rule (r := .forStmt) (.seq (.seq (.seq (.seq (.seq (.seq (.seq
          (.word ht) (.sym ht')) ih₁.1) hc) hs) hi) hs') ih₄.1)
        exact ⟨.of_eq (.rule (.altLeft (.altLeft (.altLeft (.altLeft (.altLeft (.altRight hfor)))))))
          (by simp), trivial⟩
  | ifThen ht _ _ ih ih₁ =>
    exact ⟨.of_eq (.ifStmt ht ih.1 ih₁.1 .optNone) (by simp), trivial⟩
  | ifElse ht _ _ ht' _ ih ih₁ ih₂ =>
    exact ⟨.of_eq (.ifStmt ht ih.1 ih₁.1 (.optSome (.seq (.word ht') ih₂.1))) (by simp), trivial⟩
  | while_ ht _ _ ih ih₁ =>
    cases ih.1 with
    | seq ho hx =>
      cases hx with
      | seq he hc =>
        have hwhile := Derives.rule (r := .whileStmt)
          (.seq (.seq (.seq (.seq (.word ht) ho) he) hc) ih₁.1)
        exact ⟨.of_eq (.rule (.altLeft (.altRight hwhile))) (by simp), trivial⟩
  | return_ ht _ ih =>
    cases ih.1 with
    | seq he hs =>
      have hreturn := Derives.rule (r := .returnStmt) (.seq (.seq (.word ht) he) hs)
      exact ⟨.of_eq (.rule (.altLeft (.altLeft (.altRight hreturn)))) (by simp), trivial⟩
  | print ht _ ih =>
    cases ih.1 with
    | seq he hs =>
      have hprint := Derives.rule (r := .printStmt) (.seq (.seq (.word ht) he) hs)
      exact ⟨.of_eq (.rule (.altLeft (.altLeft (.altLeft (.altRight hprint))))) (by simp), trivial⟩
  | block ht _ ih => exact ⟨.rule (.altRight (.block ht ih.1)), trivial⟩
  | expressionStatement _ ih =>
    exact ⟨.rule (.altLeft (.altLeft (.altLeft (.altLeft (.altLeft (.altLeft (.rule ih.1))))))),
      trivial⟩
  | programEnd => exact ⟨.manyNil, trivial⟩
  | programNext _ _ ih ihm => exact ⟨.manyCons ih.1 ihm.1, trivial⟩

/-- The tokens of a fragment are derivable from what its rule stands for. -/
theorem Reads.derives {r : Rule} {n n' : Nat} {w : List Token} {f : Fragment}
    (h : Reads r n w f n') : Derives r.ebnf w :=
  h.derives_and_describes.1

end LoxWalk
