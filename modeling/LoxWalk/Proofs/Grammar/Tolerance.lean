import LoxWalk.Proofs.Grammar.Joining
import LoxWalk.Proofs.Grammar.Relaxed

/-!
# Reading goes on where a restriction is violated

The reader complains about an entry too much and about a target that can not be assigned to, and then
goes on as if nothing had happened.  `Rule.Takes r form Q w es` says this for the tokens `w`: wherever
the reader of the rule `r` finds them, it takes exactly them for a fragment, and its complaints are
`es`.  As for fragments without a complaint, the token behind them must not make the reader go on.

There is one lemma for each way in which a fragment is put together.  Two things need more than that.
What is to the left of `=` is read before the reader knows that it is assigned to, so for expressions
`Q` says that a tree that can be assigned to comes from the tokens of a target (`Expr.AssignableIn`).
And a statement that ends in an `if` without `else` takes an `else` that follows it, so statements are
put together by `StatementTakes`, which tells such statements apart.
-/

namespace LoxWalk

open Ebnf

/-! ## The first token -/

/-- The first token is of one of the kinds `s`. -/
def Starts (s : TokenKind → Bool) (w : List Token) : Prop :=
  ∃ t v, w = t :: v ∧ s t.kind = true

namespace Starts

variable {s s' : TokenKind → Bool} {w : List Token} {t : Token}

theorem cons {v : List Token} (h : s t.kind = true) : Starts s (t :: v) :=
  ⟨t, v, rfl, h⟩

theorem cons_of_eq {k : TokenKind} {v : List Token} (ht : t.kind = k) (h : s k = true) :
    Starts s (t :: v) :=
  cons (ht ▸ h)

theorem append (h : Starts s w) (v : List Token) : Starts s (w ++ v) := by
  obtain ⟨t, u, rfl, ht⟩ := h
  exact cons ht

theorem mono (h : Starts s w) (hs : ∀ k, s k = true → s' k = true) : Starts s' w := by
  obtain ⟨t, v, rfl, ht⟩ := h
  exact cons (hs _ ht)

theorem ne_nil (h : Starts s w) : w ≠ [] := by
  obtain ⟨t, v, rfl, -⟩ := h
  exact List.cons_ne_nil t v

theorem apart {ks : List TokenKind} (h : Starts s w) (hks : ks.all (!s ·) = true) : Apart ks w := by
  obtain ⟨t, v, rfl, ht⟩ := h
  exact .of_starter ht hks

end Starts

/-! ## Reading with complaints -/

/-- Wherever the reader of `r` finds the tokens `w`, it takes them for a fragment of the form `form`
with the property `Q`, and its complaints are `es`. -/
def Rule.Takes {α : Type} (r : Rule) (form : α → Fragment) (Q : α → Prop) (w : List Token)
    (es : List Complaint) : Prop :=
  ∀ n cs rest, Apart r.extenders rest →
    ∃ a n', Q a ∧ r.ReadBy (form a) ⟨w ++ rest, cs, n⟩ ⟨rest, es.reverse ++ cs, n'⟩

/-- The tokens and the complaints of a fragment may be grouped in any way. -/
theorem Rule.ReadBy.regroup {r : Rule} {f : Fragment} {ts ts' rest : List Token}
    {cs es es' : List Complaint} {n n' : Nat} (h : r.ReadBy f ⟨ts, cs, n⟩ ⟨rest, es, n'⟩)
    (hts : ts = ts') (hes : es = es') : r.ReadBy f ⟨ts', cs, n⟩ ⟨rest, es', n'⟩ := by
  subst hts hes
  exact h

/-- Nothing particular is known of what was read. -/
def Anything {α : Type} (_ : α) : Prop :=
  True

/-- Something can be assigned to the expression. -/
def Expr.isTarget : Expr → Bool
  | var _ _ => true
  | get _ _ => true
  | _ => false

/-- If something can be assigned to the expression, then the tokens look like it. -/
def Expr.AssignableIn (w : List Token) (e : Expr) : Prop :=
  e.isTarget = true → Allows target w

theorem Precedence.isTarget_node (p : Precedence) (left : Expr) (t : Token) (right : Expr) :
    (p.node left t right).isTarget = false := by
  cases p <;> rfl

namespace Cursor

/-- Too many entries are noticed in front of the entry. -/
theorem checkArity_append {u : List Token} (hu : u ≠ []) (count : Nat) (fault : ParseFault)
    (rest : List Token) (cs : List Complaint) (n : Nat) :
    (⟨u ++ rest, cs, n⟩ : Cursor).checkArity count fault =
      ⟨u ++ rest, (excess fault count u).reverse ++ cs, n⟩ := by
  obtain ⟨t, v, rfl⟩ := List.exists_cons_of_ne_nil hu
  unfold checkArity excess
  split <;> rfl

theorem assign_of_isTarget {left : Expr} (h : left.isTarget = true) (c : Cursor) (t : Token)
    (value : Expr) : ∃ e n', c.assign left t value = (e, ⟨c.rest, c.complaints, n'⟩) := by
  cases left with
  | var id name => exact ⟨_, _, rfl⟩
  | get object name => exact ⟨_, _, rfl⟩
  | _ => cases h

theorem assign_of_not_isTarget {left : Expr} (h : left.isTarget = false) (c : Cursor) (t : Token)
    (value : Expr) : c.assign left t value = (left, c.report ⟨some t, .invalidTarget⟩) := by
  cases left with
  | var id name => cases h
  | get object name => cases h
  | _ => rfl

end Cursor

/-! ## Expressions -/

namespace Rule.Takes

variable {u v w : List Token} {es es' : List Complaint} {t t' : Token}

theorem mono {α : Type} {r : Rule} {form : α → Fragment} {Q Q' : α → Prop}
    (h : r.Takes form Q w es) (hQ : ∀ a, Q a → Q' a) : r.Takes form Q' w es := by
  intro n cs rest hr
  obtain ⟨a, n', hq, hread⟩ := h n cs rest hr
  exact ⟨a, n', hQ a hq, hread⟩

theorem unassigned {Q : Expr → Prop} (h : (Rule.binary .or).Takes .expr Q w es) :
    Rule.expression.Takes .expr Anything w es := by
  intro n cs rest hr
  obtain ⟨e, n', -, he⟩ := h n cs rest (hr.subset (by decide))
  exact ⟨e, n', trivial, Cursor.expression_of_or he (hr.subset (by decide))⟩

theorem assigned (hu : (Rule.binary .or).Takes .expr (·.isTarget = true) u es)
    (ht : t.kind = .symbol .equal) (hv : Rule.expression.Takes .expr Anything v es') :
    Rule.expression.Takes .expr Anything (u ++ t :: v) (es ++ es') := by
  intro n cs rest hr
  obtain ⟨left, n₁, htarget, hleft⟩ := hu n cs (t :: (v ++ rest)) (.cons_of_eq ht (by decide))
  obtain ⟨value, n₂, -, hvalue⟩ := hv n₁ (es.reverse ++ cs) rest hr
  have hread := Cursor.expression_of_equal hleft ht hvalue
  obtain ⟨e, n', hassign⟩ := Cursor.assign_of_isTarget htarget
    ⟨rest, es'.reverse ++ (es.reverse ++ cs), n₂⟩ t value
  rw [hassign] at hread
  exact ⟨e, n', trivial, .regroup hread (by simp) (by simp)⟩

theorem misassigned (hu : (Rule.binary .or).Takes .expr (·.isTarget = false) u es)
    (ht : t.kind = .symbol .equal) (hv : Rule.expression.Takes .expr Anything v es') :
    Rule.expression.Takes .expr Anything (u ++ t :: v)
      (es ++ es' ++ [⟨some t, .invalidTarget⟩]) := by
  intro n cs rest hr
  obtain ⟨left, n₁, htarget, hleft⟩ := hu n cs (t :: (v ++ rest)) (.cons_of_eq ht (by decide))
  obtain ⟨value, n₂, -, hvalue⟩ := hv n₁ (es.reverse ++ cs) rest hr
  have hread := Cursor.expression_of_equal hleft ht hvalue
  rw [Cursor.assign_of_not_isTarget htarget] at hread
  exact ⟨left, n₂, trivial, .regroup hread (by simp) (by simp)⟩

theorem prefixed {Q : Expr → Prop} (ht : t.kind = .symbol .bang ∨ t.kind = .symbol .minus)
    (h : Rule.unary.Takes .expr Q w es) :
    Rule.unary.Takes .expr (Expr.AssignableIn (t :: w)) (t :: w) es := by
  intro n cs rest hr
  obtain ⟨e, n', -, he⟩ := h n cs rest hr
  exact ⟨.unary t e, n', (fun h => by cases h), Cursor.unary_of_operator ht he⟩

/-- Further operators and operands, behind the operand `left`. -/
theorem binaryRest {p : Precedence} {us : List (List Token × List Complaint)}
    (h : ∀ x ∈ us, ∃ t v, x.1 = t :: v ∧ t.kind ∈ p.operators ∧
      p.operand.Takes .expr Anything v x.2) (left : Expr) (n : Nat) (cs : List Complaint)
    (rest : List Token) (hr : Apart (Rule.binary p).extenders rest) :
    Apart p.operand.extenders (us.flatMap Prod.fst ++ rest) ∧
      ∃ e n', (e.isTarget = true → us = [] ∧ e = left) ∧
        (Rule.binaryRest p left).ReadBy (.expr e) ⟨us.flatMap Prod.fst ++ rest, cs, n⟩
          ⟨rest, (us.flatMap Prod.snd).reverse ++ cs, n'⟩ := by
  induction us generalizing left n cs with
  | nil =>
    refine ⟨hr.subset p.extenders_operand_subset, left, n, fun _ => ⟨rfl, rfl⟩, ?_⟩
    exact Cursor.binaryRest_of_apart (hr.subset p.operators_subset_extenders)
  | cons x us ih =>
    obtain ⟨⟨t, v, hx, ht, hv⟩, hus⟩ := List.forall_mem_cons.mp h
    obtain ⟨hapart, -⟩ := ih hus left n cs
    obtain ⟨right, n₁, -, hright⟩ := hv n cs _ hapart
    obtain ⟨-, e, n₂, htarget, he⟩ := ih hus (p.node left t right) n₁ (x.2.reverse ++ cs)
    have hread := Cursor.binaryRest_of_operator ht (Rule.ReadBy.operandYields hright) he
    refine ⟨?_, e, n₂, fun h => ?_, .regroup hread (by simp [hx]) (by simp)⟩
    · rw [List.flatMap_cons, hx]
      exact .cons (p.not_mem_extenders_operand ht)
    · rw [(htarget h).2, p.isTarget_node] at h
      cases h

theorem binary {p : Precedence} {Q : Expr → Prop} {us : List (List Token × List Complaint)}
    (hu : p.operand.Takes .expr Q u es)
    (h : ∀ x ∈ us, ∃ t v, x.1 = t :: v ∧ t.kind ∈ p.operators ∧
      p.operand.Takes .expr Anything v x.2) :
    (Rule.binary p).Takes .expr (fun e => e.isTarget = true → us = [] ∧ Q e)
      (u ++ us.flatMap Prod.fst) (es ++ us.flatMap Prod.snd) := by
  intro n cs rest hr
  obtain ⟨left, n₁, hleft, hread⟩ := hu n cs _ (binaryRest h (.literal .nil) n cs rest hr).1
  obtain ⟨-, e, n₂, htarget, he⟩ := binaryRest h left n₁ (es.reverse ++ cs) rest hr
  refine ⟨e, n₂, fun h => ⟨(htarget h).1, (htarget h).2 ▸ hleft⟩, ?_⟩
  exact .regroup (Cursor.binary_of_operand hread.operandYields he) (by simp) (by simp)

/-- An operand alone is an expression of its level. -/
theorem binary_of_operand {p : Precedence} {Q : Expr → Prop} (h : p.operand.Takes .expr Q w es) :
    (Rule.binary p).Takes .expr Q w es := by
  intro n cs rest hr
  obtain ⟨e, n', hq, he⟩ := h n cs rest (hr.subset p.extenders_operand_subset)
  exact ⟨e, n', hq, Cursor.binary_of_operand he.operandYields
    (Cursor.binaryRest_of_apart (hr.subset p.operators_subset_extenders))⟩

theorem or_of_unary {Q : Expr → Prop} (h : Rule.unary.Takes .expr Q w es) :
    (Rule.binary .or).Takes .expr Q w es := by
  have hfactor : (Rule.binary .factor).Takes .expr Q w es := binary_of_operand h
  have hterm : (Rule.binary .term).Takes .expr Q w es := binary_of_operand hfactor
  have hcomparison : (Rule.binary .comparison).Takes .expr Q w es := binary_of_operand hterm
  have hequality : (Rule.binary .equality).Takes .expr Q w es := binary_of_operand hcomparison
  have hand : (Rule.binary .and).Takes .expr Q w es := binary_of_operand hequality
  exact binary_of_operand hand

theorem literal {value : Literal} (h : Cursor.literal? t.kind = some value) :
    Rule.primary.Takes .expr (·.isTarget = false) [t] [] :=
  fun n _ _ _ => ⟨.literal value, n, rfl, Cursor.primary_of_literal h⟩

theorem this (ht : t.kind = .keyword .this_) :
    Rule.primary.Takes .expr (·.isTarget = false) [t] [] :=
  fun n _ _ _ => ⟨.this ⟨n⟩ t, n + 1, rfl, Cursor.primary_of_this ht⟩

theorem name (ht : t.kind = .identifier) :
    Rule.primary.Takes .expr (·.isTarget = true) [t] [] :=
  fun n _ _ _ => ⟨.var ⟨n⟩ t, n + 1, rfl, Cursor.primary_of_name ht⟩

theorem super {method : Token} (ht : t.kind = .keyword .super_) (ht' : t'.kind = .symbol .dot)
    (hm : method.kind = .identifier) :
    Rule.primary.Takes .expr (·.isTarget = false) [t, t', method] [] :=
  fun n _ _ _ => ⟨.super ⟨n⟩ t method, n + 1, rfl, Cursor.primary_of_super ht ht' hm⟩

theorem group {Q : Expr → Prop} (ht : t.kind = .symbol .leftParen)
    (h : Rule.expression.Takes .expr Q w es) (ht' : t'.kind = .symbol .rightParen) :
    Rule.primary.Takes .expr (·.isTarget = false) (t :: (w ++ [t'])) es := by
  intro n cs rest _
  obtain ⟨e, n', -, he⟩ := h n cs (t' :: rest) (.cons_of_eq ht' (by decide))
  exact ⟨.group e, n', rfl, .regroup (Cursor.primary_of_group ht he ht') (by simp) rfl⟩

end Rule.Takes

/-! ## Calls -/

/-- Wherever the reader of unary expressions finds the tokens `w`, it takes them for a callee with
the property `Q` and goes on behind it. -/
def CalleeTakes (Q : Expr → Prop) (w : List Token) (es : List Complaint) : Prop :=
  ∀ n cs r, ∃ e n₁, Q e ∧ ∀ e' r' cs' n',
    (Cursor.callRest e ⟨r, es.reverse ++ cs, n₁⟩).Yields e' ⟨r', cs', n'⟩ →
      (Cursor.unary ⟨w ++ r, cs, n⟩).Yields e' ⟨r', cs', n'⟩

/-- Behind whatever callee the reader finds the tokens `w`, it takes them and goes on. -/
def TailTakes (w : List Token) (es : List Complaint) : Prop :=
  ∀ e n cs r, ∃ e₁ n₁,
    (∀ u, Allows (.rule .call) u → e.AssignableIn u → e₁.AssignableIn (u ++ w)) ∧
      ∀ e' r' cs' n', (Cursor.callRest e₁ ⟨r, es.reverse ++ cs, n₁⟩).Yields e' ⟨r', cs', n'⟩ →
        (Cursor.callRest e ⟨w ++ r, cs, n⟩).Yields e' ⟨r', cs', n'⟩

section Calls

variable {u v w : List Token} {es es' : List Complaint} {t t' name : Token} {Q : Expr → Prop}

theorem TailTakes.empty (ht : t.kind = .symbol .leftParen) (ht' : t'.kind = .symbol .rightParen) :
    TailTakes [t, t'] [] := by
  intro e n cs r
  refine ⟨.call e t' [], n, fun _ _ _ h => (by cases h), fun e' r' cs' n' hread => ?_⟩
  exact Cursor.callRest_of_empty ht ht' hread

theorem TailTakes.call (ht : t.kind = .symbol .leftParen) (hs : Starts TokenKind.startsExpression w)
    (hargs : (Rule.arguments 0).Takes .exprs Anything w es) (ht' : t'.kind = .symbol .rightParen) :
    TailTakes (t :: (w ++ [t'])) es := by
  intro e n cs r
  obtain ⟨arguments, n₁, -, hread⟩ := hargs n cs (t' :: r) (.cons_of_eq ht' (by decide))
  refine ⟨.call e t' arguments, n₁, fun _ _ _ h => (by cases h), fun e' r' cs' n' hmore => ?_⟩
  have hcall := Cursor.callRest_of_arguments ht ((hs.append _).apart rfl) hread ht' hmore
  exact Rule.ReadBy.regroup (r := .callRest e) (f := .expr e') hcall (by simp) rfl

theorem TailTakes.property (ht : t.kind = .symbol .dot) (hname : name.kind = .identifier) :
    TailTakes [t, name] [] := by
  intro e n cs r
  refine ⟨.get e name, n, fun u hu _ _ => ?_, fun e' r' cs' n' hmore => ?_⟩
  · exact .of_eq (.seq (.optSome (.seq hu (.of_kind ht))) (.of_kind hname)) (by simp)
  · exact Cursor.callRest_of_property ht hname hmore

/-- Calls and property accesses, one behind the other. -/
theorem TailTakes.flatMap {us : List (List Token × List Complaint)}
    (h : ∀ x ∈ us, Allows callTail x.1 ∧ TailTakes x.1 x.2) :
    TailTakes (us.flatMap Prod.fst) (us.flatMap Prod.snd) := by
  induction us with
  | nil =>
    intro e n cs r
    refine ⟨e, n, fun u _ he => ?_, fun _ _ _ _ hmore => hmore⟩
    rwa [List.flatMap_nil, List.append_nil]
  | cons x us ih =>
    obtain ⟨⟨hx, htail⟩, hus⟩ := List.forall_mem_cons.mp h
    intro e n cs r
    obtain ⟨e₁, n₁, hassignable, hfirst⟩ := htail e n cs (us.flatMap Prod.fst ++ r)
    obtain ⟨e₂, n₂, hassignable', hlater⟩ := ih hus e₁ n₁ (x.2.reverse ++ cs) r
    refine ⟨e₂, n₂, fun u hu he => ?_, fun e' r' cs' n' hmore => ?_⟩
    · rw [List.flatMap_cons, ← List.append_assoc]
      exact hassignable' (u ++ x.1) (hu.callSnoc hx) (hassignable u hu he)
    · rw [List.flatMap_cons, List.reverse_append, List.append_assoc] at hmore
      have hread := hfirst e' r' cs' n' (hlater e' r' cs' n' hmore)
      exact Rule.ReadBy.regroup (r := .callRest e) (f := .expr e') hread (by simp) rfl

theorem CalleeTakes.of_primary (hs : Starts TokenKind.startsPrimary w)
    (h : Rule.primary.Takes .expr Q w es) : CalleeTakes Q w es := by
  intro n cs r
  obtain ⟨e, n₁, hq, he⟩ := h n cs r (apart_nil r)
  refine ⟨e, n₁, hq, fun e' r' cs' n' hmore => Cursor.unary_of_primary ?_ he hmore⟩
  obtain ⟨t, v, rfl, ht⟩ := hs
  rintro u ⟨⟩
  exact ⟨fun hu => by simp [hu, TokenKind.startsPrimary, Cursor.literal?] at ht,
    fun hu => by simp [hu, TokenKind.startsPrimary, Cursor.literal?] at ht⟩

theorem CalleeTakes.append (h : CalleeTakes (Expr.AssignableIn u) u es) (hu : Allows (.rule .call) u)
    (hv : TailTakes v es') : CalleeTakes (Expr.AssignableIn (u ++ v)) (u ++ v) (es ++ es') := by
  intro n cs r
  obtain ⟨e, n₁, he, hfirst⟩ := h n cs (v ++ r)
  obtain ⟨e₁, n₂, hassignable, hlater⟩ := hv e n₁ (es.reverse ++ cs) r
  refine ⟨e₁, n₂, hassignable u hu he, fun e' r' cs' n' hmore => ?_⟩
  rw [List.reverse_append, List.append_assoc] at hmore
  have hread := hfirst e' r' cs' n' (hlater e' r' cs' n' hmore)
  exact Rule.ReadBy.regroup (r := .unary) (f := .expr e') hread (by simp) rfl

/-- Something can be assigned to a property access at the end. -/
theorem CalleeTakes.property (h : CalleeTakes Q w es) (ht : t.kind = .symbol .dot)
    (hname : name.kind = .identifier) :
    CalleeTakes (·.isTarget = true) (w ++ [t, name]) es := by
  intro n cs r
  obtain ⟨e, n₁, -, hread⟩ := h n cs (t :: name :: r)
  refine ⟨.get e name, n₁, rfl, fun e' r' cs' n' hmore => ?_⟩
  have hunary := hread e' r' cs' n' (Cursor.callRest_of_property ht hname hmore)
  exact Rule.ReadBy.regroup (r := .unary) (f := .expr e') hunary (by simp) rfl

theorem CalleeTakes.unary (h : CalleeTakes Q w es) : Rule.unary.Takes .expr Q w es := by
  intro n cs rest hr
  obtain ⟨e, n₁, hq, hread⟩ := h n cs rest
  exact ⟨e, n₁, hq, hread e rest _ n₁ (Cursor.callRest_of_apart hr)⟩

end Calls

/-! ## Lists -/

/-- Entries with commas between them, behind `count` others; each of them is one of `P`. -/
inductive Entries (P : List Token → List Complaint → Prop) (fault : ParseFault) :
    Nat → List Token → List Complaint → Prop where
  | last {count : Nat} {w es} (h : P w es) :
      Entries P fault count w (excess fault count w ++ es)
  | next {count : Nat} {u t v es es'} (h : P u es) (ht : t.kind = .symbol .comma)
      (more : Entries P fault (count + 1) v es') :
      Entries P fault count (u ++ t :: v) (excess fault count u ++ es ++ es')

namespace Entries

variable {P : List Token → List Complaint → Prop} {count : Nat} {w : List Token}
  {es : List Complaint} {fault : ParseFault}

theorem starts {s : TokenKind → Bool} (h : Entries P fault count w es)
    (hP : ∀ w es, P w es → Starts s w) : Starts s w := by
  cases h with
  | last h => exact hP _ _ h
  | next h => exact (hP _ _ h).append _

theorem arguments (h : Entries P .tooManyArguments count w es)
    (hP : ∀ w es, P w es →
      Starts TokenKind.startsExpression w ∧ Rule.expression.Takes .expr Anything w es) :
    (Rule.arguments count).Takes .exprs Anything w es := by
  induction h with
  | @last count w es h =>
    intro n cs rest hr
    obtain ⟨hs, hw⟩ := hP w es h
    obtain ⟨e, n', -, he⟩ := hw n ((excess .tooManyArguments count w).reverse ++ cs) rest
      (hr.subset (List.subset_cons_self _ _))
    have hread := Cursor.arguments_of_last (Cursor.checkArity_append hs.ne_nil count _ rest cs n) he
      (hr.subset (by simp [Rule.extenders]))
    exact ⟨[e], n', trivial, .regroup hread rfl (by simp)⟩
  | @next count u t v es es' h ht _ ih =>
    intro n cs rest hr
    obtain ⟨hs, hu⟩ := hP u es h
    obtain ⟨e, n₁, -, he⟩ := hu n ((excess .tooManyArguments count u).reverse ++ cs) (t :: (v ++ rest))
      (.cons_of_eq ht (by decide))
    obtain ⟨es₁, n₂, -, hmore⟩ :=
      ih n₁ (es.reverse ++ ((excess .tooManyArguments count u).reverse ++ cs)) rest hr
    have hread := Cursor.arguments_of_comma
      (Cursor.checkArity_append hs.ne_nil count _ (t :: (v ++ rest)) cs n) he ht hmore
    exact ⟨e :: es₁, n₂, trivial, .regroup hread (by simp) (by simp)⟩

theorem parameters (h : Entries P .tooManyParameters count w es)
    (hP : ∀ w es, P w es → ∃ name, w = [name] ∧ name.kind = .identifier ∧ es = []) :
    (Rule.parameters count).Takes .names Anything w es := by
  induction h with
  | @last count w es h =>
    intro n cs rest hr
    obtain ⟨name, rfl, hname, rfl⟩ := hP w es h
    have hread := Cursor.parameters_of_last
      (Cursor.checkArity_append (List.cons_ne_nil name []) count _ rest cs n) hname hr
    exact ⟨[name], n, trivial, .regroup hread rfl (by simp)⟩
  | @next count u t v es es' h ht _ ih =>
    intro n cs rest hr
    obtain ⟨name, rfl, hname, rfl⟩ := hP u es h
    obtain ⟨names, n', -, hmore⟩ := ih n ((excess .tooManyParameters count [name]).reverse ++ cs) rest hr
    have hread := Cursor.parameters_of_comma
      (Cursor.checkArity_append (List.cons_ne_nil name []) count _ (t :: (v ++ rest)) cs n) hname ht
      hmore
    exact ⟨name :: names, n', trivial, .regroup hread rfl (by simp)⟩

end Entries

/-! ## Parts of statements -/

namespace Rule.Takes

variable {u v w : List Token} {es es' : List Complaint} {t t' name : Token}

theorem terminated {s : Symbol} (hs : s.endsExpression = true)
    (h : Rule.expression.Takes .expr Anything w es) (ht : t.kind = .symbol s) :
    (Rule.terminated s).Takes .expr Anything (w ++ [t]) es := by
  intro n cs rest _
  obtain ⟨e, n', -, he⟩ := h n cs (t :: rest) (.cons_of_eq ht (Symbol.not_mem_extenders hs))
  exact ⟨e, n', trivial,
    .regroup (fun _ => Cursor.terminated_of_expression he ht) (by simp) rfl⟩

theorem omitted {s : Symbol} (ht : t.kind = .symbol s) :
    (Rule.optional s).Takes .expr? Anything [t] [] :=
  fun n _ _ _ => ⟨none, n, trivial, fun _ => Cursor.optional_of_symbol ht⟩

theorem given {s : Symbol} (hs : s.endsExpression = true) (hw : Starts TokenKind.startsExpression w)
    (h : Rule.expression.Takes .expr Anything w es) (ht : t.kind = .symbol s) :
    (Rule.optional s).Takes .expr? Anything (w ++ [t]) es := by
  intro n cs rest _
  obtain ⟨e, n', -, he⟩ := terminated hs h ht n cs rest (apart_nil rest)
  refine ⟨some e, n', trivial, fun what => Cursor.optional_of_terminated ?_ (he what)⟩
  refine ((hw.append _).append _).apart ?_
  revert hs
  cases s <;> decide

theorem parenthesized (ht : t.kind = .symbol .leftParen)
    (h : Rule.expression.Takes .expr Anything w es) (ht' : t'.kind = .symbol .rightParen) :
    Rule.parenthesized.Takes .expr Anything (t :: (w ++ [t'])) es := by
  intro n cs rest _
  obtain ⟨e, n', -, he⟩ := terminated rfl h ht' n cs rest (apart_nil rest)
  exact ⟨e, n', trivial, fun _ closing => Cursor.parenthesized_of_terminated ht (he closing)⟩

theorem initialized (hname : name.kind = .identifier) (ht : t.kind = .symbol .equal)
    (h : Rule.expression.Takes .expr Anything w es) (ht' : t'.kind = .symbol .semicolon) :
    Rule.variableDeclaration.Takes .stmt Anything (name :: t :: (w ++ [t'])) es := by
  intro n cs rest _
  obtain ⟨e, n', -, he⟩ := terminated rfl h ht' n cs rest (apart_nil rest)
  exact ⟨.var name (some e), n', trivial, Cursor.variableDeclaration_of_equal hname ht (he _)⟩

theorem uninitialized (hname : name.kind = .identifier) (ht : t.kind = .symbol .semicolon) :
    Rule.variableDeclaration.Takes .stmt Anything [name, t] [] :=
  fun n _ _ _ => ⟨.var name none, n, trivial, Cursor.variableDeclaration_of_semicolon hname ht⟩

theorem forNothing (ht : t.kind = .symbol .semicolon) :
    Rule.forInitializer.Takes .stmt? Anything [t] [] :=
  fun n _ _ _ => ⟨none, n, trivial, Cursor.forInitializer_of_semicolon ht⟩

theorem forVariable (ht : t.kind = .keyword .var_)
    (h : Rule.variableDeclaration.Takes .stmt Anything w es) :
    Rule.forInitializer.Takes .stmt? Anything (t :: w) es := by
  intro n cs rest hr
  obtain ⟨s, n', -, hs⟩ := h n cs rest hr
  exact ⟨some s, n', trivial, Cursor.forInitializer_of_variable ht hs⟩

theorem forExpression (hw : Starts TokenKind.startsExpression w)
    (h : (Rule.terminated .semicolon).Takes .expr Anything w es) :
    Rule.forInitializer.Takes .stmt? Anything w es := by
  intro n cs rest hr
  obtain ⟨e, n', -, he⟩ := h n cs rest hr
  exact ⟨some (.expression e), n', trivial,
    Cursor.forInitializer_of_expression ((hw.append _).apart rfl) (he _)⟩

theorem noParameters (ht : t.kind = .symbol .rightParen) :
    Rule.parameterList.Takes .names Anything [t] [] :=
  fun n _ _ _ => ⟨[], n, trivial, Cursor.parameterList_of_empty ht⟩

theorem someParameters (hw : Starts (· == .identifier) w)
    (h : (Rule.parameters 0).Takes .names Anything w es) (ht : t.kind = .symbol .rightParen) :
    Rule.parameterList.Takes .names Anything (w ++ [t]) es := by
  intro n cs rest _
  obtain ⟨names, n', -, hnames⟩ := h n cs (t :: rest) (.cons_of_eq ht (by decide))
  have hread := Cursor.parameterList_of_parameters ((hw.append _).apart rfl) hnames ht
  exact ⟨names, n', trivial, .regroup hread (by simp) rfl⟩

theorem base (ht : t.kind = .symbol .leftBrace) :
    Rule.classHeader.Takes .expr? Anything [t] [] :=
  fun n _ _ _ => ⟨none, n, trivial, Cursor.classHeader_of_brace ht⟩

theorem derived (ht : t.kind = .symbol .less) (hname : name.kind = .identifier)
    (ht' : t'.kind = .symbol .leftBrace) :
    Rule.classHeader.Takes .expr? Anything [t, name, t'] [] :=
  fun n _ _ _ => ⟨some (.var ⟨n⟩ name), n + 1, trivial, Cursor.classHeader_of_superclass ht hname ht'⟩

/-! ## Declarations -/

theorem declaredClass (ht : t.kind = .keyword .class_) (hname : name.kind = .identifier)
    (hu : Rule.classHeader.Takes .expr? Anything u es)
    (hv : Rule.methods.Takes .decls Anything v es') :
    (Rule.declaration false).Takes .stmt Anything (t :: name :: (u ++ v)) (es ++ es') := by
  intro n cs rest _
  obtain ⟨superclass, n₁, -, hheader⟩ := hu n cs (v ++ rest) (apart_nil _)
  obtain ⟨fs, n₂, -, hfs⟩ := hv n₁ (es.reverse ++ cs) rest (apart_nil _)
  have hread := Cursor.declaration_of_class ht (Cursor.classDeclaration_of_parts hname hheader hfs)
  exact ⟨.class_ name superclass fs, n₂, trivial, .regroup hread (by simp) (by simp)⟩

theorem declaredFunction (ht : t.kind = .keyword .fun_)
    (h : Rule.function.Takes .decl Anything w es) :
    (Rule.declaration false).Takes .stmt Anything (t :: w) es := by
  intro n cs rest _
  obtain ⟨f, n', -, hf⟩ := h n cs rest (apart_nil _)
  exact ⟨.fun_ f, n', trivial, Cursor.declaration_of_fun ht (hf _)⟩

theorem declaredVariable (ht : t.kind = .keyword .var_)
    (h : Rule.variableDeclaration.Takes .stmt Anything w es) :
    (Rule.declaration false).Takes .stmt Anything (t :: w) es := by
  intro n cs rest _
  obtain ⟨s, n', -, hs⟩ := h n cs rest (apart_nil _)
  exact ⟨s, n', trivial, Cursor.declaration_of_var ht hs⟩

theorem statement {o : Bool} (hw : Starts TokenKind.startsStatement w)
    (h : (Rule.statement o).Takes .stmt Anything w es) :
    (Rule.declaration o).Takes .stmt Anything w es := by
  intro n cs rest hr
  obtain ⟨s, n', -, hs⟩ := h n cs rest (by cases o <;> exact hr)
  exact ⟨s, n', trivial, Cursor.declaration_of_statement ((hw.append _).apart rfl) hs⟩

theorem methods {us : List (List Token × List Complaint)}
    (h : ∀ x ∈ us, Starts (· == .identifier) x.1 ∧ Rule.function.Takes .decl Anything x.1 x.2)
    (ht : t.kind = .symbol .rightBrace) :
    Rule.methods.Takes .decls Anything (us.flatMap Prod.fst ++ [t]) (us.flatMap Prod.snd) := by
  induction us with
  | nil => exact fun n _ _ _ => ⟨[], n, trivial, Cursor.methods_of_brace ht⟩
  | cons x us ih =>
    obtain ⟨⟨hs, hx⟩, hus⟩ := List.forall_mem_cons.mp h
    intro n cs rest hr
    obtain ⟨f, n₁, -, hf⟩ := hx n cs (us.flatMap Prod.fst ++ [t] ++ rest) (apart_nil _)
    obtain ⟨fs, n₂, -, hfs⟩ := ih hus n₁ (x.2.reverse ++ cs) rest hr
    have hread := Cursor.methods_of_function (hs.append _).ne_nil ((hs.append _).apart rfl) (hf _) hfs
    exact ⟨f :: fs, n₂, trivial, .regroup hread (by simp) (by simp)⟩

theorem function (hname : name.kind = .identifier) (ht : t.kind = .symbol .leftParen)
    (hu : Rule.parameterList.Takes .names Anything u es) (ht' : t'.kind = .symbol .leftBrace)
    (hv : Rule.block.Takes .stmts Anything v es') :
    Rule.function.Takes .decl Anything (name :: t :: (u ++ t' :: v)) (es ++ es') := by
  intro n cs rest _
  obtain ⟨params, n₁, -, hp⟩ := hu n cs (t' :: (v ++ rest)) (apart_nil _)
  obtain ⟨body, n₂, -, hb⟩ := hv n₁ (es.reverse ++ cs) rest (apart_nil _)
  exact ⟨⟨name, params, body⟩, n₂, trivial,
    .regroup (fun _ => Cursor.function_of_parts hname ht hp ht' hb) (by simp) (by simp)⟩

end Rule.Takes

/-- Wherever the reader finds the tokens `w`, it takes them for a declaration or statement. -/
def DeclarationTakes (w : List Token) (es : List Complaint) : Prop :=
  Starts TokenKind.startsDeclaration w ∧ ∃ o, (Rule.declaration o).Takes .stmt Anything w es

section Declarations

variable {us : List (List Token × List Complaint)} {t : Token}

/-- No declaration begins with an `else`. -/
theorem apart_else_of_declarations (h : ∀ x ∈ us, DeclarationTakes x.1 x.2) {rest : List Token}
    (hr : Apart [.keyword .else_] rest) :
    Apart [.keyword .else_] (us.flatMap Prod.fst ++ rest) := by
  cases us with
  | nil => exact hr
  | cons x us =>
    rw [List.flatMap_cons, List.append_assoc]
    exact ((h x List.mem_cons_self).1.append _).apart rfl

theorem Rule.Takes.block (h : ∀ x ∈ us, DeclarationTakes x.1 x.2)
    (ht : t.kind = .symbol .rightBrace) :
    Rule.block.Takes .stmts Anything (us.flatMap Prod.fst ++ [t]) (us.flatMap Prod.snd) := by
  induction us with
  | nil => exact fun n _ _ _ => ⟨[], n, trivial, Cursor.block_of_brace ht⟩
  | cons x us ih =>
    obtain ⟨⟨hs, o, hx⟩, hus⟩ := List.forall_mem_cons.mp h
    intro n cs rest hr
    have hlast : Apart [.keyword .else_] ([t] ++ rest) := .cons_of_eq ht (by decide)
    have hnext := apart_else_of_declarations hus hlast
    obtain ⟨s, n₁, -, hs₁⟩ := hx n cs _ (hnext.subset (Rule.extenders_declaration_subset o))
    obtain ⟨ss, n₂, -, hss⟩ := ih hus n₁ (x.2.reverse ++ cs) rest hr
    rw [List.append_assoc] at hss
    have hread := Cursor.block_of_declaration (hs.append _).ne_nil ((hs.append _).apart rfl) hs₁ hss
    exact ⟨s :: ss, n₂, trivial, .regroup hread (by simp) (by simp)⟩

/-- The declarations of a whole program. -/
theorem program_takes (h : ∀ x ∈ us, DeclarationTakes x.1 x.2) (n : Nat) (cs : List Complaint) :
    ∃ ss n', Cursor.program ⟨us.flatMap Prod.fst, cs, n⟩ =
      (ss, ⟨[], (us.flatMap Prod.snd).reverse ++ cs, n'⟩) := by
  induction us generalizing n cs with
  | nil => exact ⟨[], n, Cursor.program_of_nil rfl⟩
  | cons x us ih =>
    obtain ⟨⟨hs, o, hx⟩, hus⟩ := List.forall_mem_cons.mp h
    have hnil : Apart [.keyword .else_] [] := fun _ h => nomatch h
    have hnext := apart_else_of_declarations hus hnil
    rw [List.append_nil] at hnext
    obtain ⟨s, n₁, -, hs₁⟩ := hx n cs _ (hnext.subset (Rule.extenders_declaration_subset o))
    obtain ⟨ss, n₂, hss⟩ := ih hus n₁ (x.2.reverse ++ cs)
    refine ⟨s :: ss, n₂, ?_⟩
    rw [List.flatMap_cons, List.flatMap_cons, List.reverse_append, List.append_assoc]
    exact Cursor.program_of_declaration (hs.append _).ne_nil hs₁ hss

end Declarations

/-! ## Statements -/

/-- What stands in front of the body of a loop. -/
def LoopHead (w : List Token) (es : List Complaint) : Prop :=
  Starts TokenKind.startsStatement w ∧ ∀ n cs r, ∃ (loop : Stmt → Stmt) (n₁ : Nat), ∀ s r' cs' n',
    (Cursor.statement ⟨r, es.reverse ++ cs, n₁⟩).Yields s ⟨r', cs', n'⟩ →
      (Cursor.statement ⟨w ++ r, cs, n⟩).Yields (loop s) ⟨r', cs', n'⟩

/-- The tokens are an `if` with its condition. -/
def IfHead (w : List Token) (es : List Complaint) : Prop :=
  ∃ t v, w = t :: v ∧ t.kind = .keyword .if_ ∧ Rule.parenthesized.Takes .expr Anything v es

/-- Wherever the reader finds the tokens `w`, it takes them for a statement; the flag tells whether
the statement ends in an `if` that would take an `else` behind it. -/
inductive StatementTakes : Bool → List Token → List Complaint → Prop where
  | simple {w es} (hs : Starts TokenKind.startsStatement w)
      (h : (Rule.statement false).Takes .stmt Anything w es) : StatementTakes false w es
  | loop {o u v es es'} (hu : LoopHead u es) (hv : StatementTakes o v es') :
      StatementTakes o (u ++ v) (es ++ es')
  | ifThen {o u v es es'} (hu : IfHead u es) (hv : StatementTakes o v es') :
      StatementTakes true (u ++ v) (es ++ es')
  | ifElse {o u v t w es es' es''} (hu : IfHead u es) (hv : StatementTakes false v es')
      (ht : t.kind = .keyword .else_) (hw : StatementTakes o w es'') :
      StatementTakes o (u ++ (v ++ t :: w)) (es ++ (es' ++ es''))

theorem IfHead.starts {w : List Token} {es : List Complaint} (h : IfHead w es) :
    Starts TokenKind.startsStatement w := by
  obtain ⟨t, v, rfl, ht, -⟩ := h
  exact .cons_of_eq ht rfl

namespace StatementTakes

variable {o o' : Bool} {u w : List Token} {es es' : List Complaint} {t : Token}

theorem starts (h : StatementTakes o w es) : Starts TokenKind.startsStatement w := by
  cases h with
  | simple hs _ => exact hs
  | loop hu _ => exact hu.1.append _
  | ifThen hu _ => exact hu.starts.append _
  | ifElse hu _ _ _ => exact hu.starts.append _

theorem takes (h : StatementTakes o w es) : (Rule.statement o).Takes .stmt Anything w es := by
  induction h with
  | simple _ h => exact h
  | @loop o u v es es' hu _ ih =>
    intro n cs rest hr
    obtain ⟨loop, n₁, hloop⟩ := hu.2 n cs (v ++ rest)
    obtain ⟨s, n', -, hs⟩ := ih n₁ (es.reverse ++ cs) rest hr
    exact ⟨loop s, n', trivial, .regroup (hloop _ _ _ _ hs) (by simp) (by simp)⟩
  | @ifThen o u v es es' hu _ ih =>
    obtain ⟨t, u, rfl, ht, hcondition⟩ := hu
    intro n cs rest hr
    obtain ⟨condition, n₁, -, hc⟩ := hcondition n cs (v ++ rest) (apart_nil _)
    obtain ⟨s, n', -, hs⟩ := ih n₁ (es.reverse ++ cs) rest (hr.subset (by cases o <;> decide))
    exact ⟨.if_ condition s none, n', trivial,
      .regroup (Cursor.statement_of_if ht hc hs hr) (by simp) (by simp)⟩
  | @ifElse o u v t w es es' es'' hu _ helse _ ih ih' =>
    obtain ⟨t', u, rfl, ht, hcondition⟩ := hu
    intro n cs rest hr
    obtain ⟨condition, n₁, -, hc⟩ := hcondition n cs (v ++ t :: (w ++ rest)) (apart_nil _)
    obtain ⟨s, n₂, -, hs⟩ := ih n₁ (es.reverse ++ cs) (t :: (w ++ rest)) (apart_nil _)
    obtain ⟨s', n₃, -, hs'⟩ := ih' n₂ (es'.reverse ++ (es.reverse ++ cs)) rest hr
    exact ⟨.if_ condition s (some s'), n₃, trivial,
      .regroup (Cursor.statement_of_else ht hc hs helse hs') (by simp) (by simp)⟩

/-- The complaints of a statement may be grouped in any way. -/
theorem regroup {w' : List Token} {es' : List Complaint} (h : StatementTakes o w es) (hw : w = w')
    (hes : es = es') : StatementTakes o w' es' := by
  subst hw hes
  exact h

/-- An open statement takes an `else` with its branch into the innermost open `if`. -/
theorem exists_of_else (h : StatementTakes true w es) (ht : t.kind = .keyword .else_)
    (h' : StatementTakes o u es') : ∃ o', StatementTakes o' (w ++ t :: u) (es ++ es') := by
  generalize ho : true = o₁ at h
  induction h with
  | simple => cases ho
  | loop hu _ ih =>
    obtain ⟨o', hmore⟩ := ih ho
    exact ⟨o', (loop hu hmore).regroup (by simp) (by simp)⟩
  | @ifThen o₁ _ _ _ _ hu hv ih =>
    cases o₁ with
    | false => exact ⟨o, (ifElse hu hv ht h').regroup (by simp) (by simp)⟩
    | true =>
      obtain ⟨o', hmore⟩ := ih rfl
      exact ⟨true, (ifThen hu hmore).regroup (by simp) (by simp)⟩
  | ifElse hu hv helse _ _ ih =>
    obtain ⟨o', hmore⟩ := ih ho
    exact ⟨o', (ifElse hu hv helse hmore).regroup (by simp) (by simp)⟩

theorem declaration (h : StatementTakes o w es) : DeclarationTakes w es :=
  ⟨h.starts.mono fun _ => TokenKind.startsDeclaration_of_startsStatement, o, h.takes.statement h.starts⟩

end StatementTakes

section Statements

variable {u v w : List Token} {es es' es'' : List Complaint} {t t' : Token}

theorem LoopHead.for_ (ht : t.kind = .keyword .for_) (ht' : t'.kind = .symbol .leftParen)
    (hu : Rule.forInitializer.Takes .stmt? Anything u es)
    (hv : (Rule.optional .semicolon).Takes .expr? Anything v es')
    (hw : (Rule.optional .rightParen).Takes .expr? Anything w es'') :
    LoopHead (t :: t' :: (u ++ (v ++ w))) (es ++ (es' ++ es'')) := by
  refine ⟨.cons_of_eq ht rfl, fun n cs r => ?_⟩
  obtain ⟨initializer, n₁, -, h₁⟩ := hu n cs (v ++ (w ++ r)) (apart_nil _)
  obtain ⟨condition, n₂, -, h₂⟩ := hv n₁ (es.reverse ++ cs) (w ++ r) (apart_nil _)
  obtain ⟨increment, n₃, -, h₃⟩ := hw n₂ (es'.reverse ++ (es.reverse ++ cs)) r (apart_nil _)
  refine ⟨Stmt.ofForClauses initializer condition increment, n₃, fun s r' cs' n' hs => ?_⟩
  rw [List.reverse_append, List.reverse_append, List.append_assoc, List.append_assoc] at hs
  have hread := Cursor.statement_of_for ht ht' h₁ h₂ h₃ hs
  exact Rule.ReadBy.regroup (r := .statement false) (f := .stmt _) hread (by simp) rfl

theorem LoopHead.while_ (ht : t.kind = .keyword .while_)
    (hu : Rule.parenthesized.Takes .expr Anything u es) : LoopHead (t :: u) es := by
  refine ⟨.cons_of_eq ht rfl, fun n cs r => ?_⟩
  obtain ⟨condition, n₁, -, hc⟩ := hu n cs r (apart_nil _)
  exact ⟨.while_ condition, n₁, fun s r' cs' n' hs => Cursor.statement_of_while ht hc hs⟩

theorem StatementTakes.return_ (ht : t.kind = .keyword .return_)
    (h : (Rule.optional .semicolon).Takes .expr? Anything w es) :
    StatementTakes false (t :: w) es := by
  refine .simple (.cons_of_eq ht rfl) fun n cs rest _ => ?_
  obtain ⟨value, n', -, hv⟩ := h n cs rest (apart_nil _)
  exact ⟨.return_ t value, n', trivial, Cursor.statement_of_return ht hv⟩

theorem StatementTakes.print (ht : t.kind = .keyword .print_)
    (h : (Rule.terminated .semicolon).Takes .expr Anything w es) :
    StatementTakes false (t :: w) es := by
  refine .simple (.cons_of_eq ht rfl) fun n cs rest _ => ?_
  obtain ⟨e, n', -, he⟩ := h n cs rest (apart_nil _)
  exact ⟨.print e, n', trivial, Cursor.statement_of_print ht he⟩

theorem StatementTakes.block (ht : t.kind = .symbol .leftBrace)
    (h : Rule.block.Takes .stmts Anything w es) : StatementTakes false (t :: w) es := by
  refine .simple (.cons_of_eq ht rfl) fun n cs rest _ => ?_
  obtain ⟨body, n', -, hb⟩ := h n cs rest (apart_nil _)
  exact ⟨.block body, n', trivial, Cursor.statement_of_brace ht hb⟩

theorem StatementTakes.expression (hw : Starts TokenKind.startsExpression w)
    (h : (Rule.terminated .semicolon).Takes .expr Anything w es) : StatementTakes false w es := by
  refine .simple (hw.mono fun _ => TokenKind.startsStatement_of_startsExpression) fun n cs rest _ => ?_
  obtain ⟨e, n', -, he⟩ := h n cs rest (apart_nil _)
  obtain ⟨t, v, rfl, ht⟩ := hw
  exact ⟨.expression e, n', trivial, Cursor.statement_of_expression ht he⟩

end Statements

end LoxWalk
