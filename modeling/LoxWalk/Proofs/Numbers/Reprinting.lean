import LoxWalk.Evaluation
import LoxWalk.Proofs.Grammar.Bounds
import LoxWalk.Proofs.Numbers.Numerals

/-!
# Printed numbers as expressions

What a program prints for a finite number is an expression that evaluates to this number, bit by bit.
Without a sign it is a single token.  A sign becomes an operator, which gives the number its sign
back, also to a zero.
-/

namespace LoxWalk

namespace Grammar

/-- Tokens that are an expression are accepted as one. -/
theorem expression_of_reads {n n' : Nat} {ts : List Token} {e : Expr}
    (h : Reads .expression n (body ts) (.expr e) n') : (expression n ts).result = .ok e := by
  have hread := h.readBy [] [] nofun
  rw [List.append_nil] at hread
  obtain ⟨hlt, hyields⟩ := hread
  rw [expression_of_start rfl, start, hyields]
  exact result_conclude ts e _

end Grammar

/-! ## Evaluation -/

section

variable (s : Setting) (m : Machine) (fuel : Nat) (d : Double)

theorem evaluate_number :
    evaluate s (fuel + 1) (.literal (.number d)) m = .ok (.number d.toFloat) m :=
  rfl

theorem evaluate_minus_number {t : Token} (ht : t.isSymbol .minus = true) :
    evaluate s (fuel + 2) (.unary t (.literal (.number d))) m = .ok (.number (-d.toFloat)) m := by
  have hunary : applyUnary t (.number d.toFloat) = .ok (.number (-d.toFloat)) := if_pos ht
  have happlied : evaluate s (fuel + 2) (.unary t (.literal (.number d))) m =
      Exec.operate t (applyUnary t (.number d.toFloat)) m := by
    rw [evaluate]
    rfl
  rw [happlied, hunary]
  rfl

end

/-! ## Printed and read back -/

/-- Printed numbers evaluate back to themselves.  Whatever the bits of a finite double are, zeros
with a sign included, the text that is printed for it has no errors, is read to its end as an
expression, and evaluates to a number with these bits; without a sign it is a single token. -/
theorem printed_number_evaluates_to_itself {x : Double} (h : x.isFinite = true) :
    (Value.number x.toFloat).text = Number.display x ∧ Double.ofFloat x.toFloat = x ∧
      Source.errors (Number.display x) = [] ∧
      (x.isNegative = false → Source.tokens (Number.display x) =
        [⟨.number x, Number.display x, 1⟩, ⟨.eof, "", 1⟩]) ∧
      ∀ n, ∃ e, (Grammar.expression n (Source.tokens (Number.display x))).result = .ok e ∧
        Reads .expression n (Grammar.body (Source.tokens (Number.display x))) (.expr e) n ∧
        ∀ s m fuel, evaluate s (fuel + 2) e m = .ok (.number x.toFloat) m := by
  have hbits := Double.ofFloat_toFloat h
  refine ⟨congrArg Number.display hbits, hbits, ?_⟩
  obtain ⟨y, htext, hdouble⟩ := Number.exists_numeral_display h
  have hnumber (n : Nat) (t : Token) (ht : t.kind = .number x.abs) :
      Reads .unary n [t] (.expr (.literal (.number x.abs))) n :=
    .of_primary (.literal (by rw [ht]; rfl))
  cases hsign : x.isNegative with
  | false =>
    rw [hsign] at htext
    have habs := Double.abs_of_not_negative hsign
    have hscan := y.scan_text htext
    rw [hdouble, habs] at hscan
    rw [habs] at hnumber
    have htokens : Source.tokens (Number.display x) =
        [⟨.number x, Number.display x, 1⟩, ⟨.eof, "", 1⟩] := by
      rw [Source.tokens, hscan]
      rfl
    refine ⟨by rw [Source.errors, hscan]; rfl, fun _ => htokens, fun n => ?_⟩
    have hreads : Reads .expression n (Grammar.body (Source.tokens (Number.display x)))
        (.expr (.literal (.number x))) n := by
      rw [htokens]
      exact .plain (.of_unary (hnumber n _ rfl))
    exact ⟨_, Grammar.expression_of_reads hreads, hreads, fun s m fuel => evaluate_number s m _ x⟩
  | true =>
    rw [hsign] at htext
    have hscan := y.scan_minus_text htext
    rw [hdouble] at hscan
    have htokens : Source.tokens (Number.display x) = [⟨.symbol .minus, "-", 1⟩,
        ⟨.number x.abs, String.ofList y.text, 1⟩, ⟨.eof, "", 1⟩] := by
      rw [Source.tokens, hscan]
      rfl
    refine ⟨by rw [Source.errors, hscan]; rfl, fun h => absurd h.symm Bool.false_ne_true,
      fun n => ?_⟩
    have hreads : Reads .expression n (Grammar.body (Source.tokens (Number.display x)))
        (.expr (.unary ⟨.symbol .minus, "-", 1⟩ (.literal (.number x.abs)))) n := by
      rw [htokens]
      exact .plain (.of_unary (.prefixed (.inr rfl) (hnumber n _ rfl)))
    refine ⟨_, Grammar.expression_of_reads hreads, hreads, fun s m fuel => ?_⟩
    rw [evaluate_minus_number s m fuel x.abs rfl, Double.neg_toFloat_abs h hsign]

/-- A tenth below zero. -/
theorem printed_number_evaluates_to_itself_tenth :
    Double.isFinite ⟨0xBFB999999999999A⟩ = true ∧
      Number.display ⟨0xBFB999999999999A⟩ = "-0.1" ∧ Source.errors "-0.1" = [] ∧
      ∃ e, (Grammar.expression 0 (Source.tokens "-0.1")).result = .ok e ∧
        ∀ s m fuel, evaluate s (fuel + 2) e m =
          .ok (.number (Double.toFloat ⟨0xBFB999999999999A⟩)) m := by
  have hfinite : Double.isFinite ⟨0xBFB999999999999A⟩ = true := by decide +kernel
  have hdisplay : Number.display ⟨0xBFB999999999999A⟩ = "-0.1" := by decide +kernel
  obtain ⟨-, -, herrors, -, hexpression⟩ := printed_number_evaluates_to_itself hfinite
  obtain ⟨e, hresult, -, hvalue⟩ := hexpression 0
  rw [hdisplay] at herrors hresult
  exact ⟨hfinite, hdisplay, herrors, e, hresult, hvalue⟩

end LoxWalk
