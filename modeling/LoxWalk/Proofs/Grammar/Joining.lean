import Mathlib
import LoxWalk.Proofs.Grammar.Acceptance
import LoxWalk.Proofs.Grammar.Identities

/-!
# A program in front of other tokens

A program that is accepted on its own is read to its end without a look at what follows it, unless
an `else` follows, which would belong to its last statement.  Behind it the reader is in the same
position as in front of the other tokens alone (`Reads.program_in_front`).  So nothing that is wrong
further on reaches back into the program, and nothing in the program changes what is found further
on (`Grammar.program_append_of_accepted`).
-/

namespace LoxWalk

namespace Cursor

theorem program_of_nil {c : Cursor} (hc : c.rest = []) : program c = ([], c) := by
  rw [program, dif_pos hc]

/-- A declaration of a program, in front of more. -/
theorem program_of_declared {c : Cursor} {s : Option Stmt} {c₁ : Cursor}
    {hlt : c₁.rest.length < c.rest.length} (hne : c.rest ≠ [])
    (h : declared c hne = ⟨s, c₁, hlt⟩) :
    program c = (s.toList ++ (program c₁).1, (program c₁).2) := by
  rw [program, dif_neg hne, h]

end Cursor

/-- An accepted program, in front of more. -/
theorem Reads.program_in_front {n n' : Nat} {w rest : List Token} {ss : List Stmt}
    (h : Reads .program n w (.stmts ss) n') (cs : List Complaint)
    (hr : Apart [.keyword .else_] rest) :
    Cursor.program ⟨w ++ rest, cs, n⟩ =
      (ss ++ (Cursor.program ⟨rest, cs, n'⟩).1, (Cursor.program ⟨rest, cs, n'⟩).2) := by
  induction ss generalizing n w with
  | nil =>
    cases h
    rfl
  | cons s ss ih =>
    cases h with
    | @programNext o _ n₁ _ w w' _ _ hs hmore =>
      -- neither the next declaration nor the rest begins with an `else`
      have hnext : Apart [.keyword .else_] (w' ++ rest) := by
        cases hmore with
        | programEnd => exact hr
        | programNext h =>
          rw [List.append_assoc]
          exact h.apart_declaration
      have hdeclaration := hs.readBy (w' ++ rest) cs
        (hnext.subset (Rule.extenders_declaration_subset o))
      have hne : w ++ w' ++ rest ≠ [] := by
        obtain ⟨t, v, rfl, -⟩ := hs.starts rfl
        exact List.cons_ne_nil _ _
      rw [← List.append_assoc] at hdeclaration
      obtain ⟨hlt, hdeclared⟩ := Cursor.declared_of_declaration hne hdeclaration
      rw [Cursor.program_of_declared hne hdeclared, ih hmore]
      rfl

namespace Grammar

variable {a b : List Token}

theorem start_of_no_eof (n : Nat) (ha : ∀ t ∈ a, t.isEof = false) : start n a = ⟨a, [], n⟩ := by
  have hbody : body a = a := List.takeWhile_eq_self_iff.mpr fun t ht => by rw [ha t ht]; rfl
  rw [start, hbody]

/-- The end of the input is on the line of the last token. -/
theorem endLine_append (a : List Token) (ha : ∀ t ∈ a, t.isEof = false) (hne : b ≠ []) :
    endLine (a ++ b) = endLine b := by
  have hdrop : (a ++ b).dropWhile (!·.isEof) = b.dropWhile (!·.isEof) :=
    List.dropWhile_append_of_pos fun t ht => by rw [ha t ht]; rfl
  unfold endLine
  rw [hdrop, List.getLast?_append_of_ne_nil a hne]

theorem errors_append (a : List Token) (ha : ∀ t ∈ a, t.isEof = false) (hne : b ≠ [])
    (c : Cursor) : errors (a ++ b) c = errors b c := by
  rw [errors, errors, endLine_append a ha hne]

/-- An accepted program does not disturb what follows it: the statements of what follows come behind
its own, and if what follows is refused, it is for the same errors as on its own. -/
theorem program_append_of_accepted {n m : Nat} {unit : List Stmt} (k : Nat)
    (ha : ∀ t ∈ a, t.isEof = false) (hb : ∀ t ∈ b, t.isEof = false)
    (hunit : (program n a).result = .ok unit) (helse : ∀ t ∈ b.head?, t.kind ≠ .keyword .else_) :
    (∀ unit', (program m b).result = .ok unit' →
        ∃ joined, (program k (a ++ b)).result = .ok joined ∧
          Stmt.eraseAll joined = Stmt.eraseAll (unit ++ unit')) ∧
      ∀ es, (program m b).result = .error es → (program k (a ++ b)).result = .error es := by
  have hapart : Apart [.keyword .else_] b := by
    intro t ht hmem
    exact helse t ht (List.mem_singleton.mp hmem)
  have hjoined : ∀ t ∈ a ++ b, t.isEof = false := by
    intro t ht
    exact (List.mem_append.mp ht).elim (ha t) (hb t)
  -- the program is read with the identities from `k` on, and what follows with those behind it
  obtain ⟨first, hfirst, herased⟩ := exists_program_eq_ok k hunit
  have hreads := reads_of_program_eq_ok hfirst
  rw [show body a = a from congrArg Cursor.rest (start_of_no_eof k ha)] at hreads
  have hread := hreads.program_in_front [] hapart
  rw [← start_of_no_eof k hjoined, ← start_of_no_eof (program k a).nextId hb] at hread
  constructor
  · intro unit' hunit'
    obtain ⟨second, hsecond, herased'⟩ := exists_program_eq_ok (program k a).nextId hunit'
    obtain ⟨htree, hcomplaints⟩ := program_eq_ok_iff.mp hsecond
    refine ⟨first ++ second, program_eq_ok_iff.mpr ?_, ?_⟩
    · rw [hread, htree]
      exact ⟨rfl, hcomplaints⟩
    · rw [Stmt.eraseAll_append, Stmt.eraseAll_append, herased, herased']
  · intro es hes
    obtain ⟨hlater, hsome⟩ := program_eq_error_iff.mp (program_eq_error (program k a).nextId hes)
    have hne : b ≠ [] := by
      rintro rfl
      rw [Cursor.program_of_nil rfl] at hlater
      exact hsome hlater.symm
    refine program_eq_error_iff.mpr ⟨?_, hsome⟩
    rw [hread, errors_append a ha hne]
    exact hlater

/-- The statement `if(a)b;`. -/
def conditional : Stmt :=
  .if_ (.var ⟨0⟩ ⟨.identifier, "a", 1⟩) (.expression (.var ⟨1⟩ ⟨.identifier, "b", 1⟩)) none

/-- A statement and a parenthesis too many, behind an `if` that could take an `else`. -/
theorem program_append_of_accepted_if :
    (program 0 (body (Source.tokens "if(a)b;"))).result = .ok [conditional] ∧
      (∃ joined, (program 0 (body (Source.tokens "if(a)b;") ++ body (Source.tokens "nil;"))).result =
          .ok joined ∧
        Stmt.eraseAll joined =
          Stmt.eraseAll [conditional, .expression (.literal .nil)]) ∧
      (program 0 (body (Source.tokens "if(a)b;") ++ body (Source.tokens "nil;)"))).result =
        .error [⟨1, .lexeme ")", .expected .expression⟩] := by
  have ha : (program 0 (body (Source.tokens "if(a)b;"))).result = .ok [conditional] := by
    cbv
  have hb : (program 0 (body (Source.tokens "nil;"))).result =
      .ok [.expression (.literal .nil)] := by
    cbv
  have hb' : (program 0 (body (Source.tokens "nil;)"))).result =
      .error [⟨1, .lexeme ")", .expected .expression⟩] := by
    cbv
  refine ⟨ha, ?_, ?_⟩
  · exact (program_append_of_accepted 0 (by decide +kernel) (by decide +kernel) ha
      (by decide +kernel)).1 _ hb
  · exact (program_append_of_accepted (m := 0) 0 (by decide +kernel) (by decide +kernel) ha
      (by decide +kernel)).2 _ hb'

end Grammar

end LoxWalk
