import LoxWalk.Proofs.Grammar.Positions

/-!
# Reading any tokens from a buffer

A reader that works on a buffer by positions comes to an end with every list of tokens, wherever
there are end marks in it: 32 levels of rules for each token are enough, and more change nothing.  It
never looks at a place outside the buffer, goes forward one token at a time and stops at the first
end mark, and what comes of it is an error exactly if errors were recorded (`Tape.Ends`).  It is the
same that `Grammar.program` and `Grammar.expression` make of the tokens, so this holds for them as
well, and nothing behind the first end mark matters (`Grammar.reads_within_buffer`).
-/

namespace LoxWalk

/-- Reading the tokens `ts` on a tape comes to an end, with the tape `s` and with `p`. -/
structure Tape.Ends {α : Type} (X : Tape.Run (Except (List ParseError) α)) (n : Nat)
    (ts : List Token) (p : Parsed α) (s : Tape) : Prop where
  run_eq : X (Tape.load n ts) = some (p.result, s)
  nextId_eq : s.nextId = p.nextId
  /-- Every position from the first one on was left once, and one after the other. -/
  trail_eq : s.trail.reverse = List.range s.current
  /-- The first end mark was not passed. -/
  current_le : s.current ≤ (Grammar.body ts).length
  /-- All errors that were recorded are in the result, and it is no error if there are none. -/
  error_iff : ∀ es, p.result = .error es ↔ s.errors = es ∧ es ≠ []

namespace Grammar

variable {α : Type} {n : Nat} {ts : List Token}

/-! ## The buffer of a list -/

theorem isEof_eq_false_of_mem_body {t : Token} (h : t ∈ body ts) : t.isEof = false := by
  simpa using List.mem_takeWhile_imp h

/-- A list with an end mark is cut there. -/
theorem eq_body_append {t : Token} {us : List Token} (h : ts.dropWhile (!·.isEof) = t :: us) :
    ts = body ts ++ t :: us ∧ t.isEof = true := by
  have hne : ts.dropWhile (!·.isEof) ≠ [] := h ▸ List.cons_ne_nil t us
  have hhead := List.head_dropWhile_not (!Token.isEof ·) hne
  constructor
  · rw [← h]
    exact List.takeWhile_append_dropWhile.symm
  · simpa [h] using hhead

/-- A list without an end mark gets one. -/
theorem tokens_load_of_no_eof (n : Nat) (h : ts.dropWhile (!·.isEof) = []) :
    (Tape.load n ts).tokens = body ts ++ [⟨.eof, "", endLine ts⟩] := by
  have hno : ∀ t ∈ ts, t.isEof = false := by simpa using h
  have hbody : body ts = ts := congrArg Cursor.rest (start_of_no_eof n hno)
  rw [hbody, endLine, h]
  unfold Tape.load
  cases hlast : ts.getLast? with
  | none =>
    rw [List.getLast?_eq_none_iff.mp hlast]
    rfl
  | some t =>
    have ht : t.isEof = false := hno t (List.mem_of_getLast? hlast)
    simp only [ht]
    rfl

theorem exists_tokens_load (n : Nat) (ts : List Token) :
    ∃ supplied, (Tape.load n ts).tokens = ts ++ supplied := by
  unfold Tape.load
  cases hlast : ts.getLast? with
  | none =>
    rw [List.getLast?_eq_none_iff.mp hlast]
    exact ⟨_, rfl⟩
  | some t =>
    dsimp only
    split
    · exact ⟨[], (List.append_nil ts).symm⟩
    · exact ⟨_, rfl⟩

/-- Before anything is read, the tape is the place of the first cursor in a buffer. -/
theorem exists_buffer (n : Nat) (ts : List Token) :
    ∃ b : Buffer, b.front = body ts ∧ b.mark.line = endLine ts ∧
      Tape.load n ts = b.tape (start n ts) := by
  have hcut : ∃ mark behind, mark.isEof = true ∧ mark.line = endLine ts ∧
      (Tape.load n ts).tokens = body ts ++ mark :: behind := by
    cases hdrop : ts.dropWhile (!·.isEof) with
    | nil => exact ⟨⟨.eof, "", endLine ts⟩, [], rfl, rfl, tokens_load_of_no_eof n hdrop⟩
    | cons t us =>
      obtain ⟨hts, ht⟩ := eq_body_append hdrop
      obtain ⟨supplied, hload⟩ := exists_tokens_load n ts
      refine ⟨t, us ++ supplied, ht, ?_, ?_⟩
      · rw [endLine, hdrop]
      · rw [hload]
        nth_rewrite 1 [hts]
        rw [List.append_assoc, List.cons_append]
  obtain ⟨mark, behind, hmark, hline, htokens⟩ := hcut
  refine ⟨⟨body ts, mark, behind, fun _ => isEof_eq_false_of_mem_body, hmark⟩, rfl, hline, ?_⟩
  have hcurrent : (body ts).length - (start n ts).rest.length = 0 := Nat.sub_self _
  rw [Buffer.tape, hcurrent, ← htokens]
  rfl

theorem holds_start {b : Buffer} (n : Nat) (hfront : b.front = body ts) :
    b.Holds (start n ts) := by
  rw [Buffer.Holds, hfront]
  exact List.suffix_refl _

/-! ## The end of a run -/

theorem errors_tape {b : Buffer} (hline : b.mark.line = endLine ts) (c : Cursor) :
    (b.tape c).errors = errors ts c := by
  rw [Buffer.tape, hline]
  rfl

/-- A tree is handed out if there are no errors. -/
theorem result_conclude (ts : List Token) (tree : α) (c : Cursor) :
    (conclude ts tree c).result =
      if (errors ts c).isEmpty then .ok tree else .error (errors ts c) := by
  unfold conclude
  cases errors ts c <;> rfl

theorem nextId_conclude (ts : List Token) (tree : α) (c : Cursor) :
    (conclude ts tree c).nextId = c.nextId := by
  unfold conclude
  cases errors ts c <;> rfl

theorem result_conclude_eq_error_iff (ts : List Token) (tree : α) (c : Cursor)
    (es : List ParseError) :
    (conclude ts tree c).result = .error es ↔ errors ts c = es ∧ es ≠ [] := by
  rw [result_conclude]
  cases errors ts c with
  | nil =>
    constructor
    · nofun
    · rintro ⟨hnil, hne⟩
      exact absurd hnil.symm hne
  | cons e es' =>
    constructor
    · intro h
      obtain rfl : e :: es' = es := Except.error.inj h
      exact ⟨rfl, List.cons_ne_nil e es'⟩
    · rintro ⟨heq, -⟩
      exact congrArg Except.error heq

/-- What the place of a cursor in the buffer says about the way there. -/
theorem ends_of_run {b : Buffer} {X : Tape.Run (Except (List ParseError) α)} {p : Parsed α}
    {c : Cursor} (hfront : b.front = body ts) (hline : b.mark.line = endLine ts)
    (hrun : X (Tape.load n ts) = some (p.result, b.tape c)) (hnext : c.nextId = p.nextId)
    (herror : ∀ es, p.result = .error es ↔ errors ts c = es ∧ es ≠ []) :
    Tape.Ends X n ts p (b.tape c) where
  run_eq := hrun
  nextId_eq := hnext
  trail_eq := List.reverse_reverse _
  current_le := hfront ▸ Nat.sub_le _ _
  error_iff := by
    rw [errors_tape hline]
    exact herror

/-- Reading that comes to an end without breaking off. -/
theorem ends_of_conclude {b : Buffer} {X : Tape.Run (Except (List ParseError) α)} {tree : α}
    {c : Cursor} (hfront : b.front = body ts) (hline : b.mark.line = endLine ts)
    (hrun : X (Tape.load n ts) = some (if (b.tape c).errors.isEmpty then .ok tree
      else .error (b.tape c).errors, b.tape c)) :
    Tape.Ends X n ts (conclude ts tree c) (b.tape c) := by
  refine ends_of_run hfront hline ?_ (nextId_conclude ts tree c).symm
    (result_conclude_eq_error_iff ts tree c)
  rw [hrun, errors_tape hline, result_conclude]

theorem length_body_le (ts : List Token) : (body ts).length ≤ ts.length :=
  (List.takeWhile_prefix _).length_le

theorem exists_program_ends (n : Nat) (ts : List Token) :
    ∃ s, ∀ fuel ≥ 32 * (ts.length + 1),
      Tape.Ends (Tape.program fuel) n ts (program n ts) s := by
  obtain ⟨b, hfront, hline, hload⟩ := exists_buffer n ts
  refine ⟨b.tape (start n ts).program.2, ?_⟩
  intro fuel hfuel
  have hlength : (start n ts).rest.length ≤ ts.length := length_body_le ts
  obtain ⟨-, hrun⟩ := Buffer.declarations_eq (start n ts) (holds_start n hfront) (show _ < fuel by omega)
  refine ends_of_conclude hfront hline ?_
  rw [hload, Tape.program, Buffer.bind_of_some hrun]
  rfl

theorem exists_expression_ends (n : Nat) (ts : List Token) :
    ∃ s, ∀ fuel ≥ 32 * (ts.length + 1),
      Tape.Ends (Tape.wholeExpression fuel) n ts (expression n ts) s := by
  obtain ⟨b, hfront, hline, hload⟩ := exists_buffer n ts
  have hlength : (start n ts).rest.length ≤ ts.length := length_body_le ts
  have hexpression (fuel : Nat) (hfuel : fuel ≥ 32 * (ts.length + 1)) :
      b.Follows (Tape.expression fuel) (start n ts) (start n ts).expression :=
    Buffer.expression_follows (start n ts) (holds_start n hfront) (by omega)
  unfold expression
  revert hexpression
  generalize Cursor.expression (start n ts) = x
  intro hexpression
  cases x with
  | ok e c hlt =>
    refine ⟨b.tape c, ?_⟩
    intro fuel hfuel
    have hrun := hexpression fuel hfuel
    cases hrun with
    | ok _ hX =>
      refine ends_of_conclude hfront hline ?_
      rw [hload, Tape.wholeExpression, Buffer.bind_of_some hX]
      rfl
  | failed e c hle =>
    -- the error that broke it off is recorded last
    have hsome : errors ts (c.report e) ≠ [] := by
      simp [errors, Cursor.report]
    refine ⟨b.tape (c.report e), ?_⟩
    intro fuel hfuel
    have hrun := hexpression fuel hfuel
    cases hrun with
    | failed _ hX =>
      refine ends_of_run hfront hline ?_ rfl ?_
      · rw [hload, Tape.wholeExpression, Buffer.bind_of_some hX]
        dsimp only
        rw [Buffer.bind_of_some (Buffer.report_eq c e), ← errors_tape hline]
        rfl
      · intro es
        constructor
        · intro h
          obtain rfl := Except.error.inj h
          exact ⟨rfl, hsome⟩
        · rintro ⟨heq, -⟩
          exact congrArg Except.error heq

/-! ## Behind the first end mark -/

theorem body_append_eof (w us us' : List Token) {t : Token} (ht : t.isEof = true) :
    body (w ++ t :: us) = body (w ++ t :: us') := by
  unfold body
  rw [List.takeWhile_append, List.takeWhile_append, List.takeWhile_cons_of_neg (by simp [ht]),
    List.takeWhile_cons_of_neg (by simp [ht])]

theorem endLine_append_eof (w us us' : List Token) {t : Token} (ht : t.isEof = true) :
    endLine (w ++ t :: us) = endLine (w ++ t :: us') := by
  unfold endLine
  rw [List.dropWhile_append, List.dropWhile_append, List.dropWhile_cons_of_neg (by simp [ht]),
    List.dropWhile_cons_of_neg (by simp [ht])]
  cases w.dropWhile (!·.isEof) <;> rfl

theorem expression_of_start {c : Cursor} (h : start n ts = c) :
    expression n ts = match c.expression with
      | .ok e c' _ => conclude ts e c'
      | .failed complaint c' _ => ⟨.error (errors ts (c'.report complaint)), c'.nextId⟩ := by
  subst h
  unfold expression
  cases (start n ts).expression <;> rfl

/-- Only the tokens in front of the first end mark and the line of that mark matter. -/
theorem program_eq_and_expression_eq {ts' : List Token} (n : Nat) (hbody : body ts' = body ts)
    (hline : endLine ts' = endLine ts) :
    program n ts' = program n ts ∧ expression n ts' = expression n ts := by
  have hstart : start n ts' = start n ts := by rw [start, hbody, start]
  have herrors (c : Cursor) : errors ts' c = errors ts c := by rw [errors, hline, errors]
  have hconclude {β : Type} (tree : β) (c : Cursor) : conclude ts' tree c = conclude ts tree c := by
    rw [conclude, herrors, conclude]
  constructor
  · unfold program
    rw [hstart]
    exact hconclude _ _
  · rw [expression_of_start hstart, expression_of_start rfl]
    cases (start n ts).expression with
    | ok e c _ => exact hconclude e c
    | failed e c _ => exact congrArg (fun es => Parsed.mk (.error es) c.nextId) (herrors _)

/-- The reader of a buffer comes to an end with every list of tokens, in a number of levels that
grows with the list, inside the buffer and in front of the first end mark, and makes of them what is
made of them here; so the tokens behind the first end mark do not matter. -/
theorem reads_within_buffer (n : Nat) (ts : List Token) :
    (∃ s, ∀ fuel ≥ 32 * (ts.length + 1), Tape.Ends (Tape.program fuel) n ts (program n ts) s) ∧
      (∃ s, ∀ fuel ≥ 32 * (ts.length + 1),
        Tape.Ends (Tape.wholeExpression fuel) n ts (expression n ts) s) ∧
      ∀ w t us us', t.isEof = true → ts = w ++ t :: us →
        program n (w ++ t :: us') = program n ts ∧
          expression n (w ++ t :: us') = expression n ts := by
  refine ⟨exists_program_ends n ts, exists_expression_ends n ts, ?_⟩
  intro w t us us' ht hts
  rw [hts]
  exact program_eq_and_expression_eq n (body_append_eof w us' us ht) (endLine_append_eof w us' us ht)

/-- A parenthesis and another statement behind the end mark. -/
theorem reads_within_buffer_behind_mark :
    (⟨.eof, "", 1⟩ : Token).isEof = true ∧
      program 0 (body (Source.tokens "nil;") ++ ⟨.eof, "", 1⟩ :: Source.tokens ")nil;") =
        program 0 (body (Source.tokens "nil;") ++ [⟨.eof, "", 1⟩]) :=
  ⟨rfl, ((reads_within_buffer 0 _).2.2 _ _ [] _ rfl rfl).1⟩

end Grammar

end LoxWalk
