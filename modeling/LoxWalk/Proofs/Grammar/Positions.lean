import LoxWalk.Proofs.Grammar.Joining
import LoxWalk.Proofs.Grammar.Tape

/-!
# The reader stays in its buffer

A cursor is a position in a buffer, seen from the tokens that are left (`Buffer.tape`).  Run on that
position, each rule of `Tape` has a result, and it is the one that the rule of `Cursor` has
(`Buffer.Follows`).  There is one lemma for each rule, by the recursion of the rules of `Cursor`, whose
tokens get fewer.  So a rule of `Tape` comes to an end although it does not look at what is left, and
the lemmas say how many levels are enough: 32 for each token that is left, and some for the rule.
-/

namespace LoxWalk

/-- A list of tokens, cut at its first end mark. -/
structure Buffer where
  front : List Token
  mark : Token
  behind : List Token
  front_noEof : ∀ t ∈ front, t.isEof = false
  mark_isEof : mark.isEof = true

namespace Buffer

variable (b : Buffer)

/-- The place of a cursor in the buffer. -/
def tape (c : Cursor) : Tape :=
  ⟨b.front ++ b.mark :: b.behind, b.front.length - c.rest.length,
    (List.range (b.front.length - c.rest.length)).reverse,
    c.complaints.reverse.map (·.toError b.mark.line), c.nextId⟩

/-- The cursor is in front of the end mark. -/
def Holds (c : Cursor) : Prop :=
  c.rest <:+ b.front

/-- On the tape, reading has the result that a step of a cursor has. -/
inductive Follows {α : Type} (X : Tape.Attempt α) (c : Cursor) {n : Nat} : Step α n → Prop where
  | ok {a : α} {c' : Cursor} {h : c'.rest.length < n} (hc' : b.Holds c')
      (hX : X.run (b.tape c) = some (.ok a, b.tape c')) : Follows X c (.ok a c' h)
  | failed {e : Complaint} {c' : Cursor} {h : c'.rest.length ≤ n} (hc' : b.Holds c')
      (hX : X.run (b.tape c) = some (.error (e.toError b.mark.line), b.tape c')) :
      Follows X c (.failed e c' h)

variable {b}

/-! ## Steps -/

section Steps

variable {α β γ : Type} {m n : Nat} {c c₁ : Cursor}

theorem run_bind_of_ok {X : Tape.Attempt α} {F : α → Tape.Attempt β} {s s' : Tape} {a : α}
    (h : X.run s = some (.ok a, s')) : (X >>= F).run s = (F a).run s' := by
  change Option.bind (X.run s) _ = _
  rw [h]
  rfl

theorem run_bind_of_error {X : Tape.Attempt α} {F : α → Tape.Attempt β} {s s' : Tape}
    {e : ParseError} (h : X.run s = some (.error e, s')) :
    (X >>= F).run s = some (.error e, s') := by
  change Option.bind (X.run s) _ = _
  rw [h]
  rfl

theorem run_lift {Y : Tape.Run γ} {s s' : Tape} {y : γ} (h : Y s = some (y, s')) :
    (liftM Y : Tape.Attempt γ).run s = some (.ok y, s') := by
  change Option.bind (Y s) _ = _
  rw [h]
  rfl

theorem run_or_of_true {X Y : Tape.Attempt Bool} {s s' : Tape}
    (h : X.run s = some (.ok true, s')) : (X <||> Y).run s = some (.ok true, s') :=
  run_bind_of_ok h

theorem run_or_of_false {X Y : Tape.Attempt Bool} {s s' : Tape}
    (h : X.run s = some (.ok false, s')) : (X <||> Y).run s = Y.run s' :=
  run_bind_of_ok h

theorem bind_of_some {Y : Tape.Run γ} {F : γ → Tape.Run α} {s s' : Tape} {y : γ}
    (h : Y s = some (y, s')) : (Y >>= F) s = F y s' := by
  change Option.bind (Y s) _ = _
  rw [h]
  rfl

theorem Follows.bind {X : Tape.Attempt α} {F : α → Tape.Attempt β} {x : Step α m}
    {f : (a : α) → (c : Cursor) → c.rest.length < m → Step β n} {hle : m ≤ n}
    (hx : b.Follows X c x) (hf : ∀ a c' h, b.Holds c' → b.Follows (F a) c' (f a c' h)) :
    b.Follows (X >>= F) c (x.andThen f hle) := by
  cases hx with
  | @ok a c' h hc' hX =>
    have hrun := run_bind_of_ok (F := F) hX
    have hnext := hf a c' h hc'
    change b.Follows (X >>= F) c (f a c' h)
    generalize f a c' h = y at hnext ⊢
    cases hnext with
    | ok hc'' hF => exact .ok hc'' (hrun.trans hF)
    | failed hc'' hF => exact .failed hc'' (hrun.trans hF)
  | failed hc' hX => exact .failed hc' (run_bind_of_error hX)

theorem Follows.widen {X : Tape.Attempt α} {x : Step α m} {hle : m ≤ n} (hx : b.Follows X c x) :
    b.Follows X c (x.widen hle) := by
  cases hx with
  | ok hc' hX => exact .ok hc' hX
  | failed hc' hX => exact .failed hc' hX

theorem Follows.after {X : Tape.Attempt γ} {F : γ → Tape.Attempt α} {x : Step α n} {y : γ}
    (hX : X.run (b.tape c) = some (.ok y, b.tape c₁)) (h : b.Follows (F y) c₁ x) :
    b.Follows (X >>= F) c x := by
  have hrun := run_bind_of_ok (F := F) hX
  cases h with
  | ok hc' hF => exact .ok hc' (hrun.trans hF)
  | failed hc' hF => exact .failed hc' (hrun.trans hF)

/-- Something that does not fail is done first. -/
theorem Follows.lift {Y : Tape.Run γ} {F : γ → Tape.Attempt α} {x : Step α n} {y : γ}
    (hY : Y (b.tape c) = some (y, b.tape c₁)) (h : b.Follows (F y) c₁ x) :
    b.Follows (liftM Y >>= F) c x :=
  .after (run_lift hY) h

theorem Follows.pure {a : α} {h : c.rest.length < n} (hc : b.Holds c) :
    b.Follows (Pure.pure a) c (.ok a c h) :=
  .ok hc rfl

end Steps

/-! ## Single tokens -/

section Tokens

variable {c c₁ : Cursor} {t : Token} {k : TokenKind}

theorem Holds.passes (hc : b.Holds c) (h : c.Passes t c₁) : b.Holds c₁ := by
  rw [Holds, h.1] at hc
  exact (List.suffix_cons t c₁.rest).trans hc

theorem peek_eq (s : Tape) : Tape.peek s = (s.tokens[s.current]?).map (·, s) := by
  change Option.bind (s.tokens[s.current]?) _ = _
  cases s.tokens[s.current]? <;> rfl

theorem previous_eq (s : Tape) : Tape.previous s = (s.tokens[s.current - 1]?).map (·, s) := by
  change Option.bind (s.tokens[s.current - 1]?) _ = _
  cases s.tokens[s.current - 1]? <;> rfl

/-- The position is inside the buffer: there is a token or the end mark. -/
theorem Holds.peek (hc : b.Holds c) :
    Tape.peek (b.tape c) = some (c.rest.headD b.mark, b.tape c) := by
  obtain ⟨front, hfront⟩ := hc
  have hcurrent : (b.tape c).current = front.length := by
    rw [tape, ← hfront, List.length_append]
    exact Nat.add_sub_cancel _ _
  have hlookup : (b.tape c).tokens[(b.tape c).current]? = some (c.rest.headD b.mark) := by
    rw [hcurrent, tape, ← hfront, List.append_assoc, List.getElem?_append_right (Nat.le_refl _),
      Nat.sub_self]
    cases c.rest <;> rfl
  rw [peek_eq, hlookup]
  rfl

/-- The token that was read last is the one in front of the position. -/
theorem Holds.previous (hc : b.Holds c) (h : c.rest = t :: c₁.rest) :
    Tape.previous (b.tape c₁) = some (t, b.tape c₁) := by
  obtain ⟨front, hfront⟩ := hc
  rw [h] at hfront
  have hcurrent : (b.tape c₁).current - 1 = front.length := by
    rw [tape, ← hfront, List.length_append, List.length_cons]
    simp only
    omega
  have hlookup : (b.tape c₁).tokens[(b.tape c₁).current - 1]? = some t := by
    rw [hcurrent, tape, ← hfront, List.append_assoc, List.getElem?_append_right (Nat.le_refl _),
      Nat.sub_self]
    rfl
  rw [previous_eq, hlookup]
  rfl

theorem Holds.isAtEnd (hc : b.Holds c) :
    Tape.isAtEnd (b.tape c) = some (c.rest.isEmpty, b.tape c) := by
  have hrun : Tape.isAtEnd (b.tape c) = some ((c.rest.headD b.mark).isEof, b.tape c) := by
    unfold Tape.isAtEnd
    rw [bind_of_some hc.peek]
    rfl
  rw [hrun]
  cases hrest : c.rest with
  | nil => exact congrArg (fun e => some (e, b.tape c)) b.mark_isEof
  | cons t ts =>
    have ht : t.isEof = false := b.front_noEof t (hc.mem (hrest ▸ List.mem_cons_self))
    exact congrArg (fun e => some (e, b.tape c)) ht

/-- At the end mark the position stays. -/
theorem Holds.advance_of_nil (hc : b.Holds c) (h : c.rest = []) :
    ∃ t, Tape.advance (b.tape c) = some (t, b.tape c) := by
  unfold Tape.advance
  rw [bind_of_some hc.isAtEnd, h]
  change ∃ t, Tape.previous (b.tape c) = some (t, b.tape c)
  have hinside : (b.tape c).current - 1 < (b.tape c).tokens.length := by
    simp only [tape, List.length_append, List.length_cons]
    omega
  rw [previous_eq, List.getElem?_eq_getElem hinside]
  exact ⟨_, rfl⟩

/-- Otherwise it goes on by one. -/
theorem Holds.advance (hc : b.Holds c) (h : c.Passes t c₁) :
    Tape.advance (b.tape c) = some (t, b.tape c₁) := by
  have hlength := (hc.passes h).length_le
  have hcurrent : b.front.length - c₁.rest.length = b.front.length - c.rest.length + 1 := by
    have := hc.length_le
    rw [h.1, List.length_cons] at this ⊢
    omega
  have hmoved : b.tape c₁ = { b.tape c with
      current := (b.tape c).current + 1, trail := (b.tape c).current :: (b.tape c).trail } := by
    rw [tape, tape, hcurrent, h.2.1, h.2.2, List.range_succ, List.reverse_append]
    rfl
  unfold Tape.advance
  rw [bind_of_some hc.isAtEnd, h.1]
  change Tape.previous { b.tape c with
    current := (b.tape c).current + 1, trail := (b.tape c).current :: (b.tape c).trail } = _
  rw [← hmoved]
  exact hc.previous h.1

theorem Holds.check (hc : b.Holds c) (k : TokenKind) :
    Tape.check k (b.tape c) = some (c.sees k, b.tape c) := by
  unfold Tape.check Cursor.sees
  rw [bind_of_some hc.isAtEnd]
  cases hrest : c.rest with
  | nil => rfl
  | cons t ts =>
    change (Tape.peek >>= fun t => pure (t.kind == k)) (b.tape c) = _
    rw [bind_of_some hc.peek, hrest]
    rfl

theorem head?_any_of_takeIf?_eq_none {p : Token → Bool} (h : c.takeIf? p = none) :
    c.rest.head?.any p = false := by
  unfold Cursor.takeIf? at h
  split at h
  · rename_i hrest
    rw [hrest]
    rfl
  · rename_i t ts hrest
    rw [hrest, List.head?_cons, Option.any_some]
    by_contra hp
    rw [if_pos (Bool.eq_true_of_not_eq_false hp)] at h
    exact Option.some_ne_none _ h

theorem rest_eq_nil_of_takeIf? (h : c.takeIf? (fun _ => true) = none) : c.rest = [] := by
  have hnone := head?_any_of_takeIf?_eq_none h
  cases hrest : c.rest with
  | nil => rfl
  | cons t ts =>
    rw [hrest] at hnone
    exact absurd hnone.symm Bool.false_ne_true

theorem sees_of_take?_eq_none (h : c.take? k = none) : c.sees k = false :=
  head?_any_of_takeIf?_eq_none h

theorem sees_of_nil (h : c.rest = []) : c.sees k = false := by
  rw [Cursor.sees, h]
  rfl

theorem sees_eq_of_passes (h : c.Passes t c₁) (k : TokenKind) : c.sees k = (t.kind == k) := by
  rw [Cursor.sees, h.1, List.head?_cons, Option.any_some]

theorem sees_of_passes (h : c.Passes t c₁) (hk : t.kind = k) : c.sees k = true := by
  rw [sees_eq_of_passes h, hk, beq_self_eq_true]

theorem sees_of_take?_eq_some {hlt : c₁.rest.length < c.rest.length}
    (h : c.take? k = some ⟨t, c₁, hlt⟩) : c.sees k = true := by
  obtain ⟨hnext, hk⟩ := Cursor.take?_eq_some h
  exact sees_of_passes hnext hk

theorem Holds.takes_of_not_sees (hc : b.Holds c) (h : c.sees k = false) :
    Tape.takes k (b.tape c) = some (false, b.tape c) := by
  unfold Tape.takes
  rw [bind_of_some (hc.check k), h]
  rfl

theorem Holds.takes_of_some (hc : b.Holds c) (h : c.Passes t c₁) (hk : t.kind = k) :
    Tape.takes k (b.tape c) = some (true, b.tape c₁) := by
  unfold Tape.takes
  rw [bind_of_some (hc.check k), sees_of_passes h hk]
  change (Tape.advance >>= fun _ => pure true) (b.tape c) = _
  rw [bind_of_some (hc.advance h)]
  rfl

theorem not_sees_of_takeIf?_or {s s' : Symbol}
    (h : c.takeIf? (fun t => t.isSymbol s || t.isSymbol s') = none) :
    c.sees (.symbol s) = false ∧ c.sees (.symbol s') = false := by
  have hnone := head?_any_of_takeIf?_eq_none h
  unfold Cursor.sees
  cases hhead : c.rest.head? with
  | none => exact ⟨rfl, rfl⟩
  | some t =>
    rw [hhead, Option.any_some, Bool.or_eq_false_iff] at hnone
    exact hnone

/-- One of two symbols is read. -/
theorem Holds.takes_either {s s' : Symbol} (hc : b.Holds c) (h : c.Passes t c₁)
    (ht : (t.isSymbol s || t.isSymbol s') = true) :
    (liftM (Tape.takes (.symbol s)) <||> liftM (Tape.takes (.symbol s')) : Tape.Attempt Bool).run
      (b.tape c) = some (.ok true, b.tape c₁) := by
  by_cases hfirst : t.kind = .symbol s
  · exact run_or_of_true (run_lift (hc.takes_of_some h hfirst))
  · have hsecond : t.kind = .symbol s' := by
      simpa [Token.isSymbol, hfirst] using ht
    have hnot : c.sees (.symbol s) = false := by
      rw [sees_eq_of_passes h]
      exact beq_false_of_ne hfirst
    rw [run_or_of_false (run_lift (hc.takes_of_not_sees hnot))]
    exact run_lift (hc.takes_of_some h hsecond)

theorem Holds.takes_neither {s s' : Symbol} (hc : b.Holds c)
    (h : c.takeIf? (fun t => t.isSymbol s || t.isSymbol s') = none) :
    (liftM (Tape.takes (.symbol s)) <||> liftM (Tape.takes (.symbol s')) : Tape.Attempt Bool).run
      (b.tape c) = some (.ok false, b.tape c) := by
  obtain ⟨hfirst, hsecond⟩ := not_sees_of_takeIf?_or h
  rw [run_or_of_false (run_lift (hc.takes_of_not_sees hfirst))]
  exact run_lift (hc.takes_of_not_sees hsecond)

/-- An error about the next token, or about the end mark. -/
theorem atToken_eq (c : Cursor) (fault : ParseFault) :
    .atToken (c.rest.headD b.mark) fault = (c.complaint fault).toError b.mark.line := by
  obtain ⟨rest, complaints, nextId⟩ := c
  cases rest with
  | nil =>
    have hplace : Place.ofToken b.mark = .end_ := if_pos b.mark_isEof
    change ParseError.atToken b.mark fault = ⟨b.mark.line, .end_, fault⟩
    rw [ParseError.atToken, hplace]
  | cons t ts => rfl

theorem Holds.fail {α : Type} {n : Nat} {hle : c.rest.length ≤ n} (hc : b.Holds c)
    (fault : ParseFault) :
    b.Follows (do throw (.atToken (← Tape.peek) fault) : Tape.Attempt α) c (c.fail fault hle) := by
  refine .lift hc.peek (.failed hc ?_)
  rw [atToken_eq]
  rfl

theorem report_eq (c : Cursor) (e : Complaint) :
    Tape.report (e.toError b.mark.line) (b.tape c) = some ((), b.tape (c.report e)) := by
  have herrors : (e :: c.complaints).reverse.map (·.toError b.mark.line) =
      c.complaints.reverse.map (·.toError b.mark.line) ++ [e.toError b.mark.line] := by
    rw [List.reverse_cons, List.map_append, List.map_singleton]
  have htape : b.tape (c.report e) = { b.tape c with
      errors := (b.tape c).errors ++ [e.toError b.mark.line] } := by
    rw [tape, tape, Cursor.report, herrors]
  rw [htape]
  rfl

theorem fresh_eq (c : Cursor) :
    Tape.fresh (b.tape c) = some (c.freshId, b.tape c.useId) := rfl

theorem Holds.checkArity (hc : b.Holds c) (count : Nat) (fault : ParseFault) :
    Tape.checkArity count fault (b.tape c) = some ((), b.tape (c.checkArity count fault)) := by
  unfold Tape.checkArity Cursor.checkArity
  split
  · rw [bind_of_some hc.peek, atToken_eq]
    exact report_eq c _
  · rfl

theorem assign_eq (c : Cursor) (left : Expr) (equals : Token) (value : Expr) :
    Tape.assign left equals value (b.tape c) =
      some ((c.assign left equals value).1, b.tape (c.assign left equals value).2) := by
  cases left with
  | var id name => rfl
  | get object name => rfl
  | _ =>
    exact bind_of_some (report_eq c ⟨some equals, .invalidTarget⟩)

theorem Holds.checkAny (hc : b.Holds c) (ks : List TokenKind) :
    Tape.checkAny ks (b.tape c) = some (ks.any c.sees, b.tape c) := by
  unfold Tape.checkAny
  induction ks with
  | nil => rfl
  | cons k ks ih =>
    rw [List.anyM, bind_of_some (hc.check k), List.any_cons]
    cases c.sees k with
    | true => rfl
    | false => exact ih

theorem Holds.consume_of_passes (hc : b.Holds c) (h : c.Passes t c₁) (hk : t.kind = k)
    (what : Expected) : (Tape.consume k what).run (b.tape c) = some (.ok t, b.tape c₁) := by
  unfold Tape.consume
  rw [run_bind_of_ok (run_lift (hc.check k)), sees_of_passes h hk]
  exact run_lift (hc.advance h)

theorem Holds.consume_of_not_sees (hc : b.Holds c) (h : c.sees k = false) (what : Expected) :
    (Tape.consume k what).run (b.tape c) =
      some (.error ((c.complaint (.expected what)).toError b.mark.line), b.tape c) := by
  unfold Tape.consume
  rw [run_bind_of_ok (run_lift (hc.check k)), h, if_neg Bool.false_ne_true,
    run_bind_of_ok (run_lift hc.peek), atToken_eq]
  rfl

theorem Holds.consume (hc : b.Holds c) (k : TokenKind) (what : Expected) :
    b.Follows (Tape.consume k what) c (c.expect k what) := by
  unfold Cursor.expect
  cases h : c.take? k with
  | none => exact .failed hc (hc.consume_of_not_sees (sees_of_take?_eq_none h) what)
  | some x =>
    obtain ⟨t, c₁, _⟩ := x
    obtain ⟨hnext, hk⟩ := Cursor.take?_eq_some h
    exact .ok (hc.passes hnext) (hc.consume_of_passes hnext hk what)

/-- Skipping goes on up to the next statement. -/
theorem Holds.skip {fuel : Nat} (hc : b.Holds c) (h : c.Passes t c₁)
    (hfuel : c₁.rest.length < fuel) :
    Tape.skip fuel (b.tape c₁) = some ((), b.tape { c₁ with rest := resumeAfter t c₁.rest }) := by
  obtain ⟨rest, complaints, nextId⟩ := c₁
  induction rest generalizing c t fuel with
  | nil =>
    obtain ⟨fuel, rfl⟩ := Nat.exists_eq_add_of_lt hfuel
    rw [Tape.skip, bind_of_some (hc.passes h).isAtEnd]
    rfl
  | cons u us ih =>
    obtain ⟨fuel, rfl⟩ := Nat.exists_eq_add_one_of_ne_zero (Nat.ne_zero_of_lt hfuel)
    have hc₁ := hc.passes h
    have hnext : Cursor.Passes ⟨u :: us, complaints, nextId⟩ u ⟨us, complaints, nextId⟩ :=
      ⟨rfl, rfl, rfl⟩
    have hinFront : Tape.isAtEnd (b.tape _) = some (false, b.tape _) := hc₁.isAtEnd
    have hpeek : Tape.peek (b.tape _) = some (u, b.tape _) := hc₁.peek
    rw [Tape.skip, bind_of_some hinFront, if_neg Bool.false_ne_true,
      bind_of_some (hc.previous h.1), resumeAfter]
    by_cases hsemicolon : t.isSymbol .semicolon = true
    · rw [if_pos hsemicolon, hsemicolon]
      rfl
    · rw [if_neg hsemicolon, Bool.eq_false_of_not_eq_true hsemicolon, Bool.false_or,
        bind_of_some hpeek]
      by_cases hstarts : u.startsStatement = true
      · rw [if_pos hstarts, if_pos hstarts]
        rfl
      · rw [if_neg hstarts, if_neg hstarts, bind_of_some (hc₁.advance hnext)]
        exact ih hc₁ hnext (Nat.lt_of_succ_lt_succ hfuel)

/-- The token in the way is skipped first. -/
theorem Holds.synchronize {fuel : Nat} (hc : b.Holds c) (hfuel : c.rest.length < fuel) :
    Tape.synchronize fuel (b.tape c) = some ((), b.tape c.resume) := by
  obtain ⟨rest, complaints, nextId⟩ := c
  unfold Tape.synchronize
  cases rest with
  | nil =>
    obtain ⟨fuel, rfl⟩ := Nat.exists_eq_add_one_of_ne_zero (Nat.ne_zero_of_lt hfuel)
    obtain ⟨t, ht⟩ := hc.advance_of_nil rfl
    rw [bind_of_some ht, Tape.skip, bind_of_some hc.isAtEnd]
    rfl
  | cons t ts =>
    have hnext : Cursor.Passes ⟨t :: ts, complaints, nextId⟩ t ⟨ts, complaints, nextId⟩ :=
      ⟨rfl, rfl, rfl⟩
    rw [bind_of_some (hc.advance hnext)]
    exact hc.skip hnext (Nat.lt_of_succ_lt hfuel)

end Tokens

/-! ## Branches -/

section Branches

variable {α : Type} {n : Nat} {c c₁ : Cursor} {t : Token} {k : TokenKind} {Y N : Tape.Attempt α}
  {x : Step α n}

theorem Holds.of_rest (hc : b.Holds c) (h : c₁.rest = c.rest) : b.Holds c₁ := by
  rw [Holds, h]
  exact hc

theorem Follows.takes_true (hc : b.Holds c) (h : c.Passes t c₁) (hk : t.kind = k)
    (hY : b.Follows Y c₁ x) : b.Follows (do if ← Tape.takes k then Y else N) c x :=
  .lift (hc.takes_of_some h hk) hY

theorem Follows.takes_false (hc : b.Holds c) (h : c.sees k = false) (hN : b.Follows N c x) :
    b.Follows (do if ← Tape.takes k then Y else N) c x :=
  .lift (hc.takes_of_not_sees h) hN

theorem Follows.takes_none (hc : b.Holds c) (h : c.take? k = none) (hN : b.Follows N c x) :
    b.Follows (do if ← Tape.takes k then Y else N) c x :=
  .takes_false hc (sees_of_take?_eq_none h) hN

theorem Follows.takes_some {hlt : c₁.rest.length < c.rest.length} (hc : b.Holds c)
    (h : c.take? k = some ⟨t, c₁, hlt⟩) (hY : b.Holds c₁ → b.Follows Y c₁ x) :
    b.Follows (do if ← Tape.takes k then Y else N) c x := by
  obtain ⟨hnext, hk⟩ := Cursor.take?_eq_some h
  exact .takes_true hc hnext hk (hY (hc.passes hnext))

/-- What is in front is consumed, and with that all is read. -/
theorem Follows.closed {a : α} {hlt : c₁.rest.length < c.rest.length} {hn : c₁.rest.length < n}
    (hc : b.Holds c) (h : c.take? k = some ⟨t, c₁, hlt⟩) (what : Expected) :
    b.Follows (do let _ ← Tape.consume k what; Pure.pure a) c (.ok a c₁ hn) := by
  obtain ⟨hnext, hk⟩ := Cursor.take?_eq_some h
  exact .after (hc.consume_of_passes hnext hk what) (.pure (hc.passes hnext))

theorem Follows.takes_other (hc : b.Holds c) (h : c.Passes t c₁) (hk : t.kind ≠ k)
    (hN : b.Follows N c x) : b.Follows (do if ← Tape.takes k then Y else N) c x :=
  .takes_false hc ((sees_eq_of_passes h k).trans (beq_false_of_ne hk)) hN

end Branches

/-! ## Expressions -/

theorem any_sees (c : Cursor) (ks : List TokenKind) :
    ks.any c.sees = c.rest.head?.any (ks.contains ·.kind) := by
  unfold Cursor.sees
  cases c.rest.head? with
  | none => exact List.any_eq_false.mpr fun k _ => Bool.false_ne_true
  | some t =>
    rw [Option.any_some, List.contains_eq_any_beq]
    rfl

theorem operand_of_some {p q : Precedence} (fuel : Nat) (h : p.tighter? = some q) :
    Tape.operand (fuel + 1) p = Tape.binary fuel q := by
  rw [Tape.operand, h]

theorem operand_of_none {p : Precedence} (fuel : Nat) (h : p.tighter? = none) :
    Tape.operand (fuel + 1) p = Tape.unary fuel := by
  rw [Tape.operand, h]

mutual

theorem expression_follows {fuel : Nat} (c : Cursor) (hc : b.Holds c)
    (hfuel : 32 * c.rest.length + 20 < fuel) :
    b.Follows (Tape.expression fuel) c c.expression := by
  obtain ⟨fuel, rfl⟩ := Nat.exists_eq_add_one_of_ne_zero (Nat.ne_zero_of_lt hfuel)
  have hheight : Precedence.or.height = 5 := rfl
  rw [Tape.expression, Cursor.expression]
  refine (binary_follows .or c hc (by omega)).bind fun left c₁ _ hc₁ => ?_
  cases h : c₁.symbol? .equal with
  | none => exact .takes_none hc₁ h (.pure hc₁)
  | some x =>
    obtain ⟨equals, c₂, _⟩ := x
    obtain ⟨hnext, hk⟩ := Cursor.take?_eq_some h
    refine .takes_true hc₁ hnext hk ?_
    refine .lift (hc₁.previous hnext.1) ?_
    refine (expression_follows c₂ (hc₁.passes hnext) (by omega)).bind fun value c₃ _ hc₃ => ?_
    exact .ok (hc₃.of_rest (Cursor.rest_assign c₃ left equals value))
      (run_lift (assign_eq c₃ left equals value))
termination_by c.rest.length * 16 + 15
decreasing_by
  · simp only [Precedence.height]
    omega
  · omega

-- an operand is one level and what it consists of another one, so two levels are opened here
theorem binary_follows {fuel : Nat} (p : Precedence) (c : Cursor) (hc : b.Holds c)
    (hfuel : 32 * c.rest.length + 8 + 2 * p.height < fuel) :
    b.Follows (Tape.binary fuel p) c (c.binary p) := by
  obtain ⟨fuel, rfl⟩ := Nat.exists_eq_add_of_le' (show 2 ≤ fuel by omega)
  rw [Tape.binary, Cursor.binary]
  split
  · rename_i q hq
    have hlt := Precedence.height_lt_of_tighter? hq
    rw [operand_of_some fuel hq]
    refine (binary_follows q c hc (by omega)).bind fun left c₁ _ hc₁ => ?_
    exact (binaryRest_follows p left c₁ hc₁ (by omega)).widen
  · rename_i hq
    rw [operand_of_none fuel hq]
    refine (unary_follows c hc (by omega)).bind fun left c₁ _ hc₁ => ?_
    exact (binaryRest_follows p left c₁ hc₁ (by omega)).widen
termination_by c.rest.length * 16 + 7 + p.height
decreasing_by
  all_goals have := p.height_le
  · have := Precedence.height_lt_of_tighter? ‹p.tighter? = some _›
    omega
  all_goals omega

theorem binaryRest_follows {fuel : Nat} (p : Precedence) (left : Expr) (c : Cursor) (hc : b.Holds c)
    (hfuel : 32 * c.rest.length + 1 < fuel) :
    b.Follows (Tape.binaryRest fuel p left) c (c.binaryRest p left) := by
  obtain ⟨fuel, rfl⟩ := Nat.exists_eq_add_of_le' (show 2 ≤ fuel by omega)
  rw [Tape.binaryRest, Cursor.binaryRest]
  refine .lift (hc.checkAny p.operators) ?_
  rw [any_sees]
  cases h : c.takeIf? (p.operators.contains ·.kind) with
  | none =>
    rw [head?_any_of_takeIf?_eq_none h]
    exact .pure hc
  | some x =>
    obtain ⟨operator, c₁, _⟩ := x
    obtain ⟨hnext, hoperator⟩ := Cursor.takeIf?_eq_some h
    have hc₁ := hc.passes hnext
    have hsees : c.rest.head?.any (p.operators.contains ·.kind) = true := by
      rw [hnext.1]
      exact hoperator
    rw [if_pos hsees]
    refine .lift (hc.advance hnext) ?_
    dsimp only
    split
    · rename_i q hq
      have hle := q.height_le
      rw [operand_of_some fuel hq]
      refine (binary_follows q c₁ hc₁ (by omega)).bind fun right c₂ _ hc₂ => ?_
      exact (binaryRest_follows p _ c₂ hc₂ (by omega)).widen
    · rename_i hq
      rw [operand_of_none fuel hq]
      refine (unary_follows c₁ hc₁ (by omega)).bind fun right c₂ _ hc₂ => ?_
      exact (binaryRest_follows p _ c₂ hc₂ (by omega)).widen
termination_by c.rest.length * 16 + 14
decreasing_by
  all_goals have := p.height_le
  · have := Precedence.height_lt_of_tighter? ‹p.tighter? = some _›
    omega
  all_goals omega

theorem unary_follows {fuel : Nat} (c : Cursor) (hc : b.Holds c)
    (hfuel : 32 * c.rest.length + 2 < fuel) :
    b.Follows (Tape.unary fuel) c c.unary := by
  obtain ⟨fuel, rfl⟩ := Nat.exists_eq_add_one_of_ne_zero (Nat.ne_zero_of_lt hfuel)
  rw [Tape.unary, Cursor.unary]
  cases h : c.takeIf? (fun t => t.isSymbol .bang || t.isSymbol .minus) with
  | none =>
    refine .after (hc.takes_neither h) ?_
    refine (primary_follows c hc (by omega)).bind fun e c₁ _ hc₁ => ?_
    exact (callRest_follows e c₁ hc₁ (by omega)).widen
  | some x =>
    obtain ⟨operator, c₁, _⟩ := x
    obtain ⟨hnext, hoperator⟩ := Cursor.takeIf?_eq_some h
    have hc₁ := hc.passes hnext
    refine .after (hc.takes_either hnext hoperator) ?_
    refine .lift (hc.previous hnext.1) ?_
    exact (unary_follows c₁ hc₁ (by omega)).bind fun operand c₂ _ hc₂ => .pure hc₂
termination_by c.rest.length * 16 + 2
decreasing_by all_goals omega

theorem callRest_follows {fuel : Nat} (e : Expr) (c : Cursor) (hc : b.Holds c)
    (hfuel : 32 * c.rest.length + 1 < fuel) :
    b.Follows (Tape.callRest fuel e) c (c.callRest e) := by
  obtain ⟨fuel, rfl⟩ := Nat.exists_eq_add_of_le' (show 2 ≤ fuel by omega)
  rw [Tape.callRest, Cursor.callRest]
  cases h : c.symbol? .leftParen with
  | some x =>
    obtain ⟨opening, c₁, _⟩ := x
    obtain ⟨hnext, hk⟩ := Cursor.take?_eq_some h
    have hc₁ := hc.passes hnext
    refine .takes_true hc hnext hk ?_
    -- the parenthesis may be closed at once
    rw [Tape.finishCall, bind_assoc]
    dsimp only
    refine .lift (hc₁.check _) ?_
    cases h₁ : c₁.symbol? .rightParen with
    | some x =>
      obtain ⟨paren, c₂, _⟩ := x
      obtain ⟨hnext₁, hk₁⟩ := Cursor.take?_eq_some h₁
      rw [sees_of_passes hnext₁ hk₁, if_pos rfl, pure_bind, bind_assoc]
      refine .after (hc₁.consume_of_passes hnext₁ hk₁ _) ?_
      exact (callRest_follows (.call e paren []) c₂ (hc₁.passes hnext₁) (by omega)).widen
    | none =>
      rw [sees_of_take?_eq_none h₁, if_neg Bool.false_ne_true, bind_assoc]
      refine (arguments_follows 0 c₁ hc₁ (by omega)).bind fun es c₂ _ hc₂ => ?_
      rw [bind_assoc]
      refine (hc₂.consume _ _).bind fun paren c₃ _ hc₃ => ?_
      exact (callRest_follows (.call e paren es) c₃ hc₃ (by omega)).widen
  | none =>
    refine .takes_none hc h ?_
    dsimp only
    cases h₁ : c.symbol? .dot with
    | some x =>
      obtain ⟨dot, c₁, _⟩ := x
      refine .takes_some hc h₁ fun hc₁ => ?_
      refine (hc₁.consume _ _).bind fun name c₂ _ hc₂ => ?_
      exact (callRest_follows (.get e name) c₂ hc₂ (by omega)).widen
    | none => exact .takes_none hc h₁ (.pure hc)
termination_by c.rest.length * 16 + 1
decreasing_by all_goals omega

theorem arguments_follows {fuel : Nat} (count : Nat) (c : Cursor) (hc : b.Holds c)
    (hfuel : 32 * c.rest.length + 21 < fuel) :
    b.Follows (Tape.arguments fuel count) c (c.arguments count) := by
  obtain ⟨fuel, rfl⟩ := Nat.exists_eq_add_one_of_ne_zero (Nat.ne_zero_of_lt hfuel)
  have same : (c.checkArity count .tooManyArguments).rest.length = c.rest.length := by simp
  have hchecked : b.Holds (c.checkArity count .tooManyArguments) :=
    hc.of_rest (Cursor.rest_checkArity c count .tooManyArguments)
  rw [Tape.arguments, Cursor.arguments]
  refine .lift (hc.checkArity count .tooManyArguments) ?_
  refine (expression_follows _ hchecked (by omega)).bind fun e c₁ _ hc₁ => ?_
  cases h : c₁.symbol? .comma with
  | some x =>
    obtain ⟨comma, c₂, _⟩ := x
    refine .takes_some hc₁ h fun hc₂ => ?_
    exact (arguments_follows (count + 1) c₂ hc₂ (by omega)).bind fun es c₃ _ hc₃ => .pure hc₃
  | none => exact .takes_none hc₁ h (.pure hc₁)
termination_by c.rest.length * 16 + 16
decreasing_by all_goals omega

theorem primary_follows {fuel : Nat} (c : Cursor) (hc : b.Holds c)
    (hfuel : 32 * c.rest.length < fuel) :
    b.Follows (Tape.primary fuel) c c.primary := by
  obtain ⟨fuel, rfl⟩ := Nat.exists_eq_add_one_of_ne_zero (Nat.ne_zero_of_lt hfuel)
  rw [Tape.primary, Cursor.primary]
  refine .lift hc.peek ?_
  cases h : c.takeIf? (fun _ => true) with
  | none =>
    have hrest := rest_eq_nil_of_takeIf? h
    have hmark : Cursor.literal? (c.rest.headD b.mark).kind = none := by
      rw [hrest, List.headD_nil, eq_of_beq b.mark_isEof]
      rfl
    rw [hmark]
    dsimp only
    iterate 4 refine .takes_false hc (sees_of_nil hrest) ?_
    exact hc.fail _
  | some x =>
    obtain ⟨t, c₁, _⟩ := x
    obtain ⟨hnext, -⟩ := Cursor.takeIf?_eq_some h
    have hc₁ := hc.passes hnext
    have hhead : c.rest.headD b.mark = t := by rw [hnext.1, List.headD_cons]
    rw [hhead]
    dsimp only
    cases hliteral : Cursor.literal? t.kind with
    | some value => exact .lift (hc.advance hnext) (.pure hc₁)
    | none =>
      dsimp only
      split
      · contradiction
      · rename_i hk
        refine .takes_true hc hnext hk ?_
        refine .lift (fresh_eq c₁) ?_
        exact .lift (hc.previous hnext.1) (.pure hc₁)
      · rename_i hk
        iterate 1 refine .takes_other hc hnext (by rw [hk]; decide) ?_
        refine .takes_true hc hnext hk ?_
        refine .lift (hc.previous hnext.1) ?_
        refine (hc₁.consume _ _).bind fun _ c₂ _ hc₂ => ?_
        refine (hc₂.consume _ _).bind fun method c₃ _ hc₃ => ?_
        exact .lift (fresh_eq c₃) (.pure hc₃)
      · rename_i hk
        iterate 2 refine .takes_other hc hnext (by rw [hk]; decide) ?_
        refine .takes_true hc hnext hk ?_
        refine .lift (fresh_eq c₁) ?_
        exact .lift (hc.previous hnext.1) (.pure hc₁)
      · rename_i hk
        iterate 3 refine .takes_other hc hnext (by rw [hk]; decide) ?_
        refine .takes_true hc hnext hk ?_
        refine (expression_follows c₁ hc₁ (by omega)).bind fun inner c₂ _ hc₂ => ?_
        exact (hc₂.consume _ _).bind fun _ c₃ _ hc₃ => .pure hc₃
      · rename_i hthis hsuper hname hparen
        refine .takes_other hc hnext hthis ?_
        refine .takes_other hc hnext hsuper ?_
        refine .takes_other hc hnext hname ?_
        refine .takes_other hc hnext hparen ?_
        exact hc.fail _
termination_by c.rest.length * 16
decreasing_by all_goals omega

end

/-! ## Parts of statements -/

section Parts

variable {fuel : Nat} {c : Cursor}

theorem terminated_follows (hc : b.Holds c) (hfuel : 32 * c.rest.length + 20 < fuel)
    (s : Symbol) (what : Expected) :
    b.Follows (Tape.terminated fuel s what) c (c.terminated s what) := by
  refine (expression_follows c hc (by omega)).bind fun e c₁ _ hc₁ => ?_
  exact (hc₁.consume _ _).bind fun _ c₂ _ hc₂ => .pure hc₂

theorem terminated_bind {α : Type} (fuel : Nat) (s : Symbol) (what : Expected)
    (F : Expr → Tape.Attempt α) :
    Tape.terminated fuel s what >>= F = (do
      let e ← Tape.expression fuel
      let _ ← Tape.consume (.symbol s) what
      F e) := by
  unfold Tape.terminated
  simp only [bind_assoc, pure_bind]

theorem optional_follows (hc : b.Holds c) (hfuel : 32 * c.rest.length + 20 < fuel)
    (s : Symbol) (what : Expected) :
    b.Follows (Tape.optional fuel s what) c (c.optional s what) := by
  unfold Tape.optional Cursor.optional
  dsimp only
  refine .lift (hc.check _) ?_
  cases h : c.symbol? s with
  | some x =>
    obtain ⟨t, c₁, _⟩ := x
    rw [sees_of_take?_eq_some h, if_pos rfl, pure_bind]
    exact .closed hc h _
  | none =>
    rw [sees_of_take?_eq_none h, if_neg Bool.false_ne_true, bind_map_left,
      ← terminated_bind fuel s what fun e => pure (some e)]
    exact (terminated_follows hc (by omega) _ _).bind fun e c₁ _ hc₁ => .pure hc₁

theorem parenthesized_follows (hc : b.Holds c) (hfuel : 32 * c.rest.length + 20 < fuel)
    (opening closing : Expected) :
    b.Follows (Tape.parenthesized fuel opening closing) c (c.parenthesized opening closing) := by
  refine (hc.consume _ _).bind fun _ c₁ _ hc₁ => ?_
  rw [← bind_pure (Tape.terminated fuel .rightParen closing)]
  exact (terminated_follows hc₁ (by omega) _ _).bind fun e c₂ _ hc₂ => .pure hc₂

theorem variableDeclaration_follows (hc : b.Holds c) (hfuel : 32 * c.rest.length + 20 < fuel) :
    b.Follows (Tape.variableDeclaration fuel) c c.variableDeclaration := by
  unfold Tape.variableDeclaration Cursor.variableDeclaration
  dsimp only
  refine (hc.consume _ _).bind fun name c₁ _ hc₁ => ?_
  cases h : c₁.symbol? .equal with
  | some x =>
    obtain ⟨equals, c₂, _⟩ := x
    refine .takes_some hc₁ h fun hc₂ => ?_
    rw [bind_map_left, ← terminated_bind fuel _ _ fun e => pure (Stmt.var name (some e))]
    exact (terminated_follows hc₂ (by omega) _ _).bind fun e c₃ _ hc₃ => .pure hc₃
  | none =>
    refine .takes_none hc₁ h ?_
    rw [pure_bind]
    exact (hc₁.consume _ _).bind fun _ c₂ _ hc₂ => .pure hc₂

theorem expressionStatement_follows (hc : b.Holds c) (hfuel : 32 * c.rest.length + 20 < fuel) :
    b.Follows (Tape.expressionStatement fuel) c c.expressionStatement :=
  (terminated_follows hc (by omega) _ _).bind fun _ _ _ hc₁ => .pure hc₁

theorem forInitializer_follows (hc : b.Holds c) (hfuel : 32 * c.rest.length + 20 < fuel) :
    b.Follows (Tape.forInitializer fuel) c c.forInitializer := by
  unfold Tape.forInitializer Cursor.forInitializer
  cases h : c.symbol? .semicolon with
  | some x =>
    obtain ⟨t, c₁, _⟩ := x
    exact .takes_some hc h fun hc₁ => .pure hc₁
  | none =>
    refine .takes_none hc h ?_
    dsimp only
    cases h₁ : c.keyword? .var_ with
    | some x =>
      obtain ⟨t, c₁, _⟩ := x
      refine .takes_some hc h₁ fun hc₁ => ?_
      exact (variableDeclaration_follows hc₁ (by omega)).bind fun s c₂ _ hc₂ => .pure hc₂
    | none =>
      refine .takes_none hc h₁ ?_
      exact (expressionStatement_follows hc (by omega)).bind fun s c₁ _ hc₁ => .pure hc₁

theorem parameters_follows {fuel : Nat} (count : Nat) (c : Cursor) (hc : b.Holds c)
    (hfuel : 32 * c.rest.length < fuel) :
    b.Follows (Tape.parameters fuel count) c (c.parameters count) := by
  obtain ⟨fuel, rfl⟩ := Nat.exists_eq_add_one_of_ne_zero (Nat.ne_zero_of_lt hfuel)
  have same : (c.checkArity count .tooManyParameters).rest.length = c.rest.length := by simp
  have hchecked : b.Holds (c.checkArity count .tooManyParameters) :=
    hc.of_rest (Cursor.rest_checkArity c count .tooManyParameters)
  rw [Tape.parameters, Cursor.parameters]
  refine .lift (hc.checkArity count .tooManyParameters) ?_
  refine (hchecked.consume _ _).bind fun name c₁ _ hc₁ => ?_
  cases h : c₁.symbol? .comma with
  | some x =>
    obtain ⟨comma, c₂, _⟩ := x
    refine .takes_some hc₁ h fun hc₂ => ?_
    exact (parameters_follows (count + 1) c₂ hc₂ (by omega)).bind
      fun names c₃ _ hc₃ => .pure hc₃
  | none => exact .takes_none hc₁ h (.pure hc₁)
termination_by c.rest.length
decreasing_by omega

theorem parameterList_follows (hc : b.Holds c) (hfuel : 32 * c.rest.length < fuel) :
    b.Follows (Tape.parameterList fuel) c c.parameterList := by
  unfold Tape.parameterList Cursor.parameterList
  dsimp only
  refine .lift (hc.check _) ?_
  cases h : c.symbol? .rightParen with
  | some x =>
    obtain ⟨t, c₁, _⟩ := x
    rw [sees_of_take?_eq_some h, if_pos rfl, pure_bind]
    exact .closed hc h _
  | none =>
    rw [sees_of_take?_eq_none h, if_neg Bool.false_ne_true]
    refine (parameters_follows 0 c hc (by omega)).bind fun names c₁ _ hc₁ => ?_
    exact (hc₁.consume _ _).bind fun _ c₂ _ hc₂ => .pure hc₂

theorem classHeader_follows (hc : b.Holds c) :
    b.Follows Tape.classHeader c c.classHeader := by
  unfold Tape.classHeader Cursor.classHeader
  cases h : c.symbol? .less with
  | some x =>
    obtain ⟨t, c₁, _⟩ := x
    refine .takes_some hc h fun hc₁ => ?_
    refine (hc₁.consume _ _).bind fun name c₂ _ hc₂ => ?_
    refine (hc₂.consume _ _).bind fun _ c₃ _ hc₃ => ?_
    exact .lift (fresh_eq c₃) (.pure hc₃)
  | none =>
    refine .takes_none hc h ?_
    exact (hc.consume _ _).bind fun _ c₁ _ hc₁ => .pure hc₁

end Parts

/-! ## Declarations and statements -/

theorem resumeAfter_suffix (t : Token) (ts : List Token) : resumeAfter t ts <:+ ts := by
  induction ts generalizing t with
  | nil => exact List.suffix_refl _
  | cons u us ih =>
    rw [resumeAfter]
    split
    · exact List.suffix_refl _
    · exact (ih u).trans (List.suffix_cons u us)

theorem Holds.resume {c : Cursor} (hc : b.Holds c) : b.Holds c.resume := by
  obtain ⟨rest, complaints, nextId⟩ := c
  cases rest with
  | nil => exact hc
  | cons t ts => exact ((resumeAfter_suffix t ts).trans (List.suffix_cons t ts)).trans hc

/-- A block, read like the methods of a class. -/
theorem block_eq (fuel : Nat) : Tape.block (fuel + 2) = (do
    if (← Tape.check (.symbol .rightBrace)) || (← Tape.isAtEnd) then
      let _ ← Tape.consume (.symbol .rightBrace) .blockClose
      return []
    else
      let s ← Tape.declared fuel
      return s.toList ++ (← Tape.block (fuel + 1))) := by
  rw [Tape.block, Tape.items, Tape.block]
  simp only [liftM_bind, bind_assoc]
  refine bind_congr fun closes => bind_congr fun ends => ?_
  split
  · rw [liftM_pure, pure_bind]
  · simp only [liftM_bind, liftM_pure, bind_assoc, pure_bind]

mutual

theorem declared_follows {fuel : Nat} (c : Cursor) (h : c.rest ≠ []) (hc : b.Holds c)
    (hfuel : 32 * c.rest.length + 29 < fuel) :
    b.Holds (c.declared h).next ∧
      Tape.declared fuel (b.tape c) = some ((c.declared h).result, b.tape (c.declared h).next) := by
  obtain ⟨fuel, rfl⟩ := Nat.exists_eq_add_one_of_ne_zero (Nat.ne_zero_of_lt hfuel)
  have hdeclaration : b.Follows (Tape.declaration fuel) c c.declaration :=
    declaration_follows c hc (by omega)
  rw [Tape.declared, Cursor.declared]
  revert hdeclaration
  generalize Cursor.declaration c = x
  intro hdeclaration
  cases hdeclaration with
  | ok hc₁ hX => exact ⟨hc₁, bind_of_some hX⟩
  | @failed e c₁ _ hc₁ hX =>
    have hc₂ : b.Holds (c₁.report e) := hc₁
    have hlength : (c₁.report e).rest.length < fuel := by
      rw [Cursor.rest_report]
      omega
    -- the error is recorded where it was noticed, before anything is skipped
    refine ⟨hc₂.resume, ?_⟩
    rw [bind_of_some hX]
    dsimp only
    rw [bind_of_some (report_eq c₁ e), bind_of_some (hc₂.synchronize hlength)]
    rfl
termination_by c.rest.length * 8 + 3

theorem declaration_follows {fuel : Nat} (c : Cursor) (hc : b.Holds c)
    (hfuel : 32 * c.rest.length + 28 < fuel) :
    b.Follows (Tape.declaration fuel) c c.declaration := by
  obtain ⟨fuel, rfl⟩ := Nat.exists_eq_add_one_of_ne_zero (Nat.ne_zero_of_lt hfuel)
  rw [Tape.declaration, Cursor.declaration]
  cases h : c.keyword? .class_ with
  | some x =>
    obtain ⟨t, c₁, _⟩ := x
    exact .takes_some hc h fun hc₁ => (classDeclaration_follows c₁ hc₁ (by omega)).widen
  | none =>
    refine .takes_none hc h ?_
    dsimp only
    cases h₁ : c.keyword? .fun_ with
    | some x =>
      obtain ⟨t, c₁, _⟩ := x
      refine .takes_some hc h₁ fun hc₁ => ?_
      exact (function_follows .function c₁ hc₁ (by omega)).bind fun f c₂ _ hc₂ => .pure hc₂
    | none =>
      refine .takes_none hc h₁ ?_
      dsimp only
      cases h₂ : c.keyword? .var_ with
      | some x =>
        obtain ⟨t, c₁, _⟩ := x
        exact .takes_some hc h₂ fun hc₁ => (variableDeclaration_follows hc₁ (by omega)).widen
      | none => exact .takes_none hc h₂ (statement_follows c hc (by omega))
termination_by c.rest.length * 8 + 2
decreasing_by all_goals omega

theorem classDeclaration_follows {fuel : Nat} (c : Cursor) (hc : b.Holds c)
    (hfuel : 32 * c.rest.length + 26 < fuel) :
    b.Follows (Tape.classDeclaration fuel) c c.classDeclaration := by
  obtain ⟨fuel, rfl⟩ := Nat.exists_eq_add_one_of_ne_zero (Nat.ne_zero_of_lt hfuel)
  rw [Tape.classDeclaration, Cursor.classDeclaration]
  refine (hc.consume _ _).bind fun name c₁ _ hc₁ => ?_
  refine (classHeader_follows hc₁).bind fun superclass c₂ _ hc₂ => ?_
  exact (methods_follows c₂ hc₂ (by omega)).bind fun ms c₃ _ hc₃ => .pure hc₃
termination_by c.rest.length * 8
decreasing_by omega

theorem methods_follows {fuel : Nat} (c : Cursor) (hc : b.Holds c)
    (hfuel : 32 * c.rest.length + 27 < fuel) :
    b.Follows (Tape.methods fuel) c c.methods := by
  obtain ⟨fuel, rfl⟩ := Nat.exists_eq_add_one_of_ne_zero (Nat.ne_zero_of_lt hfuel)
  rw [Tape.methods, Cursor.methods]
  refine .lift (hc.check _) (.lift hc.isAtEnd ?_)
  cases h : c.symbol? .rightBrace with
  | some x =>
    obtain ⟨t, c₁, _⟩ := x
    rw [sees_of_take?_eq_some h]
    exact .closed hc h _
  | none =>
    rw [sees_of_take?_eq_none h]
    dsimp only
    by_cases hrest : c.rest = []
    · rw [if_pos hrest, List.isEmpty_iff.mpr hrest]
      exact .failed hc (run_bind_of_error (hc.consume_of_not_sees (sees_of_nil hrest) _))
    · have hmore : c.rest.isEmpty = false := List.isEmpty_eq_false_iff.mpr hrest
      rw [if_neg hrest, hmore]
      refine (function_follows .method c hc (by omega)).bind fun f c₁ _ hc₁ => ?_
      exact (methods_follows c₁ hc₁ (by omega)).bind fun fs c₂ _ hc₂ => .pure hc₂
termination_by c.rest.length * 8 + 1
decreasing_by all_goals omega

theorem function_follows {fuel : Nat} (form : FunctionForm) (c : Cursor) (hc : b.Holds c)
    (hfuel : 32 * c.rest.length + 26 < fuel) :
    b.Follows (Tape.function fuel form) c (c.function form) := by
  obtain ⟨fuel, rfl⟩ := Nat.exists_eq_add_one_of_ne_zero (Nat.ne_zero_of_lt hfuel)
  rw [Tape.function, Cursor.function]
  refine (hc.consume _ _).bind fun name c₁ _ hc₁ => ?_
  refine (hc₁.consume _ _).bind fun _ c₂ _ hc₂ => ?_
  refine (parameterList_follows hc₂ (by omega)).bind fun params c₃ _ hc₃ => ?_
  refine (hc₃.consume _ _).bind fun _ c₄ _ hc₄ => ?_
  exact (block_follows c₄ hc₄ (by omega)).bind fun body c₅ _ hc₅ => .pure hc₅
termination_by c.rest.length * 8
decreasing_by omega

theorem block_follows {fuel : Nat} (c : Cursor) (hc : b.Holds c)
    (hfuel : 32 * c.rest.length + 31 < fuel) :
    b.Follows (Tape.block fuel) c c.block := by
  obtain ⟨fuel, rfl⟩ := Nat.exists_eq_add_of_le' (show 2 ≤ fuel by omega)
  rw [block_eq, Cursor.block]
  refine .lift (hc.check _) (.lift hc.isAtEnd ?_)
  cases h : c.symbol? .rightBrace with
  | some x =>
    obtain ⟨t, c₁, _⟩ := x
    rw [sees_of_take?_eq_some h]
    exact .closed hc h _
  | none =>
    rw [sees_of_take?_eq_none h]
    dsimp only
    by_cases hrest : c.rest = []
    · rw [dif_pos hrest, List.isEmpty_iff.mpr hrest]
      exact .failed hc (run_bind_of_error (hc.consume_of_not_sees (sees_of_nil hrest) _))
    · have hmore : c.rest.isEmpty = false := List.isEmpty_eq_false_iff.mpr hrest
      have hshorter := (c.declared hrest).shorter
      obtain ⟨hc₁, hdeclared⟩ := declared_follows c hrest hc
        (show 32 * c.rest.length + 29 < fuel by omega)
      rw [dif_neg hrest, hmore]
      refine .lift hdeclared ?_
      exact (block_follows _ hc₁ (by omega)).bind fun ss c₂ _ hc₂ => .pure hc₂
termination_by c.rest.length * 8 + 4
decreasing_by all_goals omega

theorem statement_follows {fuel : Nat} (c : Cursor) (hc : b.Holds c)
    (hfuel : 32 * c.rest.length + 27 < fuel) :
    b.Follows (Tape.statement fuel) c c.statement := by
  obtain ⟨fuel, rfl⟩ := Nat.exists_eq_add_one_of_ne_zero (Nat.ne_zero_of_lt hfuel)
  rw [Tape.statement, Cursor.statement]
  cases h : c.takeIf? (fun _ => true) with
  | none =>
    iterate 6 refine .takes_false hc (sees_of_nil (rest_eq_nil_of_takeIf? h)) ?_
    exact expressionStatement_follows hc (by omega)
  | some x =>
    obtain ⟨t, c₁, _⟩ := x
    obtain ⟨hnext, -⟩ := Cursor.takeIf?_eq_some h
    have hc₁ := hc.passes hnext
    dsimp only
    split
    · rename_i hk
      refine .takes_true hc hnext hk ?_
      refine (hc₁.consume _ _).bind fun _ c₂ _ hc₂ => ?_
      refine (forInitializer_follows hc₂ (by omega)).bind fun initializer c₃ _ hc₃ => ?_
      refine (optional_follows hc₃ (by omega) _ _).bind fun condition c₄ _ hc₄ => ?_
      refine (optional_follows hc₄ (by omega) _ _).bind fun increment c₅ _ hc₅ => ?_
      exact (statement_follows c₅ hc₅ (by omega)).bind fun body c₆ _ hc₆ => .pure hc₆
    · rename_i hk
      iterate 1 refine .takes_other hc hnext (by rw [hk]; decide) ?_
      refine .takes_true hc hnext hk ?_
      refine (parenthesized_follows hc₁ (by omega) _ _).bind fun condition c₂ _ hc₂ => ?_
      refine (statement_follows c₂ hc₂ (by omega)).bind fun thenBranch c₃ _ hc₃ => ?_
      cases h₃ : c₃.keyword? .else_ with
      | some x =>
        obtain ⟨_, c₄, _⟩ := x
        refine .takes_some hc₃ h₃ fun hc₄ => ?_
        exact (statement_follows c₄ hc₄ (by omega)).bind fun elseBranch c₅ _ hc₅ => .pure hc₅
      | none => exact .takes_none hc₃ h₃ (.pure hc₃)
    · rename_i hk
      iterate 2 refine .takes_other hc hnext (by rw [hk]; decide) ?_
      refine .takes_true hc hnext hk ?_
      refine (parenthesized_follows hc₁ (by omega) _ _).bind fun condition c₂ _ hc₂ => ?_
      exact (statement_follows c₂ hc₂ (by omega)).bind fun body c₃ _ hc₃ => .pure hc₃
    · rename_i hk
      iterate 3 refine .takes_other hc hnext (by rw [hk]; decide) ?_
      refine .takes_true hc hnext hk ?_
      refine .lift (hc.previous hnext.1) ?_
      exact (optional_follows hc₁ (by omega) _ _).bind fun value c₂ _ hc₂ => .pure hc₂
    · rename_i hk
      iterate 5 refine .takes_other hc hnext (by rw [hk]; decide) ?_
      refine .takes_true hc hnext hk ?_
      exact (terminated_follows hc₁ (by omega) _ _).bind fun e c₂ _ hc₂ => .pure hc₂
    · rename_i hk
      iterate 4 refine .takes_other hc hnext (by rw [hk]; decide) ?_
      refine .takes_true hc hnext hk ?_
      exact (block_follows c₁ hc₁ (by omega)).bind fun body c₂ _ hc₂ => .pure hc₂
    · rename_i hfor hif hwhile hreturn hprint hbrace
      refine .takes_other hc hnext hfor ?_
      refine .takes_other hc hnext hif ?_
      refine .takes_other hc hnext hwhile ?_
      refine .takes_other hc hnext hreturn ?_
      refine .takes_other hc hnext hbrace ?_
      refine .takes_other hc hnext hprint ?_
      exact expressionStatement_follows hc (by omega)
termination_by c.rest.length * 8 + 1
decreasing_by all_goals omega

end

theorem declarations_eq {fuel : Nat} (c : Cursor) (hc : b.Holds c)
    (hfuel : 32 * c.rest.length + 30 < fuel) :
    b.Holds c.program.2 ∧
      Tape.declarations fuel (b.tape c) = some (c.program.1, b.tape c.program.2) := by
  obtain ⟨fuel, rfl⟩ := Nat.exists_eq_add_one_of_ne_zero (Nat.ne_zero_of_lt hfuel)
  rw [Tape.declarations, Cursor.program, bind_of_some hc.isAtEnd]
  by_cases hrest : c.rest = []
  · rw [dif_pos hrest, hrest]
    exact ⟨hc, rfl⟩
  · have hmore : c.rest.isEmpty = false := List.isEmpty_eq_false_iff.mpr hrest
    have hshorter := (c.declared hrest).shorter
    obtain ⟨hc₁, hdeclared⟩ := declared_follows c hrest hc
      (show 32 * c.rest.length + 29 < fuel by omega)
    obtain ⟨hc₂, hlater⟩ := declarations_eq (c.declared hrest).next hc₁
      (show 32 * (c.declared hrest).next.rest.length + 30 < fuel by omega)
    rw [dif_neg hrest, hmore]
    refine ⟨hc₂, ?_⟩
    rw [if_neg Bool.false_ne_true, bind_of_some hdeclared, bind_of_some hlater]
    rfl
termination_by c.rest.length
decreasing_by exact (c.declared hrest).shorter

end Buffer

end LoxWalk
