import LoxWalk.Proofs.Grammar.Joining

/-!
# Statements that end where the semicolon stands

A chunk is a list of tokens that is meant to be one flat statement: it ends with its only semicolon,
has no braces, and no word in its middle starts a statement (`IsChunk`).  Nothing else is assumed of
it; it may be malformed in any way.

However the reader gets on with a chunk, it never looks behind the semicolon before it has passed it.
If it breaks off, it does so in front of the semicolon at the latest, and then it skips what is left
of the chunk and nothing more.  To say so, the reader is run in two places at once: on the chunk
alone, and in front of other tokens `r` and behind other complaints `l` (`Cursor.embed`).  Both runs
take the same course, `Step.Embeds` says how far they get, and there is one lemma for each rule.

So the errors of chunks in a row are those of each of them, one after the other, and the same is true
of the statements if there are no errors (`Grammar.chunks_read_alone`).
-/

namespace LoxWalk

/-! ## Up to the semicolon -/

/-- A token that may stand in the middle of a chunk. -/
structure Token.IsInner (t : Token) : Prop where
  not_semicolon : t.kind ≠ .symbol .semicolon
  not_leftBrace : t.kind ≠ .symbol .leftBrace
  not_rightBrace : t.kind ≠ .symbol .rightBrace
  not_start : t.startsStatement = false

/-- Tokens from the middle of a chunk to its end. -/
inductive Fence : List Token → Prop where
  | last {t : Token} (ht : t.kind = .symbol .semicolon) : Fence [t]
  | cons {t : Token} {ts : List Token} (ht : t.IsInner) (h : Fence ts) : Fence (t :: ts)

/-- No complaint is about the end of the input. -/
def Located (cs : List Complaint) : Prop :=
  ∀ e ∈ cs, e.token? ≠ none

/-- A place inside a chunk, where all that is wrong has been found at some token. -/
structure Cursor.Fenced (c : Cursor) : Prop where
  fence : Fence c.rest
  located : Located c.complaints

/-- The place behind a chunk. -/
structure Cursor.Finished (c : Cursor) : Prop where
  rest_eq : c.rest = []
  located : Located c.complaints

/-- The same place, in front of more tokens and behind more complaints. -/
def Cursor.embed (r : List Token) (l : List Complaint) (c : Cursor) : Cursor :=
  ⟨c.rest ++ r, c.complaints ++ l, c.nextId⟩

/-- The same token, in front of more tokens and behind more complaints. -/
def Taken.embed {c : Cursor} (r : List Token) (l : List Complaint) (x : Taken c) :
    Taken (c.embed r l) :=
  ⟨x.token, x.next.embed r l, by
    have hshorter := x.shorter
    simp only [Cursor.embed, List.length_append]
    omega⟩

theorem Located.cons {cs : List Complaint} {e : Complaint} (he : e.token? ≠ none)
    (h : Located cs) : Located (e :: cs) :=
  List.forall_mem_cons.mpr ⟨he, h⟩

/-- All of what is left of a chunk is skipped, and nothing behind it. -/
theorem resumeAfter_of_fence (r : List Token) {t : Token} {ts : List Token}
    (h : Fence (t :: ts)) : resumeAfter t (ts ++ r) = r := by
  induction ts generalizing t with
  | nil =>
    cases h with
    | last ht =>
      have hlast : t.isSymbol .semicolon = true := by rw [Token.isSymbol, ht]; rfl
      cases r with
      | nil => rfl
      | cons u us => rw [List.nil_append, resumeAfter, hlast, Bool.true_or, if_pos rfl]
    | cons _ h => cases h
  | cons u us ih =>
    cases h with
    | cons ht h =>
      have hlast : t.isSymbol .semicolon = false := beq_false_of_ne ht.not_semicolon
      have hstart : u.startsStatement = false := by
        cases h with
        | last hu => rw [Token.startsStatement, hu]
        | cons hu _ => exact hu.not_start
      rw [List.cons_append, resumeAfter, hlast, hstart, Bool.or_self, if_neg Bool.false_ne_true]
      exact ih h

/-! ## Steps -/

/-- Two steps take the same course, the second in front of more tokens and behind more complaints:
they succeed at a place of which `P` is true, or break off inside the chunk. -/
inductive Step.Embeds (r : List Token) (l : List Complaint) (P : Cursor → Prop) {α : Type}
    {m n : Nat} : Step α m → Step α n → Prop where
  | ok (a : α) (c : Cursor) (hc : P c) (h : c.rest.length < m)
      (h' : (c.embed r l).rest.length < n) : Embeds r l P (.ok a c h) (.ok a (c.embed r l) h')
  | failed (e : Complaint) (c : Cursor) (he : e.token? ≠ none) (hc : c.Fenced)
      (h : c.rest.length ≤ m) (h' : (c.embed r l).rest.length ≤ n) :
      Embeds r l P (.failed e c h) (.failed e (c.embed r l) h')

namespace Step.Embeds

variable {α β : Type} {r : List Token} {l : List Complaint} {P Q : Cursor → Prop} {m m' n n' : Nat}

theorem of_eq {a a' : α} {c c' : Cursor} {h : c.rest.length < m} {h' : c'.rest.length < n}
    (ha : a' = a) (hc' : c' = c.embed r l) (hc : P c) :
    Embeds r l P (.ok a c h : Step α m) (.ok a' c' h' : Step α n) := by
  subst ha hc'
  exact .ok _ c hc h h'

theorem andThen {x : Step α m} {x' : Step α m'}
    {F : (a : α) → (c : Cursor) → c.rest.length < m → Step β n}
    {F' : (a : α) → (c : Cursor) → c.rest.length < m' → Step β n'} {hle : m ≤ n} {hle' : m' ≤ n'}
    (hx : Embeds r l P x x')
    (hF : ∀ a c, P c → ∀ h h', Embeds r l Q (F a c h) (F' a (c.embed r l) h')) :
    Embeds r l Q (x.andThen F hle) (x'.andThen F' hle') := by
  cases hx with
  | ok a c hc h h' => exact hF a c hc h h'
  | failed e c he hc h h' => exact .failed e c he hc _ _

theorem widen {x : Step α m} {x' : Step α m'} {hle : m ≤ n} {hle' : m' ≤ n'}
    (hx : Embeds r l P x x') : Embeds r l P (x.widen hle) (x'.widen hle') := by
  cases hx with
  | ok a c hc h h' => exact .ok a c hc _ _
  | failed e c he hc h h' => exact .failed e c he hc _ _

/-- What never succeeds succeeds wherever one likes. -/
theorem elim {x : Step α m} {x' : Step α n} (hx : Embeds r l (fun _ => False) x x') :
    Embeds r l P x x' := by
  cases hx with
  | ok _ _ hc => exact hc.elim
  | failed e c he hc h h' => exact .failed e c he hc h h'

end Step.Embeds

namespace Cursor

open Step (Embeds)

variable {r : List Token} {l : List Complaint} {c c₁ : Cursor} {t : Token}

/-! ## Single tokens -/

theorem Fenced.ne_nil (hc : c.Fenced) : c.rest ≠ [] := by
  intro hnil
  have hfence := hc.fence
  rw [hnil] at hfence
  cases hfence

theorem embed_takeIf? (hne : c.rest ≠ []) (p : Token → Bool) :
    (c.embed r l).takeIf? p = (c.takeIf? p).map (Taken.embed r l) := by
  obtain ⟨rest, complaints, nextId⟩ := c
  cases rest with
  | nil => exact absurd rfl hne
  | cons t ts =>
    change (if p t then some _ else none) = Option.map _ (if p t then some _ else none)
    split <;> rfl

theorem Fenced.takeIf? (hc : c.Fenced) (p : Token → Bool) :
    (c.embed r l).takeIf? p = (c.takeIf? p).map (Taken.embed r l) :=
  embed_takeIf? hc.ne_nil p

theorem Fenced.symbol? (hc : c.Fenced) (s : Symbol) :
    (c.embed r l).symbol? s = (c.symbol? s).map (Taken.embed r l) :=
  hc.takeIf? _

/-- The reader stays inside the chunk unless it reads the semicolon. -/
theorem Fenced.next (hc : c.Fenced) {p : Token → Bool} {h : c₁.rest.length < c.rest.length}
    (ht : c.takeIf? p = some ⟨t, c₁, h⟩) (hne : t.kind ≠ .symbol .semicolon) : c₁.Fenced := by
  obtain ⟨⟨hrest, hcomplaints, -⟩, -⟩ := takeIf?_eq_some ht
  have hfence := hc.fence
  rw [hrest] at hfence
  refine ⟨?_, hcomplaints ▸ hc.located⟩
  generalize c₁.rest = ts at hfence ⊢
  cases hfence with
  | last hk => exact absurd hk hne
  | cons _ h => exact h

theorem Fenced.next_symbol (hc : c.Fenced) {s : Symbol} {h : c₁.rest.length < c.rest.length}
    (ht : c.symbol? s = some ⟨t, c₁, h⟩) (hs : s ≠ .semicolon) : c₁.Fenced := by
  refine hc.next ht fun hk => hs ?_
  rw [(take?_eq_some ht).2] at hk
  exact TokenKind.symbol.inj hk

/-- Behind the semicolon the chunk is over. -/
theorem Fenced.finished (hc : c.Fenced) {h : c₁.rest.length < c.rest.length}
    (ht : c.symbol? .semicolon = some ⟨t, c₁, h⟩) : c₁.Finished := by
  obtain ⟨⟨hrest, hcomplaints, -⟩, hk⟩ := take?_eq_some ht
  have hfence := hc.fence
  rw [hrest] at hfence
  refine ⟨?_, hcomplaints ▸ hc.located⟩
  generalize c₁.rest = ts at hfence ⊢
  cases hfence with
  | last _ => rfl
  | cons hinner _ => exact absurd hk hinner.not_semicolon

/-- A complaint inside a chunk is about a token of it. -/
theorem Fenced.complaint (hc : c.Fenced) (fault : ParseFault) :
    (c.embed r l).complaint fault = c.complaint fault ∧ (c.complaint fault).token? ≠ none := by
  obtain ⟨rest, complaints, nextId⟩ := c
  cases rest with
  | nil => exact absurd rfl hc.ne_nil
  | cons t ts => exact ⟨rfl, Option.some_ne_none t⟩

theorem Fenced.useId (hc : c.Fenced) : c.useId.Fenced :=
  ⟨hc.fence, hc.located⟩

theorem Fenced.report (hc : c.Fenced) {e : Complaint} (he : e.token? ≠ none) :
    (c.report e).Fenced :=
  ⟨hc.fence, hc.located.cons he⟩

theorem Fenced.fail_embeds {α : Type} {P : Cursor → Prop} {m n : Nat} (hc : c.Fenced)
    (fault : ParseFault) {h : c.rest.length ≤ m} {h' : (c.embed r l).rest.length ≤ n} :
    Embeds r l P (c.fail fault h : Step α m) ((c.embed r l).fail fault h') := by
  obtain ⟨hsame, hlocated⟩ := hc.complaint (r := r) (l := l) fault
  rw [fail, fail, hsame]
  exact .failed _ c hlocated hc h h'

/-- A token that has to be next; what is true behind it depends on the token. -/
theorem Fenced.expect_embeds {P : Cursor → Prop} (hc : c.Fenced) {k : TokenKind} (what : Expected)
    (hnext : ∀ t c₁ h, c.take? k = some ⟨t, c₁, h⟩ → P c₁) :
    Embeds r l P (c.expect k what) ((c.embed r l).expect k what) := by
  have htake : (c.embed r l).take? k = (c.take? k).map (Taken.embed r l) := hc.takeIf? _
  unfold expect
  rw [htake]
  cases ht : c.take? k with
  | none => exact hc.fail_embeds _
  | some x =>
    obtain ⟨t, c₁, h⟩ := x
    exact .ok t c₁ (hnext t c₁ h ht) _ _

/-- Any token but the semicolon leaves the reader inside the chunk. -/
theorem Fenced.expect_inner (hc : c.Fenced) {k : TokenKind} (what : Expected)
    (hk : k ≠ .symbol .semicolon) :
    Embeds r l Fenced (c.expect k what) ((c.embed r l).expect k what) :=
  hc.expect_embeds what fun _ _ _ ht => hc.next ht fun h => hk ((take?_eq_some ht).2.symm.trans h)

theorem Fenced.expect_semicolon (hc : c.Fenced) (what : Expected) :
    Embeds r l Finished (c.expect (.symbol .semicolon) what)
      ((c.embed r l).expect (.symbol .semicolon) what) :=
  hc.expect_embeds what fun _ _ _ ht => hc.finished ht

/-- There is no brace to be found. -/
theorem Fenced.expect_leftBrace (hc : c.Fenced) (what : Expected) :
    Embeds r l (fun _ => False) (c.expect (.symbol .leftBrace) what)
      ((c.embed r l).expect (.symbol .leftBrace) what) := by
  refine hc.expect_embeds what fun t c₁ _ ht => ?_
  obtain ⟨⟨hrest, -, -⟩, hk⟩ := take?_eq_some ht
  have hfence := hc.fence
  rw [hrest] at hfence
  generalize c₁.rest = ts at hfence
  cases hfence with
  | last h => exact absurd (hk.symm.trans h) (by decide)
  | cons h _ => exact h.not_leftBrace hk

theorem Fenced.checkArity (hc : c.Fenced) (count : Nat) (fault : ParseFault) :
    (c.embed r l).checkArity count fault = (c.checkArity count fault).embed r l ∧
      (c.checkArity count fault).Fenced := by
  obtain ⟨hsame, hlocated⟩ := hc.complaint (r := r) (l := l) fault
  unfold Cursor.checkArity
  rw [hsame]
  split
  · exact ⟨rfl, hc.report hlocated⟩
  · exact ⟨rfl, hc⟩

theorem Fenced.assign (hc : c.Fenced) (left value : Expr) (equals : Token) :
    (c.embed r l).assign left equals value =
        ((c.assign left equals value).1, (c.assign left equals value).2.embed r l) ∧
      (c.assign left equals value).2.Fenced := by
  cases left with
  | var id name => exact ⟨rfl, hc.useId⟩
  | get object name => exact ⟨rfl, hc⟩
  | _ => exact ⟨rfl, hc.report (Option.some_ne_none equals)⟩

/-- No operator is a semicolon. -/
theorem ne_semicolon_of_mem_operators {p : Precedence} {k : TokenKind} (h : k ∈ p.operators) :
    k ≠ .symbol .semicolon := by
  rintro rfl
  revert h
  cases p <;> decide

/-! ## Expressions -/

mutual

theorem expression_embeds {c : Cursor} (hc : c.Fenced) :
    Embeds r l Fenced (expression c) (expression (c.embed r l)) := by
  rw [expression, expression]
  refine (binary_embeds .or hc).andThen fun left c₁ hc₁ _ _ => ?_
  rw [hc₁.symbol?]
  cases ht : c₁.symbol? .equal with
  | none => exact .ok _ _ hc₁ _ _
  | some x =>
    obtain ⟨equals, c₂, hlt⟩ := x
    refine (expression_embeds (hc₁.next_symbol ht (by decide))).andThen fun value c₃ hc₃ _ _ => ?_
    obtain ⟨hassign, hfenced⟩ := hc₃.assign (r := r) (l := l) left value equals
    exact .of_eq (by rw [hassign]) (by rw [hassign]) hfenced
termination_by c.rest.length * 16 + 15
decreasing_by
  · simp only [Precedence.height]
    omega
  · omega

theorem binary_embeds (p : Precedence) {c : Cursor} (hc : c.Fenced) :
    Embeds r l Fenced (binary p c) (binary p (c.embed r l)) := by
  rw [binary, binary]
  split
  · rename_i q _
    exact (binary_embeds q hc).andThen fun left c₁ hc₁ _ _ => (binaryRest_embeds p left hc₁).widen
  · exact (unary_embeds hc).andThen fun left c₁ hc₁ _ _ => (binaryRest_embeds p left hc₁).widen
termination_by c.rest.length * 16 + 7 + p.height
decreasing_by
  all_goals have := p.height_le
  · have := Precedence.height_lt_of_tighter? ‹p.tighter? = some _›
    omega
  all_goals omega

theorem binaryRest_embeds (p : Precedence) (left : Expr) {c : Cursor} (hc : c.Fenced) :
    Embeds r l Fenced (binaryRest p left c) (binaryRest p left (c.embed r l)) := by
  rw [binaryRest, binaryRest, hc.takeIf?]
  cases ht : c.takeIf? (p.operators.contains ·.kind) with
  | none => exact .ok _ _ hc _ _
  | some x =>
    obtain ⟨operator, c₁, hlt⟩ := x
    have hmem : operator.kind ∈ p.operators := by simpa using (takeIf?_eq_some ht).2
    have hc₁ := hc.next ht (ne_semicolon_of_mem_operators hmem)
    dsimp only [Option.map_some, Taken.embed]
    split
    · rename_i q _
      exact (binary_embeds q hc₁).andThen fun right c₂ hc₂ _ _ =>
        (binaryRest_embeds p _ hc₂).widen
    · exact (unary_embeds hc₁).andThen fun right c₂ hc₂ _ _ => (binaryRest_embeds p _ hc₂).widen
termination_by c.rest.length * 16 + 14
decreasing_by
  all_goals have := p.height_le
  · have := Precedence.height_lt_of_tighter? ‹p.tighter? = some _›
    omega
  all_goals omega

theorem unary_embeds {c : Cursor} (hc : c.Fenced) :
    Embeds r l Fenced (unary c) (unary (c.embed r l)) := by
  rw [unary, unary, hc.takeIf?]
  cases ht : c.takeIf? (fun t => t.isSymbol .bang || t.isSymbol .minus) with
  | none =>
    exact (primary_embeds hc).andThen fun e c₁ hc₁ _ _ => (callRest_embeds e hc₁).widen
  | some x =>
    obtain ⟨operator, c₁, hlt⟩ := x
    have hc₁ : c₁.Fenced := hc.next ht fun hk => by
      have hp := (takeIf?_eq_some ht).2
      rw [Token.isSymbol, Token.isSymbol, hk] at hp
      revert hp
      decide
    exact (unary_embeds hc₁).andThen fun operand c₂ hc₂ _ _ => .ok _ _ hc₂ _ _
termination_by c.rest.length * 16 + 2
decreasing_by all_goals omega

theorem callRest_embeds (e : Expr) {c : Cursor} (hc : c.Fenced) :
    Embeds r l Fenced (callRest e c) (callRest e (c.embed r l)) := by
  rw [callRest, callRest, hc.symbol?]
  cases ht : c.symbol? .leftParen with
  | some x =>
    obtain ⟨opening, c₁, hlt⟩ := x
    have hc₁ := hc.next_symbol ht (by decide)
    dsimp only [Option.map_some, Taken.embed]
    rw [hc₁.symbol?]
    cases ht₁ : c₁.symbol? .rightParen with
    | some x =>
      obtain ⟨paren, c₂, hlt₂⟩ := x
      exact (callRest_embeds (.call e paren []) (hc₁.next_symbol ht₁ (by decide))).widen
    | none =>
      refine (arguments_embeds 0 hc₁).andThen fun es c₂ hc₂ _ _ => ?_
      refine (hc₂.expect_inner _ (by decide)).andThen fun paren c₃ hc₃ _ _ => ?_
      exact (callRest_embeds (.call e paren es) hc₃).widen
  | none =>
    dsimp only [Option.map_none]
    rw [hc.symbol?]
    cases ht₁ : c.symbol? .dot with
    | some x =>
      obtain ⟨dot, c₁, hlt⟩ := x
      have hc₁ := hc.next_symbol ht₁ (by decide)
      refine (hc₁.expect_inner _ (by decide)).andThen fun name c₂ hc₂ _ _ => ?_
      exact (callRest_embeds (.get e name) hc₂).widen
    | none => exact .ok _ _ hc _ _
termination_by c.rest.length * 16 + 1
decreasing_by all_goals omega

theorem arguments_embeds (count : Nat) {c : Cursor} (hc : c.Fenced) :
    Embeds r l Fenced (arguments count c) (arguments count (c.embed r l)) := by
  have same : (c.checkArity count .tooManyArguments).rest.length = c.rest.length := by simp
  obtain ⟨hcheck, hchecked⟩ := hc.checkArity (r := r) (l := l) count .tooManyArguments
  have hfirst : Embeds r l Fenced (expression (c.checkArity count .tooManyArguments))
      (expression ((c.embed r l).checkArity count .tooManyArguments)) := by
    rw [hcheck]
    exact expression_embeds hchecked
  rw [arguments, arguments]
  refine hfirst.andThen fun e c₁ hc₁ _ _ => ?_
  rw [hc₁.symbol?]
  cases ht : c₁.symbol? .comma with
  | some x =>
    obtain ⟨comma, c₂, hlt⟩ := x
    have hc₂ := hc₁.next_symbol ht (by decide)
    exact (arguments_embeds (count + 1) hc₂).andThen fun es c₃ hc₃ _ _ => .ok _ _ hc₃ _ _
  | none => exact .ok _ _ hc₁ _ _
termination_by c.rest.length * 16 + 16
decreasing_by all_goals omega

theorem primary_embeds {c : Cursor} (hc : c.Fenced) :
    Embeds r l Fenced (primary c) (primary (c.embed r l)) := by
  rw [primary, primary, hc.takeIf?]
  cases ht : c.takeIf? (fun _ => true) with
  | none => exact hc.fail_embeds _
  | some x =>
    obtain ⟨t, c₁, hlt⟩ := x
    -- the semicolon is no primary expression, so whatever is read leaves the reader in the chunk
    have hc₁ {k : TokenKind} (hk : t.kind = k) (hne : k ≠ .symbol .semicolon) : c₁.Fenced :=
      hc.next ht (hk ▸ hne)
    dsimp only [Option.map_some, Taken.embed]
    split
    · rename_i value _ hv
      refine .ok _ _ (hc.next ht fun hk => ?_) _ _
      rw [hk] at hv
      cases hv
    · exact .ok _ _ (hc₁ ‹_› (by decide)).useId _ _
    · refine ((hc₁ ‹_› (by decide)).expect_inner _ (by decide)).andThen fun dot c₂ hc₂ _ _ => ?_
      refine (hc₂.expect_inner _ (by decide)).andThen fun method c₃ hc₃ _ _ => ?_
      exact .ok _ _ hc₃.useId _ _
    · exact .ok _ _ (hc₁ ‹_› (by decide)).useId _ _
    · refine (expression_embeds (hc₁ ‹_› (by decide))).andThen fun inner c₂ hc₂ _ _ => ?_
      exact (hc₂.expect_inner _ (by decide)).andThen fun closing c₃ hc₃ _ _ => .ok _ _ hc₃ _ _
    · exact hc.fail_embeds _
termination_by c.rest.length * 16
decreasing_by all_goals omega

end

/-! ## Parts of statements -/

theorem terminated_inner {s : Symbol} (hs : s ≠ .semicolon) (what : Expected) (hc : c.Fenced) :
    Embeds r l Fenced (terminated s what c) (terminated s what (c.embed r l)) := by
  have hk : TokenKind.symbol s ≠ .symbol .semicolon := fun h => hs (TokenKind.symbol.inj h)
  unfold terminated
  refine (expression_embeds hc).andThen fun e c₁ hc₁ _ _ => ?_
  exact (hc₁.expect_inner what hk).andThen fun _ c₂ hc₂ _ _ => .ok _ _ hc₂ _ _

theorem terminated_semicolon (what : Expected) (hc : c.Fenced) :
    Embeds r l Finished (terminated .semicolon what c)
      (terminated .semicolon what (c.embed r l)) := by
  unfold terminated
  refine (expression_embeds hc).andThen fun e c₁ hc₁ _ _ => ?_
  exact (hc₁.expect_semicolon what).andThen fun _ c₂ hc₂ _ _ => .ok _ _ hc₂ _ _

theorem optional_semicolon (what : Expected) (hc : c.Fenced) :
    Embeds r l Finished (optional .semicolon what c) (optional .semicolon what (c.embed r l)) := by
  unfold optional
  rw [hc.symbol?]
  cases ht : c.symbol? .semicolon with
  | some x =>
    obtain ⟨t, c₁, hlt⟩ := x
    exact .ok _ _ (hc.finished ht) _ _
  | none => exact (terminated_semicolon what hc).andThen fun e c₁ hc₁ _ _ => .ok _ _ hc₁ _ _

theorem parenthesized_embeds (opening closing : Expected) (hc : c.Fenced) :
    Embeds r l Fenced (parenthesized opening closing c)
      (parenthesized opening closing (c.embed r l)) := by
  unfold parenthesized
  refine (hc.expect_inner opening (by decide)).andThen fun _ c₁ hc₁ _ _ => ?_
  exact (terminated_inner (by decide) closing hc₁).andThen fun e c₂ hc₂ _ _ => .ok _ _ hc₂ _ _

theorem variableDeclaration_embeds (hc : c.Fenced) :
    Embeds r l Finished (variableDeclaration c) (variableDeclaration (c.embed r l)) := by
  unfold variableDeclaration
  refine (hc.expect_inner _ (by decide)).andThen fun name c₁ hc₁ _ _ => ?_
  rw [hc₁.symbol?]
  cases ht : c₁.symbol? .equal with
  | some x =>
    obtain ⟨equals, c₂, hlt⟩ := x
    have hc₂ := hc₁.next_symbol ht (by decide)
    exact (terminated_semicolon _ hc₂).andThen fun e c₃ hc₃ _ _ => .ok _ _ hc₃ _ _
  | none => exact (hc₁.expect_semicolon _).andThen fun _ c₂ hc₂ _ _ => .ok _ _ hc₂ _ _

theorem expressionStatement_embeds (hc : c.Fenced) :
    Embeds r l Finished (expressionStatement c) (expressionStatement (c.embed r l)) := by
  unfold expressionStatement
  exact (terminated_semicolon _ hc).andThen fun e c₁ hc₁ _ _ => .ok _ _ hc₁ _ _

theorem parameters_embeds (count : Nat) {c : Cursor} (hc : c.Fenced) :
    Embeds r l Fenced (parameters count c) (parameters count (c.embed r l)) := by
  have same : (c.checkArity count .tooManyParameters).rest.length = c.rest.length := by simp
  obtain ⟨hcheck, hchecked⟩ := hc.checkArity (r := r) (l := l) count .tooManyParameters
  have hfirst := hchecked.expect_inner (r := r) (l := l) (k := .identifier) .parameterName
    (by decide)
  rw [← hcheck] at hfirst
  rw [parameters, parameters]
  refine hfirst.andThen fun name c₁ hc₁ _ _ => ?_
  rw [hc₁.symbol?]
  cases ht : c₁.symbol? .comma with
  | some x =>
    obtain ⟨comma, c₂, hlt⟩ := x
    have hc₂ := hc₁.next_symbol ht (by decide)
    exact (parameters_embeds (count + 1) hc₂).andThen fun names c₃ hc₃ _ _ => .ok _ _ hc₃ _ _
  | none => exact .ok _ _ hc₁ _ _
termination_by c.rest.length
decreasing_by omega

theorem parameterList_embeds (hc : c.Fenced) :
    Embeds r l Fenced (parameterList c) (parameterList (c.embed r l)) := by
  unfold parameterList
  rw [hc.symbol?]
  cases ht : c.symbol? .rightParen with
  | some x =>
    obtain ⟨t, c₁, hlt⟩ := x
    exact .ok _ _ (hc.next_symbol ht (by decide)) _ _
  | none =>
    refine (parameters_embeds 0 hc).andThen fun names c₁ hc₁ _ _ => ?_
    exact (hc₁.expect_inner _ (by decide)).andThen fun _ c₂ hc₂ _ _ => .ok _ _ hc₂ _ _

/-- Without a brace there is no class. -/
theorem classHeader_embeds (hc : c.Fenced) :
    Embeds r l (fun _ => False) (classHeader c) (classHeader (c.embed r l)) := by
  unfold classHeader
  rw [hc.symbol?]
  cases ht : c.symbol? .less with
  | some x =>
    obtain ⟨less, c₁, hlt⟩ := x
    have hc₁ := hc.next_symbol ht (by decide)
    refine (hc₁.expect_inner _ (by decide)).andThen fun name c₂ hc₂ _ _ => ?_
    exact (hc₂.expect_leftBrace _).andThen fun _ _ hfalse => hfalse.elim
  | none => exact (hc.expect_leftBrace _).andThen fun _ _ hfalse => hfalse.elim

/-! ## Declarations and statements -/

theorem classDeclaration_embeds (hc : c.Fenced) :
    Embeds r l (fun _ => False) (classDeclaration c) (classDeclaration (c.embed r l)) := by
  rw [classDeclaration, classDeclaration]
  refine (hc.expect_inner _ (by decide)).andThen fun name c₁ hc₁ _ _ => ?_
  exact (classHeader_embeds hc₁).andThen fun _ _ hfalse => hfalse.elim

/-- Without a brace there is no function. -/
theorem function_embeds (form : FunctionForm) (hc : c.Fenced) :
    Embeds r l (fun _ => False) (function form c) (function form (c.embed r l)) := by
  rw [function, function]
  refine (hc.expect_inner _ (by decide)).andThen fun name c₁ hc₁ _ _ => ?_
  refine (hc₁.expect_inner _ (by decide)).andThen fun _ c₂ hc₂ _ _ => ?_
  refine (parameterList_embeds hc₂).andThen fun params c₃ hc₃ _ _ => ?_
  exact (hc₃.expect_leftBrace _).andThen fun _ _ hfalse => hfalse.elim

/-- What begins neither with a word that starts a statement nor with a brace is an expression. -/
theorem statement_eq_expressionStatement {ts : List Token} {cs : List Complaint} {n : Nat}
    (hstart : t.startsStatement = false) (hbrace : t.kind ≠ .symbol .leftBrace) :
    statement ⟨t :: ts, cs, n⟩ = expressionStatement ⟨t :: ts, cs, n⟩ := by
  rw [statement, takeIf?_cons rfl]
  dsimp only
  split <;> simp_all [Token.startsStatement]

theorem Fenced.statement_embeds (hc : c.Fenced) :
    Embeds r l Finished (statement c) (statement (c.embed r l)) := by
  have hexpression := expressionStatement_embeds (r := r) (l := l) hc
  obtain ⟨rest, complaints, nextId⟩ := c
  have hfence : Fence rest := hc.fence
  cases hfence with
  | @last t ht =>
    have hstart : t.startsStatement = false := by rw [Token.startsStatement, ht]
    have hbrace : t.kind ≠ .symbol .leftBrace := by rw [ht]; decide
    rw [embed, List.cons_append, statement_eq_expressionStatement hstart hbrace,
      statement_eq_expressionStatement hstart hbrace]
    exact hexpression
  | cons ht _ =>
    rw [embed, List.cons_append, statement_eq_expressionStatement ht.not_start ht.not_leftBrace,
      statement_eq_expressionStatement ht.not_start ht.not_leftBrace]
    exact hexpression

end Cursor

/-! ## Chunks -/

/-- A list of tokens that is meant to be one flat statement, but may be malformed. -/
structure IsChunk (w : List Token) : Prop where
  noEof : ∀ t ∈ w, t.isEof = false
  ends : w.getLast?.map Token.kind = some (.symbol .semicolon)
  single : ∀ t ∈ w.dropLast, t.kind ≠ .symbol .semicolon
  noBraces : ∀ t ∈ w, t.kind ≠ .symbol .leftBrace ∧ t.kind ≠ .symbol .rightBrace
  flat : ∀ t ∈ w.tail, t.startsStatement = false
  starts : ∀ t ∈ w.head?, t.kind ≠ .keyword .for_ ∧ t.kind ≠ .keyword .else_

instance (w : List Token) : Decidable (IsChunk w) :=
  decidable_of_iff
    ((∀ t ∈ w, t.isEof = false) ∧ w.getLast?.map Token.kind = some (.symbol .semicolon) ∧
      (∀ t ∈ w.dropLast, t.kind ≠ .symbol .semicolon) ∧
      (∀ t ∈ w, t.kind ≠ .symbol .leftBrace ∧ t.kind ≠ .symbol .rightBrace) ∧
      (∀ t ∈ w.tail, t.startsStatement = false) ∧
      ∀ t ∈ w.head?, t.kind ≠ .keyword .for_ ∧ t.kind ≠ .keyword .else_)
    ⟨fun ⟨h₁, h₂, h₃, h₄, h₅, h₆⟩ => ⟨h₁, h₂, h₃, h₄, h₅, h₆⟩,
      fun ⟨h₁, h₂, h₃, h₄, h₅, h₆⟩ => ⟨h₁, h₂, h₃, h₄, h₅, h₆⟩⟩

theorem Fence.of_flat {w : List Token} (hends : w.getLast?.map Token.kind = some (.symbol .semicolon))
    (hsingle : ∀ t ∈ w.dropLast, t.kind ≠ .symbol .semicolon)
    (hbraces : ∀ t ∈ w, t.kind ≠ .symbol .leftBrace ∧ t.kind ≠ .symbol .rightBrace)
    (hflat : ∀ t ∈ w, t.startsStatement = false) : Fence w := by
  induction w with
  | nil => cases hends
  | cons t ts ih =>
    cases ts with
    | nil => exact .last (Option.some.inj hends)
    | cons u us =>
      rw [List.getLast?_cons_cons] at hends
      rw [List.dropLast_cons_cons] at hsingle
      obtain ⟨hsemicolon, hsingle⟩ := List.forall_mem_cons.mp hsingle
      obtain ⟨hbrace, hbraces⟩ := List.forall_mem_cons.mp hbraces
      obtain ⟨hstart, hflat⟩ := List.forall_mem_cons.mp hflat
      exact .cons ⟨hsemicolon, hbrace.1, hbrace.2, hstart⟩ (ih hends hsingle hbraces hflat)

namespace IsChunk

variable {w : List Token} {t : Token} {ts : List Token}

theorem ne_nil (h : IsChunk w) : w ≠ [] := by
  rintro rfl
  cases h.ends

theorem apart_else (h : IsChunk w) (r : List Token) : Apart [.keyword .else_] (w ++ r) := by
  obtain ⟨t, ts, rfl⟩ := List.exists_cons_of_ne_nil h.ne_nil
  exact .cons fun hk => (h.starts t rfl).2 (List.mem_singleton.mp hk)

theorem fenced_of_flat {cs : List Complaint} {n : Nat} (h : IsChunk (t :: ts)) (hcs : Located cs)
    (hstart : t.startsStatement = false) : Cursor.Fenced ⟨t :: ts, cs, n⟩ :=
  ⟨.of_flat h.ends h.single h.noBraces (List.forall_mem_cons.mpr ⟨hstart, h.flat⟩), hcs⟩

/-- Behind the word that starts a statement there is more of the chunk. -/
theorem fenced_of_start {cs : List Complaint} {n : Nat} (h : IsChunk (t :: ts)) (hcs : Located cs)
    (hstart : t.startsStatement = true) : Cursor.Fenced ⟨ts, cs, n⟩ := by
  have hne : ts ≠ [] := by
    rintro rfl
    rw [Token.startsStatement, show t.kind = .symbol .semicolon from Option.some.inj h.ends]
      at hstart
    cases hstart
  obtain ⟨u, us, rfl⟩ := List.exists_cons_of_ne_nil hne
  have hends := h.ends
  rw [List.getLast?_cons_cons] at hends
  have hsingle := h.single
  rw [List.dropLast_cons_cons] at hsingle
  exact ⟨.of_flat hends (List.forall_mem_cons.mp hsingle).2
    (List.forall_mem_cons.mp h.noBraces).2 h.flat, hcs⟩

end IsChunk

namespace Cursor

open Step (Embeds)

variable {r : List Token} {l : List Complaint} {t : Token} {w ts : List Token} {cs : List Complaint}
  {n : Nat}

/-- Behind the word that starts it, a statement goes on inside the chunk. -/
theorem statement_embeds_of_start (hstart : t.startsStatement = true) (hfor : t.kind ≠ .keyword .for_)
    (hapart : Apart [.keyword .class_, .keyword .fun_, .keyword .var_] (t :: ts))
    (hc : Fenced ⟨ts, cs, n⟩) (hr : Apart [.keyword .else_] r) :
    Embeds r l Finished (statement ⟨t :: ts, cs, n⟩) (statement ⟨t :: (ts ++ r), cs ++ l, n⟩) := by
  rw [statement, statement, takeIf?_cons rfl, takeIf?_cons rfl]
  dsimp only
  split
  · rename_i hk
    exact absurd hk hfor
  · refine (parenthesized_embeds _ _ hc).andThen fun condition c₁ hc₁ _ _ => ?_
    refine hc₁.statement_embeds.andThen fun thenBranch c₂ hc₂ _ _ => ?_
    obtain ⟨rest, complaints, nextId⟩ := c₂
    have hrest : rest = [] := hc₂.rest_eq
    subst hrest
    have hnone : keyword? (embed r l ⟨[], complaints, nextId⟩) .else_ = none := take?_of_apart hr
    rw [hnone]
    exact .ok _ _ hc₂ _ _
  · refine (parenthesized_embeds _ _ hc).andThen fun condition c₁ hc₁ _ _ => ?_
    exact hc₁.statement_embeds.andThen fun body c₂ hc₂ _ _ => .ok _ _ hc₂ _ _
  · exact (optional_semicolon _ hc).andThen fun value c₁ hc₁ _ _ => .ok _ _ hc₁ _ _
  · exact (terminated_semicolon _ hc).andThen fun e c₁ hc₁ _ _ => .ok _ _ hc₁ _ _
  · rename_i hk
    rw [Token.startsStatement, hk] at hstart
    cases hstart
  · rename_i h₁ h₂ h₃ h₄ h₅
    have h := hapart t rfl
    unfold Token.startsStatement at hstart
    split at hstart <;> simp_all

theorem declaration_embeds (hw : IsChunk w) (hcs : Located cs) (hr : Apart [.keyword .else_] r) :
    Embeds r l Finished (declaration ⟨w, cs, n⟩) (declaration ⟨w ++ r, cs ++ l, n⟩) := by
  obtain ⟨t, ts, rfl⟩ := List.exists_cons_of_ne_nil hw.ne_nil
  rw [List.cons_append, declaration, declaration]
  simp only [keyword?]
  by_cases hclass : t.kind = .keyword .class_
  · have hc : Fenced ⟨ts, cs, n⟩ :=
      hw.fenced_of_start hcs (by rw [Token.startsStatement, hclass])
    rw [take?_cons hclass, take?_cons hclass]
    exact (classDeclaration_embeds hc).elim.widen
  rw [take?_of_ne hclass, take?_of_ne hclass]
  dsimp only
  by_cases hfun : t.kind = .keyword .fun_
  · have hc : Fenced ⟨ts, cs, n⟩ :=
      hw.fenced_of_start hcs (by rw [Token.startsStatement, hfun])
    rw [take?_cons hfun, take?_cons hfun]
    exact (function_embeds .function hc).andThen fun _ _ hfalse => hfalse.elim
  rw [take?_of_ne hfun, take?_of_ne hfun]
  dsimp only
  by_cases hvar : t.kind = .keyword .var_
  · have hc : Fenced ⟨ts, cs, n⟩ :=
      hw.fenced_of_start hcs (by rw [Token.startsStatement, hvar])
    rw [take?_cons hvar, take?_cons hvar]
    exact (variableDeclaration_embeds hc).widen
  rw [take?_of_ne hvar, take?_of_ne hvar]
  dsimp only
  cases hstart : t.startsStatement with
  | false => exact (hw.fenced_of_flat hcs hstart).statement_embeds
  | true =>
    exact statement_embeds_of_start hstart (hw.starts t rfl).1 (.cons (by simp [hclass, hfun, hvar]))
      (hw.fenced_of_start (n := n) hcs hstart) hr

/-- After a complaint the rest of the chunk is skipped. -/
theorem Fenced.resume {c : Cursor} (hc : c.Fenced) {e : Complaint} (he : e.token? ≠ none) :
    (c.report e).resume.Finished ∧
      ((c.embed r l).report e).resume = (c.report e).resume.embed r l := by
  obtain ⟨rest, complaints, nextId⟩ := c
  obtain ⟨t, ts, rfl⟩ := List.exists_cons_of_ne_nil hc.ne_nil
  have hskip (us : List Token) (ls : List Complaint) :
      (Cursor.report ⟨t :: us, ls, nextId⟩ e).resume = ⟨resumeAfter t us, e :: ls, nextId⟩ := rfl
  have halone := resumeAfter_of_fence [] hc.fence
  rw [List.append_nil] at halone
  rw [embed, List.cons_append, hskip, hskip, halone, resumeAfter_of_fence r hc.fence]
  exact ⟨⟨rfl, hc.located.cons he⟩, rfl⟩

/-- A chunk is read, or skipped after a complaint, to its end and no further. -/
theorem declared_embed (hw : IsChunk w) (hcs : Located cs) (hr : Apart [.keyword .else_] r)
    (hne : w ≠ []) (hne' : w ++ r ≠ []) :
    (declared ⟨w, cs, n⟩ hne).next.Finished ∧
      (declared ⟨w ++ r, cs ++ l, n⟩ hne').result = (declared ⟨w, cs, n⟩ hne).result ∧
      (declared ⟨w ++ r, cs ++ l, n⟩ hne').next = (declared ⟨w, cs, n⟩ hne).next.embed r l := by
  have hembeds := declaration_embeds (l := l) (n := n) hw hcs hr
  rw [declared, declared]
  generalize declaration ⟨w, cs, n⟩ = x at hembeds ⊢
  generalize declaration ⟨w ++ r, cs ++ l, n⟩ = x' at hembeds ⊢
  cases hembeds with
  | ok s c₁ hc₁ _ _ => exact ⟨hc₁, rfl, rfl⟩
  | failed e c₁ he hc₁ _ _ =>
    obtain ⟨hfinished, hresume⟩ := hc₁.resume (r := r) (l := l) he
    exact ⟨hfinished, rfl, hresume⟩

/-- In front of other tokens a chunk is read as it is alone, and then those are read. -/
theorem program_of_chunk (hw : IsChunk w) (hr : Apart [.keyword .else_] r) :
    ∃ ss c₁, program ⟨w, [], n⟩ = (ss, c₁) ∧ Located c₁.complaints ∧
      program ⟨w ++ r, l, n⟩ =
        (ss ++ (program ⟨r, c₁.complaints ++ l, c₁.nextId⟩).1,
          (program ⟨r, c₁.complaints ++ l, c₁.nextId⟩).2) := by
  have hne' : w ++ r ≠ [] := mt List.append_eq_nil_iff.mp fun h => hw.ne_nil h.1
  obtain ⟨hfinished, hresult, hnext⟩ :
      (declared ⟨w, [], n⟩ hw.ne_nil).next.Finished ∧
        (declared ⟨w ++ r, l, n⟩ hne').result = (declared ⟨w, [], n⟩ hw.ne_nil).result ∧
        (declared ⟨w ++ r, l, n⟩ hne').next = (declared ⟨w, [], n⟩ hw.ne_nil).next.embed r l :=
    declared_embed hw (List.forall_mem_nil _) hr hw.ne_nil hne'
  refine ⟨_, _, program_of_declared (c := ⟨w, [], n⟩) hw.ne_nil rfl, ?_, ?_⟩
  · rw [program_of_nil hfinished.rest_eq]
    exact hfinished.located
  · rw [program_of_declared (c := ⟨w ++ r, l, n⟩) hne' rfl, hresult, hnext,
      program_of_nil hfinished.rest_eq, embed, hfinished.rest_eq, List.append_nil, List.nil_append]

end Cursor

/-! ## Chunks in a row -/

namespace Parsed

variable {α : Type}

/-- The errors that were found, if the tokens were refused. -/
def errors (p : Parsed α) : List ParseError :=
  match p.result with
  | .ok _ => []
  | .error es => es

end Parsed

namespace Grammar

variable {w : List Token}

theorem errors_program (n : Nat) (ts : List Token) :
    (program n ts).errors = errors ts (start n ts).program.2 := by
  unfold program conclude Parsed.errors
  generalize (start n ts).program = r
  obtain ⟨tree, c⟩ := r
  cases h : errors ts c with
  | nil => simp [h]
  | cons e es => simp [h]

/-- Without an error a tree is handed out. -/
theorem result_of_errors_eq_nil {n : Nat} {ts : List Token} (h : (program n ts).errors = []) :
    (program n ts).result = .ok (start n ts).program.1 := by
  cases hresult : (program n ts).result with
  | ok ss => rw [(program_eq_ok_iff.mp hresult).1]
  | error es =>
    unfold Parsed.errors at h
    rw [hresult] at h
    exact absurd h (program_eq_error_iff.mp hresult).2

/-- The errors do not depend on the identities that are in use. -/
theorem errors_program_eq (n m : Nat) (ts : List Token) :
    (program n ts).errors = (program m ts).errors := by
  have herased := program_erased n m ts
  unfold Parsed.errors
  cases hn : (program n ts).result <;> cases hm : (program m ts).result <;> simp_all [Except.map]

/-- It does not matter for complaints about tokens on which line the input ends. -/
theorem toError_of_located {cs : List Complaint} (h : Located cs) (line line' : Nat) :
    cs.reverse.map (·.toError line) = cs.reverse.map (·.toError line') := by
  refine List.map_congr_left fun e he => ?_
  unfold Complaint.toError
  cases ht : e.token? with
  | none => exact absurd ht (h e (List.mem_reverse.mp he))
  | some t => rfl

variable {chunks : List (List Token)}

/-- No chunk begins with an `else`, so neither do chunks in a row. -/
theorem apart_else_flatten (h : ∀ w ∈ chunks, IsChunk w) : Apart [.keyword .else_] chunks.flatten := by
  cases chunks with
  | nil => exact fun _ ht => nomatch ht
  | cons w ws => exact (h w List.mem_cons_self).apart_else ws.flatten

/-- The complaints about chunks in a row, behind earlier ones. -/
theorem errors_of_chunks (h : ∀ w ∈ chunks, IsChunk w) (m line n : Nat) (l : List Complaint) :
    (Cursor.program ⟨chunks.flatten, l, n⟩).2.complaints.reverse.map (·.toError line) =
      l.reverse.map (·.toError line) ++ chunks.flatMap fun w => (program m w).errors := by
  induction chunks generalizing n l with
  | nil => rw [Cursor.program_of_nil rfl, List.flatMap_nil, List.append_nil]
  | cons w ws ih =>
    obtain ⟨hw, hws⟩ := List.forall_mem_cons.mp h
    obtain ⟨ss, c₁, halone, hlocated, hjoined⟩ := Cursor.program_of_chunk (n := n) (l := l) hw
      (apart_else_flatten hws)
    have hfirst : (program m w).errors = c₁.complaints.reverse.map (·.toError line) := by
      rw [errors_program_eq m n, errors_program, start_of_no_eof n hw.noEof, halone, errors]
      exact toError_of_located hlocated _ _
    rw [List.flatten_cons, hjoined, ih hws, List.reverse_append, List.map_append, List.append_assoc,
      List.flatMap_cons, hfirst]

/-- The statements of chunks in a row, if there is nothing wrong with any of them. -/
theorem statements_of_chunks (h : ∀ w ∈ chunks, IsChunk w) (m n : Nat) (l : List Complaint)
    (hok : ∀ w ∈ chunks, (program m w).errors = []) :
    ∃ units : List (List Stmt), chunks.map (fun w => (program m w).result) = units.map .ok ∧
      Stmt.eraseAll (Cursor.program ⟨chunks.flatten, l, n⟩).1 = Stmt.eraseAll units.flatten := by
  induction chunks generalizing n l with
  | nil => exact ⟨[], rfl, by rw [Cursor.program_of_nil rfl]; rfl⟩
  | cons w ws ih =>
    obtain ⟨hw, hws⟩ := List.forall_mem_cons.mp h
    obtain ⟨hokw, hokws⟩ := List.forall_mem_cons.mp hok
    obtain ⟨ss, c₁, halone, -, hjoined⟩ := Cursor.program_of_chunk (n := n) (l := l) hw
      (apart_else_flatten hws)
    have hss : (program n w).result = .ok ss := by
      rw [result_of_errors_eq_nil ((errors_program_eq n m w).trans hokw),
        start_of_no_eof n hw.noEof, halone]
    obtain ⟨unit, hunit, herased⟩ := exists_program_eq_ok m hss
    obtain ⟨units, hunits, hmore⟩ := ih hws c₁.nextId (c₁.complaints ++ l) hokws
    refine ⟨unit :: units, ?_, ?_⟩
    · rw [List.map_cons, List.map_cons, hunit, hunits]
    · rw [List.flatten_cons, List.flatten_cons, hjoined, Stmt.eraseAll_append, Stmt.eraseAll_append,
        hmore, herased]

/-- Whatever is wrong with flat statements, the errors of all of them are those of each of them, and
without errors the statements are those of each of them. -/
theorem chunks_read_alone (n m : Nat) (h : ∀ w ∈ chunks, IsChunk w) :
    (program n chunks.flatten).errors = chunks.flatMap (fun w => (program m w).errors) ∧
      ((program n chunks.flatten).errors = [] →
        ∃ (joined : List Stmt) (units : List (List Stmt)),
          (program n chunks.flatten).result = .ok joined ∧
          chunks.map (fun w => (program m w).result) = units.map .ok ∧
          Stmt.eraseAll joined = Stmt.eraseAll units.flatten) := by
  have hnoEof : ∀ t ∈ chunks.flatten, t.isEof = false := by
    intro t ht
    obtain ⟨w, hw, htw⟩ := List.mem_flatten.mp ht
    exact (h w hw).noEof t htw
  have herrors : (program n chunks.flatten).errors =
      chunks.flatMap fun w => (program m w).errors := by
    rw [errors_program, start_of_no_eof n hnoEof, errors]
    exact errors_of_chunks h m _ n []
  refine ⟨herrors, fun hnone => ?_⟩
  have hok : ∀ w ∈ chunks, (program m w).errors = [] := by
    rw [herrors] at hnone
    exact List.flatMap_eq_nil_iff.mp hnone
  obtain ⟨units, hunits, herased⟩ := statements_of_chunks h m n [] hok
  refine ⟨_, units, result_of_errors_eq_nil hnone, hunits, ?_⟩
  rw [start_of_no_eof n hnoEof]
  exact herased

/-- The semicolon comes too early, a target can not be assigned to, and nothing is wrong. -/
theorem chunks_read_alone_three :
    (program 0 (body (Source.tokens "print(a;") ++ (body (Source.tokens "nil=b;") ++
        body (Source.tokens "c;")))).errors =
      [⟨1, .lexeme ";", .expected .groupClose⟩, ⟨1, .lexeme "=", .invalidTarget⟩] := by
  have hchunks : ∀ w ∈ [body (Source.tokens "print(a;"), body (Source.tokens "nil=b;"),
      body (Source.tokens "c;")], IsChunk w := by
    decide +kernel
  have h := (chunks_read_alone 0 0 hchunks).1
  have h₁ : (program 0 (body (Source.tokens "print(a;"))).errors =
      [⟨1, .lexeme ";", .expected .groupClose⟩] := by
    cbv
  have h₂ : (program 0 (body (Source.tokens "nil=b;"))).errors =
      [⟨1, .lexeme "=", .invalidTarget⟩] := by
    cbv
  have h₃ : (program 0 (body (Source.tokens "c;"))).errors = [] := by
    cbv
  simpa only [List.flatten_cons, List.flatten_nil, List.append_nil, List.flatMap_cons,
    List.flatMap_nil, h₁, h₂, h₃, List.cons_append, List.nil_append] using h

end Grammar

end LoxWalk
