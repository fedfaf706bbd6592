import LoxWalk.Proofs.Rescanning

/-!
# Other spaces between the tokens

The tokens of a source text can be written down again with other spaces between them: a `Respacing`
has a gap of blanks and comments in front of the first token and one behind each token, and a gap
between two tokens is not empty.  Scanning what is written reports the same tokens, up to the lines
on which they stand (`Source.tokens_respaced`).

One gap has to be avoided.  A comment directly behind a slash makes a comment of the slash too, so
with it the slash is lost (`Source.slash_lost_in_front_of_comment`).
-/

namespace LoxWalk

/-! ## Gaps -/

/-- What separates tokens: a blank, or a comment with the new line that ends it. -/
inductive Filler where
  | blank (c : Char) (isBlank_eq : Source.isBlank c = true)
  | comment (words : List Char) (newline_not_mem : '\n' ∉ words)

namespace Filler

def text : Filler → List Char
  | blank c _ => [c]
  | comment words _ => '/' :: '/' :: words ++ ['\n']

def isComment : Filler → Bool
  | blank _ _ => false
  | comment _ _ => true

/-- The text of a whole gap. -/
def textAll (gap : List Filler) : List Char :=
  (gap.map text).flatten

end Filler

/-- Spaces around the tokens `w`: in front of them all, and behind each of them.  Two neighbours are
kept apart. -/
structure Respacing (w : List Token) where
  front : List Filler
  gaps : List (List Filler)
  length_eq : gaps.length = w.length
  apart : ∀ gap ∈ gaps.dropLast, gap ≠ []

/-- The lexemes of tokens, each with the gap that is written behind it. -/
def Source.layOut : List Token → List (List Filler) → List Char
  | t :: w, gap :: gaps => t.lexeme.toList ++ (Filler.textAll gap ++ layOut w gaps)
  | _, _ => []

namespace Respacing

variable {w : List Token}

/-- The text that is written. -/
def text (r : Respacing w) : String :=
  String.ofList (Filler.textAll r.front ++ Source.layOut w r.gaps)

/-- No gap that begins with a comment stands behind a slash. -/
def SparesSlashes (r : Respacing w) : Prop :=
  ∀ p ∈ w.zip r.gaps, p.1.isSymbol .slash = true → ∀ f ∈ p.2.head?, f.isComment = false

end Respacing

/-! ## Tokens of pieces -/

namespace Piece

open Source

variable {c : Char} {cs rest rest' : List Char} {p : Piece} {t : Token}

/-- The token that a piece is, without its line. -/
def token? (p : Piece) : Option Token :=
  match p.form with
  | .token kind => some ⟨kind, String.ofList p.text, 0⟩
  | .skipped => none
  | .fault _ => none

/-- The piece that a token is. -/
def ofToken (t : Token) : Piece :=
  ⟨.token t.kind, t.lexeme.toList⟩

theorem token?_ofToken (t : Token) : (ofToken t).token? = some t.unlined := by
  rw [token?, ofToken, String.ofList_toList]
  rfl

/-- Only the symbol is spelled like a slash. -/
theorem form_of_text_slash (h : next c cs = (p, rest)) (hp : p.text = ['/']) :
    p.form = .token (.symbol .slash) := by
  obtain ⟨t, -, ht⟩ := exists_text_of_next h
  rw [hp] at ht
  obtain ⟨rfl, -⟩ := List.cons.inj ht
  have hlone : Symbol.lone? '/' = none := rfl
  have hext : Symbol.extensible? '/' = none := rfl
  unfold next at h
  simp only [hlone, hext, if_true] at h
  split at h
  · obtain ⟨rfl, -⟩ := Prod.mk.inj h
    cases (List.cons.inj hp).2
  · obtain ⟨rfl, -⟩ := Prod.mk.inj h
    rfl

/-- Blanks and slashes end every token but a slash. -/
theorem Borders.of_ends (hp : p.form ≠ .skipped)
    (h : ∀ c ∈ rest'.head?, isBlank c = true ∨ c = '/' ∧ p.text ≠ ['/']) :
    Borders p rest rest' := by
  have hclass : ∀ c, isBlank c = true ∨ c = '/' → isWordPart c = false ∧ c.isDigit = false ∧
      c ≠ '.' ∧ c ≠ '=' := by
    intro c hc
    simp only [isBlank, Bool.or_eq_true, beq_iff_eq] at hc
    rcases hc with (((rfl | rfl) | rfl) | rfl) | rfl <;> decide
  have hhead : ∀ c ∈ rest'.head?, isWordPart c = false ∧ c.isDigit = false ∧ c ≠ '.' ∧ c ≠ '=' :=
    fun c hc => hclass c ((h c hc).imp_right And.left)
  refine ⟨?_, ?_, ?_, ?_, ?_, fun hskipped => absurd hskipped hp⟩
  · intro c hc hword
    rw [(hhead c hc).1] at hword
    cases hword
  · intro c hc hdigit
    rw [(hhead c hc).2.1] at hdigit
    cases hdigit
  · rintro d r rfl
    exact absurd rfl (hhead '.' rfl).2.2.1
  · intro hc
    exact absurd rfl (hhead '=' hc).2.2.2
  · intro htext hc
    rcases h '/' hc with hblank | ⟨-, hne⟩
    · cases hblank
    · exact absurd htext hne

end Piece

namespace Source

open Piece

variable {w : List Token} {t : Token} {rest rest' : List Char}

/-- Without their lines, the tokens of a source text are those of its pieces and the end. -/
theorem unlined_tokens (source : String) :
    (tokens source).map Token.unlined =
      (pieces source.toList).filterMap Piece.token? ++ [⟨.eof, "", 0⟩] := by
  have hlocate : ∀ (ps : List Piece) (line : Nat),
      ((locate line ps).filterMap token?).map Token.unlined =
        ps.filterMap Piece.token? ++ [⟨.eof, "", 0⟩] := by
    intro ps
    induction ps with
    | nil => exact fun _ => rfl
    | cons p ps ih =>
      intro line
      rw [List.filterMap_cons]
      cases hp : p.form with
      | token kind =>
        simp only [locate, Piece.token?, hp, List.filterMap_cons, token?, List.map_cons, ih]
        rfl
      | skipped => simp only [locate, Piece.token?, hp, ih]
      | fault fault => simp only [locate, Piece.token?, hp, List.filterMap_cons, token?, ih]
  exact hlocate _ 1

/-- A token that is cut off somewhere. -/
def Scanned (t : Token) : Prop :=
  ∃ c cs rest, next c cs = (ofToken t, rest)

theorem scanned_of_mem_tokens {source : String} (ht : t ∈ tokens source) (heof : t.isEof = false) :
    Scanned t := by
  have hpieces : ∀ p ∈ pieces source.toList, ∃ c cs rest, next c cs = (p, rest) :=
    forall_mem_pieces (fun c cs => ⟨c, cs, _, rfl⟩) _
  rcases mem_tokens_locate ht with hkind | ⟨p, hp, hform, hlexeme⟩
  · simp [Token.isEof, hkind] at heof
  · obtain ⟨c, cs, rest, hnext⟩ := hpieces p hp
    refine ⟨c, cs, rest, ?_⟩
    rw [hnext, ofToken, ← hform, hlexeme, String.toList_ofList]

/-- A token is cut off again in front of what ends it. -/
theorem Scanned.pieces_append (h : Scanned t) (hrest : ∀ c ∈ rest.head?,
      isBlank c = true ∨ c = '/' ∧ t.isSymbol .slash = false) :
    pieces (t.lexeme.toList ++ rest) = ofToken t :: pieces rest := by
  obtain ⟨c, cs, rest₀, hnext⟩ := h
  obtain ⟨text, -, htext⟩ := exists_text_of_next hnext
  have hb : Borders (ofToken t) rest₀ rest := by
    refine .of_ends nofun fun c hc => (hrest c hc).imp_right (And.imp_right fun hslash hp => ?_)
    have hkind : t.kind = .symbol .slash := PieceForm.token.inj (form_of_text_slash hnext hp)
    rw [Token.isSymbol, hkind, beq_self_eq_true] at hslash
    cases hslash
  have hagain := next_of_borders hnext nofun hb htext
  have hlexeme : t.lexeme.toList = c :: text := htext
  rw [hlexeme, List.cons_append, pieces_cons, hagain]

/-- A gap is skipped. -/
theorem pieces_textAll_append (gap : List Filler) (rest : List Char) :
    ∃ qs, pieces (Filler.textAll gap ++ rest) = qs ++ pieces rest ∧
      ∀ q ∈ qs, q.form = .skipped := by
  induction gap with
  | nil => exact ⟨[], rfl, nofun⟩
  | cons f gap ih =>
    obtain ⟨qs, hqs, hskipped⟩ := ih
    have htext : Filler.textAll (f :: gap) = f.text ++ Filler.textAll gap := by
      rw [Filler.textAll, List.map_cons, List.flatten_cons, ← Filler.textAll]
    rw [htext, List.append_assoc]
    cases f with
    | blank c hc =>
      have hnext : ∀ cs, next c cs = (⟨.skipped, [c]⟩, cs) := by
        intro cs
        simp only [isBlank, Bool.or_eq_true, beq_iff_eq] at hc
        rcases hc with ((rfl | rfl) | rfl) | rfl <;> rfl
      refine ⟨⟨.skipped, [c]⟩ :: qs, ?_, List.forall_mem_cons.mpr ⟨rfl, hskipped⟩⟩
      rw [Filler.text, List.singleton_append, pieces_cons, hnext, hqs, List.cons_append]
    | comment words hwords =>
      have hnext : ∀ cs, next '/' ('/' :: words ++ '\n' :: cs) =
          (⟨.skipped, '/' :: '/' :: words⟩, '\n' :: cs) := by
        intro cs
        have hends : ∀ d ∈ ('\n' :: cs).head?, (d != '\n') = false := by
          rintro d ⟨⟩
          rfl
        have hline : ∀ d ∈ words, (d != '\n') = true := by
          intro d hd
          refine bne_iff_ne.mpr fun heq => hwords ?_
          rwa [heq] at hd
        obtain ⟨htake, hdrop⟩ := span_append hline hends
        change comment (words ++ '\n' :: cs) = _
        rw [comment, htake, hdrop]
      have hnewline : ∀ cs, next '\n' cs = (⟨.skipped, ['\n']⟩, cs) := fun cs => rfl
      refine ⟨⟨.skipped, '/' :: '/' :: words⟩ :: ⟨.skipped, ['\n']⟩ :: qs, ?_,
        List.forall_mem_cons.mpr ⟨rfl, List.forall_mem_cons.mpr ⟨rfl, hskipped⟩⟩⟩
      rw [Filler.text, List.append_assoc, List.singleton_append, List.cons_append, pieces_cons,
        hnext, pieces_cons, hnewline, hqs, List.cons_append, List.cons_append]

theorem filterMap_token?_of_skipped {qs : List Piece} (h : ∀ q ∈ qs, q.form = .skipped) :
    qs.filterMap Piece.token? = [] := by
  refine List.filterMap_eq_nil_iff.mpr fun q hq => ?_
  rw [Piece.token?, h q hq]

theorem head?_textAll {gap : List Filler} (hgap : gap ≠ []) (rest : List Char) :
    ∀ c ∈ (Filler.textAll gap ++ rest).head?,
      isBlank c = true ∨ c = '/' ∧ ∃ f ∈ gap.head?, f.isComment = true := by
  cases gap with
  | nil => exact absurd rfl hgap
  | cons f gap =>
    cases f with
    | blank c hc =>
      rintro d ⟨⟩
      exact .inl hc
    | comment words hwords =>
      rintro d ⟨⟩
      exact .inr ⟨rfl, _, rfl, rfl⟩

/-- Tokens that are laid out with gaps are cut off again, one after the other. -/
theorem pieces_layOut (hw : ∀ t ∈ w, Scanned t) {gaps : List (List Filler)}
    (hlength : gaps.length = w.length) (hapart : ∀ gap ∈ gaps.dropLast, gap ≠ [])
    (hslash : ∀ p ∈ w.zip gaps, p.1.isSymbol .slash = true →
      ∀ f ∈ p.2.head?, f.isComment = false) :
    (pieces (layOut w gaps)).filterMap Piece.token? = w.map Token.unlined ∧
      ∀ p ∈ pieces (layOut w gaps), ∀ fault, p.form ≠ .fault fault := by
  induction w generalizing gaps with
  | nil =>
    obtain rfl := List.length_eq_zero_iff.mp hlength
    rw [layOut, pieces]
    · refine ⟨rfl, fun p hp => ?_⟩
      cases hp
    · rintro _ _ _ _ ⟨⟩
  | cons t w ih =>
    cases gaps with
    | nil => cases hlength
    | cons gap gaps =>
      obtain ⟨ht, hw⟩ := List.forall_mem_cons.mp hw
      have hapart' : ∀ gap ∈ gaps.dropLast, gap ≠ [] := by
        intro g hg
        cases gaps with
        | nil => cases hg
        | cons gap' gaps => exact hapart g (List.mem_cons_of_mem _ hg)
      have hends : ∀ c ∈ (Filler.textAll gap ++ layOut w gaps).head?,
          isBlank c = true ∨ c = '/' ∧ t.isSymbol .slash = false := by
        by_cases hgap : gap = []
        · -- only the last gap may be empty
          have hlast : gaps = [] := by
            by_contra hne
            rw [List.dropLast_cons_of_ne_nil hne] at hapart
            exact hapart gap List.mem_cons_self hgap
          have hw : w = [] := List.length_eq_zero_iff.mp (Nat.succ.inj hlength ▸ hlast ▸ rfl)
          rw [hgap, hlast, hw]
          rintro c ⟨⟩
        · refine fun c hc => (head?_textAll hgap _ c hc).imp_right ?_
          rintro ⟨hc, f, hf, hcomment⟩
          refine ⟨hc, Bool.eq_false_iff.mpr fun ht => ?_⟩
          rw [hslash _ List.mem_cons_self ht f hf] at hcomment
          cases hcomment
      obtain ⟨qs, hqs, hskipped⟩ := pieces_textAll_append gap (layOut w gaps)
      obtain ⟨htokens, hfaults⟩ := ih hw (Nat.succ.inj hlength) hapart'
        fun p hp => hslash p (List.mem_cons_of_mem _ hp)
      rw [layOut, ht.pieces_append hends, hqs]
      constructor
      · rw [List.filterMap_cons_some (token?_ofToken t), List.filterMap_append,
          filterMap_token?_of_skipped hskipped, htokens]
        rfl
      · refine List.forall_mem_cons.mpr ⟨?_, fun p hp => ?_⟩
        · rintro fault ⟨⟩
        · rcases List.mem_append.mp hp with hp | hp
          · rw [hskipped p hp]
            rintro fault ⟨⟩
          · exact hfaults p hp

variable {source : String}

theorem scanned_of_mem_dropLast (ht : t ∈ (tokens source).dropLast) : Scanned t := by
  obtain ⟨w, u, hw, -, heof⟩ := tokens_eq_concat source
  rw [hw, List.dropLast_concat] at ht
  have hmem : t ∈ tokens source := hw ▸ List.mem_append_left _ ht
  exact scanned_of_mem_tokens hmem (heof t ht)

/-- The tokens of a source text, written down with other spaces between them, are scanned as the
same tokens, and nothing is wrong with the new text; only the lines may be others.  This holds of the
tokens between the faults of a text as well. -/
theorem tokens_respaced (source : String) (r : Respacing (tokens source).dropLast)
    (hr : r.SparesSlashes) :
    errors r.text = [] ∧
      (tokens r.text).map Token.unlined = (tokens source).map Token.unlined := by
  obtain ⟨htokens, hfaults⟩ := pieces_layOut (fun t ht => scanned_of_mem_dropLast ht) r.length_eq
    r.apart hr
  obtain ⟨qs, hqs, hskipped⟩ := pieces_textAll_append r.front
    (layOut (tokens source).dropLast r.gaps)
  have hpieces : pieces r.text.toList = qs ++ pieces (layOut (tokens source).dropLast r.gaps) := by
    rw [Respacing.text, String.toList_ofList, hqs]
  constructor
  · rw [errors, scan, hpieces, errors_locate_eq_nil]
    intro p hp fault
    rcases List.mem_append.mp hp with hp | hp
    · rw [hskipped p hp]
      rintro ⟨⟩
    · exact hfaults p hp fault
  · have hwords : (tokens source).dropLast.map Token.unlined =
        (pieces source.toList).filterMap Piece.token? := by
      rw [List.map_dropLast, unlined_tokens, List.dropLast_concat]
    rw [unlined_tokens, unlined_tokens, hpieces, List.filterMap_append,
      filterMap_token?_of_skipped hskipped, List.nil_append, htokens, hwords]

/-- The text `1/2` with a comment behind the slash, which stands behind `gap`. -/
def slashComment (gap : List Filler) : Respacing (tokens "1/2").dropLast where
  front := []
  gaps := [[.blank ' ' rfl], gap ++ [.comment ['x'] (by decide)], []]
  length_eq := by
    have : (tokens "1/2").dropLast.length = 3 := by decide +kernel
    rw [this]
    rfl
  apart := by simp

/-- Behind a blank the comment does no harm. -/
theorem tokens_respaced_comment_behind_blank :
    (slashComment [.blank ' ' rfl]).SparesSlashes ∧
      (tokens (slashComment [.blank ' ' rfl]).text).map Token.unlined =
        (tokens "1/2").map Token.unlined := by
  have hspares : (slashComment [.blank ' ' rfl]).SparesSlashes := by
    unfold Respacing.SparesSlashes
    decide +kernel
  exact ⟨hspares, (tokens_respaced "1/2" _ hspares).2⟩

/-- Directly behind the slash the comment takes it in, and the two numbers are all that is left. -/
theorem slash_lost_in_front_of_comment :
    errors "1/2" = [] ∧ (slashComment []).text = "1 ///x\n2" ∧
      (tokens (slashComment []).text).map Token.unlined ≠ (tokens "1/2").map Token.unlined := by
  refine ⟨by decide +kernel, by decide +kernel, ?_⟩
  decide +kernel

end Source

end LoxWalk
