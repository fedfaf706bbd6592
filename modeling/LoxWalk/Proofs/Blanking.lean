import LoxWalk.Proofs.Tiling

/-!
# Characters that fit nowhere

A character with which no lexeme, comment or blank begins is reported where a token could begin, and
then scanning goes on behind it.  It costs nothing else: if each such character is replaced by a space
(`Source.blanked`), the text is cut in the same places (`Source.pieces_blankedText`), and so the same
tokens are found on the same lines, and the same other faults (`Source.scan_blanked`).

Only what is reported is replaced.  The same character inside a string or a comment belongs to that
piece and stays there.
-/

namespace LoxWalk

/-! ## What is blamed on a single character -/

/-- The character that a fault is about, unless it is about a whole string. -/
def ScanFault.misfit? : ScanFault → Option Char
  | unexpectedCharacter c => some c
  | unterminatedString => none

def ScanError.misfit? (e : ScanError) : Option Char :=
  e.fault.misfit?

def ScanItem.misfit? : ScanItem → Option Char
  | token _ => none
  | error e => e.misfit?

def Tile.misfit? (x : Tile) : Option Char :=
  x.report.bind ScanItem.misfit?

/-- The error about a tile that is reported for a single character. -/
def Tile.misfitError? (source : String) (x : Tile) : Option ScanError :=
  x.misfit?.map fun c =>
    ⟨1 + Source.newlines (source.toUTF8.extract 0 x.stop), .unexpectedCharacter c⟩

/-- The text of a tile, or a space if the tile is a character that is reported. -/
def Tile.blanked (x : Tile) : List Char :=
  if x.misfit?.isSome then [' '] else x.text

/-- A source text with a space in the place of each character that is reported. -/
def Source.blanked (source : String) : String :=
  String.ofList ((tiles source).flatMap Tile.blanked)

namespace Piece

open Source

def misfit? (p : Piece) : Option Char :=
  match p.form with
  | .fault fault => fault.misfit?
  | _ => none

/-- The piece that stands in the place of `p`. -/
def blanked (p : Piece) : Piece :=
  if p.misfit?.isSome then ⟨.skipped, [' ']⟩ else p

variable {c : Char} {p : Piece} {rest rest' : List Char}

theorem next_of_unexpected (h : Unexpected c) (cs : List Char) :
    next c cs = (⟨.fault (.unexpectedCharacter c), [c]⟩, cs) := by
  have hblank : ¬ isBlank c = true := Bool.eq_false_iff.mp h.not_blank
  have hdigit : ¬ c.isDigit = true := Bool.eq_false_iff.mp h.not_digit
  have hstart : ¬ isWordStart c = true := Bool.eq_false_iff.mp h.not_wordStart
  unfold next
  rw [h.not_lone, h.not_extensible]
  dsimp only
  rw [if_neg h.not_slash, if_neg hblank, if_neg h.not_quote, if_neg hdigit, if_neg hstart]

/-- A misfit stands alone, and nothing begins with it. -/
theorem misfit?_next_iff {d : Char} {cs : List Char} :
    (next d cs).1.misfit? = some c ↔ (next d cs).1.text = [c] ∧ Unexpected c := by
  constructor
  · intro hp
    have hsound := next_isSound d cs
    rw [misfit?] at hp
    rw [IsSound] at hsound
    cases hform : (next d cs).1.form with
    | token kind => simp [hform] at hp
    | skipped => simp [hform] at hp
    | fault fault =>
      rw [hform] at hp hsound
      cases fault with
      | unterminatedString => cases hp
      | unexpectedCharacter e =>
        obtain rfl := Option.some.inj hp
        exact hsound
  · rintro ⟨htext, hc⟩
    obtain ⟨t, -, ht⟩ := exists_text_of_next (Prod.eta (next d cs)).symm
    obtain ⟨rfl, -⟩ := List.cons.inj (ht.symm.trans htext)
    rw [next_of_unexpected hc]
    rfl

theorem Unexpected.ne_newline (h : Unexpected c) : c ≠ '\n' := by
  rintro rfl
  cases h.not_blank

theorem blanked_of_none (h : p.misfit? = none) : p.blanked = p := by
  rw [blanked, h]
  rfl

theorem blanked_of_some (h : p.misfit? = some c) : p.blanked = ⟨.skipped, [' ']⟩ := by
  rw [blanked, h]
  rfl

/-- What is reported of a piece is blamed on the same character. -/
theorem bind_report_misfit? (p : Piece) (line : Nat) :
    (p.report line).bind ScanItem.misfit? = p.misfit? := by
  unfold Piece.report misfit?
  cases p.form <;> rfl

/-! ## Borders -/

/-- A character that is left as it is, or that fits nowhere and has become a space. -/
def Blanked (c d : Char) : Prop :=
  d = c ∨ Unexpected c ∧ d = ' '

theorem Blanked.eq {c d : Char} (h : Blanked c d) (hd : d ≠ ' ') : c = d :=
  h.elim Eq.symm fun h => absurd h.2 hd

/-- Neither a space nor a misfit goes on with anything. -/
theorem Borders.of_blanked (p : Piece) (h : List.Forall₂ Blanked rest rest') :
    Borders p rest rest' := by
  have hhead : ∀ d ∈ rest'.head?, d ≠ ' ' → d ∈ rest.head? := by
    intro d hd hne
    cases h with
    | nil => exact hd
    | cons hcd _ =>
      obtain rfl := Option.some.inj hd
      exact congrArg some (hcd.eq hne)
  have hkept (q : Char → Bool) (hq : q ' ' = false) :
      ∀ d ∈ rest'.head?, q d = true → ∃ e ∈ rest.head?, q e = true := by
    intro d hd hqd
    refine ⟨d, hhead d hd ?_, hqd⟩
    rintro rfl
    rw [hq] at hqd
    cases hqd
  refine ⟨hkept isWordPart rfl, hkept Char.isDigit rfl, ?_, fun h => hhead _ h (by decide),
    fun _ h => hhead _ h (by decide), ?_⟩
  · rintro d r rfl hd
    cases h with
    | cons hpoint h =>
      cases h with
      | cons hdigit _ =>
        have hne : d ≠ ' ' := by
          rintro rfl
          cases hd
        obtain rfl := hpoint.eq (by decide)
        obtain rfl := hdigit.eq hne
        exact ⟨_, _, rfl, hd⟩
  · intro _ hline d hd
    cases h with
    | nil => cases hd
    | @cons e _ _ _ hed _ =>
      obtain rfl := Option.some.inj hd
      obtain rfl := hline e rfl
      exact hed.elim id fun h => absurd rfl h.1.ne_newline

end Piece

/-! ## The same cuts -/

namespace Source

open Piece

theorem forall₂_blanked (cs : List Char) :
    List.Forall₂ Blanked cs ((pieces cs).map fun p => p.blanked.text).flatten := by
  fun_induction pieces cs with
  | case1 => exact .nil
  | case2 c cs ih =>
    have hpart : List.Forall₂ Blanked (next c cs).1.text (next c cs).1.blanked.text := by
      cases hp : (next c cs).1.misfit? with
      | none =>
        rw [blanked_of_none hp]
        exact List.forall₂_same.mpr fun _ _ => .inl rfl
      | some d =>
        obtain ⟨hd, hunexpected⟩ := misfit?_next_iff.mp hp
        rw [hd, blanked_of_some hp]
        exact .cons (.inr ⟨hunexpected, rfl⟩) .nil
    rw [List.map_cons, List.flatten_cons, ← next_text c cs]
    exact List.rel_append hpart ih

/-- With spaces in the place of the misfits a text is cut in the same places. -/
theorem pieces_blankedText (cs : List Char) :
    pieces ((pieces cs).map fun p => p.blanked.text).flatten = (pieces cs).map Piece.blanked := by
  fun_induction pieces cs with
  | case1 => exact pieces.eq_1
  | case2 c cs ih =>
    rw [List.map_cons, List.map_cons, List.flatten_cons]
    cases hp : (next c cs).1.misfit? with
    | some d =>
      rw [blanked_of_some hp, ← ih]
      exact pieces_cons ' ' _
    | none =>
      obtain ⟨t, hcs, ht⟩ := exists_text_of_next (Prod.eta (next c cs)).symm
      rw [blanked_of_none hp, ht, List.cons_append, pieces_cons]
      by_cases hopen : (next c cs).1.form = .fault .unterminatedString
      · -- nothing follows a string that is not closed
        have hrest : (next c cs).2 = [] := by
          have hsound := next_isSound c cs
          rw [IsSound, hopen] at hsound
          exact hsound.2
        rw [hrest, List.append_nil] at hcs
        rw [hrest, pieces.eq_1, List.map_nil, List.flatten_nil, List.append_nil, ← hcs, hrest,
          pieces.eq_1, List.map_nil]
      · have hb := Borders.of_blanked (next c cs).1 (forall₂_blanked (next c cs).2)
        rw [next_of_borders (Prod.eta (next c cs)).symm hopen hb ht, ih]

/-- The lines stay, and of the items only the faults of the misfits are gone. -/
theorem locate_map_blanked {ps : List Piece} (line : Nat)
    (h : ∀ p ∈ ps, ∀ c, p.misfit? = some c → p.text = [c] ∧ Unexpected c) :
    locate line (ps.map Piece.blanked) = (locate line ps).filter (·.misfit?.isNone) := by
  induction ps generalizing line with
  | nil => rfl
  | cons p ps ih =>
    obtain ⟨hp, hps⟩ := List.forall_mem_cons.mp h
    have hreport := bind_report_misfit? p (line + p.text.count '\n')
    rw [List.map_cons, locate_cons, locate_cons, List.filter_append, ← ih _ hps]
    cases hmisfit : p.misfit? with
    | some c =>
      obtain ⟨htext, hunexpected⟩ := hp c hmisfit
      have hline : p.text.count '\n' = 0 := by
        rw [htext]
        exact List.count_eq_zero_of_not_mem fun hmem =>
          hunexpected.ne_newline (List.mem_singleton.mp hmem).symm
      obtain ⟨item, hitem, hblamed⟩ := Option.bind_eq_some_iff.mp (hreport.trans hmisfit)
      have hgone : (p.report (line + p.text.count '\n')).toList.filter (·.misfit?.isNone) = [] := by
        rw [hitem, Option.toList_some, List.filter_cons_of_neg (by simp [hblamed]), List.filter_nil]
      rw [hgone, blanked_of_some hmisfit, hline]
      rfl
    | none =>
      have hkept : (p.report (line + p.text.count '\n')).toList.filter (·.misfit?.isNone) =
          (p.report (line + p.text.count '\n')).toList := by
        refine List.filter_eq_self.mpr fun item hitem => ?_
        have := Option.bind_eq_none_iff.mp (hreport.trans hmisfit) item (Option.mem_toList.mp hitem)
        rw [this]
        rfl
      rw [hkept, blanked_of_none hmisfit]

/-! ## Faults -/

/-- Nothing is scanned behind a string that is not closed. -/
theorem dropLast_errors_locate (line : Nat) (cs : List Char) :
    ∀ e ∈ ((locate line (pieces cs)).filterMap error?).dropLast, e.fault ≠ .unterminatedString := by
  fun_induction pieces cs generalizing line with
  | case1 => exact fun e he => absurd he List.not_mem_nil
  | case2 c cs ih =>
    have ih := ih (line + (next c cs).1.text.count '\n')
    have hsound := next_isSound c cs
    rw [locate_cons, List.filterMap_append, Piece.report]
    rw [IsSound] at hsound
    cases hform : (next c cs).1.form with
    | token kind => exact ih
    | skipped => exact ih
    | fault fault =>
      rw [hform] at hsound
      cases fault with
      | unterminatedString =>
        rw [hsound.2, pieces.eq_1]
        exact fun e he => absurd he List.not_mem_nil
      | unexpectedCharacter d =>
        generalize (locate _ (pieces _)).filterMap error? = es at ih ⊢
        cases es with
        | nil => exact fun e he => absurd he List.not_mem_nil
        | cons f fs =>
          refine List.forall_mem_cons.mpr ⟨?_, ih⟩
          rintro ⟨⟩

/-! ## Tiles -/

/-- The tiles of a text are blanked as its pieces are. -/
theorem flatMap_blanked_place (before : List Char) (line : Nat) (ps : List Piece) :
    (place before line ps).flatMap Tile.blanked = (ps.map fun p => p.blanked.text).flatten := by
  induction ps generalizing before line with
  | nil => rfl
  | cons p ps ih =>
    rw [place, List.flatMap_cons, List.map_cons, List.flatten_cons, ih, Tile.blanked, Tile.misfit?,
      Piece.blanked, bind_report_misfit?]
    split <;> rfl

theorem flatMap_text_place (before : List Char) (line : Nat) (ps : List Piece) :
    (place before line ps).flatMap Tile.text = (ps.map Piece.text).flatten := by
  induction ps generalizing before line with
  | nil => rfl
  | cons p ps ih => rw [place, List.flatMap_cons, List.map_cons, List.flatten_cons, ih]

theorem exists_piece_of_mem_place {before : List Char} {line : Nat} {ps : List Piece} {x : Tile}
    (hx : x ∈ place before line ps) : ∃ p ∈ ps, ∃ n, x.text = p.text ∧ x.report = p.report n := by
  induction ps generalizing before line with
  | nil => exact absurd hx List.not_mem_nil
  | cons p ps ih =>
    rcases List.mem_cons.mp hx with rfl | hx
    · exact ⟨p, List.mem_cons_self, _, rfl, rfl⟩
    · obtain ⟨q, hq, h⟩ := ih hx
      exact ⟨q, List.mem_cons_of_mem p hq, h⟩

/-- A tile is reported as a misfit just if it is a character with which nothing begins. -/
theorem misfit?_eq_some_iff {source : String} {x : Tile} (hx : x ∈ tiles source) {c : Char} :
    x.misfit? = some c ↔ x.text = [c] ∧ Unexpected c := by
  obtain ⟨p, hp, n, htext, hreport⟩ := exists_piece_of_mem_place hx
  rw [Tile.misfit?, hreport, bind_report_misfit?, htext]
  exact forall_mem_pieces (P := fun p => p.misfit? = some c ↔ p.text = [c] ∧ Unexpected c)
    (fun d ds => misfit?_next_iff) _ p hp

theorem fits_of_mem_tiles {source : String} {x : Tile} (hx : x ∈ tiles source) : x.Fits source := by
  have : x.Fits (String.ofList ([] ++ source.toList)) := fits_of_mem_place hx
  rwa [List.nil_append, String.ofList_toList] at this

/-- What is reported of a tile, if it is a misfit, names the character and the line of the tile. -/
theorem report_filter_misfit? {source : String} {x : Tile} (hx : x.Fits source) :
    (x.report.bind error?).filter (·.misfit?.isSome) = x.misfitError? source := by
  have htruthful := hx.truthful
  rw [Tile.Truthful] at htruthful
  rw [Tile.misfitError?, Tile.misfit?]
  cases hreport : x.report with
  | none => rfl
  | some item =>
    rw [hreport] at htruthful
    cases item with
    | token t => rfl
    | error e =>
      obtain ⟨line, fault⟩ := e
      obtain ⟨rfl, -⟩ := htruthful
      cases fault <;> rfl

/-- With a space in the place of each character that is reported, a source text has the same items
without the faults of these characters. -/
theorem scan_blanked (source : String) :
    scan (blanked source) = (scan source).filter (·.misfit?.isNone) := by
  have hmisfits : ∀ p ∈ pieces source.toList, ∀ c, p.misfit? = some c →
      p.text = [c] ∧ Unexpected c :=
    forall_mem_pieces (fun c cs d => misfit?_next_iff.mp) _
  rw [scan, scan, blanked, tiles, String.toList_ofList, flatMap_blanked_place, pieces_blankedText,
    locate_map_blanked 1 hmisfits]

/-- What stands in a string is not reported, and so it stays. -/
example : blanked "a#b \"#\"" = "a b \"#\"" := by decide +kernel

theorem errors_eq_filterMap_tiles (source : String) :
    errors source = (tiles source).filterMap fun x => x.report.bind error? := by
  rw [errors, scan, locate_eq_reports [], List.filterMap_append, List.filterMap_filterMap, ← tiles]
  exact List.append_nil _

/-- Lexical errors cost no tokens.  A source text and the same text with a space in the place of each
character that is reported, both scanned byte by byte, have the same tokens, on the same lines, and
the same errors but for those about these characters, of which there is one for each: it names the
character and its line.  These are the characters that stand where a piece begins and with which none
does.  An error about a string that is not closed can only be the last one. -/
theorem misfits_cost_no_tokens (source : String) :
    scan? source = some (scan source) ∧ scan? (blanked source) = some (scan (blanked source)) ∧
      source.toList = (tiles source).flatMap Tile.text ∧
      (∀ x ∈ tiles source, ∀ c, x.misfit? = some c ↔ x.text = [c] ∧ Unexpected c) ∧
      tokens (blanked source) = tokens source ∧
      errors (blanked source) = (errors source).filter (·.misfit?.isNone) ∧
      (errors source).filter (·.misfit?.isSome) = (tiles source).filterMap (·.misfitError? source) ∧
      ∀ e ∈ (errors source).dropLast, e.fault ≠ .unterminatedString := by
  refine ⟨scan?_eq source, scan?_eq _, ?_, fun x hx c => misfit?_eq_some_iff hx, ?_, ?_, ?_,
    dropLast_errors_locate 1 source.toList⟩
  · rw [tiles, flatMap_text_place, flatten_pieces]
  · rw [tokens, scan_blanked, List.filterMap_filter, tokens]
    refine List.filterMap_congr fun item _ => ?_
    cases item with
    | token t => rfl
    | error e => exact ite_self _
  · rw [errors, scan_blanked, List.filterMap_filter, errors, List.filter_filterMap]
    refine List.filterMap_congr fun item _ => ?_
    cases item with
    | token t => rfl
    | error e => exact (Option.filter_some (p := fun e : ScanError => e.misfit?.isNone)).symm
  · rw [errors_eq_filterMap_tiles, List.filter_filterMap]
    exact List.filterMap_congr fun x hx => report_filter_misfit? (fits_of_mem_tiles hx)

end Source

end LoxWalk
