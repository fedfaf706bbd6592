import LoxWalk.Proofs.Rounding
import LoxWalk.Proofs.Tiling

/-!
# Tokens are longest matches

`Lexeme` is the lexical grammar: the classes of tokens, the texts that belong to each of them, and
the kinds that these texts have.  It says nothing of an order in which a text is read.

What is cut off a text is the longest of its beginnings that is a lexeme or a comment, and its kind
is that of the lexeme; a fault is found just where no lexeme, blank or comment begins
(`Source.scan_longest_matches`).
-/

namespace LoxWalk

open Source

/-! ## The lexical grammar -/

/-- At least one digit. -/
structure Digits where
  chars : List Char
  nonempty : chars ≠ []
  isDigit : ∀ c ∈ chars, c.isDigit = true

/-- A letter or an underscore, and then letters, digits and underscores. -/
structure Word where
  first : Char
  others : List Char
  isWordStart : isWordStart first = true
  isWordPart : ∀ c ∈ others, isWordPart c = true

def Word.text (w : Word) : List Char :=
  w.first :: w.others

/-- A lexeme of one of the classes of tokens. -/
inductive Lexeme where
  | symbol (s : Symbol)
  | string (contents : List Char) (closed : '"' ∉ contents)
  | whole (digits : Digits)
  | fractional (digits fraction : Digits)
  | word (w : Word)

namespace Lexeme

def text : Lexeme → List Char
  | symbol s => s.spelling.toList
  | string contents _ => '"' :: contents ++ ['"']
  | whole digits => digits.chars
  | fractional digits fraction => digits.chars ++ '.' :: fraction.chars
  | word w => w.text

/-- The kind of a lexeme.  A string carries what stands between its quotes, a number what its digits
denote, rounded, and a word is an identifier unless the whole of it is a reserved word. -/
def HasKind : Lexeme → TokenKind → Prop
  | symbol s, kind => kind = .symbol s
  | string contents _, kind => kind = .string (String.ofList contents)
  | whole digits, kind => ∃ x : Double, kind = .number x ∧ x.Rounds (Number.wholeValue digits.chars)
  | fractional digits fraction, kind => ∃ x : Double, kind = .number x ∧
      x.Rounds (Number.wholeValue digits.chars + Number.fractionValue fraction.chars)
  | word w, kind => (∃ k : Keyword, w.text = k.spelling.toList ∧ kind = .keyword k) ∨
      (∀ k : Keyword, w.text ≠ k.spelling.toList) ∧ kind = .identifier

end Lexeme

/-- Two slashes and what follows on their line. -/
def IsCommentText (text : List Char) : Prop :=
  ∃ words, text = '/' :: '/' :: words ∧ '\n' ∉ words

/-- A lexeme or a comment. -/
def IsMatch (text : List Char) : Prop :=
  (∃ l : Lexeme, l.text = text) ∨ IsCommentText text

/-- A single blank. -/
def IsBlankText (text : List Char) : Prop :=
  ∃ c, text = [c] ∧ isBlank c = true

/-- `text` has a property, and is the longest beginning of `cs` that has it. -/
structure IsLongest (P : List Char → Prop) (text cs : List Char) : Prop where
  holds : P text
  begins : text <+: cs
  longest : ∀ other, other <+: cs → P other → other.length ≤ text.length

/-! ## One kind for each lexeme -/

theorem Keyword.ofSpelling?_spelling (k : Keyword) : ofSpelling? k.spelling = some k := by
  cases k <;> decide

theorem Keyword.eq_of_spelling {k k' : Keyword} (h : k.spelling.toList = k'.spelling.toList) :
    k = k' := by
  have := ofSpelling?_spelling k
  rw [String.toList_inj.mp h, ofSpelling?_spelling] at this
  exact (Option.some.inj this).symm

theorem Lexeme.HasKind.unique {l : Lexeme} {kind kind' : TokenKind} (h : l.HasKind kind)
    (h' : l.HasKind kind') : kind = kind' := by
  cases l with
  | symbol s => exact h.trans h'.symm
  | string contents => exact h.trans h'.symm
  | whole digits =>
    obtain ⟨x, rfl, hx⟩ := h
    obtain ⟨y, rfl, hy⟩ := h'
    rw [hx.unique hy]
  | fractional digits fraction =>
    obtain ⟨x, rfl, hx⟩ := h
    obtain ⟨y, rfl, hy⟩ := h'
    rw [hx.unique hy]
  | word w =>
    rcases h with ⟨k, hk, rfl⟩ | ⟨hfree, rfl⟩ <;> rcases h' with ⟨k', hk', rfl⟩ | ⟨hfree', rfl⟩
    · rw [Keyword.eq_of_spelling (hk.symm.trans hk')]
    · exact absurd hk (hfree' k)
    · exact absurd hk' (hfree k')
    · rfl

namespace Piece

variable {c : Char} {cs : List Char}

/-! ## Nothing longer matches -/

/-- A piece is no fault, and no shorter than a text. -/
structure Outlasts (p : Piece) (text : List Char) : Prop where
  not_fault : ∀ fault, p.form ≠ .fault fault
  length_le : text.length ≤ p.text.length

theorem outlasts_of_token {p : Piece} {kind : TokenKind} {text : List Char}
    (h : p.form = .token kind) (hlength : text.length ≤ p.text.length) : p.Outlasts text := by
  refine ⟨fun fault hfault => ?_, hlength⟩
  rw [h] at hfault
  cases hfault

/-- A beginning of a text that holds only certain characters is no longer than all of these. -/
theorem length_le_takeWhile {q : Char → Bool} {text cs : List Char} (h : text <+: cs)
    (hq : ∀ c ∈ text, q c = true) : text.length ≤ (cs.takeWhile q).length := by
  obtain ⟨rest, rfl⟩ := h
  rw [List.takeWhile_append_of_pos hq, List.length_append]
  exact Nat.le_add_right _ _

theorem next_of_lone {s : Symbol} (h : Symbol.lone? c = some s) :
    next c cs = (symbol s [c], cs) := by
  unfold next
  rw [h]

theorem next_of_extensible {plain extended : Symbol}
    (h : Symbol.extensible? c = some (plain, extended)) (cs : List Char) :
    (∃ rest, cs = '=' :: rest ∧ (next c cs).1 = symbol extended [c, '=']) ∨
      cs.head? ≠ some '=' ∧ (next c cs).1 = symbol plain [c] := by
  have hlone : Symbol.lone? c = none := by
    unfold Symbol.extensible? at h
    split at h <;> first | rfl | cases h
  unfold next
  rw [hlone, h]
  dsimp only
  split
  · exact .inl ⟨_, rfl, rfl⟩
  · rename_i hne
    refine .inr ⟨fun hhead => ?_, rfl⟩
    obtain ⟨rest, hrest⟩ := List.head?_eq_some_iff.mp hhead
    exact hne rest hrest

theorem next_of_isDigit (h : c.isDigit = true) : next c cs = number (c :: cs) := by
  rw [next_of_not_mem_marks (not_mem_marks h (by decide)), if_pos h]

theorem next_of_isBlank (h : isBlank c = true) : next c cs = (⟨.skipped, [c]⟩, cs) := by
  unfold isBlank at h
  simp only [Bool.or_eq_true, beq_iff_eq] at h
  rcases h with ((rfl | rfl) | rfl) | rfl <;> rfl

end Piece

/-- How symbols are written: with one character, or with an equals sign behind it. -/
theorem Symbol.spelling_cases (s : Symbol) :
    (∃ c, s.spelling.toList = [c] ∧
      (lone? c = some s ∨ (∃ s', extensible? c = some (s, s')) ∨ c = '/')) ∨
      ∃ c s', s.spelling.toList = [c, '='] ∧ extensible? c = some (s', s) := by
  cases s
  case bangEqual | equalEqual | greaterEqual | lessEqual => exact .inr ⟨_, _, rfl, rfl⟩
  case slash => exact .inl ⟨_, rfl, .inr (.inr rfl)⟩
  case bang | equal | greater | less => exact .inl ⟨_, rfl, .inr (.inl ⟨_, rfl⟩)⟩
  all_goals exact .inl ⟨_, rfl, .inl rfl⟩

namespace Piece

variable {c : Char} {cs : List Char}

theorem next_slash (cs : List Char) :
    (∃ rest, cs = '/' :: rest ∧ next '/' cs = comment rest) ∨
      (∀ rest, cs ≠ '/' :: rest) ∧ next '/' cs = (symbol .slash ['/'], cs) := by
  by_cases h : ∃ rest, cs = '/' :: rest
  · obtain ⟨rest, rfl⟩ := h
    exact .inl ⟨rest, rfl, rfl⟩
  · refine .inr ⟨fun rest hrest => h ⟨rest, hrest⟩, ?_⟩
    have hlone : Symbol.lone? '/' = none := rfl
    have hext : Symbol.extensible? '/' = none := rfl
    unfold next
    rw [hlone, hext]
    dsimp only
    rw [if_pos rfl]
    split
    · exact absurd ⟨_, rfl⟩ h
    · rfl

theorem outlasts_symbol {s : Symbol} (h : s.spelling.toList <+: c :: cs) :
    (next c cs).1.Outlasts s.spelling.toList := by
  rcases s.spelling_cases with ⟨d, hd, hcase⟩ | ⟨d, plain, hd, hext⟩ <;> rw [hd] at h ⊢
  · obtain ⟨rfl, -⟩ := List.cons_prefix_cons.mp h
    rcases hcase with hlone | ⟨extended, hext⟩ | rfl
    · rw [next_of_lone hlone]
      exact outlasts_of_token rfl le_rfl
    · rcases next_of_extensible hext cs with ⟨rest, -, hnext⟩ | ⟨-, hnext⟩ <;> rw [hnext]
      · exact outlasts_of_token rfl (Nat.le_succ 1)
      · exact outlasts_of_token rfl le_rfl
    · rcases next_slash cs with ⟨rest, -, hnext⟩ | ⟨-, hnext⟩ <;> rw [hnext]
      · exact ⟨nofun, Nat.succ_le_succ (Nat.zero_le _)⟩
      · exact outlasts_of_token rfl le_rfl
  · obtain ⟨rfl, hcs⟩ := List.cons_prefix_cons.mp h
    rcases next_of_extensible hext cs with ⟨rest, -, hnext⟩ | ⟨hhead, -⟩
    · rw [hnext]
      exact outlasts_of_token rfl le_rfl
    · obtain ⟨rest, rfl⟩ := hcs
      exact absurd rfl hhead

theorem outlasts_string {contents : List Char} (hclosed : '"' ∉ contents)
    (h : '"' :: contents ++ ['"'] <+: c :: cs) :
    (next c cs).1.Outlasts ('"' :: contents ++ ['"']) := by
  obtain ⟨rest, hrest⟩ := h
  rw [List.append_assoc, List.cons_append] at hrest
  obtain ⟨rfl, rfl⟩ := List.cons.inj hrest
  have hnext : next '"' (contents ++ '"' :: rest) = string (contents ++ '"' :: rest) := rfl
  show (next '"' (contents ++ '"' :: rest)).1.Outlasts _
  rw [hnext, string_of_closed hclosed]
  exact outlasts_of_token rfl le_rfl

theorem outlasts_whole {digits : Digits} (h : digits.chars <+: c :: cs) :
    (next c cs).1.Outlasts digits.chars := by
  obtain ⟨d, ds, hd⟩ := List.exists_cons_of_ne_nil digits.nonempty
  obtain ⟨rfl, -⟩ := List.cons_prefix_cons.mp (hd ▸ h)
  have hle := length_le_takeWhile h digits.isDigit
  rw [next_of_isDigit (digits.isDigit d (hd ▸ List.mem_cons_self))]
  by_cases hpoint : ∃ e r, (d :: cs).dropWhile Char.isDigit = '.' :: e :: r ∧ e.isDigit = true
  · obtain ⟨e, r, hdrop, he⟩ := hpoint
    rw [number_of_fraction hdrop he]
    refine outlasts_of_token rfl (hle.trans ?_)
    rw [List.length_append]
    exact Nat.le_add_right _ _
  · rw [number_of_not_fraction fun e r hdrop => Bool.eq_false_iff.mpr fun he =>
      hpoint ⟨e, r, hdrop, he⟩]
    exact outlasts_of_token rfl hle

theorem outlasts_fractional {digits fraction : Digits}
    (h : digits.chars ++ '.' :: fraction.chars <+: c :: cs) :
    (next c cs).1.Outlasts (digits.chars ++ '.' :: fraction.chars) := by
  obtain ⟨d, ds, hd⟩ := List.exists_cons_of_ne_nil digits.nonempty
  obtain ⟨e, es, he⟩ := List.exists_cons_of_ne_nil fraction.nonempty
  obtain ⟨rest, hrest⟩ := h
  rw [List.append_assoc, List.cons_append] at hrest
  have hdigit : c.isDigit = true := by
    rw [hd, List.cons_append] at hrest
    obtain ⟨rfl, -⟩ := List.cons.inj hrest
    exact digits.isDigit d (hd ▸ List.mem_cons_self)
  have hpoint : ∀ p ∈ ('.' :: (fraction.chars ++ rest)).head?, p.isDigit = false := by
    rintro p ⟨⟩
    rfl
  obtain ⟨htake, hdrop⟩ := span_append digits.isDigit hpoint
  rw [hrest] at htake hdrop
  have hle := length_le_takeWhile (List.prefix_append fraction.chars rest) fraction.isDigit
  rw [he, List.cons_append] at hdrop hle
  have hfirst : e.isDigit = true := fraction.isDigit e (he ▸ List.mem_cons_self)
  rw [next_of_isDigit hdigit, number_of_fraction hdrop hfirst, htake]
  refine outlasts_of_token rfl ?_
  simp only [List.length_append, List.length_cons, he] at hle ⊢
  omega

theorem outlasts_word {w : Word} (h : w.text <+: c :: cs) : (next c cs).1.Outlasts w.text := by
  obtain ⟨rfl, -⟩ := List.cons_prefix_cons.mp h
  rw [next_of_isWordStart w.isWordStart]
  refine outlasts_of_token rfl (length_le_takeWhile h ?_)
  exact List.forall_mem_cons.mpr ⟨isWordPart_of_isWordStart w.isWordStart, w.isWordPart⟩

theorem outlasts_comment {text : List Char} (ht : IsCommentText text) (h : text <+: c :: cs) :
    (next c cs).1.Outlasts text := by
  obtain ⟨words, rfl, hline⟩ := ht
  obtain ⟨rfl, htail⟩ := List.cons_prefix_cons.mp h
  obtain ⟨rest, rfl⟩ := htail
  have hnext : next '/' ('/' :: (words ++ rest)) = comment (words ++ rest) := rfl
  have hle := length_le_takeWhile (q := (· != '\n')) (List.prefix_append words rest)
    fun d hd => bne_iff_ne.mpr fun he => hline (he ▸ hd)
  rw [List.cons_append, hnext]
  exact ⟨nofun, Nat.succ_le_succ (Nat.succ_le_succ hle)⟩

/-- What is cut off outlasts every lexeme and every comment with which the text begins. -/
theorem next_outlasts {text : List Char} (ht : IsMatch text) (h : text <+: c :: cs) :
    (next c cs).1.Outlasts text := by
  rcases ht with ⟨l, rfl⟩ | hcomment
  · cases l with
    | symbol s => exact outlasts_symbol h
    | string contents hclosed => exact outlasts_string hclosed h
    | whole digits => exact outlasts_whole h
    | fractional digits fraction => exact outlasts_fractional h
    | word w => exact outlasts_word h
  · exact outlasts_comment hcomment h

/-! ## What is cut off matches -/

/-- The text of a token is a lexeme of its kind. -/
def Spells (p : Piece) : Prop :=
  ∀ kind, p.form = .token kind → ∃ l : Lexeme, l.text = p.text ∧ l.HasKind kind

theorem spells_of_no_token {p : Piece} (h : ∀ kind, p.form ≠ .token kind) : p.Spells :=
  fun kind hkind => absurd hkind (h kind)

theorem spells_symbol {s : Symbol} {text : List Char} (h : String.ofList text = s.spelling) :
    (symbol s text).Spells := by
  rintro kind ⟨⟩
  refine ⟨.symbol s, ?_, rfl⟩
  show s.spelling.toList = text
  rw [← h, String.toList_ofList]

theorem spells_string (cs : List Char) : (string cs).1.Spells := by
  by_cases hquote : '"' ∈ cs
  · obtain ⟨contents, rest, rfl, hclosed⟩ := List.eq_append_cons_of_mem hquote
    rw [string_of_closed hclosed]
    rintro kind ⟨⟩
    exact ⟨.string contents hclosed, rfl, rfl⟩
  · rw [string_of_open hquote]
    exact spells_of_no_token (by simp)

/-- The digits with which a text begins. -/
def digitsOf (c : Char) (cs : List Char) (h : c.isDigit = true) : Digits where
  chars := (c :: cs).takeWhile Char.isDigit
  nonempty := by simp [h]
  isDigit _ hd := List.mem_takeWhile_imp hd

theorem spells_number (h : c.isDigit = true) : (number (c :: cs)).1.Spells := by
  by_cases hpoint : ∃ d r, (c :: cs).dropWhile Char.isDigit = '.' :: d :: r ∧ d.isDigit = true
  · obtain ⟨d, r, hdrop, hd⟩ := hpoint
    rw [number_of_fraction hdrop hd]
    rintro kind ⟨⟩
    exact ⟨.fractional (digitsOf c cs h) (digitsOf d r hd), rfl, _, rfl,
      Number.ofNumeral_rounds _ _⟩
  · rw [number_of_not_fraction fun d r hdrop => Bool.eq_false_iff.mpr fun hd =>
      hpoint ⟨d, r, hdrop, hd⟩]
    rintro kind ⟨⟩
    refine ⟨.whole (digitsOf c cs h), rfl, _, rfl, ?_⟩
    have hrounds := Number.ofNumeral_rounds ((c :: cs).takeWhile Char.isDigit) []
    rwa [Number.fractionValue, add_zero] at hrounds

theorem hasKind_wordKind (w : Word) : (Lexeme.word w).HasKind (wordKind w.text) := by
  unfold wordKind
  split
  · rename_i k hk
    refine .inl ⟨k, ?_, rfl⟩
    rw [Keyword.spelling_of_ofSpelling?_eq_some hk, String.toList_ofList]
  · rename_i hk
    refine .inr ⟨fun k hspelling => Keyword.spelling_ne_of_ofSpelling?_eq_none hk k ?_, rfl⟩
    rw [hspelling, String.ofList_toList]

theorem spells_word (h : isWordStart c = true) : (word (c :: cs)).1.Spells := by
  rintro kind ⟨⟩
  have htext : (c :: cs).takeWhile isWordPart = c :: cs.takeWhile isWordPart :=
    List.takeWhile_cons_of_pos (isWordPart_of_isWordStart h)
  rw [htext]
  exact ⟨.word ⟨c, cs.takeWhile isWordPart, h, fun d hd => List.mem_takeWhile_imp hd⟩,
    htext.symm, hasKind_wordKind _⟩

/-- Every token that is cut off is spelled as a lexeme of its kind. -/
theorem next_spells (c : Char) (cs : List Char) : (next c cs).1.Spells := by
  unfold next
  cases hlone : Symbol.lone? c with
  | some s => exact spells_symbol (Symbol.spelling_of_lone? hlone)
  | none =>
    cases hext : Symbol.extensible? c with
    | some symbols =>
      obtain ⟨hplain, hextended⟩ := Symbol.spelling_of_extensible? hext
      dsimp only
      split
      · exact spells_symbol hextended
      · exact spells_symbol hplain
    | none =>
      dsimp only
      split
      · rename_i hslash
        split
        · exact spells_of_no_token (by simp [comment])
        · exact spells_symbol (by rw [hslash]; rfl)
      · split
        · exact spells_of_no_token (by simp)
        · split
          · exact spells_string cs
          · split
            · rename_i hdigit
              exact spells_number hdigit
            · split
              · rename_i hstart
                exact spells_word hstart
              · exact spells_of_no_token (by simp)

/-- What is skipped is a blank or a comment. -/
theorem text_of_skipped (h : (next c cs).1.form = .skipped) :
    IsBlankText (next c cs).1.text ∨ IsCommentText (next c cs).1.text := by
  have hsound := next_isSound c cs
  rw [IsSound, h] at hsound
  exact hsound.imp_right And.left

/-- A fault is found just where nothing begins that is a lexeme, a comment or a blank. -/
theorem fault_iff : (∃ fault, (next c cs).1.form = .fault fault) ↔
    ∀ text, text <+: c :: cs → ¬(IsMatch text ∨ IsBlankText text) := by
  have hbegins : (next c cs).1.text <+: c :: cs := ⟨_, next_text c cs⟩
  constructor
  · rintro ⟨fault, hfault⟩ text htext (hmatch | ⟨d, rfl, hblank⟩)
    · exact (next_outlasts hmatch htext).not_fault fault hfault
    · obtain ⟨rfl, -⟩ := List.cons_prefix_cons.mp htext
      rw [next_of_isBlank hblank] at hfault
      cases hfault
  · intro h
    cases hform : (next c cs).1.form with
    | fault fault => exact ⟨fault, rfl⟩
    | token kind =>
      obtain ⟨l, htext, -⟩ := next_spells c cs kind hform
      exact absurd (.inl (.inl ⟨l, htext⟩)) (h _ hbegins)
    | skipped =>
      rcases text_of_skipped hform with hblank | hcomment
      · exact absurd (.inr hblank) (h _ hbegins)
      · exact absurd (.inl (.inr hcomment)) (h _ hbegins)

/-- A lexeme or a comment that is cut off is the longest one. -/
theorem next_isLongest (h : IsMatch (next c cs).1.text) :
    IsLongest IsMatch (next c cs).1.text (c :: cs) :=
  ⟨h, ⟨_, next_text c cs⟩, fun _ hbegins hmatch => (next_outlasts hmatch hbegins).length_le⟩

/-- A token that is spelled like a word is a reserved word just if the whole of it is one. -/
theorem keyword_iff_of_word {kind : TokenKind} (hform : (next c cs).1.form = .token kind) {w : Word}
    (hw : (next c cs).1.text = w.text) (k : Keyword) :
    kind = .keyword k ↔ w.text = k.spelling.toList := by
  obtain ⟨t, -, ht⟩ := exists_text_of_next (Prod.eta (next c cs)).symm
  obtain ⟨hc, -⟩ := List.cons.inj (ht.symm.trans hw)
  rw [next_of_isWordStart (hc ▸ w.isWordStart)] at hform hw
  obtain rfl : wordKind w.text = kind := by
    rw [← hw]
    exact PieceForm.token.inj hform
  rcases hasKind_wordKind w with ⟨k', hk', hkind⟩ | ⟨hfree, hkind⟩ <;> rw [hkind]
  · rw [TokenKind.keyword.injEq]
    exact ⟨fun h => h ▸ hk', fun h => Keyword.eq_of_spelling (hk'.symm.trans h)⟩
  · exact iff_of_false nofun (hfree k)

end Piece

/-! ## Tiles -/

/-- What is reported of a tile is what the lexical grammar says of the text that begins there. -/
structure Tile.Grammatical (x : Tile) : Prop where
  lexeme : ∀ t, x.report = some (.token t) → t.lexeme = String.ofList x.text ∧
    IsLongest IsMatch x.text (x.text ++ x.rest) ∧
      ∃ l : Lexeme, l.text = x.text ∧ ∀ kind, l.HasKind kind ↔ kind = t.kind
  keyword_iff : ∀ t, x.report = some (.token t) → ∀ w : Word, x.text = w.text →
    ∀ k, t.kind = .keyword k ↔ w.text = k.spelling.toList
  skipped : x.report = none → IsBlankText x.text ∨
    IsCommentText x.text ∧ IsLongest IsMatch x.text (x.text ++ x.rest)
  fault_iff : (∃ e, x.report = some (.error e)) ↔
    ∀ text, text <+: x.text ++ x.rest → ¬(IsMatch text ∨ IsBlankText text)

namespace Source

open Piece

theorem grammatical_next (before : List Char) (c : Char) (cs : List Char) (line : Nat) :
    Tile.Grammatical ⟨before, (next c cs).1.text, (next c cs).2, (next c cs).1.report line⟩ := by
  have htoken : ∀ t, (next c cs).1.report line = some (.token t) →
      (next c cs).1.form = .token t.kind ∧ t.lexeme = String.ofList (next c cs).1.text := by
    intro t ht
    unfold report at ht
    cases hform : (next c cs).1.form <;> rw [hform] at ht <;> cases ht
    exact ⟨rfl, rfl⟩
  constructor <;> dsimp only
  · intro t ht
    obtain ⟨hform, hlexeme⟩ := htoken t ht
    obtain ⟨l, hl, hkind⟩ := next_spells c cs t.kind hform
    rw [next_text]
    exact ⟨hlexeme, next_isLongest (.inl ⟨l, hl⟩), l, hl,
      fun kind => ⟨fun h => h.unique hkind, fun h => h ▸ hkind⟩⟩
  · exact fun t ht w hw => keyword_iff_of_word (htoken t ht).1 hw
  · intro hnone
    have hform : (next c cs).1.form = .skipped := by
      unfold report at hnone
      cases hform : (next c cs).1.form <;> rw [hform] at hnone <;> cases hnone
    rw [next_text]
    exact (text_of_skipped hform).imp_right fun h => ⟨h, next_isLongest (.inr h)⟩
  · rw [next_text, ← fault_iff]
    unfold report
    cases (next c cs).1.form <;> simp

theorem grammatical_of_mem_place {before cs : List Char} {line : Nat} {x : Tile}
    (hx : x ∈ place before line (pieces cs)) :
    before ++ cs = x.before ++ (x.text ++ x.rest) ∧ x.Grammatical := by
  fun_induction pieces cs generalizing before line with
  | case1 => exact absurd hx List.not_mem_nil
  | case2 c cs ih =>
    rw [place, flatten_pieces] at hx
    rcases List.mem_cons.mp hx with rfl | hx
    · exact ⟨congrArg (before ++ ·) (next_text c cs).symm, grammatical_next before c cs _⟩
    · have := ih hx
      rwa [List.append_assoc, next_text] at this

/-- Scanning, also byte by byte, yields what is reported of the tiles of the source and then one
token that marks the end.  Each token is the longest lexeme that begins where it does, no comment
that begins there is longer, and its kind is that of the lexeme.  A fault is reported just where no
lexeme, comment or blank begins. -/
theorem scan_longest_matches (source : String) :
    scan? source = some (scan source) ∧
      scan source = (tiles source).filterMap Tile.report ++
        [.token ⟨.eof, "", 1 + newlines source.toUTF8⟩] ∧
      ∀ x ∈ tiles source, source.toList = x.before ++ (x.text ++ x.rest) ∧ x.Grammatical := by
  have hbytes : source.toUTF8 = source.toList.utf8Encode := by
    rw [← String.toByteArray_ofList, String.ofList_toList, String.toUTF8]
  refine ⟨scan?_eq source, ?_, fun x hx => grammatical_of_mem_place hx⟩
  rw [scan, locate_eq_reports [], flatten_pieces, hbytes, newlines_utf8Encode]
  rfl

end Source

end LoxWalk
