import Mathlib.Data.List.Forall2
import Mathlib.Data.List.TakeWhile
import LoxWalk.Proofs.Scanning

/-!
# Scanning changed texts

How far a piece of a text goes depends on what follows it, but only on the first characters of that
(`Piece.next_of_borders`).  So a text with nothing wrong in it keeps its pieces when a new line with
any other text is put behind it (`Source.pieces_append`), and when names in it are respelled
(`Source.pieces_flatten_of_respelled`).
-/

namespace LoxWalk

/-! ## Borders -/

/-- Taking characters from a text up to the place where they end. -/
theorem span_append {q : Char → Bool} {l rest : List Char} (hl : ∀ c ∈ l, q c = true)
    (hr : ∀ c ∈ rest.head?, q c = false) :
    (l ++ rest).takeWhile q = l ∧ (l ++ rest).dropWhile q = rest := by
  rw [List.takeWhile_append_of_pos hl, List.dropWhile_append_of_pos hl]
  cases rest with
  | nil => exact ⟨List.append_nil l, rfl⟩
  | cons c rest =>
    have hc : ¬ q c = true := by simp [hr c rfl]
    rw [List.takeWhile_cons_of_neg hc, List.dropWhile_cons_of_neg hc, List.append_nil]
    exact ⟨rfl, rfl⟩

theorem head?_dropWhile {q : Char → Bool} (l : List Char) :
    ∀ c ∈ (l.dropWhile q).head?, q c = false := by
  intro c hc
  have h := List.head?_dropWhile_not q l
  rwa [Option.mem_def.mp hc] at h

namespace Piece

open Source

/-- Behind the piece `p`, the text `rest'` may stand in place of `rest`: it does not go on with
anything that `p` could take in and with which `rest` does not go on.  A slash takes in another one,
and only a comment lasts to the end of its line. -/
structure Borders (p : Piece) (rest rest' : List Char) : Prop where
  word : ∀ c ∈ rest'.head?, isWordPart c = true → ∃ d ∈ rest.head?, isWordPart d = true
  digit : ∀ c ∈ rest'.head?, c.isDigit = true → ∃ d ∈ rest.head?, d.isDigit = true
  fraction : ∀ d r, rest' = '.' :: d :: r → d.isDigit = true →
    ∃ e s, rest = '.' :: e :: s ∧ e.isDigit = true
  equals : rest'.head? = some '=' → rest.head? = some '='
  slash : p.text = ['/'] → rest'.head? = some '/' → rest.head? = some '/'
  line : p.form = .skipped → (∀ c ∈ rest.head?, c = '\n') → ∀ c ∈ rest'.head?, c = '\n'

variable {c : Char} {cs rest rest' : List Char} {p : Piece}

/-- A piece begins with the first character of the text from which it was cut. -/
theorem exists_text_of_next (h : next c cs = (p, rest)) : ∃ t, cs = t ++ rest ∧ p.text = c :: t := by
  have htext := next_text c cs
  have hlt := length_next_lt c cs
  rw [h] at htext hlt
  dsimp only at htext hlt
  cases hp : p.text with
  | nil =>
    rw [hp, List.nil_append] at htext
    rw [htext] at hlt
    exact absurd hlt (Nat.lt_irrefl _)
  | cons d t =>
    rw [hp, List.cons_append] at htext
    obtain ⟨rfl, hcs⟩ := List.cons.inj htext
    exact ⟨t, hcs.symm, rfl⟩

theorem comment_of_borders (h : comment cs = (p, rest)) (hb : Borders p rest rest') {t : List Char}
    (ht : p.text = '/' :: '/' :: t) : comment (t ++ rest') = (p, rest') := by
  obtain ⟨rfl, rfl⟩ := Prod.mk.inj h
  obtain rfl : cs.takeWhile (· != '\n') = t := (List.cons.inj (List.cons.inj ht).2).2
  have hrest : ∀ c ∈ rest'.head?, (c != '\n') = false := by
    intro c hc
    have hline := hb.line rfl fun d hd => by simpa using head?_dropWhile cs d hd
    simp [hline c hc]
  obtain ⟨htake, hdrop⟩ := span_append (fun c hc => List.mem_takeWhile_imp hc) hrest
  rw [comment, htake, hdrop]

/-- A string lasts to the first quote. -/
theorem string_of_closed {contents : List Char} (h : '"' ∉ contents) (rest : List Char) :
    string (contents ++ '"' :: rest) =
      (⟨.token (.string (String.ofList contents)), '"' :: contents ++ ['"']⟩, rest) := by
  have hcontents : ∀ d ∈ contents, (d != '"') = true :=
    fun d hd => bne_iff_ne.mpr fun he => h (he ▸ hd)
  have hquote : ∀ d ∈ ('"' :: rest).head?, (d != '"') = false := by
    rintro d ⟨⟩
    rfl
  obtain ⟨htake, hdrop⟩ := span_append hcontents hquote
  rw [string, htake, hdrop]

/-- Without a quote a string is never closed. -/
theorem string_of_open (h : '"' ∉ cs) :
    string cs = (⟨.fault .unterminatedString, '"' :: cs⟩, []) := by
  have hcontents : ∀ d ∈ cs, (d != '"') = true := fun d hd => bne_iff_ne.mpr fun he => h (he ▸ hd)
  have hnothing : ∀ d ∈ ([] : List Char).head?, (d != '"') = false := by simp
  obtain ⟨htake, hdrop⟩ := span_append hcontents hnothing
  rw [List.append_nil] at htake hdrop
  rw [string, htake, hdrop]

theorem string_of_borders (h : string cs = (p, rest)) (hp : p.form ≠ .fault .unterminatedString)
    {t : List Char} (ht : p.text = '"' :: t) : string (t ++ rest') = (p, rest') := by
  by_cases hquote : '"' ∈ cs
  · obtain ⟨contents, rest₁, rfl, hclosed⟩ := List.eq_append_cons_of_mem hquote
    rw [string_of_closed hclosed] at h
    obtain ⟨rfl, rfl⟩ := Prod.mk.inj h
    obtain rfl : contents ++ ['"'] = t := (List.cons.inj ht).2
    rw [List.append_assoc, List.singleton_append, string_of_closed hclosed]
  · rw [string_of_open hquote] at h
    obtain ⟨rfl, rfl⟩ := Prod.mk.inj h
    exact absurd rfl hp

theorem number_of_fraction {d : Char} {r : List Char}
    (h : cs.dropWhile Char.isDigit = '.' :: d :: r) (hd : d.isDigit = true) :
    number cs = (⟨.token (.number (Number.ofNumeral (cs.takeWhile Char.isDigit)
        ((d :: r).takeWhile Char.isDigit))),
      cs.takeWhile Char.isDigit ++ '.' :: (d :: r).takeWhile Char.isDigit⟩,
        (d :: r).dropWhile Char.isDigit) := by
  unfold number
  dsimp only
  rw [h]
  simp only [hd, if_true]

theorem number_of_not_fraction
    (h : ∀ d r, cs.dropWhile Char.isDigit = '.' :: d :: r → d.isDigit = false) :
    number cs = (⟨.token (.number (Number.ofNumeral (cs.takeWhile Char.isDigit) [])),
      cs.takeWhile Char.isDigit⟩, cs.dropWhile Char.isDigit) := by
  unfold number
  dsimp only
  split
  · rename_i d r heq
    rw [if_neg (by simp [h d r heq]), heq]
  · rfl

theorem number_of_borders (h : number cs = (p, rest)) (hb : Borders p rest rest') :
    number (p.text ++ rest') = (p, rest') := by
  have hwhole : ∀ c ∈ cs.takeWhile Char.isDigit, c.isDigit = true :=
    fun c hc => List.mem_takeWhile_imp hc
  -- what follows begins with no digit if the number ended before something without one
  have hdigit : (∀ c ∈ rest.head?, c.isDigit = false) → ∀ c ∈ rest'.head?, c.isDigit = false := by
    intro hrest c hc
    refine Bool.eq_false_iff.mpr fun hcd => ?_
    obtain ⟨d, hd, hdd⟩ := hb.digit c hc hcd
    rw [hrest d hd] at hdd
    cases hdd
  by_cases hfraction : ∃ d r, cs.dropWhile Char.isDigit = '.' :: d :: r ∧ d.isDigit = true
  · obtain ⟨d, r, hdrop, hd⟩ := hfraction
    rw [number_of_fraction hdrop hd] at h
    obtain ⟨rfl, rfl⟩ := Prod.mk.inj h
    obtain ⟨htake', hdrop'⟩ := span_append (fun c hc => List.mem_takeWhile_imp hc)
      (hdigit (head?_dropWhile (d :: r)))
    have hdr := List.takeWhile_cons_of_pos (l := r) hd
    have hpoint : ∀ c ∈ ('.' :: ((d :: r).takeWhile Char.isDigit ++ rest')).head?,
        c.isDigit = false := by
      rintro c ⟨⟩
      rfl
    obtain ⟨htake, hdrop''⟩ := span_append hwhole hpoint
    rw [hdr, List.cons_append] at hdrop'' htake htake' hdrop'
    rw [hdr, List.append_assoc, List.cons_append, List.cons_append,
      number_of_fraction hdrop'' hd, htake, htake', hdrop']
  · have hnot : ∀ d r, cs.dropWhile Char.isDigit = '.' :: d :: r → d.isDigit = false :=
      fun d r hdrop => Bool.eq_false_iff.mpr fun hd => hfraction ⟨d, r, hdrop, hd⟩
    rw [number_of_not_fraction hnot] at h
    obtain ⟨rfl, rfl⟩ := Prod.mk.inj h
    obtain ⟨htake, hdrop⟩ := span_append hwhole (hdigit (head?_dropWhile cs))
    rw [number_of_not_fraction, htake, hdrop]
    intro d r heq
    rw [hdrop] at heq
    refine Bool.eq_false_iff.mpr fun hd => ?_
    obtain ⟨e, t, hdrop', he⟩ := hb.fraction d r heq hd
    exact hfraction ⟨e, t, hdrop', he⟩

theorem word_of_borders (h : word cs = (p, rest)) (hb : Borders p rest rest') :
    word (p.text ++ rest') = (p, rest') := by
  obtain ⟨rfl, rfl⟩ := Prod.mk.inj h
  have hrest : ∀ c ∈ rest'.head?, isWordPart c = false := by
    intro c hc
    refine Bool.eq_false_iff.mpr fun hword => ?_
    obtain ⟨d, hd, hdword⟩ := hb.word c hc hword
    rw [head?_dropWhile cs d hd] at hdword
    cases hdword
  obtain ⟨htake, hdrop⟩ := span_append (fun c hc => List.mem_takeWhile_imp hc) hrest
  rw [word, htake, hdrop]

/-- A piece goes as far in front of another text that borders on it in the same way. -/
theorem next_of_borders (h : next c cs = (p, rest)) (hp : p.form ≠ .fault .unterminatedString)
    (hb : Borders p rest rest') {t : List Char} (ht : p.text = c :: t) :
    next c (t ++ rest') = (p, rest') := by
  unfold next at h ⊢
  cases hlone : Symbol.lone? c with
  | some s =>
    simp only [hlone] at h ⊢
    obtain ⟨rfl, rfl⟩ := Prod.mk.inj h
    cases ht
    rfl
  | none =>
    cases hext : Symbol.extensible? c with
    | some symbols =>
      simp only [hlone, hext] at h ⊢
      split at h
      · obtain ⟨rfl, rfl⟩ := Prod.mk.inj h
        cases ht
        rfl
      · rename_i hne
        obtain ⟨rfl, rfl⟩ := Prod.mk.inj h
        cases ht
        rw [List.nil_append]
        split
        · obtain ⟨u, hu⟩ := List.head?_eq_some_iff.mp (hb.equals rfl)
          exact absurd hu (hne u)
        · rfl
    | none =>
      simp only [hlone, hext] at h ⊢
      by_cases hslash : c = '/'
      · subst hslash
        rw [if_pos rfl] at h ⊢
        split at h
        · obtain ⟨u, rfl⟩ : ∃ u, t = '/' :: u := by
            obtain ⟨rfl, -⟩ := Prod.mk.inj h
            exact ⟨_, (List.cons.inj ht).2.symm⟩
          exact comment_of_borders h hb ht
        · rename_i hne
          obtain ⟨rfl, rfl⟩ := Prod.mk.inj h
          cases ht
          rw [List.nil_append]
          split
          · obtain ⟨u, hu⟩ := List.head?_eq_some_iff.mp (hb.slash rfl rfl)
            exact absurd hu (hne u)
          · rfl
      · rw [if_neg hslash] at h ⊢
        split at h
        · rename_i hblank
          obtain ⟨rfl, rfl⟩ := Prod.mk.inj h
          cases ht
          rw [if_pos hblank, List.nil_append]
        · rename_i hblank
          rw [if_neg hblank]
          split at h
          · rename_i hc
            subst hc
            rw [if_pos rfl]
            exact string_of_borders h hp ht
          · rename_i hquote
            rw [if_neg hquote]
            split at h
            · rename_i hdigit
              rw [if_pos hdigit, ← List.cons_append, ← ht]
              exact number_of_borders h hb
            · rename_i hdigit
              rw [if_neg hdigit]
              split at h
              · rename_i hstart
                rw [if_pos hstart, ← List.cons_append, ← ht]
                exact word_of_borders h hb
              · rename_i hstart
                obtain ⟨rfl, rfl⟩ := Prod.mk.inj h
                cases ht
                rw [if_neg hstart, List.nil_append]

theorem Borders.refl (p : Piece) (rest : List Char) : Borders p rest rest :=
  ⟨fun c hc h => ⟨c, hc, h⟩, fun c hc h => ⟨c, hc, h⟩, fun d r h hd => ⟨d, r, h, hd⟩,
    id, fun _ => id, fun _ => id⟩

/-- Where the first characters are the same, only a point with a digit behind it is of interest. -/
theorem Borders.cons (h : Borders p rest rest') (a : Char) :
    Borders p (a :: rest) (a :: rest') := by
  refine ⟨fun c hc hword => ⟨c, hc, hword⟩, fun c hc hd => ⟨c, hc, hd⟩, ?_, id, fun _ => id,
    fun _ => id⟩
  rintro d r heq hd
  obtain ⟨rfl, rfl⟩ := List.cons.inj heq
  obtain ⟨e, he, hed⟩ := h.digit d rfl hd
  obtain ⟨s, rfl⟩ := List.head?_eq_some_iff.mp he
  exact ⟨e, s, rfl, hed⟩

theorem Borders.append_left (h : Borders p rest rest') (t : List Char) :
    Borders p (t ++ rest) (t ++ rest') := by
  induction t with
  | nil => exact h
  | cons a t ih => exact ih.cons a

/-! ## Another text behind a new line -/

theorem Borders.newline (p : Piece) (cs : List Char) : Borders p [] ('\n' :: cs) := by
  refine ⟨?_, ?_, ?_, nofun, nofun, ?_⟩
  · rintro c ⟨⟩ hc
    cases hc
  · rintro c ⟨⟩ hc
    cases hc
  · intro d r h
    cases h
  · rintro - - c ⟨⟩
    rfl

end Piece

namespace Source

open Piece

theorem pieces_cons (c : Char) (cs : List Char) :
    pieces (c :: cs) = (next c cs).1 :: pieces (next c cs).2 := by
  rw [pieces]

/-- A text with nothing wrong in it keeps its pieces in front of a new line. -/
theorem pieces_append {cs : List Char}
    (h : ∀ p ∈ pieces cs, p.form ≠ .fault .unterminatedString) (ds : List Char) :
    pieces (cs ++ '\n' :: ds) = pieces cs ++ ⟨.skipped, ['\n']⟩ :: pieces ds := by
  fun_induction pieces cs with
  | case1 =>
    rw [List.nil_append, List.nil_append, pieces_cons]
    rfl
  | case2 c cs ih =>
    obtain ⟨hp, hps⟩ := List.forall_mem_cons.mp h
    obtain ⟨t, hcs, ht⟩ := exists_text_of_next (Prod.eta (next c cs)).symm
    have hb := (Borders.newline (next c cs).1 ds).append_left (next c cs).2
    rw [List.append_nil] at hb
    have hnext := next_of_borders (p := (next c cs).1) rfl hp hb ht
    rw [← List.append_assoc, ← hcs] at hnext
    rw [List.cons_append, pieces_cons, hnext, ih hps, List.cons_append]

end Source

/-! ## Lines -/

/-- The same token on another line. -/
def Token.relined (move : Nat → Nat) (t : Token) : Token :=
  { t with line := move t.line }

@[simp]
theorem Token.kind_relined (move : Nat → Nat) (t : Token) : (t.relined move).kind = t.kind := rfl

@[simp]
theorem Token.lexeme_relined (move : Nat → Nat) (t : Token) :
    (t.relined move).lexeme = t.lexeme := rfl

/-- The same token so many lines further down. -/
def Token.lower (k : Nat) : Token → Token :=
  .relined (· + k)

/-- The same token without its line. -/
def Token.unlined : Token → Token :=
  .relined fun _ => 0

namespace Source

/-- A text that is put behind another leaves the items of that one as they are, and its own items
stand further down. -/
theorem exists_locate_append (ps : List Piece) (line : Nat) : ∃ items t,
    locate line ps = items ++ [.token t] ∧ t.kind = .eof ∧
      ∀ qs, locate line (ps ++ qs) =
        items ++ locate (line + (ps.map Piece.text).flatten.count '\n') qs := by
  induction ps generalizing line with
  | nil => exact ⟨[], ⟨.eof, "", line⟩, rfl, rfl, fun qs => rfl⟩
  | cons p ps ih =>
    obtain ⟨items, t, heq, ht, happend⟩ := ih (line + p.text.count '\n')
    rw [Nat.add_assoc, ← List.count_append] at happend
    rw [List.map_cons, List.flatten_cons]
    cases hp : p.form with
    | token kind =>
      refine ⟨.token ⟨kind, String.ofList p.text, line + p.text.count '\n'⟩ :: items, t, ?_, ht, ?_⟩
      · simp only [locate, hp, heq, List.cons_append]
      · intro qs
        simp only [List.cons_append, locate, hp, happend]
    | skipped =>
      refine ⟨items, t, ?_, ht, ?_⟩
      · simp only [locate, hp, heq]
      · intro qs
        simp only [List.cons_append, locate, hp, happend]
    | fault fault =>
      refine ⟨.error ⟨line + p.text.count '\n', fault⟩ :: items, t, ?_, ht, ?_⟩
      · simp only [locate, hp, heq, List.cons_append]
      · intro qs
        simp only [List.cons_append, locate, hp, happend]

theorem tokens_locate_add (ps : List Piece) (line k : Nat) :
    (locate (line + k) ps).filterMap token? =
      ((locate line ps).filterMap token?).map (Token.lower k) := by
  induction ps generalizing line with
  | nil => rfl
  | cons p ps ih =>
    have hline : line + k + p.text.count '\n' = line + p.text.count '\n' + k := by omega
    cases hp : p.form with
    | token kind =>
      simp only [locate, hp, hline, List.filterMap_cons, token?, ih, List.map_cons]
      rfl
    | skipped => simp only [locate, hp, hline, ih]
    | fault fault => simp only [locate, hp, hline, List.filterMap_cons, token?, ih]

theorem errors_locate_eq_nil {ps : List Piece} {line : Nat} :
    (locate line ps).filterMap error? = [] ↔ ∀ p ∈ ps, ∀ fault, p.form ≠ .fault fault := by
  induction ps generalizing line with
  | nil => simp [locate, error?]
  | cons p ps ih =>
    rw [List.forall_mem_cons]
    cases hp : p.form with
    | token kind => simp only [locate, hp, List.filterMap_cons, error?, ih]; simp
    | skipped => simp only [locate, hp, ih]; simp
    | fault fault => simp only [locate, hp, List.filterMap_cons, error?]; simp

/-- The number of lines by which a text stands further down when it is put behind the text `a` and a
new line. -/
def linesBefore (a : String) : Nat :=
  1 + a.toList.count '\n'

/-- Nothing is wrong with a text that consists of two texts with nothing wrong, and its tokens are
theirs. -/
theorem tokens_append_newline {a b : String} (ha : errors a = []) (hb : errors b = []) :
    errors (a ++ "\n" ++ b) = [] ∧ ∃ w t, tokens a = w ++ [t] ∧ t.kind = .eof ∧
      tokens (a ++ "\n" ++ b) = w ++ (tokens b).map (Token.lower (linesBefore a)) := by
  have ha' := errors_locate_eq_nil.mp ha
  have hb' := errors_locate_eq_nil.mp hb
  have hpieces : pieces (a ++ "\n" ++ b).toList =
      pieces a.toList ++ ⟨.skipped, ['\n']⟩ :: pieces b.toList := by
    rw [String.toList_append, String.toList_append, List.append_assoc]
    exact pieces_append (fun p hp => ha' p hp _) b.toList
  constructor
  · rw [errors, scan, hpieces, errors_locate_eq_nil]
    intro p hp
    rcases List.mem_append.mp hp with hp | hp
    · exact ha' p hp
    · rcases List.mem_cons.mp hp with rfl | hp
      · exact fun fault h => nomatch h
      · exact hb' p hp
  · obtain ⟨items, t, heq, ht, happend⟩ := exists_locate_append (pieces a.toList) 1
    have hone : token? (.token t) = some t := rfl
    refine ⟨items.filterMap token?, t, ?_, ht, ?_⟩
    · rw [tokens, scan, heq, List.filterMap_append, List.filterMap_cons, hone, List.filterMap_nil]
    · have hskip : ∀ line, locate line (⟨.skipped, ['\n']⟩ :: pieces b.toList) =
          locate (line + 1) (pieces b.toList) := fun line => rfl
      rw [tokens, scan, hpieces, happend, hskip, flatten_pieces, List.filterMap_append,
        Nat.add_assoc, Nat.add_comm (a.toList.count '\n') 1, ← linesBefore, tokens_locate_add]
      rfl

/-- A text below so many empty lines. -/
def below (k : Nat) (b : String) : String :=
  String.ofList (List.replicate k '\n') ++ b

theorem pieces_replicate_append (k : Nat) (cs : List Char) :
    pieces (List.replicate k '\n' ++ cs) = List.replicate k ⟨.skipped, ['\n']⟩ ++ pieces cs := by
  induction k with
  | zero => rfl
  | succ k ih =>
    rw [List.replicate_succ, List.replicate_succ, List.cons_append, List.cons_append, pieces_cons,
      ← ih]
    rfl

theorem locate_replicate_append (k line : Nat) (ps : List Piece) :
    locate line (List.replicate k ⟨.skipped, ['\n']⟩ ++ ps) = locate (line + k) ps := by
  induction k generalizing line with
  | zero => rfl
  | succ k ih =>
    rw [List.replicate_succ, List.cons_append, Nat.add_comm k 1, ← Nat.add_assoc, ← ih]
    rfl

/-- Empty lines in front of a text move its tokens down and change nothing else. -/
theorem tokens_below (k : Nat) (b : String) :
    (errors (below k b) = [] ↔ errors b = []) ∧
      tokens (below k b) = (tokens b).map (Token.lower k) := by
  have hscan : scan (below k b) = locate (1 + k) (pieces b.toList) := by
    rw [scan, below, String.toList_append, String.toList_ofList, pieces_replicate_append,
      locate_replicate_append]
  constructor
  · rw [errors, errors, hscan, scan, errors_locate_eq_nil, errors_locate_eq_nil]
  · rw [tokens, tokens, hscan, scan, tokens_locate_add]

end Source

/-! ## Names that are respelled -/

namespace Piece

open Source

/-- The piece that a name is. -/
def name (x : String) : Piece :=
  ⟨.token .identifier, x.toList⟩

/-- A piece that is left as it is or is the name `x`, spelled `y`. -/
def Respelled (x y : String) (p q : Piece) : Prop :=
  q = p ∨ p = name x ∧ q = name y

variable {c : Char} {cs rest : List Char} {x y : String}

theorem isDigit_of_isWordStart (h : isWordStart c = true) : c.isDigit = false := by
  refine Bool.eq_false_iff.mpr fun hd => ?_
  have hdigit : c.val.toNat ≤ 57 := by
    simp only [Char.isDigit, Bool.and_eq_true, decide_eq_true_eq, ge_iff_le,
      UInt32.le_iff_toNat_le] at hd
    exact hd.2
  rw [isWordStart, Bool.or_eq_true] at h
  rcases h with h | h
  · have hA : 'A'.val.toNat = 65 := rfl
    have ha : 'a'.val.toNat = 97 := rfl
    -- a letter is an upper case or a lower case one
    change (decide ('A'.val ≤ c.val ∧ c.val ≤ 'Z'.val) ||
      (decide ('a'.val ≤ c.val) && decide (c.val ≤ 'z'.val))) = true at h
    simp only [Bool.or_eq_true, Bool.and_eq_true, decide_eq_true_eq, UInt32.le_iff_toNat_le] at h
    omega
  · obtain rfl := beq_iff_eq.mp h
    exact absurd hdigit (by decide)

/-- The characters that are symbols, blanks or quotes, or begin such. -/
def marks : List Char :=
  ['(', ')', '\x7b', '\x7d', ',', '.', '-', '+', ';', '*', '!', '=', '<', '>', '/', ' ', '\t', '\r',
    '\n', '"']

theorem not_mem_marks {q : Char → Bool} (h : q c = true)
    (hq : marks.all (fun d => !q d) = true) : c ∉ marks := by
  intro hc
  have hne := List.all_eq_true.mp hq c hc
  rw [h] at hne
  cases hne

/-- With any other character a number begins, or a word, or nothing. -/
theorem next_of_not_mem_marks (h : c ∉ marks) :
    next c cs = if c.isDigit then number (c :: cs) else if isWordStart c then word (c :: cs)
      else (⟨.fault (.unexpectedCharacter c), [c]⟩, cs) := by
  have hne : ∀ d ∈ marks, c ≠ d := fun d hd he => h (he ▸ hd)
  have hlone : Symbol.lone? c = none := by
    unfold Symbol.lone?
    split <;> first | rfl | exact absurd rfl (hne _ (by decide))
  have hext : Symbol.extensible? c = none := by
    unfold Symbol.extensible?
    split <;> first | rfl | exact absurd rfl (hne _ (by decide))
  have hblank : isBlank c = false := by
    simp [isBlank, hne ' ' (by decide), hne '\t' (by decide), hne '\r' (by decide),
      hne '\n' (by decide)]
  unfold next
  simp only [hlone, hext, if_neg (hne '/' (by decide)), hblank, if_neg (hne '"' (by decide)),
    Bool.false_eq_true, if_false]

/-- Where a word begins, no other piece does. -/
theorem next_of_isWordStart (h : isWordStart c = true) : next c cs = word (c :: cs) := by
  rw [next_of_not_mem_marks (not_mem_marks h (by decide)), isDigit_of_isWordStart h,
    if_neg Bool.false_ne_true, if_pos h]

theorem wordKind_of_isIdentifier (hx : IsIdentifier x) : wordKind x.toList = .identifier := by
  unfold wordKind
  rw [String.ofList_toList]
  cases hk : Keyword.ofSpelling? x with
  | none => rfl
  | some k => exact absurd (Keyword.spelling_of_ofSpelling?_eq_some hk).symm (hx.free k)

/-- A name is cut off as such in front of whatever does not go on with a word. -/
theorem next_of_isIdentifier (hx : IsIdentifier x) (hcs : x.toList = c :: cs)
    (hrest : ∀ d ∈ rest.head?, isWordPart d = false) : next c (cs ++ rest) = (name x, rest) := by
  obtain ⟨c', cs', heq, hstart, hpart⟩ := hx.word
  rw [hcs] at heq
  obtain ⟨rfl, rfl⟩ := List.cons.inj heq
  have hall : ∀ d ∈ x.toList, isWordPart d = true := by
    rw [hcs]
    exact List.forall_mem_cons.mpr ⟨isWordPart_of_isWordStart hstart, hpart⟩
  obtain ⟨htake, hdrop⟩ := span_append hall hrest
  rw [next_of_isWordStart hstart, ← List.cons_append, ← hcs, word, htake, hdrop,
    wordKind_of_isIdentifier hx, name]

/-- Whatever is spelled like a name is that name, and ends where no word goes on. -/
theorem eq_name_of_text (hx : IsIdentifier x) (h : (next c cs).1.text = x.toList) :
    (next c cs).1 = name x ∧ ∀ d ∈ (next c cs).2.head?, isWordPart d = false := by
  obtain ⟨c', cs', heq, hstart, -⟩ := hx.word
  obtain ⟨t, -, ht⟩ := exists_text_of_next (Prod.eta (next c cs)).symm
  rw [h, heq] at ht
  obtain ⟨rfl, -⟩ := List.cons.inj ht
  rw [next_of_isWordStart hstart] at h ⊢
  refine ⟨?_, head?_dropWhile (c' :: cs)⟩
  have htext : (c' :: cs).takeWhile isWordPart = x.toList := h
  rw [word, htext, wordKind_of_isIdentifier hx, name]

/-- Two words border on everything alike, whatever follows them. -/
theorem Borders.of_isIdentifier (hx : IsIdentifier x) (hy : IsIdentifier y) (p : Piece)
    (rest rest' : List Char) : Borders p (x.toList ++ rest) (y.toList ++ rest') := by
  obtain ⟨a, t, ha, hastart, -⟩ := hx.word
  obtain ⟨b, u, hb, hbstart, -⟩ := hy.word
  rw [ha, hb, List.cons_append, List.cons_append]
  refine ⟨fun c _ _ => ⟨a, rfl, isWordPart_of_isWordStart hastart⟩, ?_, ?_, ?_, ?_, ?_⟩
  · rintro c ⟨⟩ hd
    rw [isDigit_of_isWordStart hbstart] at hd
    cases hd
  · rintro d r heq
    obtain ⟨rfl, -⟩ := List.cons.inj heq
    cases hbstart
  · rintro ⟨⟩
    cases hbstart
  · rintro - ⟨⟩
    cases hbstart
  · intro _ h
    obtain rfl := h a rfl
    cases hastart

/-- Texts of which one arises from the other by respelling border on everything alike. -/
theorem Borders.of_respelled (hx : IsIdentifier x) (hy : IsIdentifier y) (r : Piece)
    {ps qs : List Piece} (h : List.Forall₂ (Respelled x y) ps qs) :
    Borders r (ps.map Piece.text).flatten (qs.map Piece.text).flatten := by
  induction h with
  | nil => exact .refl _ _
  | @cons p q ps qs hpq _ ih =>
    rw [List.map_cons, List.map_cons, List.flatten_cons, List.flatten_cons]
    rcases hpq with rfl | ⟨rfl, rfl⟩
    · exact ih.append_left _
    · exact .of_isIdentifier hx hy _ _ _

end Piece

namespace Source

open Piece

/-- A text with nothing wrong in it is cut in the same places after names in it were respelled. -/
theorem pieces_flatten_of_respelled {x y : String} (hx : IsIdentifier x) (hy : IsIdentifier y)
    {cs : List Char} (h : ∀ p ∈ pieces cs, p.form ≠ .fault .unterminatedString) {qs : List Piece}
    (hqs : List.Forall₂ (Respelled x y) (pieces cs) qs) :
    pieces (qs.map Piece.text).flatten = qs := by
  fun_induction pieces cs generalizing qs with
  | case1 =>
    cases hqs
    exact pieces.eq_1
  | case2 c cs ih =>
    obtain ⟨hp, hps⟩ := List.forall_mem_cons.mp h
    cases hqs with
    | @cons _ q _ qs hq hqs =>
      have hb := Borders.of_respelled hx hy (next c cs).1 hqs
      rw [flatten_pieces] at hb
      rw [List.map_cons, List.flatten_cons]
      rcases hq with rfl | ⟨hpx, rfl⟩
      · obtain ⟨t, hcs, ht⟩ := exists_text_of_next (Prod.eta (next c cs)).symm
        have hnext := next_of_borders (p := (next c cs).1) rfl hp hb ht
        rw [ht, List.cons_append, pieces_cons, hnext, ih hps hqs]
      · obtain ⟨b, u, hbu, -⟩ := hy.word
        have hend := (eq_name_of_text hx (congrArg Piece.text hpx)).2
        have hrest : ∀ d ∈ (qs.map Piece.text).flatten.head?, isWordPart d = false := by
          intro d hd
          refine Bool.eq_false_iff.mpr fun hword => ?_
          obtain ⟨e, he, heword⟩ := hb.word d hd hword
          rw [hend e he] at heword
          cases heword
        have htext : (name y).text = b :: u := hbu
        rw [htext, List.cons_append, pieces_cons, next_of_isIdentifier hy hbu hrest, ih hps hqs]

theorem IsIdentifier.count_newline {x : String} (hx : IsIdentifier x) :
    x.toList.count '\n' = 0 := by
  obtain ⟨c, cs, heq, hstart, hpart⟩ := hx.word
  refine List.count_eq_zero_of_not_mem fun hmem => ?_
  rw [heq] at hmem
  rcases List.mem_cons.mp hmem with rfl | hmem
  · cases hstart
  · cases hpart _ hmem

/-- A token that is left as it is or has the lexeme `x`, spelled `y`. -/
def RespelledToken (x y : String) (t t' : Token) : Prop :=
  t' = t ∨ t.lexeme = x ∧ t' = { t with lexeme := y }

/-- A text in which some of the names `x` are spelled `y`. -/
def Respelled (x y : String) (a b : String) : Prop :=
  List.Forall₂ (Piece.Respelled x y) (pieces a.toList) (pieces b.toList)

theorem exists_respelled_pieces {x y : String} (hx : IsIdentifier x) (hy : IsIdentifier y)
    {ps : List Piece} {line : Nat} (hps : ∀ p ∈ ps, p.text = x.toList → p = name x)
    (herr : (locate line ps).filterMap error? = []) {w w' : List Token} {t : Token}
    (htok : (locate line ps).filterMap token? = w ++ [t])
    (hw : List.Forall₂ (RespelledToken x y) w w') :
    ∃ qs, List.Forall₂ (Piece.Respelled x y) ps qs ∧
      (locate line qs).filterMap token? = w' ++ [t] ∧
        (locate line qs).filterMap error? = [] := by
  induction ps generalizing line w w' with
  | nil =>
    cases hw with
    | nil => exact ⟨[], .nil, htok, herr⟩
    | cons _ _ =>
      have := congrArg List.length htok
      simp [locate, token?] at this
  | cons p ps ih =>
    obtain ⟨hp, hps⟩ := List.forall_mem_cons.mp hps
    cases hform : p.form with
    | token kind =>
      simp only [locate, hform, List.filterMap_cons, error?, token?] at herr htok
      cases hw with
      | nil =>
        -- the end of the text is still to come
        obtain ⟨items, e, heq, -⟩ := exists_locate_append ps (line + p.text.count '\n')
        have := congrArg List.length (List.cons.inj htok).2
        rw [heq] at this
        simp [token?] at this
      | @cons u u' w w' hu hw =>
        obtain ⟨rfl, hrest⟩ := List.cons.inj htok
        obtain ⟨qs, hqs, htok', herr'⟩ := ih hps herr hrest hw
        rcases hu with rfl | ⟨hlexeme, rfl⟩
        · refine ⟨p :: qs, .cons (.inl rfl) hqs, ?_, ?_⟩
          · simp only [locate, hform, List.filterMap_cons, token?, htok', List.cons_append]
          · simp only [locate, hform, List.filterMap_cons, error?, herr']
        · obtain rfl := hp (by rw [← hlexeme, String.toList_ofList])
          cases hform
          have hcount : (name y).text.count '\n' = (name x).text.count '\n' :=
            hy.count_newline.trans hx.count_newline.symm
          rw [← hcount] at htok' herr'
          refine ⟨name y :: qs, .cons (.inr ⟨rfl, rfl⟩) hqs, ?_, ?_⟩
          · simp only [locate, name, List.filterMap_cons, token?, List.cons_append] at htok' ⊢
            rw [htok', String.ofList_toList, hy.count_newline, hx.count_newline]
          · simp only [locate, name, List.filterMap_cons, error?] at herr' ⊢
            exact herr'
    | skipped =>
      simp only [locate, hform] at herr htok
      obtain ⟨qs, hqs, htok', herr'⟩ := ih hps herr htok hw
      refine ⟨p :: qs, .cons (.inl rfl) hqs, ?_, ?_⟩
      · simp only [locate, hform, htok']
      · simp only [locate, hform, herr']
    | fault fault =>
      simp [locate, hform, error?] at herr

/-- Tokens that are respelled come from a text in which they are respelled. -/
theorem exists_respelled {x y : String} (hx : IsIdentifier x) (hy : IsIdentifier y) {a : String}
    (ha : errors a = []) {w w' : List Token} {t : Token} (htok : tokens a = w ++ [t])
    (hw : List.Forall₂ (RespelledToken x y) w w') :
    ∃ b, Respelled x y a b ∧ errors b = [] ∧ tokens b = w' ++ [t] := by
  have hnames : ∀ p ∈ pieces a.toList, p.text = x.toList → p = name x :=
    forall_mem_pieces (fun c cs h => (eq_name_of_text hx h).1) _
  obtain ⟨qs, hqs, htok', herr'⟩ := exists_respelled_pieces hx hy hnames ha htok hw
  have hforms := errors_locate_eq_nil.mp ha
  have hpieces := pieces_flatten_of_respelled hx hy (fun p hp => hforms p hp _) hqs
  refine ⟨String.ofList (qs.map Piece.text).flatten, ?_, ?_, ?_⟩
  · rw [Respelled, String.toList_ofList, hpieces]
    exact hqs
  · rw [errors, scan, String.toList_ofList, hpieces]
    exact herr'
  · rw [tokens, scan, String.toList_ofList, hpieces]
    exact htok'

end Source

end LoxWalk
