import LoxWalk.Source

/-!
# What scanning yields

Names are spelled like no reserved word, and reserved words as they should be
(`Source.genuine_of_mem_tokens`).  The last token of a source text marks its end, and no other token
does (`Source.tokens_eq_concat`).
-/

namespace LoxWalk

/-! ## Symbols -/

theorem Symbol.spelling_of_lone? {c : Char} {s : Symbol} (h : Symbol.lone? c = some s) :
    String.ofList [c] = s.spelling := by
  unfold lone? at h
  split at h <;> cases h <;> rfl

theorem Symbol.spelling_of_extensible? {c : Char} {s s' : Symbol}
    (h : Symbol.extensible? c = some (s, s')) :
    String.ofList [c] = s.spelling ∧ String.ofList [c, '='] = s'.spelling := by
  unfold extensible? at h
  split at h <;> cases h <;> exact ⟨rfl, rfl⟩

/-! ## Words -/

/-- A text that is a name: a word which is not reserved. -/
structure Source.IsIdentifier (x : String) : Prop where
  word : ∃ c cs, x.toList = c :: cs ∧ isWordStart c = true ∧ ∀ d ∈ cs, isWordPart d = true
  free : ∀ k : Keyword, x ≠ k.spelling

/-- Reserved words are spelled as they should be, and names are names. -/
def Token.Genuine (t : Token) : Prop :=
  match t.kind with
  | .keyword k => t.lexeme = k.spelling
  | .identifier => Source.IsIdentifier t.lexeme
  | _ => True

theorem Token.Genuine.lexeme_eq {t : Token} {k : Keyword} (h : t.Genuine)
    (ht : t.kind = .keyword k) : t.lexeme = k.spelling := by
  simpa only [Genuine, ht] using h

theorem Token.Genuine.isIdentifier {t : Token} (h : t.Genuine) (ht : t.kind = .identifier) :
    Source.IsIdentifier t.lexeme := by
  rwa [Genuine, ht] at h

theorem Keyword.spelling_of_ofSpelling?_eq_some {word : String} {k : Keyword}
    (h : Keyword.ofSpelling? word = some k) : k.spelling = word := by
  simpa using List.find?_some h

theorem Keyword.spelling_ne_of_ofSpelling?_eq_none {word : String}
    (h : Keyword.ofSpelling? word = none) (k : Keyword) : word ≠ k.spelling := by
  have hk : k ∈ Keyword.all := by cases k <;> decide
  have := List.find?_eq_none.mp h k hk
  exact fun he => this (by simp [he])

namespace Piece

open Source

/-- What a piece is and how it is spelled fit together. -/
def Genuine (p : Piece) : Prop :=
  ∀ kind line, p.form = .token kind → Token.Genuine ⟨kind, String.ofList p.text, line⟩

theorem isWordPart_of_isWordStart {c : Char} (h : isWordStart c = true) : isWordPart c = true := by
  rw [isWordStart, Bool.or_eq_true] at h
  rw [isWordPart, Char.isAlphanum, Bool.or_eq_true, Bool.or_eq_true]
  exact h.imp_left .inl

theorem word_genuine {c : Char} (hc : isWordStart c = true) (cs : List Char) :
    (word (c :: cs)).1.Genuine := by
  rintro kind line ⟨⟩
  have htext : (word (c :: cs)).1.text = c :: cs.takeWhile isWordPart :=
    List.takeWhile_cons_of_pos (isWordPart_of_isWordStart hc)
  rw [htext, List.takeWhile_cons_of_pos (isWordPart_of_isWordStart hc)]
  unfold wordKind
  split
  · rename_i k hk
    exact (Keyword.spelling_of_ofSpelling?_eq_some hk).symm
  · rename_i hk
    refine ⟨⟨c, cs.takeWhile isWordPart, String.toList_ofList, hc, fun d hd => ?_⟩,
      Keyword.spelling_ne_of_ofSpelling?_eq_none hk⟩
    exact List.all_eq_true.mp (List.all_takeWhile (p := isWordPart)) d hd

/-- A piece that is no word has no kind that a spelling has to fit. -/
theorem next_genuine (c : Char) (cs : List Char) : (next c cs).1.Genuine := by
  have hsymbol : ∀ s text, (symbol s text).Genuine := by
    rintro s text kind line ⟨⟩
    trivial
  have hother : ∀ p : Piece, (∀ kind, p.form ≠ .token kind) → p.Genuine :=
    fun p hp kind line hkind => absurd hkind (hp kind)
  unfold next
  split
  · exact hsymbol _ _
  · split <;> exact hsymbol _ _
  · split
    · split
      · exact hother _ (by simp [comment])
      · exact hsymbol _ _
    · split
      · exact hother _ (by simp)
      · split
        · unfold string
          split
          · exact hother _ (by simp)
          · rintro kind line ⟨⟩
            trivial
        · split
          · unfold number
            split
            · split <;> (rintro kind line ⟨⟩; trivial)
            · rintro kind line ⟨⟩
              trivial
          · split
            · rename_i hc
              exact word_genuine hc cs
            · exact hother _ (by simp)

end Piece

namespace Source

/-- A property that every first piece has is one of all pieces of a text. -/
theorem forall_mem_pieces {P : Piece → Prop} (h : ∀ c cs, P (Piece.next c cs).1) (cs : List Char) :
    ∀ p ∈ pieces cs, P p := by
  fun_induction pieces cs with
  | case1 => simp
  | case2 c cs ih => exact List.forall_mem_cons.mpr ⟨h c cs, ih⟩

/-- A token comes from a piece, or it marks the end. -/
theorem mem_tokens_locate {t : Token} {line : Nat} {ps : List Piece}
    (ht : t ∈ (locate line ps).filterMap token?) :
    t.kind = .eof ∨ ∃ p ∈ ps, p.form = .token t.kind ∧ t.lexeme = String.ofList p.text := by
  induction ps generalizing line with
  | nil =>
    obtain rfl : t = ⟨.eof, "", line⟩ := by simpa [locate, token?] using ht
    exact .inl rfl
  | cons p ps ih =>
    have hrest : ∀ line, t ∈ (locate line ps).filterMap token? →
        t.kind = .eof ∨ ∃ q ∈ p :: ps, q.form = .token t.kind ∧ t.lexeme = String.ofList q.text := by
      intro line ht
      refine (ih ht).imp_right ?_
      rintro ⟨q, hq, hform⟩
      exact ⟨q, List.mem_cons_of_mem _ hq, hform⟩
    unfold locate at ht
    split at ht
    · rename_i kind hkind
      rw [List.filterMap_cons] at ht
      rcases List.mem_cons.mp ht with rfl | ht
      · exact .inr ⟨p, List.mem_cons_self, hkind, rfl⟩
      · exact hrest _ ht
    · exact hrest _ ht
    · rw [List.filterMap_cons] at ht
      exact hrest _ ht

/-- All tokens of a source text are genuine. -/
theorem genuine_of_mem_tokens {source : String} {t : Token} (ht : t ∈ tokens source) :
    t.Genuine := by
  rcases mem_tokens_locate ht with hk | ⟨p, hp, hform, hlexeme⟩
  · rw [Token.Genuine, hk]
    trivial
  · have := forall_mem_pieces Piece.next_genuine _ p hp t.kind t.line hform
    rwa [← hlexeme] at this

end Source

/-! ## The end of the input -/

namespace Piece

theorem next_form_ne_eof (c : Char) (cs : List Char) : (next c cs).1.form ≠ .token .eof := by
  have hword : ∀ word, wordKind word ≠ .eof := by
    intro word
    unfold wordKind
    split <;> simp
  unfold next
  split
  · simp [symbol]
  · split <;> simp [symbol]
  · split
    · split <;> simp [comment, symbol]
    · split
      · simp
      · split
        · unfold string
          split <;> simp
        · split
          · unfold number
            split
            · split <;> simp
            · simp
          · split
            · simpa [word] using hword _
            · simp

end Piece

namespace Source

/-- Only the last token of a source text marks its end. -/
theorem tokens_eq_concat (source : String) :
    ∃ w t, tokens source = w ++ [t] ∧ t.kind = .eof ∧ ∀ u ∈ w, u.isEof = false := by
  have hlocate : ∀ (ps : List Piece) (line : Nat), (∀ p ∈ ps, p.form ≠ .token .eof) →
      ∃ w t, (locate line ps).filterMap token? = w ++ [t] ∧ t.kind = .eof ∧
        ∀ u ∈ w, u.isEof = false := by
    intro ps
    induction ps with
    | nil => exact fun line _ => ⟨[], ⟨.eof, "", line⟩, rfl, rfl, by simp⟩
    | cons p ps ih =>
      intro line h
      obtain ⟨hp, hps⟩ := List.forall_mem_cons.mp h
      obtain ⟨w, t, hw, ht, heof⟩ := ih (line + p.text.count '\n') hps
      unfold locate
      split
      · rename_i kind hkind
        refine ⟨⟨kind, String.ofList p.text, line + p.text.count '\n'⟩ :: w, t, ?_, ht, ?_⟩
        · simp only [List.filterMap_cons, token?, hw, List.cons_append]
        · refine List.forall_mem_cons.mpr ⟨?_, heof⟩
          simpa [Token.isEof, hkind] using hp
      · exact ⟨w, t, hw, ht, heof⟩
      · exact ⟨w, t, by simp only [List.filterMap_cons, token?, hw], ht, heof⟩
  exact hlocate _ 1 (forall_mem_pieces Piece.next_form_ne_eof _)

end Source

end LoxWalk
