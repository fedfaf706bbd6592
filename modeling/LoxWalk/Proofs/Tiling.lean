import LoxWalk.Proofs.ByteScanning

/-!
# Scanning tiles the source

`Source.scan` reports tokens and faults, and of what it skips it reports nothing.  Here every piece
of a text keeps its place in it, as a `Tile`.  The tiles of a text stand one behind the other, cover
each byte once, and begin and end between characters; what is reported of a tile is true of the bytes
that it covers (`Tile.Fits`).  What is scanned is what is reported of the tiles and then the token
that marks the end (`Source.scan_tiles_source`).

Bytes are those of the text in UTF-8, as files hold them; scanning them one by one yields the same,
and never cuts through a character.
-/

namespace LoxWalk

namespace Piece

open Source

/-! ## What one piece is -/

/-- Characters with which no piece begins but a fault. -/
structure Unexpected (c : Char) : Prop where
  not_lone : Symbol.lone? c = none
  not_extensible : Symbol.extensible? c = none
  not_slash : c ≠ '/'
  not_blank : isBlank c = false
  not_quote : c ≠ '"'
  not_digit : c.isDigit = false
  not_wordStart : isWordStart c = false

/-- Only what stands between two quotes has contents, and these are all that stands there. -/
def Quoted (kind : TokenKind) (text : List Char) : Prop :=
  ∀ contents, kind = .string contents → text = '"' :: contents.toList ++ ['"']

/-- A text in front of `rest` is a fault: one character with which nothing begins, or a quote and
all that follows it. -/
def IsFault (fault : ScanFault) (text rest : List Char) : Prop :=
  match fault with
  | .unexpectedCharacter c => text = [c] ∧ Unexpected c
  | .unterminatedString => (∃ contents, text = '"' :: contents ∧ '"' ∉ contents) ∧ rest = []

/-- A text in front of `rest` is a comment: it lasts to the end of its line. -/
def IsComment (text rest : List Char) : Prop :=
  (∃ words, text = '/' :: '/' :: words ∧ '\n' ∉ words) ∧ ∀ c ∈ rest.head?, c = '\n'

/-- A text in front of `rest` is rightly skipped. -/
def IsSkipped (text rest : List Char) : Prop :=
  (∃ c, text = [c] ∧ isBlank c = true) ∨ IsComment text rest

/-- A piece in front of `rest` is what its form says. -/
def IsSound (p : Piece) (rest : List Char) : Prop :=
  match p.form with
  | .token kind => kind ≠ .eof ∧ Quoted kind p.text
  | .fault fault => IsFault fault p.text rest
  | .skipped => IsSkipped p.text rest

theorem comment_isSound (cs : List Char) : (comment cs).1.IsSound (comment cs).2 := by
  refine .inr ⟨⟨cs.takeWhile (· != '\n'), rfl, fun hmem => ?_⟩, ?_⟩
  · simpa using List.mem_takeWhile_imp hmem
  · intro c hc
    simpa using head?_dropWhile cs c hc

theorem string_isSound (cs : List Char) : (string cs).1.IsSound (string cs).2 := by
  by_cases hquote : '"' ∈ cs
  · obtain ⟨contents, rest, rfl, hclosed⟩ := List.eq_append_cons_of_mem hquote
    rw [string_of_closed hclosed]
    refine ⟨nofun, ?_⟩
    rintro contents' ⟨⟩
    rw [String.toList_ofList]
  · rw [string_of_open hquote]
    exact ⟨⟨cs, rfl, hquote⟩, rfl⟩

theorem number_isSound (cs : List Char) : (number cs).1.IsSound (number cs).2 := by
  by_cases h : ∃ d r, cs.dropWhile Char.isDigit = '.' :: d :: r ∧ d.isDigit = true
  · obtain ⟨d, r, hdrop, hd⟩ := h
    rw [number_of_fraction hdrop hd]
    exact ⟨nofun, nofun⟩
  · rw [number_of_not_fraction fun d r hdrop => Bool.eq_false_iff.mpr fun hd => h ⟨d, r, hdrop, hd⟩]
    exact ⟨nofun, nofun⟩

theorem word_isSound (cs : List Char) : (word cs).1.IsSound (word cs).2 := by
  have hkind : wordKind (cs.takeWhile isWordPart) ≠ .eof ∧
      ∀ contents, wordKind (cs.takeWhile isWordPart) ≠ .string contents := by
    unfold wordKind
    split <;> exact ⟨nofun, nofun⟩
  exact ⟨hkind.1, fun contents h => absurd h (hkind.2 contents)⟩

/-- Whatever is cut off is what its form says. -/
theorem next_isSound (c : Char) (cs : List Char) : (next c cs).1.IsSound (next c cs).2 := by
  unfold next
  cases hlone : Symbol.lone? c with
  | some s => exact ⟨nofun, nofun⟩
  | none =>
    cases hext : Symbol.extensible? c with
    | some symbols =>
      dsimp only
      split <;> exact ⟨nofun, nofun⟩
    | none =>
      dsimp only
      split
      · split
        · exact comment_isSound _
        · exact ⟨nofun, nofun⟩
      · rename_i hslash
        split
        · rename_i hblank
          exact .inl ⟨c, rfl, hblank⟩
        · rename_i hblank
          split
          · exact string_isSound cs
          · rename_i hquote
            split
            · exact number_isSound (c :: cs)
            · rename_i hdigit
              split
              · exact word_isSound (c :: cs)
              · rename_i hstart
                exact ⟨rfl, hlone, hext, hslash, Bool.eq_false_iff.mpr hblank, hquote,
                  Bool.eq_false_iff.mpr hdigit, Bool.eq_false_iff.mpr hstart⟩

end Piece

open Source

/-! ## Tiles -/

/-- A part of a source text: what stands in front of it, the part itself and what follows, and the
item that is reported of it, if there is one. -/
structure Tile where
  before : List Char
  text : List Char
  rest : List Char
  report : Option ScanItem
deriving DecidableEq

namespace Tile

/-- The first byte that a tile covers. -/
def start (x : Tile) : Nat :=
  byteSize x.before

/-- The first byte behind a tile. -/
def stop (x : Tile) : Nat :=
  x.start + byteSize x.text

def Covers (x : Tile) (i : Nat) : Prop :=
  x.start ≤ i ∧ i < x.stop

/-- The report of a tile that ends on a line is true of its text, and a tile without a report is
rightly skipped. -/
def Truthful (x : Tile) (line : Nat) : Prop :=
  match x.report with
  | some (.token t) =>
    t.lexeme = String.ofList x.text ∧ t.line = line ∧ t.kind ≠ .eof ∧ Piece.Quoted t.kind x.text
  | some (.error e) => e.line = line ∧ Piece.IsFault e.fault x.text x.rest
  | none => Piece.IsSkipped x.text x.rest

/-- A tile is a part of the source text, found at its bytes, which begin and end between characters.
Its line is that of its last byte. -/
structure Fits (source : String) (x : Tile) : Prop where
  source_eq : source = String.ofList (x.before ++ (x.text ++ x.rest))
  start_valid : (⟨x.start⟩ : String.Pos.Raw).IsValid source
  stop_valid : (⟨x.stop⟩ : String.Pos.Raw).IsValid source
  start_lt_stop : x.start < x.stop
  bytes_eq : source.toUTF8.extract x.start x.stop = (String.ofList x.text).toUTF8
  truthful : x.Truthful (1 + newlines (source.toUTF8.extract 0 x.stop))

end Tile

namespace Source

open Piece

/-- Puts pieces behind a text whose last line is `line`. -/
def place (before : List Char) (line : Nat) : List Piece → List Tile
  | [] => []
  | p :: ps =>
    let ends := line + p.text.count '\n'
    ⟨before, p.text, (ps.map Piece.text).flatten, p.report ends⟩ :: place (before ++ p.text) ends ps

/-- All tiles of a source text, in order. -/
def tiles (source : String) : List Tile :=
  place [] 1 (pieces source.toList)

/-! ## Their order -/

theorem byteSize_le_start {before : List Char} {line : Nat} {ps : List Piece} {x : Tile}
    (hx : x ∈ place before line ps) : byteSize before ≤ x.start := by
  induction ps generalizing before line with
  | nil => exact absurd hx List.not_mem_nil
  | cons p ps ih =>
    rcases List.mem_cons.mp hx with rfl | hx
    · exact Nat.le_refl _
    · have := ih hx
      rw [byteSize_append] at this
      exact Nat.le_trans (Nat.le_add_right _ _) this

/-- Tiles stand one behind the other. -/
theorem place_pairwise (before : List Char) (line : Nat) (ps : List Piece) :
    (place before line ps).Pairwise fun x y => x.stop ≤ y.start := by
  induction ps generalizing before line with
  | nil => exact .nil
  | cons p ps ih =>
    refine .cons (fun y hy => ?_) (ih _ _)
    have := byteSize_le_start hy
    rwa [byteSize_append] at this

/-- Each byte of the pieces that are placed is covered once. -/
theorem existsUnique_covers (before : List Char) (line : Nat) (ps : List Piece) {i : Nat}
    (hi : byteSize before ≤ i)
    (hlt : i < byteSize before + byteSize (ps.map Piece.text).flatten) :
    ∃! x, x ∈ place before line ps ∧ x.Covers i := by
  induction ps generalizing before line with
  | nil => exact absurd hlt (Nat.not_lt.mpr hi)
  | cons p ps ih =>
    rw [List.map_cons, List.flatten_cons, byteSize_append, ← Nat.add_assoc, ← byteSize_append]
      at hlt
    have hsize := byteSize_append before p.text
    by_cases hp : i < byteSize (before ++ p.text)
    · refine ⟨_, ⟨List.mem_cons_self, hi, hp.trans_eq hsize⟩, ?_⟩
      rintro y ⟨hy, hstart, -⟩
      rcases List.mem_cons.mp hy with rfl | hy
      · rfl
      · exact absurd (Nat.le_trans (byteSize_le_start hy) hstart) (Nat.not_le.mpr hp)
    · have hp := Nat.not_lt.mp hp
      obtain ⟨x, ⟨hx, hcovers⟩, hunique⟩ := ih (before ++ p.text) (line + p.text.count '\n') hp hlt
      refine ⟨x, ⟨List.mem_cons_of_mem _ hx, hcovers⟩, ?_⟩
      rintro y ⟨hy, hcovers'⟩
      rcases List.mem_cons.mp hy with rfl | hy
      · exact absurd (hcovers'.2.trans_eq hsize.symm) (Nat.not_lt.mpr hp)
      · exact hunique y ⟨hy, hcovers'⟩

/-! ## Their truth -/

/-- What is scanned is what is reported of the tiles. -/
theorem locate_eq_reports (before : List Char) (line : Nat) (ps : List Piece) :
    locate line ps = (place before line ps).filterMap Tile.report ++
      [.token ⟨.eof, "", line + (ps.map Piece.text).flatten.count '\n'⟩] := by
  induction ps generalizing before line with
  | nil => rfl
  | cons p ps ih =>
    have hrest := ih (before ++ p.text) (line + p.text.count '\n')
    rw [Nat.add_assoc, ← List.count_append] at hrest
    rw [locate_cons, hrest, place, List.filterMap_cons, List.map_cons, List.flatten_cons]
    dsimp only
    cases p.report (line + p.text.count '\n') <;> rfl

theorem truthful_of_isSound {p : Piece} {before rest : List Char} (h : p.IsSound rest)
    (line : Nat) : Tile.Truthful ⟨before, p.text, rest, p.report line⟩ line := by
  unfold IsSound at h
  unfold Tile.Truthful Piece.report
  cases hform : p.form with
  | token kind =>
    rw [hform] at h
    exact ⟨rfl, rfl, h⟩
  | skipped =>
    rw [hform] at h
    exact h
  | fault fault =>
    rw [hform] at h
    exact ⟨rfl, h⟩

/-- Whatever is cut off behind a text fits there. -/
theorem fits_next (before : List Char) (c : Char) (cs : List Char) :
    Tile.Fits (String.ofList (before ++ c :: cs)) ⟨before, (next c cs).1.text, (next c cs).2,
      (next c cs).1.report (1 + (before ++ (next c cs).1.text).count '\n')⟩ := by
  obtain ⟨t, -, ht⟩ := exists_text_of_next (Prod.eta (next c cs)).symm
  have hpos : 0 < byteSize (next c cs).1.text := ht ▸ byteSize_pos c t
  have hstop : byteSize before + byteSize (next c cs).1.text =
      byteSize (before ++ (next c cs).1.text) := (byteSize_append _ _).symm
  rw [← next_text c cs]
  refine ⟨rfl, isValid_byteSize _ _, ?_, Nat.lt_add_of_pos_right hpos, ?_, ?_⟩
  · rw [Tile.stop, Tile.start, hstop, ← List.append_assoc]
    exact isValid_byteSize _ _
  · rw [Tile.stop, Tile.start, hstop, String.toUTF8, String.toUTF8, String.toByteArray_ofList]
    exact extract_byteSize _ _ _
  · have hbytes := extract_byteSize [] (before ++ (next c cs).1.text) (next c cs).2
    rw [List.nil_append, List.append_assoc, List.nil_append] at hbytes
    have hzero : byteSize [] = 0 := rfl
    rw [hzero] at hbytes
    rw [Tile.stop, Tile.start, hstop, hbytes, newlines_utf8Encode]
    exact truthful_of_isSound (next_isSound c cs) _

theorem fits_of_mem_place {before cs : List Char} {x : Tile}
    (hx : x ∈ place before (1 + before.count '\n') (pieces cs)) :
    x.Fits (String.ofList (before ++ cs)) := by
  fun_induction pieces cs generalizing before with
  | case1 => exact absurd hx List.not_mem_nil
  | case2 c cs ih =>
    have hline : 1 + before.count '\n' + (next c cs).1.text.count '\n' =
        1 + (before ++ (next c cs).1.text).count '\n' := by
      rw [List.count_append, Nat.add_assoc]
    rw [place, flatten_pieces, hline] at hx
    rcases List.mem_cons.mp hx with rfl | hx
    · exact fits_next before c cs
    · have := ih hx
      rwa [List.append_assoc, next_text] at this

/-- Scanning, also byte by byte, yields what is reported of the tiles of the source and then one
token that marks the end, on the line behind the last new line.  Each tile is what its report says
and stands on the line that the report says, the tiles do not overlap, and each byte is covered. -/
theorem scan_tiles_source (source : String) :
    scan? source = some (scan source) ∧
      (∀ x ∈ tiles source, x.Fits source) ∧
      (tiles source).Pairwise (fun x y => x.stop ≤ y.start) ∧
      (∀ i < source.toUTF8.size, ∃! x, x ∈ tiles source ∧ x.Covers i) ∧
      scan source = (tiles source).filterMap Tile.report ++
        [.token ⟨.eof, "", 1 + newlines source.toUTF8⟩] := by
  have hbytes : source.toUTF8 = source.toList.utf8Encode := by
    rw [← String.toByteArray_ofList, String.ofList_toList, String.toUTF8]
  refine ⟨scan?_eq source, fun x hx => ?_, place_pairwise _ _ _, fun i hi => ?_, ?_⟩
  · have : x.Fits (String.ofList ([] ++ source.toList)) := fits_of_mem_place hx
    rwa [List.nil_append, String.ofList_toList] at this
  · refine existsUnique_covers [] 1 _ (Nat.zero_le i) ?_
    rw [flatten_pieces, ← size_utf8Encode source.toList, ← hbytes]
    exact Nat.lt_of_lt_of_le hi (Nat.le_add_left _ _)
  · rw [scan, locate_eq_reports [], flatten_pieces, hbytes, newlines_utf8Encode]
    rfl

end Source

end LoxWalk
