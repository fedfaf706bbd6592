import LoxWalk.Proofs.Bytes
import LoxWalk.Proofs.Rescanning

/-!
# Scanning byte by byte

`Source.scan` works on characters.  The same can be done on the bytes of a text, at positions in
them and without decoding anything but the parts that are cut out: `Source.cut?` looks at single
bytes, and `Source.scan?` goes from one position to the next.  A part is cut out only between two
positions that stand between characters, and if one does not, there is no result.

It does not come to that: for every text there is a result, and it is that of `Source.scan`
(`Source.scan?_eq`).
-/

namespace LoxWalk

/-- What is reported of a piece that ends on a line. -/
def Piece.report (p : Piece) (line : Nat) : Option ScanItem :=
  match p.form with
  | .token kind => some (.token ⟨kind, String.ofList p.text, line⟩)
  | .fault fault => some (.error ⟨line, fault⟩)
  | .skipped => none

namespace Source

/-! ## The scanner -/

/-- What is cut off from a position on: what it is, the position behind it, and the line there. -/
structure Cut where
  form : PieceForm
  stop : Nat
  line : Nat

/-- Whether a byte goes on with a character. -/
def isContinuation (b : UInt8) : Bool :=
  b &&& 0xc0 == 0x80

/-- The value of digits with at most one point between them. -/
def numeral (digits : List Char) : Double :=
  Number.ofNumeral (digits.takeWhile Char.isDigit) ((digits.dropWhile Char.isDigit).drop 1)

section

variable (source : String) (start line : Nat)

/-- A string, whose opening quote is at `start`. -/
def cutString? : Option Cut :=
  let quote := skipBytes source (fun b => charOf b != '"') (start + 1)
  let ends := line + newlines (source.toUTF8.extract (start + 1) quote)
  if quote < source.utf8ByteSize then
    (slice? source (start + 1) quote).map fun contents =>
      ⟨.token (.string contents), quote + 1, ends⟩
  else
    some ⟨.fault .unterminatedString, quote, ends⟩

/-- A number, whose first digit is at `start`. -/
def cutNumber? : Option Cut :=
  let point := skipBytes source (fun b => (charOf b).isDigit) (start + 1)
  let stop :=
    if charAt source point = '.' ∧ (charAt source (point + 1)).isDigit = true then
      skipBytes source (fun b => (charOf b).isDigit) (point + 1)
    else point
  (slice? source start stop).map fun digits =>
    ⟨.token (.number (numeral digits.toList)), stop, line⟩

/-- A word, whose first letter is at `start`. -/
def cutWord? : Option Cut :=
  let stop := skipBytes source (fun b => isWordPart (charOf b)) (start + 1)
  (slice? source start stop).map fun word => ⟨.token (Piece.wordKind word.toList), stop, line⟩

/-- A character with which nothing begins, however many bytes it has. -/
def cutUnexpected? : Option Cut :=
  let stop := skipBytes source isContinuation (start + 1)
  (slice? source start stop).map fun text =>
    ⟨.fault (.unexpectedCharacter (text.toList.headD '\ufffd')), stop, line⟩

/-- Cuts off what begins at a position. -/
def cut? : Option Cut :=
  let c := charAt source start
  let after := charAt source (start + 1)
  match Symbol.lone? c, Symbol.extensible? c with
  | some s, _ => some ⟨.token (.symbol s), start + 1, line⟩
  | none, some (plain, extended) =>
    if after = '=' then some ⟨.token (.symbol extended), start + 2, line⟩
    else some ⟨.token (.symbol plain), start + 1, line⟩
  | none, none =>
    if c = '/' then
      if after = '/' then
        some ⟨.skipped, skipBytes source (fun b => charOf b != '\n') (start + 2), line⟩
      else some ⟨.token (.symbol .slash), start + 1, line⟩
    else if c = '\n' then some ⟨.skipped, start + 1, line + 1⟩
    else if isBlank c then some ⟨.skipped, start + 1, line⟩
    else if c = '"' then cutString? source start line
    else if c.isDigit then cutNumber? source start line
    else if isWordStart c then cutWord? source start line
    else cutUnexpected? source start line

/-- What is reported of a cut. -/
def report? (cut : Cut) : Option (List ScanItem) :=
  match cut.form with
  | .token kind =>
    (slice? source start cut.stop).map fun lexeme => [.token ⟨kind, lexeme, cut.line⟩]
  | .skipped => some []
  | .fault fault => some [.error ⟨cut.line, fault⟩]

end

section

variable {source : String} {start line : Nat} {cut : Cut}

theorem lt_stop_of_map {text : Option String} {form : String → PieceForm} {stop : Nat}
    (hlt : start < stop) (h : text.map (fun t => (⟨form t, stop, line⟩ : Cut)) = some cut) :
    start < cut.stop := by
  obtain ⟨t, -, rfl⟩ := Option.map_eq_some_iff.mp h
  exact hlt

theorem lt_stop_of_cutString? (h : cutString? source start line = some cut) :
    start < cut.stop := by
  have hquote := le_skipBytes source (fun b => charOf b != '"') (start + 1)
  unfold cutString? at h
  dsimp only at h
  split at h
  · exact lt_stop_of_map (by omega) h
  · obtain rfl := Option.some.inj h
    exact hquote

theorem lt_stop_of_cutNumber? (h : cutNumber? source start line = some cut) :
    start < cut.stop := by
  have hskip := le_skipBytes source (fun b => (charOf b).isDigit)
  have hpoint := hskip (start + 1)
  refine lt_stop_of_map ?_ h
  split
  · have hfraction := hskip (skipBytes source (fun b => (charOf b).isDigit) (start + 1) + 1)
    omega
  · exact hpoint

/-- Something is cut off at every position. -/
theorem lt_stop_of_cut? (h : cut? source start line = some cut) : start < cut.stop := by
  have hskip (p : UInt8 → Bool) (i : Nat) := le_skipBytes source p i
  unfold cut? at h
  dsimp only at h
  split at h
  · obtain rfl := Option.some.inj h
    exact Nat.lt_succ_self start
  · split at h <;> obtain rfl := Option.some.inj h <;> dsimp only <;> omega
  · split at h
    · split at h
      · obtain rfl := Option.some.inj h
        exact Nat.lt_of_succ_le (Nat.le_trans (Nat.le_succ _) (hskip _ (start + 2)))
      · obtain rfl := Option.some.inj h
        exact Nat.lt_succ_self start
    · split at h
      · obtain rfl := Option.some.inj h
        exact Nat.lt_succ_self start
      · split at h
        · obtain rfl := Option.some.inj h
          exact Nat.lt_succ_self start
        · split at h
          · exact lt_stop_of_cutString? h
          · split at h
            · exact lt_stop_of_cutNumber? h
            · split at h
              · exact lt_stop_of_map (hskip _ (start + 1)) h
              · exact lt_stop_of_map (hskip _ (start + 1)) h

end

/-- What is reported from a position on, with the token that marks the end. -/
def scanFrom? (source : String) (start line : Nat) : Option (List ScanItem) :=
  if start < source.utf8ByteSize then
    match _ : cut? source start line with
    | some cut =>
      (report? source start cut).bind fun items =>
        (scanFrom? source cut.stop cut.line).map (items ++ ·)
    | none => none
  else some [.token ⟨.eof, "", line⟩]
termination_by source.utf8ByteSize - start
decreasing_by
  have hlt : start < cut.stop := lt_stop_of_cut? ‹_›
  omega

/-- Scans a text byte by byte; there is no result if a part would have to be cut out at a position
that does not stand between characters. -/
def scan? (source : String) : Option (List ScanItem) :=
  scanFrom? source 0 1

/-! ## Tests on characters that may be made on bytes -/

theorem le_outsideAscii {d : Char} (hd : d.toNat < 128) :
    OutsideAscii (fun c => decide (c.val ≤ d.val)) false := by
  intro c hc
  rw [decide_eq_false_iff_not, UInt32.le_iff_toNat_le]
  exact Nat.not_le.mpr (Nat.lt_of_lt_of_le hd hc)

theorem eq_outsideAscii {d : Char} (hd : d.toNat < 128) : OutsideAscii (· = d) False := by
  intro c hc
  refine eq_false ?_
  rintro rfl
  omega

theorem bne_outsideAscii {d : Char} (hd : d.toNat < 128) : OutsideAscii (· != d) true :=
  fun c hc => bne_iff_ne.mpr (of_eq_false (eq_outsideAscii hd c hc))

theorem isDigit_outsideAscii : OutsideAscii Char.isDigit false := by
  intro c hc
  have hle : decide (c.val ≤ ('9' : Char).val) = false := le_outsideAscii (by decide) c hc
  rw [Char.isDigit, hle, Bool.and_false]

theorem isAlpha_outsideAscii : OutsideAscii Char.isAlpha false := by
  intro c hc
  have hupper : decide (c.val ≤ ('Z' : Char).val) = false := le_outsideAscii (by decide) c hc
  have hlower : decide (c.val ≤ ('z' : Char).val) = false := le_outsideAscii (by decide) c hc
  have halpha : c.isAlpha = (decide (c.val ≥ ('A' : Char).val ∧ c.val ≤ ('Z' : Char).val) ||
      decide (c.val ≥ ('a' : Char).val) && decide (c.val ≤ ('z' : Char).val)) := rfl
  rw [halpha, Bool.decide_and, hupper, hlower, Bool.and_false, Bool.and_false]
  rfl

theorem isWordPart_outsideAscii : OutsideAscii isWordPart false := by
  intro c hc
  have hne := bne_outsideAscii (d := '_') (by decide) c hc
  rw [isWordPart, Char.isAlphanum, isAlpha_outsideAscii c hc, isDigit_outsideAscii c hc,
    beq_false_of_ne (bne_iff_ne.mp hne)]
  rfl

theorem isWordStart_outsideAscii : OutsideAscii isWordStart false := by
  intro c hc
  refine Bool.eq_false_iff.mpr fun h => ?_
  have hpart := Piece.isWordPart_of_isWordStart h
  rw [isWordPart_outsideAscii c hc] at hpart
  cases hpart

theorem isBlank_outsideAscii : OutsideAscii isBlank false := by
  intro c hc
  have hne {d : Char} (hd : d.toNat < 128) : (c == d) = false :=
    beq_false_of_ne (bne_iff_ne.mp (bne_outsideAscii hd c hc))
  rw [isBlank, hne (d := ' ') (by decide), hne (d := '\t') (by decide),
    hne (d := '\r') (by decide), hne (d := '\n') (by decide)]
  rfl

theorem lone?_outsideAscii : OutsideAscii Symbol.lone? none := by
  intro c hc
  unfold Symbol.lone?
  split <;> first | rfl | exact absurd hc (by decide)

theorem extensible?_outsideAscii : OutsideAscii Symbol.extensible? none := by
  intro c hc
  unfold Symbol.extensible?
  split <;> first | rfl | exact absurd hc (by decide)

/-! ## What is cut off -/

/-- The cut of a piece behind a text whose last line is `line`. -/
def Cut.ofPiece (before : List Char) (line : Nat) (p : Piece) : Cut :=
  ⟨p.form, byteSize (before ++ p.text), line + p.text.count '\n'⟩

section

variable (before cs : List Char) {c d : Char} {line : Nat}

theorem ofPiece_of_not_mem {p : Piece} (h : '\n' ∉ p.text) :
    Cut.ofPiece before line p = ⟨p.form, byteSize (before ++ p.text), line⟩ := by
  rw [Cut.ofPiece, List.count_eq_zero_of_not_mem h]
  rfl

/-- A piece of one ASCII character. -/
theorem ofPiece_one (form : PieceForm) (hc : c.toNat < 128) (hne : c ≠ '\n') :
    Cut.ofPiece before line ⟨form, [c]⟩ = ⟨form, byteSize before + 1, line⟩ := by
  rw [ofPiece_of_not_mem, byteSize_succ before hc]
  exact fun hmem => hne (List.mem_singleton.mp hmem).symm

/-- A piece of two ASCII characters. -/
theorem ofPiece_two (form : PieceForm) (hc : c.toNat < 128) (hne : c ≠ '\n') (hd : d.toNat < 128)
    (hne' : d ≠ '\n') :
    Cut.ofPiece before line ⟨form, [c, d]⟩ = ⟨form, byteSize before + 2, line⟩ := by
  have htwo : byteSize before + 2 = byteSize (before ++ [c, d]) := by
    rw [List.append_cons, ← byteSize_succ _ hd, ← byteSize_succ before hc]
  rw [ofPiece_of_not_mem, htwo]
  intro hmem
  rcases List.mem_cons.mp hmem with rfl | hmem
  · exact hne rfl
  · exact hne' (List.mem_singleton.mp hmem).symm

theorem charAt_succ_eq_iff (hc : c.toNat < 128) (hd : d.toNat < 128) (hzero : d ≠ '\x00') :
    charAt (String.ofList (before ++ c :: cs)) (byteSize before + 1) = d ↔
      ∃ rest, cs = d :: rest := by
  rw [(eq_outsideAscii hd).charAt_succ before cs hc]
  constructor
  · intro h
    cases cs with
    | nil => exact absurd h.symm hzero
    | cons e rest => exact ⟨rest, congrArg (· :: rest) h⟩
  · rintro ⟨rest, rfl⟩
    rfl

theorem cutComment_byteSize :
    (⟨.skipped, skipBytes (String.ofList (before ++ '/' :: '/' :: cs))
      (fun b => charOf b != '\n') (byteSize before + 2), line⟩ : Cut) =
        .ofPiece before line (Piece.comment cs).1 := by
  have hslash : ('/' : Char).toNat < 128 := by decide
  have hstop := (bne_outsideAscii (d := '\n') (by decide)).skipBytes_succ (before ++ ['/']) cs hslash
  rw [← byteSize_succ before hslash, List.append_assoc, List.append_assoc] at hstop
  have hwords : '\n' ∉ cs.takeWhile (· != '\n') := by
    intro hmem
    simpa using List.mem_takeWhile_imp hmem
  rw [Piece.comment, ofPiece_of_not_mem]
  · exact congrArg (Cut.mk .skipped · line) hstop
  · simpa using hwords

theorem cutString?_byteSize :
    cutString? (String.ofList (before ++ '"' :: cs)) (byteSize before) line =
      some (.ofPiece before line (Piece.string cs).1) := by
  have hascii : ('"' : Char).toNat < 128 := by decide
  have hquote := (bne_outsideAscii hascii).skipBytes_succ before cs hascii
  unfold cutString? Piece.string
  dsimp only
  rw [hquote]
  have hcs := List.takeWhile_append_dropWhile (p := (· != '"')) (l := cs)
  have hhead := head?_dropWhile (q := (· != '"')) cs
  revert hcs hhead
  generalize cs.takeWhile (· != '"') = contents, cs.dropWhile (· != '"') = rest
  rintro rfl hhead
  -- the contents stand behind the opening quote
  have hextract := extract_byteSize (before ++ ['"']) contents rest
  have hslice := slice?_byteSize (before ++ ['"']) contents rest
  rw [← byteSize_succ before hascii, List.append_assoc, List.append_assoc, List.singleton_append,
    List.singleton_append] at hextract hslice
  have hsize : (String.ofList (before ++ '"' :: (contents ++ rest))).utf8ByteSize =
      byteSize (before ++ '"' :: contents) + byteSize rest := by
    rw [← byteSize_append, List.append_assoc, List.cons_append]
    rfl
  rw [hextract, hslice, newlines_utf8Encode, hsize]
  cases rest with
  | nil =>
    have hzero : byteSize [] = 0 := rfl
    rw [hzero, Nat.add_zero, if_neg (Nat.lt_irrefl _)]
    simp [Cut.ofPiece]
  | cons quote rest =>
    obtain rfl : quote = '"' := by simpa using hhead
    have hpos := byteSize_pos '"' rest
    have hstop : byteSize (before ++ '"' :: contents) + 1 =
        byteSize (before ++ ('"' :: contents ++ ['"'])) := by
      rw [byteSize_succ _ hascii, List.append_assoc]
    rw [if_pos (by omega), hstop]
    simp [Cut.ofPiece]

/-- A point with a digit behind it is seen at a position between characters. -/
theorem charAt_fraction_iff :
    (charAt (String.ofList (before ++ cs)) (byteSize before) = '.' ∧
      (charAt (String.ofList (before ++ cs)) (byteSize before + 1)).isDigit = true) ↔
        ∃ d r, cs = '.' :: d :: r ∧ d.isDigit = true := by
  have hpoint : ('.' : Char).toNat < 128 := by decide
  rw [(eq_outsideAscii hpoint).charAt_byteSize before cs]
  constructor
  · rintro ⟨hhead, hdigit⟩
    cases cs with
    | nil => cases hhead
    | cons c cs =>
      obtain rfl : c = '.' := hhead
      rw [isDigit_outsideAscii.charAt_succ before cs hpoint] at hdigit
      cases cs with
      | nil => cases hdigit
      | cons d r => exact ⟨d, r, rfl, hdigit⟩
  · rintro ⟨d, r, rfl, hd⟩
    exact ⟨rfl, (isDigit_outsideAscii.charAt_succ before (d :: r) hpoint).trans hd⟩

theorem numeral_append {whole fraction : List Char} (h : ∀ d ∈ whole, d.isDigit = true) :
    numeral (whole ++ '.' :: fraction) = Number.ofNumeral whole fraction := by
  have hpoint : ∀ d ∈ ('.' :: fraction).head?, d.isDigit = false := by
    rintro d ⟨⟩
    rfl
  obtain ⟨htake, hdrop⟩ := span_append h hpoint
  rw [numeral, htake, hdrop]
  rfl

theorem numeral_of_digits {whole : List Char} (h : ∀ d ∈ whole, d.isDigit = true) :
    numeral whole = Number.ofNumeral whole [] := by
  have hnone : ∀ d ∈ ([] : List Char).head?, d.isDigit = false := by
    rintro d ⟨⟩
  obtain ⟨htake, hdrop⟩ := span_append h hnone
  rw [List.append_nil] at htake hdrop
  rw [numeral, htake, hdrop]
  rfl

theorem cutNumber?_byteSize (hc : c.isDigit = true) :
    cutNumber? (String.ofList (before ++ c :: cs)) (byteSize before) line =
      some (.ofPiece before line (Piece.number (c :: cs)).1) := by
  have hascii : c.toNat < 128 := isDigit_outsideAscii.isAscii (by simp [hc])
  have hpoint := isDigit_outsideAscii.skipBytes_succ before cs hascii
  rw [← List.takeWhile_cons_of_pos hc] at hpoint
  have hwhole : ∀ d ∈ (c :: cs).takeWhile Char.isDigit, d.isDigit = true :=
    fun d hd => List.mem_takeWhile_imp hd
  have hsource : before ++ c :: cs = before ++ (c :: cs).takeWhile Char.isDigit ++
      (c :: cs).dropWhile Char.isDigit := by
    rw [List.append_assoc, List.takeWhile_append_dropWhile]
  unfold cutNumber?
  dsimp only
  rw [hpoint, hsource]
  by_cases hfraction : ∃ d r, (c :: cs).dropWhile Char.isDigit = '.' :: d :: r ∧ d.isDigit = true
  · rw [if_pos ((charAt_fraction_iff _ _).mpr hfraction)]
    obtain ⟨d, r, hdrop, hd⟩ := hfraction
    have hdigits : ∀ e ∈ (d :: r).takeWhile Char.isDigit, e.isDigit = true :=
      fun e he => List.mem_takeWhile_imp he
    have hstop := isDigit_outsideAscii.skipBytes_succ (c := '.')
      (before ++ (c :: cs).takeWhile Char.isDigit) (d :: r) (by decide)
    have htext : before ++ (c :: cs).takeWhile Char.isDigit ++ '.' :: d :: r =
        before ++ ((c :: cs).takeWhile Char.isDigit ++ '.' :: (d :: r).takeWhile Char.isDigit ++
          (d :: r).dropWhile Char.isDigit) := by
      rw [List.append_assoc, List.append_assoc, List.cons_append, List.takeWhile_append_dropWhile]
    rw [Piece.number_of_fraction hdrop hd, hdrop, hstop, htext, List.append_assoc before,
      slice?_byteSize, Option.map_some, String.toList_ofList, numeral_append hwhole,
      ofPiece_of_not_mem]
    intro hmem
    rcases List.mem_append.mp hmem with hmem | hmem
    · exact absurd (hwhole _ hmem) (by decide)
    · rcases List.mem_cons.mp hmem with hmem | hmem
      · cases hmem
      · exact absurd (hdigits _ hmem) (by decide)
  · have hnot : ∀ d r, (c :: cs).dropWhile Char.isDigit = '.' :: d :: r → d.isDigit = false :=
      fun d r hdrop => Bool.eq_false_iff.mpr fun hd => hfraction ⟨d, r, hdrop, hd⟩
    rw [if_neg (mt (charAt_fraction_iff _ _).mp hfraction), Piece.number_of_not_fraction hnot,
      List.append_assoc, slice?_byteSize, Option.map_some, String.toList_ofList,
      numeral_of_digits hwhole, ofPiece_of_not_mem]
    exact fun hmem => absurd (hwhole _ hmem) (by decide)

theorem cutWord?_byteSize (hc : isWordPart c = true) :
    cutWord? (String.ofList (before ++ c :: cs)) (byteSize before) line =
      some (.ofPiece before line (Piece.word (c :: cs)).1) := by
  have hascii : c.toNat < 128 := isWordPart_outsideAscii.isAscii (by simp [hc])
  have hstop := isWordPart_outsideAscii.skipBytes_succ before cs hascii
  rw [← List.takeWhile_cons_of_pos hc] at hstop
  have hword : ∀ d ∈ (c :: cs).takeWhile isWordPart, isWordPart d = true :=
    fun d hd => List.mem_takeWhile_imp hd
  have hsource : before ++ c :: cs = before ++ ((c :: cs).takeWhile isWordPart ++
      (c :: cs).dropWhile isWordPart) := by
    rw [List.takeWhile_append_dropWhile]
  unfold cutWord? Piece.word
  dsimp only
  rw [hstop, hsource, slice?_byteSize, Option.map_some, String.toList_ofList, ofPiece_of_not_mem]
  exact fun hmem => absurd (hword _ hmem) (by decide)

theorem isContinuation_iff (b : UInt8) :
    isContinuation b = true ↔ 128 ≤ b.toNat ∧ b.toNat < 192 := by
  have hall : ∀ n < 256, isContinuation (UInt8.ofNat n) = true ↔ 128 ≤ n ∧ n < 192 := by
    decide +kernel
  have hb := hall b.toNat b.toNat_lt
  rwa [UInt8.ofNat_toNat] at hb

/-- A character begins with a byte that does not go on with another one. -/
theorem takeWhile_isContinuation_encode : (encode cs).takeWhile isContinuation = [] := by
  cases cs with
  | nil => rfl
  | cons c cs =>
    obtain ⟨b, bs, hbytes, hb⟩ : ∃ b bs, String.utf8EncodeChar c = b :: bs ∧
        ¬ (128 ≤ b.toNat ∧ b.toNat < 192) := by
      obtain ⟨hc, hbytes⟩ | ⟨-, b, bs, hbytes, hlead, -⟩ := utf8EncodeChar_cases c
      · refine ⟨_, _, hbytes, ?_⟩
        rw [UInt8.toNat_ofNat', Nat.mod_eq_of_lt (by omega)]
        omega
      · exact ⟨b, bs, hbytes, by omega⟩
    rw [encode_cons, hbytes, List.cons_append,
      List.takeWhile_cons_of_neg (mt (isContinuation_iff b).mp hb)]

/-- The other bytes of a character are those that go on with it. -/
theorem skipBytes_isContinuation :
    skipBytes (String.ofList (before ++ c :: cs)) isContinuation (byteSize before + 1) =
      byteSize (before ++ [c]) := by
  obtain ⟨b, bs, hbytes, htrail⟩ : ∃ b bs, String.utf8EncodeChar c = b :: bs ∧
      ∀ b' ∈ bs, isContinuation b' = true := by
    obtain ⟨-, hbytes⟩ | ⟨-, b, bs, hbytes, -, htrail⟩ := utf8EncodeChar_cases c
    · exact ⟨_, [], hbytes, nofun⟩
    · exact ⟨b, bs, hbytes, fun b' hb' => (isContinuation_iff b').mpr (htrail b' hb')⟩
  have hfrom := bytesFrom_byteSize before (c :: cs)
  rw [bytesFrom, encode_cons, hbytes, List.cons_append] at hfrom
  have hrest := congrArg List.tail hfrom
  rw [List.tail_drop, List.tail_cons] at hrest
  have hsize : byteSize [c] = bs.length + 1 := by
    rw [← length_encode [c], encode_cons, hbytes]
    simp [encode]
  rw [skipBytes_eq, bytesFrom, hrest, List.takeWhile_append_of_pos htrail,
    takeWhile_isContinuation_encode, List.append_nil, byteSize_append, hsize]
  omega

theorem cutUnexpected?_byteSize (hc : c ≠ '\n') :
    cutUnexpected? (String.ofList (before ++ c :: cs)) (byteSize before) line =
      some (.ofPiece before line ⟨.fault (.unexpectedCharacter c), [c]⟩) := by
  have hsource : before ++ c :: cs = before ++ ([c] ++ cs) := rfl
  unfold cutUnexpected?
  dsimp only
  rw [skipBytes_isContinuation, hsource, slice?_byteSize, Option.map_some, String.toList_ofList,
    ofPiece_of_not_mem]
  · rfl
  · exact fun hmem => hc (List.mem_singleton.mp hmem).symm

/-- Byte by byte the same is cut off as character by character. -/
theorem cut?_byteSize :
    cut? (String.ofList (before ++ c :: cs)) (byteSize before) line =
      some (.ofPiece before line (Piece.next c cs).1) := by
  have hlook {α : Type} {f : Char → α} {a : α} (hf : OutsideAscii f a) :
      f (charAt (String.ofList (before ++ c :: cs)) (byteSize before)) = f c :=
    hf.charAt_byteSize before (c :: cs)
  have heq (d : Char) (hd : d.toNat < 128) :
      (charAt (String.ofList (before ++ c :: cs)) (byteSize before) = d) = (c = d) :=
    hlook (eq_outsideAscii hd)
  unfold cut? Piece.next
  dsimp only
  rw [hlook lone?_outsideAscii, hlook extensible?_outsideAscii, hlook isBlank_outsideAscii,
    hlook isDigit_outsideAscii, hlook isWordStart_outsideAscii]
  simp only [heq '/' (by decide), heq '\n' (by decide), heq '"' (by decide)]
  cases hlone : Symbol.lone? c with
  | some s =>
    have hc : c.toNat < 128 := lone?_outsideAscii.isAscii (by simp [hlone])
    have hne : c ≠ '\n' := by
      rintro rfl
      cases hlone
    exact congrArg some (ofPiece_one before _ hc hne).symm
  | none =>
    cases hext : Symbol.extensible? c with
    | some symbols =>
      have hc : c.toNat < 128 := extensible?_outsideAscii.isAscii (by simp [hext])
      have hne : c ≠ '\n' := by
        rintro rfl
        cases hext
      have hequal := charAt_succ_eq_iff (d := '=') before cs hc (by decide) (by decide)
      dsimp only
      by_cases h : ∃ rest, cs = '=' :: rest
      · rw [if_pos (hequal.mpr h)]
        obtain ⟨rest, rfl⟩ := h
        exact congrArg some (ofPiece_two before _ hc hne (by decide) (by decide)).symm
      · rw [if_neg (mt hequal.mp h)]
        split
        · exact absurd ⟨_, rfl⟩ h
        · exact congrArg some (ofPiece_one before _ hc hne).symm
    | none =>
      dsimp only
      by_cases hslash : c = '/'
      · subst hslash
        have hc : ('/' : Char).toNat < 128 := by decide
        have hcomment := charAt_succ_eq_iff before cs hc hc (by decide)
        rw [if_pos rfl, if_pos rfl]
        by_cases h : ∃ rest, cs = '/' :: rest
        · rw [if_pos (hcomment.mpr h)]
          obtain ⟨rest, rfl⟩ := h
          exact congrArg some (cutComment_byteSize before rest)
        · rw [if_neg (mt hcomment.mp h)]
          split
          · exact absurd ⟨_, rfl⟩ h
          · exact congrArg some (ofPiece_one before _ hc (by decide)).symm
      · rw [if_neg hslash, if_neg hslash]
        by_cases hnewline : c = '\n'
        · subst hnewline
          have hc : ('\n' : Char).toNat < 128 := by decide
          rw [if_pos rfl, byteSize_succ before hc]
          rfl
        · rw [if_neg hnewline]
          by_cases hblank : isBlank c = true
          · have hc : c.toNat < 128 := isBlank_outsideAscii.isAscii (by simp [hblank])
            rw [if_pos hblank, if_pos hblank, ofPiece_one before _ hc hnewline]
          · rw [if_neg hblank, if_neg hblank]
            by_cases hquote : c = '"'
            · subst hquote
              rw [if_pos rfl, if_pos rfl, cutString?_byteSize]
            · rw [if_neg hquote, if_neg hquote]
              by_cases hdigit : c.isDigit = true
              · rw [if_pos hdigit, if_pos hdigit, cutNumber?_byteSize _ _ hdigit]
              · rw [if_neg hdigit, if_neg hdigit]
                by_cases hstart : isWordStart c = true
                · rw [if_pos hstart, if_pos hstart,
                    cutWord?_byteSize _ _ (Piece.isWordPart_of_isWordStart hstart)]
                · rw [if_neg hstart, if_neg hstart, cutUnexpected?_byteSize _ _ hnewline]

/-! ## What is reported -/

theorem report?_ofPiece (line : Nat) (p : Piece) (rest : List Char) :
    report? (String.ofList (before ++ (p.text ++ rest))) (byteSize before)
      (.ofPiece before line p) = some (p.report (line + p.text.count '\n')).toList := by
  rw [report?, Piece.report, Cut.ofPiece]
  dsimp only
  cases p.form with
  | token kind =>
    dsimp only
    rw [slice?_byteSize]
    rfl
  | skipped => rfl
  | fault fault => rfl

theorem locate_cons (p : Piece) (ps : List Piece) :
    locate line (p :: ps) = (p.report (line + p.text.count '\n')).toList ++
      locate (line + p.text.count '\n') ps := by
  rw [locate, Piece.report]
  cases p.form <;> rfl

theorem scanFrom?_byteSize (line : Nat) :
    scanFrom? (String.ofList (before ++ cs)) (byteSize before) line =
      some (locate line (pieces cs)) := by
  fun_induction pieces cs generalizing before line with
  | case1 =>
    have hend : ¬ byteSize before < (String.ofList before).utf8ByteSize := Nat.lt_irrefl _
    rw [scanFrom?, List.append_nil, if_neg hend]
    rfl
  | case2 c cs ih =>
    have hsize : (String.ofList (before ++ c :: cs)).utf8ByteSize =
        byteSize before + byteSize (c :: cs) := byteSize_append _ _
    have hpos := byteSize_pos c cs
    have hreport := report?_ofPiece before line (Piece.next c cs).1 (Piece.next c cs).2
    have hlater := ih (before ++ (Piece.next c cs).1.text)
      (line + (Piece.next c cs).1.text.count '\n')
    rw [List.append_assoc, Piece.next_text] at hlater
    rw [Piece.next_text] at hreport
    rw [scanFrom?, if_pos (by omega)]
    split
    · rename_i cut heq
      rw [cut?_byteSize] at heq
      obtain rfl := Option.some.inj heq
      rw [hreport, Option.bind_some, locate_cons]
      exact congrArg (Option.map _) hlater
    · rename_i heq
      rw [cut?_byteSize] at heq
      cases heq

end

/-- Scanning byte by byte comes to its end without cutting through a character, and reports what is
scanned. -/
theorem scan?_eq (source : String) : scan? source = some (scan source) := by
  have hscan := scanFrom?_byteSize [] source.toList 1
  rwa [List.nil_append, String.ofList_toList] at hscan

end Source

end LoxWalk
