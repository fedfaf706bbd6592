import LoxWalk.Source

/-!
# Texts as bytes

A text in UTF-8 can be read at positions in its bytes.  The byte of an ASCII character is no other
byte of any character, so tests that treat all characters beyond ASCII alike (`OutsideAscii`) may be
made on bytes: a run of characters is a run of bytes (`OutsideAscii.skipBytes_byteSize`).

The positions in question are those at which the bytes of some first characters of the text end; the
text may be cut there (`slice?_byteSize`).
-/

namespace LoxWalk

namespace Source

/-- The bytes of a character: one below 128, or a first one from 192 on and then others between. -/
theorem utf8EncodeChar_cases (c : Char) :
    (c.toNat < 128 ∧ String.utf8EncodeChar c = [UInt8.ofNat c.toNat]) ∨
      128 ≤ c.toNat ∧ ∃ b bs, String.utf8EncodeChar c = b :: bs ∧ 192 ≤ b.toNat ∧
        ∀ b' ∈ bs, 128 ≤ b'.toNat ∧ b'.toNat < 192 := by
  have hlead : ∀ n, 192 ≤ n → n < 256 → 192 ≤ (UInt8.ofNat n).toNat := by
    intro n hn hlt
    rwa [UInt8.toNat_ofNat', Nat.mod_eq_of_lt hlt]
  have htrail : ∀ n, n < 64 → 128 ≤ (UInt8.ofNat (n + 128)).toNat ∧
      (UInt8.ofNat (n + 128)).toNat < 192 := by
    intro n hn
    rw [UInt8.toNat_ofNat', Nat.mod_eq_of_lt (by omega)]
    omega
  change (c.val.toNat < 128 ∧ _) ∨ 128 ≤ c.val.toNat ∧ _
  rw [String.utf8EncodeChar.eq_1]
  -- one case for each number of bytes
  split
  · exact .inl ⟨by omega, rfl⟩
  · refine .inr ⟨by omega, ?_⟩
    split
    · refine ⟨_, _, rfl, hlead _ (by omega) (by omega), ?_⟩
      simp only [List.forall_mem_cons, List.not_mem_nil, false_imp_iff, implies_true, and_true]
      exact htrail _ (by omega)
    · split
      · refine ⟨_, _, rfl, hlead _ (by omega) (by omega), ?_⟩
        simp only [List.forall_mem_cons, List.not_mem_nil, false_imp_iff, implies_true, and_true]
        exact ⟨htrail _ (by omega), htrail _ (by omega)⟩
      · refine ⟨_, _, rfl, hlead _ (by omega) (by omega), ?_⟩
        simp only [List.forall_mem_cons, List.not_mem_nil, false_imp_iff, implies_true, and_true]
        exact ⟨htrail _ (by omega), htrail _ (by omega), htrail _ (by omega)⟩

theorem exists_utf8EncodeChar (c : Char) : ∃ b bs, String.utf8EncodeChar c = b :: bs :=
  List.exists_cons_of_ne_nil String.utf8EncodeChar_ne_nil

/-- The bytes of a text. -/
def encode (cs : List Char) : List UInt8 :=
  cs.flatMap String.utf8EncodeChar

theorem data_utf8Encode (cs : List Char) : cs.utf8Encode.data.toList = encode cs := by
  rw [List.utf8Encode, List.data_toByteArray, encode]

theorem encode_append (cs ds : List Char) : encode (cs ++ ds) = encode cs ++ encode ds :=
  List.flatMap_append

theorem encode_cons (c : Char) (cs : List Char) :
    encode (c :: cs) = String.utf8EncodeChar c ++ encode cs :=
  List.flatMap_cons

/-- The number of bytes of a text. -/
def byteSize (cs : List Char) : Nat :=
  (String.ofList cs).utf8ByteSize

theorem byteSize_append (cs ds : List Char) : byteSize (cs ++ ds) = byteSize cs + byteSize ds := by
  rw [byteSize, String.ofList_append, String.utf8ByteSize_append, ← byteSize, ← byteSize]

theorem size_utf8Encode (cs : List Char) : cs.utf8Encode.size = byteSize cs := by
  rw [byteSize, ← String.size_toByteArray, String.toByteArray_ofList]

theorem length_encode (cs : List Char) : (encode cs).length = byteSize cs := by
  rw [← data_utf8Encode, Array.length_toList, ← size_utf8Encode, ByteArray.size]

theorem byteSize_pos (c : Char) (cs : List Char) : 0 < byteSize (c :: cs) := by
  rw [← length_encode, encode_cons, List.length_append]
  exact Nat.add_pos_left (List.length_pos_iff.mpr String.utf8EncodeChar_ne_nil) _

/-- The position behind an ASCII character is the next one. -/
theorem byteSize_succ (before : List Char) {c : Char} (hc : c.toNat < 128) :
    byteSize before + 1 = byteSize (before ++ [c]) := by
  obtain ⟨-, hbytes⟩ | ⟨hge, -⟩ := utf8EncodeChar_cases c
  · rw [byteSize_append, ← length_encode [c], encode_cons, hbytes]
    rfl
  · omega

/-! ## New lines -/

/-- The byte of a new line. -/
def newlineByte : UInt8 := 10

/-- So many of the bytes are new lines. -/
def newlines (bytes : ByteArray) : Nat :=
  bytes.data.toList.count newlineByte

/-- Only the character of a new line has the byte of one among its bytes. -/
theorem count_utf8EncodeChar (c : Char) :
    (String.utf8EncodeChar c).count newlineByte = [c].count '\n' := by
  have hline : newlineByte.toNat = 10 := rfl
  obtain ⟨hc, hbytes⟩ | ⟨hc, b, bs, hbytes, hlead, htrail⟩ := utf8EncodeChar_cases c
  · have hiff : UInt8.ofNat c.toNat = newlineByte ↔ c = '\n' := by
      rw [← UInt8.toNat_inj, UInt8.toNat_ofNat', Nat.mod_eq_of_lt (by omega), ← Char.toNat_inj]
      rfl
    simp only [hbytes, List.count_singleton, beq_iff_eq, hiff]
  · have hne : c ≠ '\n' := by
      rintro rfl
      exact absurd hc (by decide)
    have hnot : newlineByte ∉ b :: bs := by
      intro hmem
      rcases List.mem_cons.mp hmem with rfl | hmem
      · omega
      · have := htrail _ hmem
        omega
    rw [hbytes, List.count_eq_zero_of_not_mem hnot, List.count_singleton,
      if_neg (by simpa using hne)]

/-- New lines can be counted in the bytes of a text as in its characters. -/
theorem newlines_utf8Encode (cs : List Char) : newlines cs.utf8Encode = cs.count '\n' := by
  rw [newlines, data_utf8Encode]
  induction cs with
  | nil => rfl
  | cons c cs ih =>
    rw [encode_cons, List.count_append, ih, count_utf8EncodeChar, ← List.count_append,
      List.singleton_append]

/-! ## Bytes that pass for characters -/

/-- A byte as a character: an ASCII character is its only byte. -/
def charOf (b : UInt8) : Char :=
  Char.ofNat b.toNat

theorem toNat_charOf (b : UInt8) : (charOf b).toNat = b.toNat := by
  have hlt := b.toNat_lt
  have hvalid : b.toNat.isValidChar := .inl (by omega)
  rw [charOf, Char.ofNat, dif_pos hvalid]
  rfl

theorem charOf_ofNat {c : Char} (h : c.toNat < 128) : charOf (UInt8.ofNat c.toNat) = c := by
  rw [charOf, UInt8.toNat_ofNat', Nat.mod_eq_of_lt (by omega), Char.ofNat_toNat]

/-- The value of the function is `a` for every character beyond ASCII. -/
def OutsideAscii {α : Type} (f : Char → α) (a : α) : Prop :=
  ∀ c, 128 ≤ c.toNat → f c = a

section

variable {α : Type} {f : Char → α} {a : α} {p : Char → Bool} {outside : Bool} {c : Char}

theorem OutsideAscii.isAscii (hf : OutsideAscii f a) (h : f c ≠ a) : c.toNat < 128 :=
  Nat.lt_of_not_le fun hc => h (hf c hc)

/-- Such a function may be applied to any byte of a character instead. -/
theorem OutsideAscii.charOf_eq (hf : OutsideAscii f a) :
    ∀ b ∈ String.utf8EncodeChar c, f (charOf b) = f c := by
  intro b hb
  obtain ⟨hc, hbytes⟩ | ⟨hc, b₀, bs, hbytes, hlead, htrail⟩ := utf8EncodeChar_cases c
  · rw [hbytes, List.mem_singleton] at hb
    rw [hb, charOf_ofNat hc]
  · have hge : 128 ≤ (charOf b).toNat := by
      rw [toNat_charOf]
      rw [hbytes, List.mem_cons] at hb
      rcases hb with rfl | hb
      · omega
      · exact (htrail b hb).1
    rw [hf _ hge, hf c hc]

/-- A run of characters is a run of bytes. -/
theorem OutsideAscii.takeWhile_encode (hp : OutsideAscii p outside) (cs : List Char) :
    (encode cs).takeWhile (fun b => p (charOf b)) = encode (cs.takeWhile p) := by
  induction cs with
  | nil => rfl
  | cons c cs ih =>
    rw [encode_cons]
    by_cases hc : p c = true
    · have hall : ∀ b ∈ String.utf8EncodeChar c, p (charOf b) = true :=
        fun b hb => (hp.charOf_eq b hb).trans hc
      rw [List.takeWhile_append_of_pos hall, ih, List.takeWhile_cons_of_pos hc, encode_cons]
    · obtain ⟨b, bs, hbytes⟩ := exists_utf8EncodeChar c
      have hmem : b ∈ String.utf8EncodeChar c := hbytes ▸ List.mem_cons_self
      have hb : ¬ p (charOf b) = true := by rwa [hp.charOf_eq b hmem]
      rw [hbytes, List.cons_append]
      simp only [List.takeWhile_cons, if_neg hb, if_neg hc]
      rfl

end

/-! ## Positions -/

variable (source : String) (before : List Char)

/-- The bytes of a text from a position on. -/
def bytesFrom (i : Nat) : List UInt8 :=
  source.toUTF8.data.toList.drop i

/-- The byte at a position, as a character; there are zeros behind the last byte. -/
def charAt (i : Nat) : Char :=
  charOf (source.toUTF8.data[i]?.getD 0)

/-- The first position from `i` on at which there is no byte of which `p` holds. -/
def skipBytes (p : UInt8 → Bool) (i : Nat) : Nat :=
  if h : i < source.toUTF8.data.size then
    if p source.toUTF8.data[i] then skipBytes p (i + 1) else i
  else i
termination_by source.toUTF8.data.size - i
decreasing_by exact Nat.sub_succ_lt_self _ _ h

theorem skipBytes_eq (p : UInt8 → Bool) (i : Nat) :
    skipBytes source p i = i + ((bytesFrom source i).takeWhile p).length := by
  fun_induction skipBytes source p i with
  | case1 i h hp ih =>
    have hdrop : bytesFrom source i = _ := List.drop_eq_getElem_cons (by simpa using h)
    rw [ih, hdrop, List.takeWhile_cons_of_pos (by simpa using hp), List.length_cons, bytesFrom]
    omega
  | case2 i h hp =>
    have hdrop : bytesFrom source i = _ := List.drop_eq_getElem_cons (by simpa using h)
    rw [hdrop, List.takeWhile_cons_of_neg (by simpa using hp)]
    rfl
  | case3 i h =>
    rw [bytesFrom, List.drop_eq_nil_of_le (by simpa using Nat.le_of_not_lt h)]
    rfl

theorem le_skipBytes (p : UInt8 → Bool) (i : Nat) : i ≤ skipBytes source p i := by
  rw [skipBytes_eq]
  exact Nat.le_add_right _ _

/-- Behind the first characters of a text there are the bytes of the others. -/
theorem bytesFrom_byteSize (cs : List Char) :
    bytesFrom (String.ofList (before ++ cs)) (byteSize before) = encode cs := by
  rw [bytesFrom, String.toUTF8, String.toByteArray_ofList, data_utf8Encode, encode_append,
    ← length_encode, List.drop_left]

section

variable (cs : List Char) {c : Char} {α : Type} {f : Char → α} {a : α} {p : Char → Bool}
  {outside : Bool}

theorem OutsideAscii.skipBytes_byteSize (hp : OutsideAscii p outside) :
    skipBytes (String.ofList (before ++ cs)) (fun b => p (charOf b)) (byteSize before) =
      byteSize (before ++ cs.takeWhile p) := by
  rw [skipBytes_eq, bytesFrom_byteSize, hp.takeWhile_encode, length_encode, byteSize_append]

/-- What is seen at a position between characters passes for the character behind it. -/
theorem OutsideAscii.charAt_byteSize (hf : OutsideAscii f a) :
    f (charAt (String.ofList (before ++ cs)) (byteSize before)) = f (cs.head?.getD '\x00') := by
  have hbyte : charAt (String.ofList (before ++ cs)) (byteSize before) =
      charOf ((encode cs).head?.getD 0) := by
    rw [← bytesFrom_byteSize before cs, bytesFrom, List.head?_drop, Array.getElem?_toList, charAt]
  rw [hbyte]
  cases cs with
  | nil => rfl
  | cons c cs =>
    obtain ⟨b, bs, hbytes⟩ := exists_utf8EncodeChar c
    have hb : b ∈ String.utf8EncodeChar c := hbytes ▸ List.mem_cons_self
    rw [encode_cons, hbytes]
    exact hf.charOf_eq b hb

/-- Going on behind an ASCII character. -/
theorem OutsideAscii.skipBytes_succ (hp : OutsideAscii p outside) (hc : c.toNat < 128) :
    skipBytes (String.ofList (before ++ c :: cs)) (fun b => p (charOf b)) (byteSize before + 1) =
      byteSize (before ++ c :: cs.takeWhile p) := by
  rw [byteSize_succ before hc, List.append_cons, hp.skipBytes_byteSize, ← List.append_cons]

/-- What is seen behind an ASCII character. -/
theorem OutsideAscii.charAt_succ (hf : OutsideAscii f a) (hc : c.toNat < 128) :
    f (charAt (String.ofList (before ++ c :: cs)) (byteSize before + 1)) =
      f (cs.head?.getD '\x00') := by
  rw [byteSize_succ before hc, List.append_cons, hf.charAt_byteSize]

end

/-! ## Parts of a text -/

/-- The part of a text between two positions, of which each has to stand between characters. -/
def slice? (i j : Nat) : Option String :=
  if i ≤ j ∧ (⟨i⟩ : String.Pos.Raw).IsValid source ∧ (⟨j⟩ : String.Pos.Raw).IsValid source then
    String.fromUTF8? (source.toUTF8.extract i j)
  else none

variable (text rest : List Char)

/-- The bytes of a part of a text. -/
theorem extract_byteSize :
    (String.ofList (before ++ (text ++ rest))).toUTF8.extract (byteSize before)
      (byteSize (before ++ text)) = text.utf8Encode := by
  have hnothing : before.utf8Encode.extract (byteSize before) (byteSize before + byteSize text) =
      ByteArray.empty := by
    rw [← ByteArray.size_eq_zero_iff, ByteArray.size_extract, size_utf8Encode]
    omega
  rw [String.toUTF8, String.toByteArray_ofList, byteSize_append, List.utf8Encode_append,
    List.utf8Encode_append, ByteArray.extract_append, hnothing, ByteArray.empty_append,
    size_utf8Encode, Nat.sub_self, Nat.add_sub_cancel_left,
    ByteArray.extract_append_eq_left (size_utf8Encode text).symm]

/-- A text may be cut where the bytes of some of its first characters end. -/
theorem isValid_byteSize :
    (⟨byteSize before⟩ : String.Pos.Raw).IsValid (String.ofList (before ++ rest)) := by
  rw [String.Pos.Raw.isValid_iff_exists_append]
  exact ⟨String.ofList before, String.ofList rest, String.ofList_append, rfl⟩

theorem fromUTF8?_utf8Encode (cs : List Char) :
    String.fromUTF8? cs.utf8Encode = some (String.ofList cs) := by
  have hvalid : cs.utf8Encode.IsValidUTF8 := ByteArray.isValidUTF8_utf8Encode
  rw [String.fromUTF8?, dif_pos hvalid, Option.some_inj, ← String.toByteArray_inj,
    String.toByteArray_ofList]
  rfl

theorem slice?_byteSize :
    slice? (String.ofList (before ++ (text ++ rest))) (byteSize before)
      (byteSize (before ++ text)) = some (String.ofList text) := by
  have hle : byteSize before ≤ byteSize (before ++ text) := by
    rw [byteSize_append]
    exact Nat.le_add_right _ _
  have hstop := isValid_byteSize (before ++ text) rest
  rw [List.append_assoc] at hstop
  rw [slice?, if_pos ⟨hle, isValid_byteSize _ _, hstop⟩, extract_byteSize, fromUTF8?_utf8Encode]

end Source

end LoxWalk
