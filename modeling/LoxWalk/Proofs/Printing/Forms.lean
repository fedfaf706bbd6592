import LoxWalk.Proofs.Rescanning
import LoxWalk.Tree.Prefix

/-!
# Printed expressions as forms

An expression in prefix form is a word, or a head and parts in parentheses (`Expr.form`).  Words
have no blanks and no parentheses in them, and so a text is that of at most one form, also if more
text follows that begins behind the end of a word (`Form.text_append_inj`).
-/

namespace LoxWalk

/-- A word, or a head and parts in parentheses. -/
inductive Form where
  | word (text : String)
  | list (head : String) (parts : List Form)

namespace Form

/-- Characters at which a word ends. -/
def isDelimiter (c : Char) : Bool :=
  c == ' ' || c == '(' || c == ')'

/-- A word is not empty, and no delimiter is in it. -/
structure IsWord (text : String) : Prop where
  ne_nil : text.toList ≠ []
  free : ∀ c ∈ text.toList, isDelimiter c = false

mutual

/-- How a form is written, with a blank between its head and its parts. -/
def text : Form → List Char
  | .word text => text.toList
  | .list head parts => '(' :: (head.toList ++ partsText parts ++ [')'])

/-- Forms with a blank in front of each. -/
def partsText : List Form → List Char
  | [] => []
  | f :: fs => ' ' :: (f.text ++ partsText fs)

end

mutual

/-- All words and heads of a form are words. -/
def Clean : Form → Prop
  | .word text => IsWord text
  | .list head parts => IsWord head ∧ AllClean parts

def AllClean : List Form → Prop
  | [] => True
  | f :: fs => f.Clean ∧ AllClean fs

end

/-! ## One form for a text -/

/-- What follows begins with a delimiter. -/
def Ended (rest : List Char) : Prop :=
  ∀ c ∈ rest.head?, isDelimiter c = true

theorem ended_nil : Ended [] :=
  nofun

theorem ended_partsText (fs : List Form) (rest : List Char) :
    Ended (partsText fs ++ ')' :: rest) := by
  cases fs <;> (rintro c ⟨⟩; rfl)

variable {rest rest' : List Char}

/-- Two words with delimiters behind them end at the same place. -/
theorem IsWord.append_inj {x y : String} (hx : IsWord x) (hy : IsWord y) (hr : Ended rest)
    (hr' : Ended rest') (h : x.toList ++ rest = y.toList ++ rest') : x = y ∧ rest = rest' := by
  have hspan {z : String} {r : List Char} (hz : IsWord z) (hr : Ended r) :
      (z.toList ++ r).takeWhile (fun c => !isDelimiter c) = z.toList ∧
        (z.toList ++ r).dropWhile (fun c => !isDelimiter c) = r :=
    span_append
      (fun c hc => by rw [hz.free c hc]; rfl) (fun c hc => by rw [hr c hc]; rfl)
  obtain ⟨htake, hdrop⟩ := hspan hx hr
  obtain ⟨htake', hdrop'⟩ := hspan hy hr'
  rw [h] at htake hdrop
  exact ⟨String.toList_inj.mp (htake.symm.trans htake'), hdrop.symm.trans hdrop'⟩

/-- A word does not begin with a parenthesis. -/
theorem IsWord.append_ne {x : String} (hx : IsWord x) {cs : List Char} :
    x.toList ++ rest ≠ '(' :: cs := by
  obtain ⟨c, x', hc⟩ := List.exists_cons_of_ne_nil hx.ne_nil
  intro h
  rw [hc, List.cons_append] at h
  have hfree := hx.free c (hc ▸ List.mem_cons_self)
  rw [(List.cons.inj h).1] at hfree
  exact absurd hfree (by decide)

mutual

/-- A text begins with at most one form that ends there. -/
theorem text_append_inj {rest rest' : List Char} (hr : Ended rest) (hr' : Ended rest') :
    (f f' : Form) → f.Clean → f'.Clean → f.text ++ rest = f'.text ++ rest' → f = f' ∧ rest = rest'
  | .word x, .word y, hx, hy, h => by
    rw [text, text] at h
    obtain ⟨rfl, hrest⟩ := IsWord.append_inj hx hy hr hr' h
    exact ⟨rfl, hrest⟩
  | .word x, .list _ _, hx, _, h => absurd h (IsWord.append_ne hx)
  | .list _ _, .word y, _, hy, h => absurd h.symm (IsWord.append_ne hy)
  | .list head fs, .list head' fs', hf, hf', h => by
    rw [text, text, List.cons_append, List.cons_append] at h
    have h := (List.cons.inj h).2
    simp only [List.append_assoc, List.cons_append, List.nil_append] at h
    obtain ⟨rfl, hparts⟩ :=
      hf.1.append_inj hf'.1 (ended_partsText fs rest) (ended_partsText fs' rest') h
    obtain ⟨rfl, hrest⟩ := partsText_append_inj fs fs' hf.2 hf'.2 hparts
    exact ⟨rfl, hrest⟩

theorem partsText_append_inj {rest rest' : List Char} :
    (fs fs' : List Form) → AllClean fs → AllClean fs' →
      partsText fs ++ ')' :: rest = partsText fs' ++ ')' :: rest' → fs = fs' ∧ rest = rest'
  | [], [], _, _, h => ⟨rfl, (List.cons.inj h).2⟩
  | [], f :: fs, _, _, h => absurd (List.cons.inj h).1 (by decide)
  | f :: fs, [], _, _, h => absurd (List.cons.inj h).1 (by decide)
  | f :: fs, f' :: fs', hf, hf', h => by
    rw [partsText, partsText, List.cons_append, List.cons_append] at h
    have h := (List.cons.inj h).2
    rw [List.append_assoc, List.append_assoc] at h
    obtain ⟨rfl, hparts⟩ :=
      text_append_inj (ended_partsText fs rest) (ended_partsText fs' rest') f f' hf.1 hf'.1 h
    obtain ⟨rfl, hrest⟩ := partsText_append_inj fs fs' hf.2 hf'.2 hparts
    exact ⟨rfl, hrest⟩

end

/-- A text is that of at most one form. -/
theorem text_inj {f f' : Form} (hf : f.Clean) (hf' : f'.Clean) (h : f.text = f'.text) : f = f' := by
  refine (text_append_inj ended_nil ended_nil f f' hf hf' ?_).1
  rw [h]

end Form

/-! ## Expressions -/

mutual

/-- The form of an expression. -/
def Expr.form : Expr → Form
  | .literal value => .word value.prefixForm
  | .group inner => .list "group" [inner.form]
  | .unary operator operand => .list operator.lexeme [operand.form]
  | .binary left operator right => .list operator.lexeme [left.form, right.form]
  | .logical left operator right => .list operator.lexeme [left.form, right.form]
  | .var _ name => .word name.lexeme
  | .assign _ name value => .list "=" [.word name.lexeme, value.form]
  | .call callee _ arguments => .list "call" (callee.form :: Expr.forms arguments)
  | .get object name => .list "." [object.form, .word name.lexeme]
  | .set object name value =>
    .list "=" [.list "." [object.form, .word name.lexeme], value.form]
  | .this _ _ => .word "this"
  | .super _ _ method => .list "super" [.word method.lexeme]

def Expr.forms : List Expr → List Form
  | [] => []
  | e :: es => e.form :: Expr.forms es

end

mutual

/-- An expression is printed as its form is written. -/
theorem Expr.toList_prefixForm : (e : Expr) → e.prefixForm.toList = e.form.text
  | .literal _ => rfl
  | .group inner => by
    simp [prefixForm, form, Form.text, Form.partsText, inner.toList_prefixForm]
  | .unary _ operand => by
    simp [prefixForm, form, Form.text, Form.partsText, operand.toList_prefixForm]
  | .binary left _ right => by
    simp [prefixForm, form, Form.text, Form.partsText, left.toList_prefixForm,
      right.toList_prefixForm]
  | .logical left _ right => by
    simp [prefixForm, form, Form.text, Form.partsText, left.toList_prefixForm,
      right.toList_prefixForm]
  | .var _ _ => rfl
  | .assign _ _ value => by
    simp [prefixForm, form, Form.text, Form.partsText, value.toList_prefixForm]
  | .call callee _ arguments => by
    simp [prefixForm, form, Form.text, Form.partsText, callee.toList_prefixForm,
      Expr.toList_prefixForms arguments]
  | .get object _ => by
    simp [prefixForm, form, Form.text, Form.partsText, object.toList_prefixForm]
  | .set object _ value => by
    simp [prefixForm, form, Form.text, Form.partsText, object.toList_prefixForm,
      value.toList_prefixForm]
  | .this _ _ => rfl
  | .super _ _ _ => by
    simp [prefixForm, form, Form.text, Form.partsText]

theorem Expr.toList_prefixForms :
    (es : List Expr) → (Expr.prefixForms es).toList = Form.partsText (Expr.forms es)
  | [] => rfl
  | e :: es => by
    simp [prefixForms, forms, Form.partsText, e.toList_prefixForm, Expr.toList_prefixForms es]

end

end LoxWalk
