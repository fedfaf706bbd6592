import LoxWalk.Proofs.Grammar.Reading

/-!
# Whatever is read without a complaint is a fragment

A rule of the reader ends with a tree or breaks off, and in either case it may have made complaints.
`Step.Explains` says what matters about the step of a rule: nothing is taken back
(`Cursor.Precedes`), and if no complaint was added and there is a tree, then the tokens between the
two cursors are read by the relation `Reads`.  One lemma for each way of putting steps together
(`Explains.andThen`, `Explains.taken`, `Explains.checkArity`) carries this from the parts of a rule
to the whole.
-/

namespace LoxWalk

/-- What a rule makes of tokens, in the place of `Reads r`; the last argument is what is left of the
input behind them. -/
abbrev Reading (α : Type) :=
  Nat → List Token → α → Nat → List Token → Prop

/-- From `c` to `c'` complaints are only added, and no identity becomes free again. -/
structure Cursor.Precedes (c c' : Cursor) : Prop where
  complaints : c.complaints <:+ c'.complaints
  nextId : c.nextId ≤ c'.nextId

namespace Cursor.Precedes

variable {c c₁ c' : Cursor}

theorem refl (c : Cursor) : c.Precedes c :=
  ⟨List.suffix_refl _, Nat.le_refl _⟩

theorem trans (h : c.Precedes c₁) (h' : c₁.Precedes c') : c.Precedes c' :=
  ⟨h.complaints.trans h'.complaints, Nat.le_trans h.nextId h'.nextId⟩

theorem report (c : Cursor) (e : Complaint) : c.Precedes (c.report e) :=
  ⟨List.suffix_cons _ _, Nat.le_refl _⟩

theorem useId (c : Cursor) : c.Precedes c.useId :=
  ⟨List.suffix_refl _, Nat.le_succ _⟩

/-- Without a new complaint in the whole there is none in either part. -/
theorem complaints_eq (h : c.Precedes c₁) (h' : c₁.Precedes c')
    (hc : c'.complaints = c.complaints) : c₁.complaints = c.complaints :=
  (h'.complaints.eq_of_length_le (hc ▸ h.complaints.length_le)).trans hc

/-- A complaint that was made is there. -/
theorem complaints_ne {e : Complaint} (h : (c.report e).Precedes c') :
    c'.complaints ≠ c.complaints := by
  intro he
  have hlen := (he ▸ h.complaints).length_le
  simp only [Cursor.report, List.length_cons] at hlen
  omega

end Cursor.Precedes

namespace Step

variable {α β γ : Type} {m n : Nat}

/-- A step from the cursor `c` takes nothing back, and without a new complaint it is a reading. -/
def Explains (x : Step α n) (c : Cursor) (P : Reading α) : Prop :=
  match x with
  | .ok a c' _ => c.Precedes c' ∧
      (c'.complaints = c.complaints →
        ∃ w, c.rest = w ++ c'.rest ∧ P c.nextId w a c'.nextId c'.rest)
  | .failed _ c' _ => c.Precedes c'

namespace Explains

variable {c c₁ : Cursor} {P : Reading α} {Q : α → Reading β}

theorem pure {a : α} (h : c.rest.length < n) (hP : P c.nextId [] a c.nextId c.rest) :
    (Step.ok a c h).Explains c P :=
  ⟨.refl _, fun _ => ⟨[], rfl, hP⟩⟩

theorem fresh {a : α} (h : c.useId.rest.length < n) (hP : P c.nextId [] a (c.nextId + 1) c.rest) :
    (Step.ok a c.useId h).Explains c P :=
  ⟨.useId _, fun _ => ⟨[], rfl, hP⟩⟩

theorem mono {x : Step α n} {S : Reading α} (hx : x.Explains c P)
    (hS : ∀ i w a j r, P i w a j r → S i w a j r) : x.Explains c S := by
  cases x with
  | failed e c' _ => exact hx
  | ok a c' _ =>
    obtain ⟨hs, hr⟩ := hx
    refine ⟨hs, fun hc => ?_⟩
    obtain ⟨w, hw, ha⟩ := hr hc
    exact ⟨w, hw, hS _ _ _ _ _ ha⟩

theorem widen {x : Step α m} (hx : x.Explains c P) (hle : m ≤ n) :
    (x.widen hle).Explains c P := by
  cases x <;> exact hx

theorem andThen {x : Step α m} {f : (a : α) → (c : Cursor) → c.rest.length < m → Step β n}
    {hle : m ≤ n} {S : Reading β} (hx : x.Explains c P)
    (hf : ∀ a c₁ h, (f a c₁ h).Explains c₁ (Q a))
    (hS : ∀ i w a j w' b k r, P i w a j (w' ++ r) → Q a j w' b k r → S i (w ++ w') b k r) :
    (x.andThen f hle).Explains c S := by
  cases x with
  | failed e c' _ => exact hx
  | ok a c₁ h =>
    obtain ⟨hs, hr⟩ := hx
    have hfa := hf a c₁ h
    simp only [Step.andThen]
    revert hfa
    cases f a c₁ h with
    | failed e c₂ _ => exact fun hfa => hs.trans hfa
    | ok b c₂ _ =>
      rintro ⟨hs₂, hr₂⟩
      refine ⟨hs.trans hs₂, fun hc => ?_⟩
      have hc₁ : c₁.complaints = c.complaints := hs.complaints_eq hs₂ hc
      obtain ⟨w, hw, ha⟩ := hr hc₁
      obtain ⟨w', hw', hb⟩ := hr₂ (hc.trans hc₁.symm)
      exact ⟨w ++ w', by rw [hw, hw', List.append_assoc], hS _ _ _ _ _ _ _ _ (hw' ▸ ha) hb⟩

/-- A step whose tree is built from that of another. -/
theorem map {x : Step α m} {g : α → β} {hle : m ≤ n} {S : Reading β} (hx : x.Explains c P)
    {hlt : ∀ c : Cursor, c.rest.length < m → c.rest.length < n}
    (hS : ∀ i w a j r, P i w a j r → S i w (g a) j r) :
    (x.andThen (fun a c h => .ok (g a) c (hlt c h)) hle).Explains c S := by
  refine hx.andThen (Q := fun a i w b j _ => w = [] ∧ b = g a ∧ j = i)
    (fun a c₁ h => .pure _ ⟨rfl, rfl, rfl⟩) ?_
  rintro i w a j _ _ _ _ ha ⟨rfl, rfl, rfl⟩
  rw [List.append_nil]
  exact hS _ _ _ _ _ ha

/-- A step behind a bounded list that may be full already. -/
theorem checkArity {x : Step α n} {count : Nat} {fault : ParseFault} {S : Reading α}
    (hx : x.Explains (c.checkArity count fault) P)
    (hS : count < maxArity → ∀ i w a j r, P i w a j r → S i w a j r) : x.Explains c S := by
  unfold Cursor.checkArity at hx
  split at hx
  · -- the list is full, so there is a complaint in any case
    have hreport := Cursor.Precedes.report c (c.complaint fault)
    cases x with
    | failed e c' _ => exact hreport.trans hx
    | ok a c' _ => exact ⟨hreport.trans hx.1, fun hc => absurd hc hx.1.complaints_ne⟩
  · exact hx.mono (hS (by omega))

end Explains

end Step

namespace Cursor

open Step

/-- `c₁` is the cursor behind the next token `t` of `c`. -/
def Passes (c : Cursor) (t : Token) (c₁ : Cursor) : Prop :=
  c.rest = t :: c₁.rest ∧ c₁.complaints = c.complaints ∧ c₁.nextId = c.nextId

theorem takeIf?_eq_some {c : Cursor} {p : Token → Bool} {t : Token} {c₁ : Cursor}
    {h : c₁.rest.length < c.rest.length} (ht : c.takeIf? p = some ⟨t, c₁, h⟩) :
    c.Passes t c₁ ∧ p t = true := by
  unfold takeIf? at ht
  split at ht
  · simp at ht
  · rename_i u us hrest
    split at ht
    · rename_i hp
      simp only [Option.some.injEq, Taken.mk.injEq] at ht
      obtain ⟨rfl, rfl⟩ := ht
      exact ⟨⟨hrest, rfl, rfl⟩, hp⟩
    · simp at ht

theorem take?_eq_some {c : Cursor} {k : TokenKind} {t : Token} {c₁ : Cursor}
    {h : c₁.rest.length < c.rest.length} (ht : c.take? k = some ⟨t, c₁, h⟩) :
    c.Passes t c₁ ∧ t.kind = k := by
  obtain ⟨hc, hk⟩ := takeIf?_eq_some ht
  exact ⟨hc, by simpa using hk⟩

theorem take?_eq_none {c : Cursor} {k : TokenKind} (h : c.take? k = none) :
    ∀ t ∈ c.rest.head?, t.kind ≠ k := by
  intro t ht
  unfold take? takeIf? at h
  split at h
  · rename_i hrest
    simp [hrest] at ht
  · rename_i u us hrest
    obtain rfl : u = t := by simpa [hrest] using ht
    split at h
    · simp at h
    · rename_i hk
      simpa using hk

namespace Passes

variable {α β : Type} {m n : Nat} {c c₁ : Cursor} {t : Token} {P S : Reading α}

/-- A step behind a token that was read. -/
theorem explains {x : Step α n} (hc : c.Passes t c₁) (hx : x.Explains c₁ P)
    (hS : ∀ i w a j r, P i w a j r → S i (t :: w) a j r) : x.Explains c S := by
  obtain ⟨hrest, hcomplaints, hid⟩ := hc
  have hfirst : c.Precedes c₁ :=
    ⟨hcomplaints ▸ List.suffix_refl _, Nat.le_of_eq hid.symm⟩
  cases x with
  | failed e c' _ => exact hfirst.trans hx
  | ok a c' _ =>
    obtain ⟨hs, hr⟩ := hx
    refine ⟨hfirst.trans hs, fun hc => ?_⟩
    obtain ⟨w, hw, ha⟩ := hr (hc.trans hcomplaints.symm)
    exact ⟨t :: w, by rw [hrest, hw, List.cons_append], hS _ _ _ _ _ (hid ▸ ha)⟩

/-- The result of reading one token and nothing else. -/
theorem ok {a : α} (hc : c.Passes t c₁) (h : c₁.rest.length < n) (hS : ∀ i r, S i [t] a i r) :
    (Step.ok a c₁ h).Explains c S :=
  hc.explains (P := fun i w b j _ => w = [] ∧ b = a ∧ j = i) (.pure h ⟨rfl, rfl, rfl⟩)
    (by rintro i _ _ _ r ⟨rfl, rfl, rfl⟩; exact hS _ _)

/-- Two steps behind a token that was read. -/
theorem andThen {x : Step α m} {f : (a : α) → (c : Cursor) → c.rest.length < m → Step β n}
    {hle : m ≤ n} {Q : α → Reading β} {T : Reading β} (hc : c.Passes t c₁)
    (hx : x.Explains c₁ P) (hf : ∀ a c₁ h, (f a c₁ h).Explains c₁ (Q a))
    (hT : ∀ i w a j w' b k r, P i w a j (w' ++ r) → Q a j w' b k r →
      T i (t :: (w ++ w')) b k r) :
    (x.andThen f hle).Explains c T :=
  hc.explains (P := fun i w b k r => T i (t :: w) b k r) (hx.andThen hf hT) fun _ _ _ _ _ h => h

/-- A step behind a token that was read, whose tree goes into a larger one. -/
theorem map {x : Step α m} {g : α → β} {hle : m ≤ n}
    {hlt : ∀ c : Cursor, c.rest.length < m → c.rest.length < n} {T : Reading β}
    (hc : c.Passes t c₁) (hx : x.Explains c₁ P)
    (hT : ∀ i w a j r, P i w a j r → T i (t :: w) (g a) j r) :
    (x.andThen (fun a c h => .ok (g a) c (hlt c h)) hle).Explains c T :=
  hc.explains (P := fun i w b k r => T i (t :: w) b k r) (hx.map hT) fun _ _ _ _ _ h => h

end Passes

theorem fail_explains {α : Type} {n : Nat} {c : Cursor} {fault : ParseFault} {P : Reading α}
    {h : c.rest.length ≤ n} : (c.fail fault h : Step α n).Explains c P :=
  Precedes.refl c

theorem expect_explains (c : Cursor) (k : TokenKind) (what : Expected) :
    (c.expect k what).Explains c (fun i w t j _ => w = [t] ∧ t.kind = k ∧ j = i) := by
  unfold expect
  split
  · rename_i t c₁ h ht
    obtain ⟨hc, hk⟩ := take?_eq_some ht
    exact hc.ok h fun _ _ => ⟨rfl, hk, rfl⟩
  · exact fail_explains

/-! ## Expressions -/

/-- The tree of an assignment, or a complaint. -/
theorem assign_explains {n : Nat} (c : Cursor) (left : Expr) (equals : Token) (value : Expr)
    (h : (c.assign left equals value).2.rest.length < n) :
    (Step.ok (c.assign left equals value).1 (c.assign left equals value).2 h).Explains c
      (fun i w e j _ => w = [] ∧
        ((∃ id name, left = .var id name ∧ e = .assign ⟨i⟩ name value ∧ j = i + 1) ∨
          (∃ object name, left = .get object name ∧ e = .set object name value ∧ j = i))) := by
  unfold assign at h ⊢
  split at h
  · exact ⟨.useId _, fun _ => ⟨[], rfl, rfl, .inl ⟨_, _, rfl, rfl, rfl⟩⟩⟩
  · exact ⟨.refl _, fun _ => ⟨[], rfl, rfl, .inr ⟨_, _, rfl, rfl, rfl⟩⟩⟩
  · refine ⟨.report _ _, fun hc => ?_⟩
    simp [report] at hc

mutual

theorem expression_explains (c : Cursor) :
    (expression c).Explains c (fun i w e j _ => Reads .expression i w (.expr e) j) := by
  rw [expression]
  -- what may follow the left side: nothing, or an equals sign and the value
  refine (binary_explains .or c).andThen
    (Q := fun left i w e j _ => (w = [] ∧ e = left ∧ j = i) ∨ ∃ t w' v k, w = t :: w' ∧
      t.kind = .symbol .equal ∧ Reads .expression i w' (.expr v) k ∧
        ((∃ id name, left = .var id name ∧ e = .assign ⟨k⟩ name v ∧ j = k + 1) ∨
          (∃ object name, left = .get object name ∧ e = .set object name v ∧ j = k)))
    (fun left c₁ _ => ?_) ?_
  · split
    · exact .pure _ (.inl ⟨rfl, rfl, rfl⟩)
    · rename_i equals c₂ _ ht
      obtain ⟨hc, hk⟩ := take?_eq_some ht
      refine hc.andThen (expression_explains c₂)
        (fun value c₃ _ => assign_explains c₃ left equals value _) ?_
      rintro i w v k _ e j _ hv ⟨rfl, he⟩
      rw [List.append_nil]
      exact .inr ⟨_, w, v, k, rfl, hk, hv, he⟩
  · rintro i w left j w' e k _ hl (⟨rfl, rfl, rfl⟩ | ⟨t, w', v, k', rfl, hk, hv, he⟩)
    · rw [List.append_nil]
      exact .plain hl
    · rcases he with ⟨id, name, rfl, rfl, rfl⟩ | ⟨object, name, rfl, rfl, rfl⟩
      · exact .assign hl hk hv
      · exact .set hl hk hv
termination_by c.rest.length * 16 + 15
decreasing_by
  · simp only [Precedence.height]
    omega
  · omega

theorem binary_explains (p : Precedence) (c : Cursor) :
    (binary p c).Explains c (fun i w e j _ => Reads (.binary p) i w (.expr e) j) := by
  rw [binary]
  split
  · rename_i q h
    refine (binary_explains q c).andThen
      (fun left c₁ _ => (binaryRest_explains p left c₁).widen _) ?_
    intro i w left j w' e k _ hl hr
    exact .binary (p.operand_of_tighter? h ▸ hl) hr
  · rename_i h
    refine (unary_explains c).andThen
      (fun left c₁ _ => (binaryRest_explains p left c₁).widen _) ?_
    intro i w left j w' e k _ hl hr
    exact .binary (p.operand_of_tightest h ▸ hl) hr
termination_by c.rest.length * 16 + 7 + p.height
decreasing_by
  all_goals have := p.height_le
  · have := Precedence.height_lt_of_tighter? ‹p.tighter? = some _›
    omega
  all_goals omega

theorem binaryRest_explains (p : Precedence) (left : Expr) (c : Cursor) :
    (binaryRest p left c).Explains c
      (fun i w e j _ => Reads (.binaryRest p left) i w (.expr e) j) := by
  rw [binaryRest]
  split
  · exact .pure _ .binaryStop
  · rename_i operator c₁ _ ht
    obtain ⟨hc, hk⟩ := takeIf?_eq_some ht
    have hk : operator.kind ∈ p.operators := by simpa using hk
    split
    · rename_i q h
      refine hc.andThen (binary_explains q c₁)
        (fun right c₂ _ => (binaryRest_explains p (p.node left operator right) c₂).widen _) ?_
      intro i w right j w' e k _ hl hr
      exact .binaryMore hk (p.operand_of_tighter? h ▸ hl) hr
    · rename_i h
      refine hc.andThen (unary_explains c₁)
        (fun right c₂ _ => (binaryRest_explains p (p.node left operator right) c₂).widen _) ?_
      intro i w right j w' e k _ hl hr
      exact .binaryMore hk (p.operand_of_tightest h ▸ hl) hr
termination_by c.rest.length * 16 + 14
decreasing_by
  all_goals have := p.height_le
  · have := Precedence.height_lt_of_tighter? ‹p.tighter? = some _›
    omega
  all_goals omega

theorem unary_explains (c : Cursor) :
    (unary c).Explains c (fun i w e j _ => Reads .unary i w (.expr e) j) := by
  rw [unary]
  split
  · rename_i operator c₁ _ ht
    obtain ⟨hc, hk⟩ := takeIf?_eq_some ht
    have hk : operator.kind = .symbol .bang ∨ operator.kind = .symbol .minus := by
      simpa [Token.isSymbol] using hk
    exact hc.map (unary_explains c₁) fun _ _ _ _ _ h => .prefixed hk h
  · refine (primary_explains c).andThen (fun e c₁ _ => (callRest_explains e c₁).widen _) ?_
    intro i w e j w' e' k _ hl hr
    exact .call hl hr
termination_by c.rest.length * 16 + 2
decreasing_by all_goals omega

theorem callRest_explains (e : Expr) (c : Cursor) :
    (callRest e c).Explains c (fun i w e' j _ => Reads (.callRest e) i w (.expr e') j) := by
  rw [callRest]
  split
  · rename_i opening c₁ _ ht
    obtain ⟨hc, hk⟩ := take?_eq_some ht
    split
    · rename_i paren c₂ _ ht'
      obtain ⟨hc', hk'⟩ := take?_eq_some ht'
      have hr := (callRest_explains (.call e paren []) c₂).widen (n := c.rest.length + 1)
        (by omega)
      refine hc.explains (P := fun i w e' j _ => ∃ w', w = paren :: w' ∧
        Reads (.callRest (.call e paren [])) i w' (.expr e') j)
        (hc'.explains hr fun _ w _ _ _ hr => ⟨w, rfl, hr⟩) ?_
      rintro i _ e' j _ ⟨w, rfl, hr⟩
      exact .callEmpty hk hk' hr
    · refine hc.andThen (arguments_explains 0 c₁) (fun es c₂ _ =>
        (expect_explains c₂ (.symbol .rightParen) .argumentsClose).andThen
          (fun paren c₃ _ => (callRest_explains (.call e paren es) c₃).widen _)
          (S := fun i w e' j _ => ∃ t w', w = t :: w' ∧ t.kind = .symbol .rightParen ∧
            Reads (.callRest (.call e t es)) i w' (.expr e') j) ?_) ?_
      · rintro i _ paren j w' e' k _ ⟨rfl, hk', rfl⟩ hr
        exact ⟨paren, w', rfl, hk', hr⟩
      · rintro i w es j _ e' k _ ha ⟨t, w', rfl, hk', hr⟩
        exact .callWith hk ha hk' hr
  · split
    · rename_i dot c₁ _ ht
      obtain ⟨hc, hk⟩ := take?_eq_some ht
      refine hc.andThen (expect_explains c₁ .identifier .propertyName)
        (fun name c₂ _ => (callRest_explains (.get e name) c₂).widen _) ?_
      rintro i _ name j w e' k _ ⟨rfl, hname, rfl⟩ hr
      exact .property hk hname hr
    · exact .pure _ .callStop
termination_by c.rest.length * 16 + 1
decreasing_by all_goals omega

theorem arguments_explains (count : Nat) (c : Cursor) :
    (arguments count c).Explains c
      (fun i w es j _ => Reads (.arguments count) i w (.exprs es) j) := by
  rw [arguments]
  have same : (c.checkArity count .tooManyArguments).rest.length = c.rest.length := by simp
  refine Explains.checkArity ((expression_explains (c.checkArity count .tooManyArguments)).andThen
    (Q := fun e i w es j _ => (w = [] ∧ es = [e] ∧ j = i) ∨ ∃ t w' es', w = t :: w' ∧
      t.kind = .symbol .comma ∧ Reads (.arguments (count + 1)) i w' (.exprs es') j ∧ es = e :: es')
    (S := fun i w es j _ => ∀ hc : count < maxArity, Reads (.arguments count) i w (.exprs es) j)
    (fun e c₁ _ => ?_) ?_) fun hc _ _ _ _ _ h => h hc
  · split
    · rename_i comma c₂ _ ht
      obtain ⟨hc, hk⟩ := take?_eq_some ht
      exact hc.map (arguments_explains (count + 1) c₂)
        fun _ _ _ _ _ h => .inr ⟨_, _, _, rfl, hk, h, rfl⟩
    · exact .pure _ (.inl ⟨rfl, rfl, rfl⟩)
  · rintro i w e j _ es k _ he (⟨rfl, rfl, rfl⟩ | ⟨t, w', es', rfl, hk, hes, rfl⟩) hc
    · rw [List.append_nil]
      exact .lastArgument hc he
    · exact .nextArgument hc he hk hes
termination_by c.rest.length * 16 + 16
decreasing_by all_goals omega

theorem primary_explains (c : Cursor) :
    (primary c).Explains c (fun i w e j _ => Reads .primary i w (.expr e) j) := by
  rw [primary]
  split
  · exact fail_explains
  · rename_i t c₁ _ ht
    obtain ⟨hc, -⟩ := takeIf?_eq_some ht
    split
    · rename_i value _ hv
      exact hc.ok _ fun _ _ => .literal hv
    · rename_i hk
      exact hc.explains (.fresh (P := fun i w e j _ => w = [] ∧ e = .this ⟨i⟩ t ∧ j = i + 1) _
        ⟨rfl, rfl, rfl⟩) (by rintro i _ _ _ _ ⟨rfl, rfl, rfl⟩; exact .this hk)
    · rename_i hk
      refine hc.andThen (expect_explains c₁ (.symbol .dot) .superDot) (fun dot c₂ _ =>
        (expect_explains c₂ .identifier .superMethod).andThen (fun method c₃ _ => .fresh
          (P := fun i w e j _ => w = [] ∧ e = Expr.super ⟨i⟩ t method ∧ j = i + 1) _ ⟨rfl, rfl, rfl⟩)
          (S := fun i w e j _ => ∃ method, w = [method] ∧ method.kind = .identifier ∧
            e = Expr.super ⟨i⟩ t method ∧ j = i + 1) ?_) ?_
      · rintro i _ method j _ e k _ ⟨rfl, hm, rfl⟩ ⟨rfl, rfl, rfl⟩
        exact ⟨method, rfl, hm, rfl, rfl⟩
      · rintro i _ dot j _ e k _ ⟨rfl, hd, rfl⟩ ⟨method, rfl, hm, rfl, rfl⟩
        exact .super hk hd hm
    · rename_i hk
      exact hc.explains (.fresh (P := fun i w e j _ => w = [] ∧ e = .var ⟨i⟩ t ∧ j = i + 1) _
        ⟨rfl, rfl, rfl⟩) (by rintro i _ _ _ _ ⟨rfl, rfl, rfl⟩; exact .name hk)
    · rename_i hk
      refine hc.andThen (expression_explains c₁) (fun inner c₂ _ =>
        (expect_explains c₂ (.symbol .rightParen) .groupClose).map
          (S := fun i w e j _ => ∃ t', w = [t'] ∧ t'.kind = .symbol .rightParen ∧
            e = Expr.group inner ∧ j = i) ?_) ?_
      · rintro i _ t' j _ ⟨rfl, hk', rfl⟩
        exact ⟨t', rfl, hk', rfl, rfl⟩
      · rintro i w inner j _ e k _ he ⟨t', rfl, hk', rfl, rfl⟩
        exact .group hk he hk'
    · exact fail_explains
termination_by c.rest.length * 16
decreasing_by all_goals omega

end

/-! ## Parts of statements -/

theorem terminated_explains {s : Symbol} (hs : s.endsExpression = true) (what : Expected)
    (c : Cursor) :
    (terminated s what c).Explains c (fun i w e j _ => Reads (.terminated s) i w (.expr e) j) := by
  unfold terminated
  refine (expression_explains c).andThen (fun e c₁ _ =>
    (expect_explains c₁ (.symbol s) what).map
      (S := fun i w e' j _ => ∃ t, w = [t] ∧ t.kind = .symbol s ∧ e' = e ∧ j = i) ?_) ?_
  · rintro i _ t j _ ⟨rfl, hk, rfl⟩
    exact ⟨t, rfl, hk, rfl, rfl⟩
  · rintro i w e j _ _ k _ he ⟨t, rfl, hk, rfl, rfl⟩
    exact .terminated hs he hk

theorem optional_explains {s : Symbol} (hs : s.endsExpression = true) (what : Expected)
    (c : Cursor) :
    (optional s what c).Explains c (fun i w e j _ => Reads (.optional s) i w (.expr? e) j) := by
  unfold optional
  split
  · rename_i t c₁ _ ht
    obtain ⟨hc, hk⟩ := take?_eq_some ht
    exact hc.ok _ fun _ _ => .omitted hk
  · exact (terminated_explains hs what c).map fun _ _ _ _ _ h => .given h

theorem parenthesized_explains (opening closing : Expected) (c : Cursor) :
    (parenthesized opening closing c).Explains c
      (fun i w e j _ => Reads .parenthesized i w (.expr e) j) := by
  unfold parenthesized
  refine (expect_explains c _ opening).andThen
    (fun t c₁ _ => (terminated_explains (s := .rightParen) rfl closing c₁).map fun _ _ _ _ _ h => h) ?_
  rintro i _ t j w e k _ ⟨rfl, hk, rfl⟩ he
  exact .parenthesized hk he

theorem variableDeclaration_explains (c : Cursor) :
    (variableDeclaration c).Explains c
      (fun i w s j _ => Reads .variableDeclaration i w (.stmt s) j) := by
  unfold variableDeclaration
  refine (expect_explains c .identifier .variableName).andThen
    (Q := fun name i w s j _ => name.kind = .identifier →
      Reads .variableDeclaration i (name :: w) (.stmt s) j) (fun name c₁ _ => ?_) ?_
  · split
    · rename_i t c₂ _ ht
      obtain ⟨hc, hk⟩ := take?_eq_some ht
      exact hc.map (terminated_explains (s := .semicolon) rfl .variableEnd c₂)
        fun _ _ _ _ _ h hname => .initialized hname hk h
    · refine (expect_explains c₁ _ .variableEnd).map ?_
      rintro i _ t j _ ⟨rfl, hk, rfl⟩ hname
      exact .uninitialized hname hk
  · rintro i _ name j w s k _ ⟨rfl, hname, rfl⟩ h
    exact h hname

theorem forInitializer_explains (c : Cursor) :
    (forInitializer c).Explains c (fun i w s j _ => Reads .forInitializer i w (.stmt? s) j) := by
  unfold forInitializer
  split
  · rename_i t c₁ _ ht
    obtain ⟨hc, hk⟩ := take?_eq_some ht
    exact hc.ok _ fun _ _ => .forNothing hk
  · split
    · rename_i t c₁ _ ht
      obtain ⟨hc, hk⟩ := take?_eq_some ht
      exact hc.map (variableDeclaration_explains c₁) fun _ _ _ _ _ h => .forVariable hk h
    · exact ((terminated_explains (s := .semicolon) rfl .expressionEnd c).map
        (S := fun i w s j _ => Reads .forInitializer i w (.stmt? (some s)) j)
        fun _ _ _ _ _ h => .forExpression h).map fun _ _ _ _ _ h => h

theorem parameters_explains (count : Nat) (c : Cursor) :
    (parameters count c).Explains c
      (fun i w ns j _ => Reads (.parameters count) i w (.names ns) j) := by
  rw [parameters]
  have same : (c.checkArity count .tooManyParameters).rest.length = c.rest.length := by simp
  refine Explains.checkArity ((expect_explains (c.checkArity count .tooManyParameters) .identifier
    .parameterName).andThen
    (Q := fun name i w ns j _ => count < maxArity → name.kind = .identifier →
      Reads (.parameters count) i (name :: w) (.names ns) j)
    (S := fun i w ns j _ => count < maxArity → Reads (.parameters count) i w (.names ns) j)
    (fun name c₁ _ => ?_) ?_) fun hc _ _ _ _ _ h => h hc
  · split
    · rename_i t c₂ _ ht
      obtain ⟨hc, hk⟩ := take?_eq_some ht
      exact hc.map (parameters_explains (count + 1) c₂)
        fun _ _ _ _ _ h hcount hname => .nextParameter hcount hname hk h
    · exact .pure _ fun hcount hname => .lastParameter hcount hname
  · rintro i _ name j w ns k _ ⟨rfl, hname, rfl⟩ h hcount
    exact h hcount hname
termination_by c.rest.length
decreasing_by omega

theorem parameterList_explains (c : Cursor) :
    (parameterList c).Explains c (fun i w ns j _ => Reads .parameterList i w (.names ns) j) := by
  unfold parameterList
  split
  · rename_i t c₁ _ ht
    obtain ⟨hc, hk⟩ := take?_eq_some ht
    exact hc.ok _ fun _ _ => .noParameters hk
  · refine (parameters_explains 0 c).andThen (fun ns c₁ _ =>
      (expect_explains c₁ (.symbol .rightParen) .parametersClose).map
        (S := fun i w ns' j _ => ∃ t, w = [t] ∧ t.kind = .symbol .rightParen ∧ ns' = ns ∧ j = i)
        ?_) ?_
    · rintro i _ t j _ ⟨rfl, hk, rfl⟩
      exact ⟨t, rfl, hk, rfl, rfl⟩
    · rintro i w ns j _ _ k _ hns ⟨t, rfl, hk, rfl, rfl⟩
      exact .someParameters hns hk

theorem classHeader_explains (c : Cursor) :
    (classHeader c).Explains c (fun i w e j _ => Reads .classHeader i w (.expr? e) j) := by
  unfold classHeader
  split
  · rename_i t c₁ _ ht
    obtain ⟨hc, hk⟩ := take?_eq_some ht
    refine hc.andThen (expect_explains c₁ .identifier .superclassName) (fun name c₂ _ =>
      (expect_explains c₂ (.symbol .leftBrace) .classBodyOpen).andThen (fun _ c₃ _ => .fresh
        (P := fun i w e j _ => w = [] ∧ e = some (Expr.var ⟨i⟩ name) ∧ j = i + 1) _ ⟨rfl, rfl, rfl⟩)
        (S := fun i w e j _ => ∃ t', w = [t'] ∧ t'.kind = .symbol .leftBrace ∧
          e = some (Expr.var ⟨i⟩ name) ∧ j = i + 1) ?_) ?_
    · rintro i _ t' j _ e k _ ⟨rfl, hk', rfl⟩ ⟨rfl, rfl, rfl⟩
      exact ⟨t', rfl, hk', rfl, rfl⟩
    · rintro i _ name j _ e k _ ⟨rfl, hname, rfl⟩ ⟨t', rfl, hk', rfl, rfl⟩
      exact .derived hk hname hk'
  · refine (expect_explains c (.symbol .leftBrace) .classBodyOpen).map ?_
    rintro i _ t j _ ⟨rfl, hk, rfl⟩
    exact .base hk

/-! ## Declarations and statements -/

end Cursor

namespace Declared

/-- The counterpart of `Step.Explains` for a declaration, which may have been dropped. -/
def Explains {c : Cursor} (d : Declared c) : Prop :=
  c.Precedes d.next ∧ (d.next.complaints = c.complaints →
    ∃ o w s, d.result = some s ∧ c.rest = w ++ d.next.rest ∧
      Reads (.declaration o) c.nextId w (.stmt s) d.next.nextId)

/-- A step behind a declaration. -/
theorem Explains.andThen {α β : Type} {c : Cursor} {d : Declared c} {m n : Nat}
    {x : Step α m} {g : α → β} {hle : m ≤ n} {P : Reading α} {S : Reading β}
    {hlt : ∀ c : Cursor, c.rest.length < m → c.rest.length < n}
    (hd : d.Explains) (hx : x.Explains d.next P)
    (hS : ∀ o i w s j w' a k r, d.result = some s → Reads (.declaration o) i w (.stmt s) j →
      P j w' a k r → S i (w ++ w') (g a) k r) :
    (x.andThen (fun a c h => .ok (g a) c (hlt c h)) hle).Explains c S := by
  obtain ⟨hs, hr⟩ := hd
  cases x with
  | failed e c' _ => exact hs.trans hx
  | ok a c' _ =>
    obtain ⟨hs', hr'⟩ := hx
    refine ⟨hs.trans hs', fun hc => ?_⟩
    have hc₁ : d.next.complaints = c.complaints := hs.complaints_eq hs' hc
    obtain ⟨o, w, s, hres, hw, hreads⟩ := hr hc₁
    obtain ⟨w', hw', ha⟩ := hr' (hc.trans hc₁.symm)
    exact ⟨w ++ w', by rw [hw, hw', List.append_assoc], hS _ _ _ _ _ _ _ _ _ hres hreads ha⟩

end Declared

namespace Cursor

open Step

/-- Skipping tokens makes no complaints. -/
@[simp]
theorem complaints_resume (c : Cursor) : c.resume.complaints = c.complaints := by
  unfold resume
  split <;> rfl

@[simp]
theorem nextId_resume (c : Cursor) : c.resume.nextId = c.nextId := by
  unfold resume
  split <;> rfl

theorem precedes_resume (c : Cursor) : c.Precedes c.resume :=
  ⟨by simp, by simp⟩

/-- Behind an open statement there is no `else`, which would belong to it. -/
def Settled (isOpen : Bool) (r : List Token) : Prop :=
  isOpen = true → ∀ t ∈ r.head?, t.kind ≠ .keyword .else_

theorem settled_false (r : List Token) : Settled false r := by
  intro h
  cases h

theorem settled_of_keyword?_eq_none {c : Cursor} (h : c.keyword? .else_ = none) (o : Bool) :
    Settled o c.rest :=
  fun _ => take?_eq_none h

mutual

theorem declared_explains (c : Cursor) (h : c.rest ≠ []) : (declared c h).Explains := by
  rw [declared]
  have hd := declaration_explains c
  split
  · rename_i s c₁ _ heq
    rw [heq] at hd
    refine ⟨hd.1, fun hc => ?_⟩
    obtain ⟨w, hw, o, hr⟩ := hd.2 hc
    exact ⟨o, w, s, rfl, hw, hr⟩
  · rename_i e c₁ _ heq
    rw [heq] at hd
    have hs : (c₁.report e).Precedes (c₁.report e).resume := precedes_resume _
    refine ⟨(hd.trans (.report c₁ e)).trans hs, fun hc => ?_⟩
    have hlen := hd.complaints.length_le
    have := congrArg List.length hc
    simp only [complaints_resume, report, List.length_cons] at this
    omega
termination_by c.rest.length * 8 + 3
decreasing_by omega

theorem declaration_explains (c : Cursor) : (declaration c).Explains c
    (fun i w s j _ => ∃ o, Reads (.declaration o) i w (.stmt s) j) := by
  rw [declaration]
  split
  · rename_i t c₁ _ ht
    obtain ⟨hc, hk⟩ := take?_eq_some ht
    exact hc.explains ((classDeclaration_explains c₁).widen _)
      fun _ _ _ _ _ h => ⟨false, .declaredClass hk h⟩
  · split
    · rename_i t c₁ _ ht
      obtain ⟨hc, hk⟩ := take?_eq_some ht
      exact hc.map (function_explains .function c₁)
        fun _ _ _ _ _ h => ⟨false, .declaredFunction hk h⟩
    · split
      · rename_i t c₁ _ ht
        obtain ⟨hc, hk⟩ := take?_eq_some ht
        exact hc.explains ((variableDeclaration_explains c₁).widen _)
          fun _ _ _ _ _ h => ⟨false, .declaredVariable hk h⟩
      · exact (statement_explains c).mono fun _ _ _ _ _ ⟨o, h, _⟩ => ⟨o, .statement h⟩
termination_by c.rest.length * 8 + 2
decreasing_by all_goals omega

theorem classDeclaration_explains (c : Cursor) : (classDeclaration c).Explains c
    (fun i w s j _ => Reads .classDeclaration i w (.stmt s) j) := by
  rw [classDeclaration]
  refine (expect_explains c .identifier .className).andThen (fun name c₁ _ =>
    (classHeader_explains c₁).andThen (fun superclass c₂ _ =>
      (methods_explains c₂).map
        (S := fun i w s j _ => ∃ fs, s = Stmt.class_ name superclass fs ∧
          Reads .methods i w (.decls fs) j) fun _ _ fs _ _ h => ⟨fs, rfl, h⟩)
      (S := fun i w s j _ => name.kind = .identifier → Reads .classDeclaration i (name :: w)
        (.stmt s) j) ?_) ?_
  · rintro i w superclass j w' s k _ hh ⟨fs, rfl, hm⟩ hname
    exact .classDeclaration hname hh hm
  · rintro i _ name j w s k _ ⟨rfl, hname, rfl⟩ h
    exact h hname
termination_by c.rest.length * 8
decreasing_by omega

theorem methods_explains (c : Cursor) :
    (methods c).Explains c (fun i w fs j _ => Reads .methods i w (.decls fs) j) := by
  rw [methods]
  split
  · rename_i t c₁ _ ht
    obtain ⟨hc, hk⟩ := take?_eq_some ht
    exact hc.ok _ fun _ _ => .noMethods hk
  · split
    · exact fail_explains
    · refine (function_explains .method c).andThen (fun f c₁ _ => (methods_explains c₁).map
        (S := fun i w fs j _ => ∃ fs', fs = f :: fs' ∧ Reads .methods i w (.decls fs') j)
        fun _ _ fs _ _ h => ⟨fs, rfl, h⟩) ?_
      rintro i w f j w' _ k _ hf ⟨fs, rfl, hfs⟩
      exact .nextMethod hf hfs
termination_by c.rest.length * 8 + 1
decreasing_by all_goals omega

theorem function_explains (form : FunctionForm) (c : Cursor) :
    (function form c).Explains c (fun i w f j _ => Reads .function i w (.decl f) j) := by
  rw [function]
  refine (expect_explains c .identifier (.functionName form)).andThen (fun name c₁ _ =>
    (expect_explains c₁ (.symbol .leftParen) (.parametersOpen form)).andThen (fun _ c₂ _ =>
      (parameterList_explains c₂).andThen (fun params c₃ _ =>
        (expect_explains c₃ (.symbol .leftBrace) (.functionBodyOpen form)).andThen (fun _ c₄ _ =>
          (block_explains c₄).map (S := fun i w f j _ => ∃ body, f = FunDeclOf.mk name params body ∧
            Reads .block i w (.stmts body) j) fun _ _ body _ _ h => ⟨body, rfl, h⟩)
          (S := fun i w f j _ => ∃ t w' body, w = t :: w' ∧ t.kind = .symbol .leftBrace ∧
            f = FunDeclOf.mk name params body ∧ Reads .block i w' (.stmts body) j) ?_)
        (S := fun i w f j _ => ∀ t : Token, name.kind = .identifier → t.kind = .symbol .leftParen →
          Reads .function i (name :: t :: w) (.decl f) j) ?_)
      (S := fun i w f j _ => name.kind = .identifier →
        Reads .function i (name :: w) (.decl f) j) ?_) ?_
  · rintro i _ t j w f k _ ⟨rfl, hk, rfl⟩ ⟨body, rfl, hb⟩
    exact ⟨t, w, body, rfl, hk, rfl, hb⟩
  · rintro i w params j _ _ k _ hp ⟨t', w', body, rfl, hk', rfl, hb⟩ t hname hk
    exact .function hname hk hp hk' hb
  · rintro i _ t j w f k _ ⟨rfl, hk, rfl⟩ h hname
    exact h t hname hk
  · rintro i _ name j w f k _ ⟨rfl, hname, rfl⟩ h
    exact h hname
termination_by c.rest.length * 8
decreasing_by omega

theorem block_explains (c : Cursor) :
    (block c).Explains c (fun i w ss j _ => Reads .block i w (.stmts ss) j) := by
  rw [block]
  split
  · rename_i t c₁ _ ht
    obtain ⟨hc, hk⟩ := take?_eq_some ht
    exact hc.ok _ fun _ _ => .blockEnd hk
  · split
    · exact fail_explains
    · rename_i h
      have hd := declared_explains c h
      split
      rename_i s c₁ _ heq
      rw [heq] at hd
      refine Declared.Explains.andThen hd (block_explains c₁) ?_
      rintro o i w s' j w' ss k _ hs hr hb
      rw [show s = some s' from hs]
      exact .blockNext hr hb
termination_by c.rest.length * 8 + 4
decreasing_by all_goals omega

theorem statement_explains (c : Cursor) : (statement c).Explains c
    (fun i w s j r => ∃ o, Reads (.statement o) i w (.stmt s) j ∧ Settled o r) := by
  have hexpr : (expressionStatement c).Explains c
      (fun i w s j r => ∃ o, Reads (.statement o) i w (.stmt s) j ∧ Settled o r) :=
    (terminated_explains (s := .semicolon) rfl .expressionEnd c).map
      fun _ _ _ _ r h => ⟨false, .expressionStatement h, settled_false r⟩
  rw [statement]
  split
  · exact hexpr
  · rename_i t c₁ _ ht
    obtain ⟨hc, -⟩ := takeIf?_eq_some ht
    split
    · rename_i hk
      refine hc.andThen (expect_explains c₁ (.symbol .leftParen) .forOpen) (fun _ c₂ _ =>
        (forInitializer_explains c₂).andThen (fun initializer c₃ _ =>
          (optional_explains (s := .semicolon) rfl .loopConditionEnd c₃).andThen (fun condition c₄ _ =>
            (optional_explains (s := .rightParen) rfl .forClose c₄).andThen (fun increment c₅ _ =>
              (statement_explains c₅).map (S := fun i w s j r => ∃ o body,
                s = Stmt.ofForClauses initializer condition increment body ∧
                  Reads (.statement o) i w (.stmt body) j ∧ Settled o r)
                fun _ _ body _ _ ⟨o, h, ho⟩ => ⟨o, body, rfl, h, ho⟩)
              (S := fun i w s j r => ∃ o i₁ w₁ w₂ increment body, w = w₁ ++ w₂ ∧
                s = Stmt.ofForClauses initializer condition increment body ∧
                  Reads (.optional .rightParen) i w₁ (.expr? increment) i₁ ∧
                    Reads (.statement o) i₁ w₂ (.stmt body) j ∧ Settled o r) ?_)
            (S := fun i w s j r => ∃ o i₁ i₂ w₁ w₂ w₃ condition increment body,
              w = w₁ ++ (w₂ ++ w₃) ∧
                s = Stmt.ofForClauses initializer condition increment body ∧
                  Reads (.optional .semicolon) i w₁ (.expr? condition) i₁ ∧
                    Reads (.optional .rightParen) i₁ w₂ (.expr? increment) i₂ ∧
                      Reads (.statement o) i₂ w₃ (.stmt body) j ∧ Settled o r) ?_)
          (S := fun i w s j r => ∃ o, (∀ t', t'.kind = .symbol .leftParen →
            Reads (.statement o) i (t :: t' :: w) (.stmt s) j) ∧ Settled o r) ?_) ?_
      · rintro i w increment j w' s k r h₃ ⟨o, body, rfl, h₄, ho⟩
        exact ⟨o, j, w, w', increment, body, rfl, rfl, h₃, h₄, ho⟩
      · rintro i w condition j _ s k r h₂ ⟨o, i₂, w₂, w₃, increment, body, rfl, rfl, h₃, h₄, ho⟩
        exact ⟨o, j, i₂, w, w₂, w₃, condition, increment, body, rfl, rfl, h₂, h₃, h₄, ho⟩
      · rintro i w initializer j _ s k r h₁
          ⟨o, i₁, i₂, w₁, w₂, w₃, condition, increment, body, rfl, rfl, h₂, h₃, h₄, ho⟩
        exact ⟨o, fun t' hk' => .for_ hk hk' h₁ h₂ h₃ h₄, ho⟩
      · rintro i _ t' j w s k r ⟨rfl, hk', rfl⟩ ⟨o, h, ho⟩
        exact ⟨o, h t' hk', ho⟩
    · rename_i hk
      refine hc.andThen (parenthesized_explains _ _ c₁) (fun condition c₂ _ =>
        (statement_explains c₂).andThen
          (Q := fun thenBranch i w s j r =>
            (w = [] ∧ s = .if_ condition thenBranch none ∧ j = i ∧ Settled true r) ∨
            ∃ o t' w' elseBranch, w = t' :: w' ∧ t'.kind = .keyword .else_ ∧
              s = .if_ condition thenBranch (some elseBranch) ∧
                Reads (.statement o) i w' (.stmt elseBranch) j ∧ Settled o r)
          (S := fun i w s j r => ∃ o, (∀ i' w', Reads .parenthesized i' w' (.expr condition) i →
            Reads (.statement o) i' (t :: (w' ++ w)) (.stmt s) j) ∧ Settled o r)
          (fun thenBranch c₃ _ => ?_) ?_) ?_
      · split
        · rename_i t' c₄ _ ht'
          obtain ⟨hc', hk'⟩ := take?_eq_some ht'
          exact hc'.map (statement_explains c₄)
            fun _ w elseBranch _ _ ⟨o, h, ho⟩ => .inr ⟨o, t', w, elseBranch, rfl, hk', rfl, h, ho⟩
        · rename_i hnone
          exact .pure _ (.inl ⟨rfl, rfl, rfl, settled_of_keyword?_eq_none hnone true⟩)
      · rintro i w thenBranch j _ _ k r ⟨o, h₁, ho⟩
          (⟨rfl, rfl, rfl, hr⟩ | ⟨o', t', w', elseBranch, rfl, hk', rfl, h₂, ho'⟩)
        · rw [List.append_nil]
          exact ⟨true, fun i' w' hcond => .ifThen hk hcond h₁, hr⟩
        · -- an open branch would have taken the `else`
          cases o with
          | true => exact absurd hk' (ho rfl t' rfl)
          | false => exact ⟨o', fun i' w₀ hcond => .ifElse hk hcond h₁ hk' h₂, ho'⟩
      · rintro i w condition j w' s k r hcond ⟨o, h, ho⟩
        exact ⟨o, h i w hcond, ho⟩
    · rename_i hk
      refine hc.andThen (parenthesized_explains _ _ c₁) (fun condition c₂ _ =>
        (statement_explains c₂).map (S := fun i w s j r => ∃ o body,
          s = Stmt.while_ condition body ∧ Reads (.statement o) i w (.stmt body) j ∧ Settled o r)
          fun _ _ body _ _ ⟨o, h, ho⟩ => ⟨o, body, rfl, h, ho⟩) ?_
      rintro i w condition j w' s k r h ⟨o, body, rfl, hb, ho⟩
      exact ⟨o, .while_ hk h hb, ho⟩
    · rename_i hk
      exact hc.map (optional_explains rfl _ c₁)
        fun _ _ _ _ r h => ⟨false, .return_ hk h, settled_false r⟩
    · rename_i hk
      exact hc.map (terminated_explains rfl _ c₁)
        fun _ _ _ _ r h => ⟨false, .print hk h, settled_false r⟩
    · rename_i hk
      exact hc.map (block_explains c₁) fun _ _ _ _ r h => ⟨false, .block hk h, settled_false r⟩
    · exact hexpr
termination_by c.rest.length * 8 + 1
decreasing_by all_goals omega

end

/-! ## Programs -/

/-- A program that is read without a complaint. -/
theorem program_explains (c : Cursor) : c.Precedes (program c).2 ∧
    ((program c).2.complaints = c.complaints →
      Reads .program c.nextId c.rest (.stmts (program c).1) (program c).2.nextId) := by
  fun_induction program c with
  | case1 c h =>
    refine ⟨.refl _, fun _ => ?_⟩
    rw [h]
    exact .programEnd
  | case2 c h s c₁ _ heq ss c₂ heq₂ ih =>
    have hd := declared_explains c h
    rw [heq] at hd
    rw [heq₂] at ih
    obtain ⟨hs₁, hr₁⟩ := hd
    obtain ⟨hs₂, hr₂⟩ := ih
    refine ⟨hs₁.trans hs₂, fun hc => ?_⟩
    have hc₁ : c₁.complaints = c.complaints := hs₁.complaints_eq hs₂ hc
    obtain ⟨o, w, s', hres, hw, hreads⟩ := hr₁ hc₁
    obtain rfl : s = some s' := hres
    rw [hw]
    exact .programNext hreads (hr₂ (hc.trans hc₁.symm))

end Cursor

end LoxWalk
