import LoxWalk.Proofs.Binding.Fitting
import LoxWalk.Proofs.Grammar.Words
import LoxWalk.Proofs.Simulation.Code

/-!
# Places of twins

Binding finds the same in programs that differ only as a `Twin` says, provided that what is known
about their references is what binding finds, and that no name is changed into one that is in use
(`Twin.Lawful`).  References are bound at the same distances, and if no rule is broken in the first
program then none is broken in the second (`Twin.Lawful.findings`).
-/

namespace LoxWalk

theorem Expr.Twins?.isSome_eq {T : Twin} {x : Extent} {flags : List Bool} {e e' : Option Expr}
    (h : Expr.Twins? T x flags e e') : e'.isSome = e.isSome := by
  cases e with
  | none => exact congrArg Option.isSome h
  | some e =>
    obtain ⟨e', rfl, -⟩ := h
    rfl

/-- A method keeps its name. -/
theorem Stmt.FunTwins.methodContext_eq {T : Twin} {flags : List Bool} {f f' : FunDecl}
    (h : Stmt.FunTwins T flags f f') : Static.methodContext f' = Static.methodContext f := by
  obtain ⟨name, params, body⟩ := f
  obtain ⟨flag, name', params', body', rfl, hname, -⟩ := h
  have hlexeme : name'.lexeme = name.lexeme := hname.lexeme
  unfold Static.methodContext FunDeclOf.isInitializer
  rw [hlexeme]

namespace Twin

section

variable (T : Twin)

/-! ## Scopes and places -/

/-- The scopes around two places.  All names in them may be changed. -/
inductive Scopes : List Bool → List (NameMap Bool) → List (NameMap Bool) → Prop where
  | top (flags : List Bool) : Scopes flags [] []
  | inside {flag : Bool} {flags : List Bool} {names names' : NameMap Bool}
      {outer outer' : List (NameMap Bool)}
      (hnames : ∀ z, names'.get? (T.name flag z) = names.get? z)
      (hrenames : ∀ z, names.contains z = true → T.renames z) (h : Scopes flags outer outer') :
      Scopes (flag :: flags) (names :: outer) (names' :: outer')

/-- Two places. -/
structure Places (flags : List Bool) (st st' : Static) : Prop where
  scopes : T.Scopes flags st.scopes st'.scopes
  function : st'.function = st.function
  inClass : st'.inClass = st.inClass

/-- No name is changed into one that may be changed itself, and the corresponding reference has the
identity that `move` gives. -/
structure Lawful (move : NodeId → NodeId) : Prop where
  fresh : ∀ z, T.renames z → T.rename z = z ∨ ¬ T.renames (T.rename z)
  this : T.renames thisName
  super : T.renames superName
  move : ∀ x id id' d, T.known x id id' d → id' = move id

/-- What is known about the references at these sites is what binding finds. -/
def Tracks (sites : List Site) : Prop :=
  ∀ s ∈ sites, ∀ x id' d, T.known x s.id id' d → d = s.distance?

/-- All these tokens may be changed. -/
def Covers (words : List Token) : Prop :=
  ∀ t ∈ words, T.renames t.lexeme

/-- The findings of two trees. -/
structure Found (move : NodeId → NodeId) (f f' : Findings) : Prop where
  bound : f'.bound = f.bound.map fun r => { r with id := move r.id }
  errors : f.errors = [] → f'.errors = []

end

variable {T : Twin} {move : NodeId → NodeId}

/-! ## Findings -/

namespace Found

variable {f f' g g' : Findings}

theorem none : Found move .none .none :=
  ⟨rfl, id⟩

theorem append (hf : Found move f f') (hg : Found move g g') : Found move (f ++ g) (f' ++ g') := by
  refine ⟨?_, fun he => ?_⟩
  · rw [Findings.bound_append, Findings.bound_append, hf.bound, hg.bound, List.map_append]
  · rw [Findings.errors_append, List.append_eq_nil_iff] at he
    rw [Findings.errors_append, hf.errors he.1, hg.errors he.2]
    rfl

theorem broken (t t' : Token) (fault : ResolveFault) :
    Found move (.broken t fault) (.broken t' fault) :=
  ⟨rfl, fun h => nomatch h⟩

/-- A rule that is broken in the second program only if it is in the first. -/
theorem brokenIf {b b' : Bool} (h : b = false → b' = false) (t t' : Token) (fault : ResolveFault) :
    Found move (.brokenIf b t fault) (.brokenIf b' t' fault) := by
  refine ⟨?_, ?_⟩
  · rw [Findings.bound_brokenIf, Findings.bound_brokenIf]
    rfl
  · rw [Findings.errors_brokenIf, Findings.errors_brokenIf]
    exact h

end Found

/-! ## Names that are looked up -/

namespace Lawful

/-- A name that is changed as in some scope is declared in this scope only if it was before. -/
theorem contains_eq_false (h : T.Lawful move) {flag : Bool} {names names' : NameMap Bool}
    (hnames : ∀ z, names'.get? (T.name flag z) = names.get? z)
    (hrenames : ∀ z, names.contains z = true → T.renames z) {z : String} (hz : T.renames z)
    (hc : names.contains z = false) (flag' : Bool) :
    names'.get? (T.name flag' z) = Option.none := by
  have hback : names'.get? (T.name flag' z) = names.get? (T.name flag (T.name flag' z)) := by
    rw [← hnames, name_name]
  have hnot : ∀ y, names.contains y = false → names.get? y = Option.none := fun y hy =>
    Option.not_isSome_iff_eq_none.mp (Bool.eq_false_iff.mp hy)
  rw [hback]
  apply hnot
  by_cases hflag : flag' = flag
  · rw [hflag, name_name, hc]
  · -- exactly one of the two changes takes place
    have hone : T.name flag (T.name flag' z) = T.rename z := by
      cases flag <;> cases flag' <;> first | rfl | exact absurd rfl hflag
    rw [hone]
    rcases h.fresh z hz with heq | hfree
    · rw [heq, hc]
    · exact Bool.eq_false_iff.mpr fun hy => hfree (hrenames _ hy)

theorem findIdx?_eq (h : T.Lawful move) {flags : List Bool} {scopes scopes' : List (NameMap Bool)}
    (hs : T.Scopes flags scopes scopes') {z : String} (hz : T.renames z) :
    scopes'.findIdx? (·.contains (T.name (flagAt flags (scopes.findIdx? (·.contains z))) z)) =
      scopes.findIdx? (·.contains z) := by
  induction hs with
  | top => rfl
  | @inside flag flags names names' outer outer' hnames hrenames _ ih =>
    rw [List.findIdx?_cons, List.findIdx?_cons]
    by_cases hc : names.contains z = true
    · have hc' : names'.contains (T.name flag z) = true := by
        rw [NameMap.contains, hnames, ← hc, NameMap.contains]
      rw [if_pos hc]
      exact if_pos hc'
    · have houter : flagAt (flag :: flags) ((outer.findIdx? (·.contains z)).map (· + 1)) =
          flagAt flags (outer.findIdx? (·.contains z)) := by
        cases outer.findIdx? (·.contains z) <;> rfl
      rw [if_neg hc, houter, ih, NameMap.contains, h.contains_eq_false hnames hrenames hz
        (Bool.eq_false_iff.mpr hc)]
      rfl

end Lawful

namespace Places

variable {flags : List Bool} {st st' : Static}

/-- A name is found at the same distance. -/
theorem distance?_eq (h : T.Places flags st st') (hT : T.Lawful move) {z : String}
    (hz : T.renames z) : st'.distance? (T.name (flagAt flags (st.distance? z)) z) = st.distance? z :=
  hT.findIdx?_eq h.scopes hz

theorem isPending_eq (h : T.Places flags st st') (hT : T.Lawful move) {z : String}
    (hz : T.renames z) :
    st'.isPending (T.name (flagAt flags (st.distance? z)) z) = st.isPending z := by
  obtain ⟨hs, -, -⟩ := h
  unfold Static.isPending Static.distance?
  revert hs
  generalize st.scopes = scopes, st'.scopes = scopes'
  intro hs
  cases hs with
  | top => rfl
  | @inside flag flags names names' outer outer' hnames hrenames =>
    rw [List.findIdx?_cons]
    by_cases hc : names.contains z = true
    · have hhere : flagAt (flag :: flags) (some 0) = flag := rfl
      simp only [hc, if_true, hhere, List.head?_cons, Option.bind_some, hnames]
    · have hget : names.get? z = none :=
        Option.not_isSome_iff_eq_none.mp hc
      simp only [List.head?_cons, Option.bind_some, hget,
        hT.contains_eq_false hnames hrenames hz (Bool.eq_false_iff.mpr hc)]

theorem extent_eq (h : T.Places flags st st') : st'.extent = st.extent := by
  rw [Static.extent, h.function, Static.extent]

/-- What is found where a reference is bound. -/
theorem bind (h : T.Places flags st st') (hT : T.Lawful move) {t t' : Token} {id id' : NodeId}
    (hid : id' = move id) (ht : T.Tokens (flagAt flags (st.distance? t.lexeme)) t t')
    (hw : T.renames t.lexeme) : Found move (st.bind id t) (st'.bind id' t') := by
  unfold Static.bind
  rw [ht.lexeme, h.distance?_eq hT hw, h.extent_eq, hid]
  cases st.distance? t.lexeme with
  | none => exact .none
  | some d => exact ⟨rfl, fun _ => rfl⟩

/-! ## Declarations -/

theorem declaresHere_eq (h : T.Places flags st st') (z : String) :
    st'.declaresHere (T.name (flagHere flags) z) = st.declaresHere z := by
  obtain ⟨hs, -, -⟩ := h
  unfold Static.declaresHere
  revert hs
  generalize st.scopes = scopes, st'.scopes = scopes'
  intro hs
  cases hs with
  | top => rfl
  | inside hnames hrenames houter =>
    exact congrArg Option.isSome (hnames z)

theorem redeclaration (h : T.Places flags st st') {t t' : Token}
    (ht : T.Tokens (flagHere flags) t t') :
    Found move (st.redeclaration t) (st'.redeclaration t') := by
  refine .brokenIf (fun hb => ?_) _ _ _
  rw [ht.lexeme, h.declaresHere_eq, hb]

/-- What is found at a `return`. -/
theorem returned (h : T.Places flags st st') (t t' : Token) {x : Extent} {e e' : Option Expr}
    (he : Expr.Twins? T x flags e e') :
    Found move (st.returned t e.isSome) (st'.returned t' e'.isSome) := by
  refine .append (.brokenIf (fun hb => ?_) _ _ _) (.brokenIf (fun hb => ?_) _ _ _)
  · rw [h.function, hb]
  · rw [h.function, he.isSome_eq, hb]

/-- One more name in the innermost scope. -/
theorem scopes_insert {flag : Bool} {names names' : NameMap Bool}
    {outer outer' : List (NameMap Bool)}
    (h : T.Scopes (flag :: flags) (names :: outer) (names' :: outer')) {z : String}
    (hz : T.renames z) (b : Bool) :
    T.Scopes (flag :: flags) (names.insert z b :: outer)
      (names'.insert (T.name flag z) b :: outer') := by
  cases h with
  | inside hnames hrenames houter =>
    refine .inside (fun y => ?_) (fun y hy => ?_) houter
    · rw [NameMap.get?_insert, NameMap.get?_insert, hnames]
      simp only [name_inj]
    · rw [NameMap.contains_insert, Bool.or_eq_true, decide_eq_true_eq] at hy
      rcases hy with rfl | hy
      · exact hz
      · exact hrenames y hy

theorem declare (h : T.Places flags st st') {t t' : Token} (ht : T.Tokens (flagHere flags) t t')
    (hw : T.renames t.lexeme) : T.Places flags (st.declare t) (st'.declare t') := by
  obtain ⟨scopes, context, inClass⟩ := st
  obtain ⟨scopes', context', inClass'⟩ := st'
  obtain ⟨hs, rfl, rfl⟩ := h
  dsimp only at hs
  cases hs with
  | top => exact ⟨.top _, rfl, rfl⟩
  | @inside flag _ names names' outer outer' hnames hrenames houter =>
    have hlexeme : t'.lexeme = T.name flag t.lexeme := ht.lexeme
    have hc : names'.contains t'.lexeme = names.contains t.lexeme := by
      rw [hlexeme, NameMap.contains, hnames, NameMap.contains]
    unfold Static.declare
    dsimp only
    rw [hc]
    split
    · exact ⟨.inside hnames hrenames houter, rfl, rfl⟩
    · rw [hlexeme]
      exact ⟨scopes_insert (.inside hnames hrenames houter) hw false, rfl, rfl⟩

theorem define (h : T.Places flags st st') {t t' : Token} (ht : T.Tokens (flagHere flags) t t')
    (hw : T.renames t.lexeme) : T.Places flags (st.define t) (st'.define t') := by
  obtain ⟨scopes, context, inClass⟩ := st
  obtain ⟨scopes', context', inClass'⟩ := st'
  obtain ⟨hs, rfl, rfl⟩ := h
  dsimp only at hs
  cases hs with
  | top => exact ⟨.top _, rfl, rfl⟩
  | @inside flag _ names names' outer outer' hnames hrenames houter =>
    have hlexeme : t'.lexeme = T.name flag t.lexeme := ht.lexeme
    unfold Static.define
    rw [hlexeme]
    exact ⟨scopes_insert (.inside hnames hrenames houter) hw true, rfl, rfl⟩

theorem declared (h : T.Places flags st st') {t t' : Token} (ht : T.Tokens (flagHere flags) t t')
    (hw : T.renames t.lexeme) : T.Places flags (st.declared t) (st'.declared t') :=
  (h.declare ht hw).define ht hw

/-- A new scope in which nothing is declared yet. -/
theorem enter (h : T.Places flags st st') (flag : Bool) :
    T.Places (flag :: flags) (st.enter []) (st'.enter []) :=
  ⟨.inside (fun _ => rfl) (fun _ hz => nomatch hz) h.scopes, h.function, h.inClass⟩

/-- A new scope that declares `this` or `super`. -/
theorem enterName (h : T.Places flags st st') {z : String} (hz : T.renames z) :
    T.Places (false :: flags) (st.enter [z]) (st'.enter [z]) := by
  refine ⟨.inside (fun _ => rfl) (fun y hy => ?_) h.scopes, h.function, h.inClass⟩
  have hy' : (NameMap.empty.insert z true).contains y = true := hy
  rw [NameMap.contains_insert, NameMap.contains_empty, Bool.or_false, decide_eq_true_eq] at hy'
  exact hy' ▸ hz

theorem withClass (h : T.Places flags st st') (c : ClassContext) :
    T.Places flags { st with inClass := c } { st' with inClass := c } :=
  ⟨h.scopes, h.function, rfl⟩

theorem withFunction (h : T.Places flags st st') (c : FunctionContext) :
    T.Places flags { st with function := c } { st' with function := c } :=
  ⟨h.scopes, rfl, h.inClass⟩

/-- The place of the methods of a class. -/
theorem methodsPlace (h : T.Places flags st st') (hT : T.Lawful move) (hasSuperclass : Bool) :
    T.Places (false :: if hasSuperclass then false :: flags else flags)
      (st.methodsPlace hasSuperclass) (st'.methodsPlace hasSuperclass) := by
  cases hasSuperclass with
  | false => exact (h.withClass .base).enterName hT.this
  | true => exact ((h.withClass .derived).enterName hT.super).enterName hT.this

/-- The parameters of a function. -/
theorem params {ps ps' : List Token} (hps : List.Forall₂ (T.Tokens (flagHere flags)) ps ps')
    (hw : T.Covers ps) : ∀ {st st' : Static}, T.Places flags st st' →
      T.Places flags (st.params ps).1 (st'.params ps').1 ∧
        Found move (st.params ps).2 (st'.params ps').2 := by
  induction hps with
  | nil => exact fun h => ⟨h, .none⟩
  | @cons p p' ps ps' hp _ ih =>
    intro st st' h
    obtain ⟨hwp, hwps⟩ := List.forall_mem_cons.mp hw
    obtain ⟨hplaces, hfound⟩ := ih hwps (h.declared hp hwp)
    exact ⟨hplaces, (h.redeclaration hp).append hfound⟩

end Places

/-! ## Expressions -/

namespace Lawful

section

variable {x : Extent} {flags : List Bool} {st st' : Static} {os : List Origin}

/-- What is found where a reference is bound. -/
theorem bind (hT : T.Lawful move) (h : T.Places flags st st') {t t' : Token} {id id' : NodeId}
    {d : Option Nat} (hk : T.known x id id' d) (ht : T.Tokens (flagAt flags d) t t')
    (hsites : T.Tracks [st.site os id t.lexeme]) (hw : T.renames t.lexeme) :
    Found move (st.bind id t) (st'.bind id' t') := by
  have hd : d = st.distance? t.lexeme := hsites _ List.mem_cons_self x id' d hk
  exact h.bind hT (hT.move x id id' d hk) (hd ▸ ht) hw

mutual

theorem expr (hT : T.Lawful move) (h : T.Places flags st st') : {e e' : Expr} →
    e.Twins T x flags e' → T.Tracks (st.exprSites os e) → T.Covers e.words →
      Found move (st.expr e) (st'.expr e')
  | .literal _, _ => by
    rintro rfl - -
    exact .none
  | .group _, _ => by
    rintro ⟨inner', rfl, hinner⟩ hs hw
    exact (hT.expr h hinner hs hw :)
  | .unary _ _, _ => by
    rintro ⟨operator', operand', rfl, -, hoperand⟩ hs hw
    exact (hT.expr h hoperand hs (List.forall_mem_cons.mp hw).2 :)
  | .binary _ _ _, _ => by
    rintro ⟨left', operator', right', rfl, hleft, -, hright⟩ hs hw
    obtain ⟨hsl, hsr⟩ := List.forall_mem_append.mp hs
    obtain ⟨hwl, hwr⟩ := List.forall_mem_append.mp hw
    exact (hT.expr h hleft hsl hwl).append (hT.expr h hright hsr (List.forall_mem_cons.mp hwr).2)
  | .logical _ _ _, _ => by
    rintro ⟨left', operator', right', rfl, hleft, -, hright⟩ hs hw
    obtain ⟨hsl, hsr⟩ := List.forall_mem_append.mp hs
    obtain ⟨hwl, hwr⟩ := List.forall_mem_append.mp hw
    exact (hT.expr h hleft hsl hwl).append (hT.expr h hright hsr (List.forall_mem_cons.mp hwr).2)
  | .var _ name, _ => by
    rintro ⟨id', name', d, rfl, hk, hname⟩ hs hw
    have hrenames : T.renames name.lexeme := hw name List.mem_cons_self
    have hd : d = st.distance? name.lexeme := hs _ List.mem_cons_self x id' d hk
    refine .append (.brokenIf (fun hb => ?_) _ _ _) (hT.bind h hk hname hs hrenames)
    rw [hname.lexeme, hd, h.isPending_eq hT hrenames, hb]
  | .assign _ name _, _ => by
    rintro ⟨id', name', value', d, rfl, hvalue, hk, hname⟩ hs hw
    obtain ⟨hsv, hsn⟩ := List.forall_mem_append.mp hs
    obtain ⟨hrenames, hwv⟩ := List.forall_mem_cons.mp hw
    exact (hT.expr h hvalue hsv hwv).append (hT.bind h hk hname hsn hrenames)
  | .call _ _ _, _ => by
    rintro ⟨callee', paren', arguments', rfl, hcallee, -, harguments⟩ hs hw
    obtain ⟨hsc, hsa⟩ := List.forall_mem_append.mp hs
    obtain ⟨hwc, hwa⟩ := List.forall_mem_append.mp hw
    exact (hT.expr h hcallee hsc hwc).append
      (hT.exprs h harguments hsa (List.forall_mem_cons.mp hwa).2)
  | .get _ _, _ => by
    rintro ⟨object', name', rfl, hobject, -⟩ hs hw
    exact (hT.expr h hobject hs (List.forall_mem_append.mp hw).1 :)
  | .set _ _ _, _ => by
    rintro ⟨object', name', value', rfl, hobject, -, hvalue⟩ hs hw
    obtain ⟨hso, hsv⟩ := List.forall_mem_append.mp hs
    obtain ⟨hwo, hwv⟩ := List.forall_mem_append.mp hw
    exact (hT.expr h hvalue hsv (List.forall_mem_cons.mp hwv).2).append (hT.expr h hobject hso hwo)
  | .this _ keyword, _ => by
    rintro ⟨id', keyword', d, rfl, hk, hkeyword⟩ hs hw
    unfold Static.expr
    rw [h.inClass]
    cases st.inClass with
    | outside => exact .broken _ _ _
    | base => exact hT.bind h hk hkeyword hs (hw keyword List.mem_cons_self)
    | derived => exact hT.bind h hk hkeyword hs (hw keyword List.mem_cons_self)
  | .super _ keyword _, _ => by
    rintro ⟨id', keyword', method', d, rfl, hk, hkeyword, -⟩ hs hw
    unfold Static.expr
    rw [h.inClass]
    cases st.inClass with
    | outside => exact .broken _ _ _
    | base => exact .broken _ _ _
    | derived => exact hT.bind h hk hkeyword hs (hw keyword List.mem_cons_self)

theorem exprs (hT : T.Lawful move) (h : T.Places flags st st') : {es es' : List Expr} →
    Expr.AllTwins T x flags es es' → T.Tracks (st.exprsSites os es) → T.Covers (Expr.allWords es) →
      Found move (st.exprs es) (st'.exprs es')
  | [], _ => by
    rintro rfl - -
    exact .none
  | _ :: _, _ => by
    rintro ⟨e', es', rfl, he, hes⟩ hs hw
    obtain ⟨hse, hses⟩ := List.forall_mem_append.mp hs
    obtain ⟨hwe, hwes⟩ := List.forall_mem_append.mp hw
    exact (hT.expr h he hse hwe).append (hT.exprs h hes hses hwes)

end

theorem expr? (hT : T.Lawful move) (h : T.Places flags st st') {e e' : Option Expr}
    (he : Expr.Twins? T x flags e e') (hs : T.Tracks (st.exprSites? os e))
    (hw : T.Covers (Expr.words? e)) : Found move (st.expr? e) (st'.expr? e') := by
  cases e with
  | none =>
    obtain rfl := he
    exact .none
  | some e =>
    obtain ⟨e', rfl, he⟩ := he
    exact hT.expr h he hs hw

/-- The superclass of a class that keeps its name. -/
theorem superclass (hT : T.Lawful move) (h : T.Places flags st st') {t t' : Token}
    (ht : t'.lexeme = t.lexeme) (hrenames : T.renames t.lexeme) {e e' : Option Expr}
    (he : Expr.Twins? T x flags e e')
    (hs : T.Tracks ({ st with inClass := .derived }.exprSites? os e))
    (hw : T.Covers (Expr.words? e)) : Found move (st.superclass t e) (st'.superclass t' e') := by
  cases e with
  | none =>
    obtain rfl := he
    exact .none
  | some e =>
    obtain ⟨e', rfl, he⟩ := he
    refine .append ?_ (hT.expr (h.withClass .derived) he hs hw)
    rcases he.var_or_not with ⟨id, id', u, u', flag, rfl, rfl, hu⟩ | ⟨hne, hne'⟩
    · refine .brokenIf (fun hb => ?_) _ _ _
      rw [decide_eq_false_iff_not] at hb ⊢
      rw [ht, hu.lexeme]
      cases flag with
      | false => exact hb
      | true =>
        -- the class would have a name that is not in use
        rcases hT.fresh u.lexeme (hw u List.mem_cons_self) with heq | hfree
        · exact fun hc => hb (heq ▸ hc)
        · exact fun hc => hfree (Eq.mpr (congrArg T.renames hc) hrenames)
    · split
      · exact absurd rfl (hne _ _)
      · exact .none

end

mutual

theorem stmt (hT : T.Lawful move) {x : Extent} {flags : List Bool} {st st' : Static}
    {os : List Origin} (h : T.Places flags st st') : {s s' : Stmt} → s.Twins T x flags s' →
      T.Tracks (st.stmtSites os s) → T.Covers s.words →
        T.Places flags (st.stmt s).1 (st'.stmt s').1 ∧ Found move (st.stmt s).2 (st'.stmt s').2
  | .expression _, _ => by
    rintro ⟨e', rfl, he⟩ hs hw
    exact ⟨h, hT.expr h he hs hw⟩
  | .print _, _ => by
    rintro ⟨e', rfl, he⟩ hs hw
    exact ⟨h, hT.expr h he hs hw⟩
  | .var _ _, _ => by
    rintro ⟨name', initializer', rfl, hname, hinitializer⟩ hs hw
    obtain ⟨hrenames, hwi⟩ := List.forall_mem_cons.mp hw
    exact ⟨h.declared hname hrenames, (h.redeclaration hname).append
      (hT.expr? (h.declare hname hrenames) hinitializer hs hwi)⟩
  | .block _, _ => by
    rintro ⟨flag, body', rfl, hbody⟩ hs hw
    exact ⟨h, (hT.stmts (h.enter flag) hbody hs hw).2⟩
  | .if_ _ _ none, _ => by
    rintro ⟨condition', thenBranch', rfl, hcondition, hthen⟩ hs hw
    obtain ⟨hsc, hst⟩ := List.forall_mem_append.mp hs
    obtain ⟨hwc, hwt⟩ := List.forall_mem_append.mp hw
    obtain ⟨hplaces, hfound⟩ := hT.stmt h hthen hst hwt
    exact ⟨hplaces, (hT.expr h hcondition hsc hwc).append hfound⟩
  | .if_ _ _ (some _), _ => by
    rintro ⟨condition', thenBranch', elseBranch', rfl, hcondition, hthen, helse⟩ hs hw
    obtain ⟨hsc, hsb⟩ := List.forall_mem_append.mp hs
    obtain ⟨hst, hse⟩ := List.forall_mem_append.mp hsb
    obtain ⟨hwc, hwb⟩ := List.forall_mem_append.mp hw
    obtain ⟨hwt, hwe⟩ := List.forall_mem_append.mp hwb
    obtain ⟨hplaces, hfound⟩ := hT.stmt h hthen hst hwt
    obtain ⟨hplaces₂, hfound₂⟩ := hT.stmt hplaces helse hse hwe
    exact ⟨hplaces₂, ((hT.expr h hcondition hsc hwc).append hfound).append hfound₂⟩
  | .while_ _ _, _ => by
    rintro ⟨condition', body', rfl, hcondition, hbody⟩ hs hw
    obtain ⟨hsc, hsb⟩ := List.forall_mem_append.mp hs
    obtain ⟨hwc, hwb⟩ := List.forall_mem_append.mp hw
    obtain ⟨hplaces, hfound⟩ := hT.stmt h hbody hsb hwb
    exact ⟨hplaces, (hT.expr h hcondition hsc hwc).append hfound⟩
  | .fun_ ⟨_, _, _⟩, _ => by
    rintro ⟨f', rfl, hname, hf⟩ hs hw
    have hinside := h.declared hname (hw _ List.mem_cons_self)
    exact ⟨hinside, (h.redeclaration hname).append (hT.function hinside .function hf hs hw)⟩
  | .return_ keyword _, _ => by
    rintro ⟨-, keyword', value', rfl, -, hvalue⟩ hs hw
    refine ⟨h, (h.returned keyword keyword' hvalue).append ?_⟩
    exact hT.expr? h hvalue hs (List.forall_mem_cons.mp hw).2
  | .class_ _ superclass _, _ => by
    rintro ⟨name', superclass', methods', rfl, ⟨hname, hlexeme⟩, hsuperclass, hmethods⟩ hs hw
    obtain ⟨hss, hsm⟩ := List.forall_mem_append.mp hs
    obtain ⟨hrenames, hws⟩ := List.forall_mem_cons.mp hw
    obtain ⟨hws, hwm⟩ := List.forall_mem_append.mp hws
    have hinside := h.declared hname hrenames
    have hplace := hinside.methodsPlace hT superclass.isSome
    refine ⟨hinside, ((h.redeclaration hname).append ?_).append ?_⟩
    · exact hT.superclass hinside hlexeme hrenames hsuperclass hss hws
    · rw [hsuperclass.isSome_eq]
      exact hT.methods hplace hmethods hsm hwm
termination_by structural s => s

theorem stmts (hT : T.Lawful move) {x : Extent} {flags : List Bool} {st st' : Static}
    {os : List Origin} (h : T.Places flags st st') : {ss ss' : List Stmt} →
      Stmt.AllTwins T x flags ss ss' → T.Tracks (st.stmtsSites os ss) →
        T.Covers (Stmt.allWords ss) → T.Places flags (st.stmts ss).1 (st'.stmts ss').1 ∧
          Found move (st.stmts ss).2 (st'.stmts ss').2
  | [], _ => by
    rintro rfl - -
    exact ⟨h, .none⟩
  | _ :: _, _ => by
    rintro ⟨s', ss', rfl, hs, hss⟩ htracks hw
    obtain ⟨hts, htss⟩ := List.forall_mem_append.mp htracks
    obtain ⟨hws, hwss⟩ := List.forall_mem_append.mp hw
    obtain ⟨hplaces, hfound⟩ := hT.stmt h hs hts hws
    obtain ⟨hplaces₂, hfound₂⟩ := hT.stmts hplaces hss htss hwss
    exact ⟨hplaces₂, hfound.append hfound₂⟩
termination_by structural ss => ss

theorem function (hT : T.Lawful move) {flags : List Bool} {st st' : Static} {os : List Origin}
    (h : T.Places flags st st') (context : FunctionContext) : {f f' : FunDeclOf Stmt} →
      Stmt.FunTwins T flags f f' → T.Tracks (st.funSites context os f) →
        T.Covers (Stmt.funWords f) → Found move (st.funDecl context f) (st'.funDecl context f')
  | ⟨_, _, _⟩, _ => by
    rintro ⟨flag, name', params', body', rfl, -, hparams, hbody⟩ hs hw
    obtain ⟨hwp, hwb⟩ := List.forall_mem_append.mp (List.forall_mem_cons.mp hw).2
    have hinside := (h.withFunction context).enter flag
    obtain ⟨hplaces, hfound⟩ := Places.params hparams hwp hinside
    exact hfound.append (hT.stmts hplaces hbody hs hwb).2
termination_by structural f => f

theorem methods (hT : T.Lawful move) {flags : List Bool} {st st' : Static} {os : List Origin}
    (h : T.Places (false :: flags) st st') : {fs fs' : List (FunDeclOf Stmt)} →
      Stmt.MethodsTwins T flags fs fs' → T.Tracks (st.methodsSites os fs) →
        T.Covers (Stmt.methodWords fs) → Found move (st.methods fs) (st'.methods fs')
  | [], _ => by
    rintro rfl - -
    exact .none
  | _ :: _, _ => by
    rintro ⟨f', fs', rfl, hf, hfs⟩ hs hw
    obtain ⟨hsf, hsfs⟩ := List.forall_mem_append.mp hs
    obtain ⟨hwf, hwfs⟩ := List.forall_mem_append.mp hw
    unfold Static.methods
    rw [hf.methodContext_eq]
    exact (hT.function h _ hf hsf hwf).append (hT.methods h hfs hsfs hwfs)
termination_by structural fs => fs

end

/-- What is found in a unit. -/
theorem findings (hT : T.Lawful move) {x : Extent} {flags : List Bool} {unit unit' : List Stmt}
    (h : Stmt.AllTwins T x flags unit unit') (hs : T.Tracks (sites unit))
    (hw : T.Covers (Stmt.allWords unit)) : Found move (findings unit) (findings unit') :=
  (hT.stmts ⟨.top flags, rfl, rfl⟩ h hs hw).2

end Lawful

end Twin

end LoxWalk
