import LoxWalk.Proofs.Loops.Padding
import LoxWalk.Proofs.Loops.Places

/-!
# References in places with extra scopes

An extra scope declares nothing, so it hides no declaration: a reference inside it is bound to the
same scope as before, which is further away (`Padding.findIdx?_widen`).  Code whose references have
the distances of a place with extra scopes, while those of its copy have the distances of the place
without them, is padded (`Stmt.padded_of_recorded`).
-/

namespace LoxWalk

open Padding

/-! ## Extra scopes around a place -/

namespace Padding

/-- The names that are declared in the scopes around a place, with extra scopes in between. -/
def widen : List Bool → List (List String) → List (List String)
  | [], scopes => scopes
  | true :: π, scopes => [] :: widen π scopes
  | false :: _, [] => []
  | false :: π, names :: scopes => names :: widen π scopes

/-- The innermost scope that declares a name stays the same. -/
theorem findIdx?_widen (π : List Bool) (scopes : List (List String)) (x : String) :
    (widen π scopes).findIdx? (x ∈ ·) = (scopes.findIdx? (x ∈ ·)).map (distance π) := by
  induction π generalizing scopes with
  | nil => exact Option.map_id'.symm
  | cons flag π ih =>
    cases flag with
    | true =>
      rw [widen, List.findIdx?_cons, ih]
      simp only [List.not_mem_nil, decide_false, Bool.false_eq_true, if_false, Option.map_map]
      rfl
    | false =>
      cases scopes with
      | nil => rfl
      | cons names scopes =>
        rw [widen, List.findIdx?_cons, List.findIdx?_cons, ih]
        by_cases hx : x ∈ names
        · simp only [hx, decide_true, if_true]
          rfl
        · simp only [hx, decide_false, Bool.false_eq_true, if_false, Option.map_map]
          rfl

end Padding

namespace Surroundings

/-- A place with extra scopes around it. -/
def widen (π : List Bool) (p : Surroundings) : Surroundings :=
  { p with scopes := Padding.widen π p.scopes }

variable {π : List Bool} {p : Surroundings}

theorem widen_behind (hπ : π.head? ≠ some true) (p : Surroundings) (names : List String) :
    (p.widen π).behind names = (p.behind names).widen π := by
  obtain ⟨scopes, inClass⟩ := p
  cases π with
  | nil => rfl
  | cons flag π =>
    cases flag with
    | true => exact (hπ rfl).elim
    | false => cases scopes <;> rfl

theorem widen_methods (π : List Bool) (p : Surroundings) (hasSuperclass : Bool) :
    (p.widen π).methods hasSuperclass =
      (p.methods hasSuperclass).widen (false :: if hasSuperclass then false :: π else π) := by
  cases hasSuperclass <;> rfl

/-- Between the scope of a superclass and the next scope inside it there is no extra scope. -/
def SuperInside (π : List Bool) (p : Surroundings) : Prop :=
  ∀ d, p.scopes.findIdx? (superName ∈ ·) = some d →
    1 ≤ d ∧ distance π d = distance π (d - 1) + 1

namespace SuperInside

theorem enter (h : p.SuperInside π) {names : List String} (hnames : superName ∉ names) :
    (p.enter names).SuperInside (false :: π) := by
  intro d hd
  rw [Surroundings.enter, List.findIdx?_cons, decide_eq_false hnames,
    if_neg Bool.false_ne_true] at hd
  obtain ⟨d', hd', rfl⟩ := Option.map_eq_some_iff.mp hd
  obtain ⟨hpos, hdistance⟩ := h d' hd'
  obtain ⟨e, rfl⟩ : ∃ e, d' = e + 1 := ⟨d' - 1, by omega⟩
  exact ⟨Nat.succ_pos _, congrArg (· + 1) hdistance⟩

/-- An extra scope right inside. -/
theorem extra (h : p.SuperInside π) : p.SuperInside (true :: π) := by
  intro d hd
  obtain ⟨hpos, hdistance⟩ := h d hd
  exact ⟨hpos, congrArg (· + 1) hdistance⟩

theorem behind (h : p.SuperInside π) {names : List String} (hnames : superName ∉ names) :
    (p.behind names).SuperInside π := by
  obtain ⟨scopes, inClass⟩ := p
  cases scopes with
  | nil => exact h
  | cons scope outer =>
    have hiff : (superName ∈ scope ++ names) = (superName ∈ scope) := by
      simp [List.mem_append, hnames]
    intro d hd
    refine h d ?_
    rw [List.findIdx?_cons]
    rw [Surroundings.behind, List.findIdx?_cons] at hd
    simpa only [hiff] using hd

theorem methods (h : p.SuperInside π) (hasSuperclass : Bool) :
    (p.methods hasSuperclass).SuperInside
      (false :: if hasSuperclass then false :: π else π) := by
  have hne : superName ∉ [thisName] := by decide
  cases hasSuperclass with
  | false => exact enter (p := { p with inClass := some false }) h hne
  | true =>
    intro d hd
    have hone : ((p.methods true).scopes).findIdx? (superName ∈ ·) = some 1 := by
      simp [Surroundings.methods, Surroundings.enter, List.findIdx?_cons,
        show superName ≠ thisName by decide]
    obtain rfl := Option.some.inj (hone.symm.trans hd)
    exact ⟨Nat.le_refl _, rfl⟩

end SuperInside

end Surroundings

/-! ## Code -/

/-- The distance of the copy of a reference. -/
def DistanceTable.ofCopy? (t : DistanceTable) (k : Nat) (r : NodeId) : Option Nat :=
  t.distance? (r.shift k)

/-- A table has of some references what is to be recorded of them. -/
def Recorded (distance? : NodeId → Option Nat) (rs : List Reference) : Prop :=
  ∀ r ∈ rs, distance? r.id = r.recorded?.map Prod.snd

theorem recorded_append {distance? : NodeId → Option Nat} {rs rs' : List Reference} :
    Recorded distance? (rs ++ rs') ↔ Recorded distance? rs ∧ Recorded distance? rs' :=
  List.forall_mem_append

section

variable {s : Setting} {k : Nat} {π : List Bool} {p : Surroundings}

/-- A reference and its copy. -/
theorem known_of_recorded {r : NodeId} {referent : Referent} {token : Token}
    (h : Recorded s.distances.distance? [⟨r, referent, token, p.widen π⟩])
    (hcopy : Recorded (s.distances.ofCopy? k) [⟨r, referent, token, p⟩]) : Known s k π r := by
  have hr := h _ (List.mem_singleton_self _)
  have hr' := hcopy _ (List.mem_singleton_self _)
  unfold DistanceTable.ofCopy? at hr'
  have hfault : (⟨r, referent, token, p.widen π⟩ : Reference).fault? =
      (⟨r, referent, token, p⟩ : Reference).fault? := rfl
  rw [Known, hr, hr', Reference.recorded?, Reference.recorded?, hfault]
  split
  · dsimp only
    rw [Surroundings.widen, findIdx?_widen]
    cases p.scopes.findIdx? (token.lexeme ∈ ·) <;> rfl
  · rfl

mutual

theorem Expr.padded_of_recorded (hp : p.SuperInside π) : (e : Expr) → e.WellFormed →
    Recorded s.distances.distance? (e.references (p.widen π)) →
      Recorded (s.distances.ofCopy? k) (e.references p) → e.Padded s k π
  | .literal _, _, _, _ => trivial
  | .group inner, hw, h, hcopy => inner.padded_of_recorded hp hw h hcopy
  | .unary _ operand, hw, h, hcopy => operand.padded_of_recorded hp hw h hcopy
  | .binary left _ right, hw, h, hcopy => by
    rw [references, recorded_append] at h hcopy
    exact ⟨left.padded_of_recorded hp hw.1 h.1 hcopy.1,
      right.padded_of_recorded hp hw.2 h.2 hcopy.2⟩
  | .logical left _ right, hw, h, hcopy => by
    rw [references, recorded_append] at h hcopy
    exact ⟨left.padded_of_recorded hp hw.1 h.1 hcopy.1,
      right.padded_of_recorded hp hw.2 h.2 hcopy.2⟩
  | .var _ _, _, h, hcopy => known_of_recorded h hcopy
  | .assign _ _ value, hw, h, hcopy => by
    rw [references, recorded_append] at h hcopy
    exact ⟨value.padded_of_recorded hp hw.2 h.1 hcopy.1, known_of_recorded h.2 hcopy.2⟩
  | .call callee _ arguments, hw, h, hcopy => by
    rw [references, recorded_append] at h hcopy
    exact ⟨callee.padded_of_recorded hp hw.1 h.1 hcopy.1,
      Expr.allPadded_of_recorded hp arguments hw.2 h.2 hcopy.2⟩
  | .get object _, hw, h, hcopy => object.padded_of_recorded hp hw h hcopy
  | .set object _ value, hw, h, hcopy => by
    rw [references, recorded_append] at h hcopy
    exact ⟨object.padded_of_recorded hp hw.1 h.2 hcopy.2,
      value.padded_of_recorded hp hw.2 h.1 hcopy.1⟩
  | .this _ _, _, h, hcopy => known_of_recorded h hcopy
  | .super r keyword _, hw, h, hcopy => by
    refine ⟨known_of_recorded h hcopy, fun d hd => ?_⟩
    have hr := hcopy _ (List.mem_singleton_self _)
    unfold DistanceTable.ofCopy? at hr
    rw [hr, Reference.map_snd_recorded?_eq_some_iff,
      Reference.depth_iff, show keyword.lexeme = superName from hw] at hd
    rw [(hp d hd.2).2, Nat.add_sub_cancel]

theorem Expr.allPadded_of_recorded (hp : p.SuperInside π) : (es : List Expr) →
    Expr.AllWellFormed es → Recorded s.distances.distance? (Expr.allReferences (p.widen π) es) →
      Recorded (s.distances.ofCopy? k) (Expr.allReferences p es) → Expr.AllPadded s k π es
  | [], _, _, _ => trivial
  | e :: es, hw, h, hcopy => by
    rw [allReferences, recorded_append] at h hcopy
    exact ⟨e.padded_of_recorded hp hw.1 h.1 hcopy.1,
      Expr.allPadded_of_recorded hp es hw.2 h.2 hcopy.2⟩

end

theorem Expr.padded?_of_recorded (hp : p.SuperInside π) (e : Option Expr)
    (hw : Expr.WellFormed? e) (h : Recorded s.distances.distance? (Expr.references? (p.widen π) e))
    (hcopy : Recorded (s.distances.ofCopy? k) (Expr.references? p e)) : Expr.Padded? s k π e := by
  cases e with
  | none => trivial
  | some e => exact e.padded_of_recorded hp hw h hcopy

/-- A superclass is a name, which refers to no other superclass. -/
theorem Expr.superclass_padded_of_recorded (e : Option Expr) (hw : Expr.IsSuperclass? e)
    (h : Recorded s.distances.distance? (Expr.references? (p.widen π) e))
    (hcopy : Recorded (s.distances.ofCopy? k) (Expr.references? p e)) : Expr.Padded? s k π e := by
  cases e with
  | none => trivial
  | some e =>
    obtain ⟨r, name, rfl, -⟩ := hw
    exact known_of_recorded h hcopy

mutual

/-- A statement is padded whose references have the distances of a place with extra scopes, while
those of its copy have the distances of the place without them.  Where it declares a name the
innermost scope is not extra. -/
theorem Stmt.padded_of_recorded : (t : Stmt) → {π : List Bool} → {p : Surroundings} →
    p.SuperInside π → t.WellFormed → t.declares = false ∨ π.head? ≠ some true →
      Recorded s.distances.distance? (t.references (p.widen π)) →
        Recorded (s.distances.ofCopy? k) (t.references p) → t.Padded s k π
  | .expression e, _, _, hp, hw, _, h, hcopy => e.padded_of_recorded hp hw h hcopy
  | .print e, _, _, hp, hw, _, h, hcopy => e.padded_of_recorded hp hw h hcopy
  | .var name initializer, _, p, hp, hw, hd, h, hcopy => by
    -- the initializer stands behind the declaration of its own name
    have hπ := hd.resolve_left Bool.noConfusion
    have hname := Stmt.superName_not_mem_names (.var name initializer) hw
    rw [references, Surroundings.widen_behind hπ] at h
    exact ⟨hπ, Expr.padded?_of_recorded (hp.behind hname) initializer hw.2 h hcopy⟩
  | .block body, _, _, hp, hw, _, h, hcopy =>
    Stmt.allPadded_of_recorded body (hp.enter List.not_mem_nil) hw (by simp) h hcopy
  | .if_ condition thenBranch none, _, _, hp, hw, _, h, hcopy => by
    rw [references, recorded_append] at h hcopy
    exact ⟨condition.padded_of_recorded hp hw.1 h.1 hcopy.1,
      thenBranch.padded_of_recorded hp hw.2.1 (.inl hw.2.2) h.2 hcopy.2⟩
  | .if_ condition thenBranch (some elseBranch), _, _, hp, hw, _, h, hcopy => by
    -- a branch declares nothing, so the other one stands in the same place
    obtain ⟨hcondition, ⟨hthen, hthen'⟩, helse, helse'⟩ := hw
    rw [references, recorded_append, recorded_append, thenBranch.names_eq_nil hthen hthen',
      Surroundings.behind_nil] at h hcopy
    exact ⟨condition.padded_of_recorded hp hcondition h.1.1 hcopy.1.1,
      thenBranch.padded_of_recorded hp hthen (.inl hthen') h.1.2 hcopy.1.2,
      elseBranch.padded_of_recorded hp helse (.inl helse') h.2 hcopy.2⟩
  | .while_ condition body, _, _, hp, hw, _, h, hcopy => by
    rw [references, recorded_append] at h hcopy
    exact ⟨condition.padded_of_recorded hp hw.1 h.1 hcopy.1,
      body.padded_of_recorded hp hw.2.1 (.inl hw.2.2) h.2 hcopy.2⟩
  | .fun_ f, _, p, hp, hw, hd, h, hcopy => by
    have hπ := hd.resolve_left Bool.noConfusion
    have hname := Stmt.superName_not_mem_names (.fun_ f) hw
    rw [references, Surroundings.widen_behind hπ] at h
    exact ⟨hπ, Stmt.funPadded_of_recorded f (hp.behind hname) hw.2 h hcopy⟩
  | .return_ _ value, _, _, hp, hw, _, h, hcopy => Expr.padded?_of_recorded hp value hw h hcopy
  | .class_ name superclass methods, _, p, hp, hw, hd, h, hcopy => by
    have hπ := hd.resolve_left Bool.noConfusion
    have hname := Stmt.superName_not_mem_names (.class_ name superclass methods) hw
    rw [references, Surroundings.widen_behind hπ, Surroundings.widen_methods, recorded_append] at h
    rw [references, recorded_append] at hcopy
    exact ⟨hπ,
      Expr.superclass_padded_of_recorded (p := (p.behind [name.lexeme]).superclass) superclass
        hw.2.1 h.1 hcopy.1,
      Stmt.methodsPadded_of_recorded methods ((hp.behind hname).methods _) hw.2.2 h.2 hcopy.2⟩

theorem Stmt.allPadded_of_recorded : (ts : List Stmt) → {π : List Bool} → {p : Surroundings} →
    p.SuperInside π → Stmt.AllWellFormed ts → π.head? ≠ some true →
      Recorded s.distances.distance? (Stmt.allReferences (p.widen π) ts) →
        Recorded (s.distances.ofCopy? k) (Stmt.allReferences p ts) → Stmt.AllPadded s k π ts
  | [], _, _, _, _, _, _, _ => trivial
  | t :: ts, _, p, hp, hw, hπ, h, hcopy => by
    rw [allReferences, recorded_append, Surroundings.widen_behind hπ] at h
    rw [allReferences, recorded_append] at hcopy
    exact ⟨t.padded_of_recorded hp hw.1 (.inr hπ) h.1 hcopy.1,
      Stmt.allPadded_of_recorded ts (hp.behind (t.superName_not_mem_names hw.1)) hw.2 hπ h.2
        hcopy.2⟩

theorem Stmt.funPadded_of_recorded : (f : FunDeclOf Stmt) → {π : List Bool} → {p : Surroundings} →
    p.SuperInside π → Stmt.FunWellFormed f →
      Recorded s.distances.distance? (Stmt.funReferences (p.widen π) f) →
        Recorded (s.distances.ofCopy? k) (Stmt.funReferences p f) → Stmt.FunPadded s k π f
  | ⟨_, params, body⟩, _, _, hp, hw, h, hcopy => by
    have hnames : superName ∉ params.map Token.lexeme := by
      intro hmem
      obtain ⟨t, ht, hlexeme⟩ := List.mem_map.mp hmem
      exact (hw.1 t ht).ne.2 hlexeme
    exact Stmt.allPadded_of_recorded body (hp.enter hnames) hw.2 (by simp) h hcopy

theorem Stmt.methodsPadded_of_recorded : (fs : List (FunDeclOf Stmt)) → {π : List Bool} →
    {p : Surroundings} → p.SuperInside (false :: π) → Stmt.MethodsWellFormed fs →
      Recorded s.distances.distance? (Stmt.methodReferences (p.widen (false :: π)) fs) →
        Recorded (s.distances.ofCopy? k) (Stmt.methodReferences p fs) → Stmt.MethodsPadded s k π fs
  | [], _, _, _, _, _, _ => trivial
  | f :: fs, _, _, hp, hw, h, hcopy => by
    rw [methodReferences, recorded_append] at h hcopy
    exact ⟨Stmt.funPadded_of_recorded f hp hw.1 h.1 hcopy.1,
      Stmt.methodsPadded_of_recorded fs hp hw.2 h.2 hcopy.2⟩

end

end

end LoxWalk
