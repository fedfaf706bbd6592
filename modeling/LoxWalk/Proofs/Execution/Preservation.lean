import LoxWalk.Proofs.Execution.Outcomes

/-!
# Every moment of an execution is good

A moment is good when its store is good and its task fits the current scope.  `GoodMoment.next` says
that the next task of a good moment is good again, and `preserves` that carrying out a good task
leaves a good machine and good values behind, however it ends.  Each needs the other for less fuel:
what is next may come behind tasks that are finished before.
-/

namespace LoxWalk

open Exec

/-- The place behind a statement that fits is that behind the declaration of its name. -/
theorem Stmt.Fits.place_eq {known : Site → Prop} {pending : String → NodeId → Prop} {st : Static}
    {os : List Origin} {s : Stmt} (h : s.Fits known pending st os) :
    (st.stmt s).1 = match s.declaredName? with
      | some name => st.declared name
      | none => st := by
  cases s with
  | if_ _ thenBranch elseBranch =>
    cases elseBranch with
    | none => exact h.2.2
    | some elseBranch =>
      have hthen := h.2.1.2
      have helse := h.2.2.2
      simp only [Static.stmt, hthen, helse, declaredName?]
  | while_ => exact h.2.2
  | _ => rfl

/-- A condition that fits and the branch behind it. -/
theorem Stmt.Fits.thenBranch {known : Site → Prop} {pending : String → NodeId → Prop}
    {st : Static} {os : List Origin} {condition : Expr} {thenBranch : Stmt}
    {elseBranch : Option Stmt}
    (h : (Stmt.if_ condition thenBranch elseBranch).Fits known pending st os) :
    condition.Fits known pending st os ∧ thenBranch.Fits known pending st os := by
  cases elseBranch with
  | none => exact ⟨h.1, h.2.1⟩
  | some => exact ⟨h.1, h.2.1.1⟩

/-- The body of a function that fits. -/
theorem Stmt.FunFits.body {known : Site → Prop} {pending : String → NodeId → Prop} {st : Static}
    {context : FunctionContext} {os : List Origin} {f : FunDecl}
    (h : Stmt.FunFits known pending st context os f) :
    Stmt.AllFit known pending (st.body context f) (.call f :: os) f.body := by
  cases f
  exact h.2

/-- A method of a class whose methods fit. -/
theorem Stmt.MethodsFit.of_mem {known : Site → Prop} {pending : String → NodeId → Prop}
    {st : Static} {os : List Origin} {fs : List FunDecl}
    (h : Stmt.MethodsFit known pending st os fs) {f : FunDecl} (hf : f ∈ fs) :
    Stmt.FunFits known pending st (Static.methodContext f) (.this f :: os) f := by
  induction fs with
  | nil => cases hf
  | cons g fs ih =>
    rcases List.mem_cons.mp hf with rfl | hf
    · exact h.1
    · exact ih h.2 hf

theorem Machine.evolves_withRecord (m : Machine) : m.store.Evolves m.withRecord.store :=
  .addRecord _

theorem Machine.freshRecord_lt_withRecord (m : Machine) :
    m.store.freshRecord.index < m.withRecord.store.records.size := by
  simp [withRecord, Store.addRecord, Store.freshRecord]

namespace World

variable (W : World)

/-! ## Good moments -/

/-- Code at the place `st` runs in the current scope. -/
def At (m : Machine) (st : Static) (os : List Origin) : Prop :=
  W.Runs m.store m.scope st os

/-- A task fits the machine. -/
def GoodTask (m : Machine) : Task → Prop
  | .evaluate e => ∃ st os, W.At m st os ∧ e.Fits W.known W.pending st os
  | .evaluateAll es => ∃ st os, W.At m st os ∧ Expr.AllFit W.known W.pending st os es
  | .assign id name v =>
    ∃ st os, W.At m st os ∧ name.IsName ∧ W.GoodValue m.store v ∧
      (W.known (st.site os id name.lexeme) ∨
        st.scopes ≠ [] ∧ W.known ⟨id, os, some 0, st.extent⟩ ∧ W.pending name.lexeme id)
  | .bind f i => W.GoodMethod m.store f ∧ W.GoodInstance m.store i
  | .call callee _ arguments =>
    W.GoodValue m.store callee ∧ ∀ v ∈ arguments, W.GoodValue m.store v
  | .enter callee _ arguments =>
    callee.arity? = some arguments.length ∧ W.GoodValue m.store callee ∧
      ∀ v ∈ arguments, W.GoodValue m.store v
  | .run f arguments =>
    f.arity = arguments.length ∧ W.GoodFunction m.store f ∧ ∀ v ∈ arguments, W.GoodValue m.store v
  | .execute s => ∃ st os, W.At m st os ∧ s.Fits W.known W.pending st os
  | .executeAll ss => ∃ st os, W.At m st os ∧ Stmt.AllFit W.known W.pending st os ss
  | .repeatWhile condition body =>
    ∃ st os, W.At m st os ∧ condition.Fits W.known W.pending st os ∧
      body.Fits W.known W.pending st os
  | .declareClass name superclass methods =>
    ∃ st os, W.At m st os ∧ name.IsName ∧ (∀ c ∈ superclass, W.GoodClass m.store c) ∧
      Stmt.MethodsFit W.known W.pending ((st.declared name).methodsPlace superclass.isSome)
        (Static.methodOrigins os superclass.isSome methods) methods

/-- The store is good, and the task fits. -/
def GoodMoment (μ : Moment) : Prop :=
  W.GoodStore μ.machine.store ∧ W.GoodTask μ.machine μ.task

/-- Every frame that is opened during a moment counts as opened, and as given what it is given; every
class that is declared counts as declared. -/
structure Covers (s : Setting) (μ : Moment) : Prop where
  opened : ∀ ν o, During s μ ν → ν.opens = some o → W.made ν.machine.store.freshFrame o
  filled : ∀ ν o v, During s μ ν → ν.gives = some (o, v) →
    W.given ν.machine.store.freshFrame o v
  classes : ∀ ν c methods, During s μ ν → ν.Declares c methods → W.declared c

/-- What carrying out a task leaves behind. -/
def Leaves (s : Setting) (μ : Moment) : Prop :=
  match μ.task with
  | .evaluate e =>
    W.Yields μ.machine (evaluate s μ.fuel e) μ.machine fun v m => W.GoodValue m.store v
  | .evaluateAll es =>
    W.Yields μ.machine (evaluateAll s μ.fuel es) μ.machine fun vs m =>
      ∀ v ∈ vs, W.GoodValue m.store v
  | .assign id name v =>
    W.Yields μ.machine (assignVariable s id name v) μ.machine fun _ _ => True
  | .bind f i =>
    W.Yields μ.machine (bindMethod f i) μ.machine fun g m => W.GoodFunction m.store g
  | .call callee paren arguments =>
    W.Yields μ.machine (call s μ.fuel callee paren arguments) μ.machine fun v m =>
      W.GoodValue m.store v
  | .enter callee paren arguments =>
    W.Yields μ.machine (enter s μ.fuel callee paren arguments) μ.machine fun v m =>
      W.GoodValue m.store v
  | .run f arguments =>
    W.Yields μ.machine (run s μ.fuel f arguments) μ.machine fun v m => W.GoodValue m.store v
  | .execute t =>
    W.Yields μ.machine (execute s μ.fuel t) μ.machine fun _ m =>
      ∀ name ∈ t.declaredName?, m.store.declares m.scope name.lexeme = true
  | .executeAll ts => W.Yields μ.machine (executeAll s μ.fuel ts) μ.machine fun _ _ => True
  | .repeatWhile condition body =>
    W.Yields μ.machine (repeatWhile s μ.fuel condition body) μ.machine fun _ _ => True
  | .declareClass name superclass methods =>
    W.Yields μ.machine (declareClass name superclass methods) μ.machine fun _ m =>
      m.store.declares m.scope name.lexeme = true

variable {W} {s : Setting} {m m' : Machine} {st : Static} {os : List Origin}

/-! ### Places -/

theorem Kept.at (hk : W.Kept m m') (h : W.At m st os) : W.At m' st os := by
  rw [At, Runs, hk.scope]
  exact Chain.mono hk.store h

theorem Runs.declared {σ : Store} {scope : Scope} (h : W.Runs σ scope st os) {name : Token}
    (hname : σ.declares scope name.lexeme = true) : W.Runs σ scope (st.declared name) os := by
  unfold Runs at h ⊢
  cases hs : st.scopes with
  | nil => rwa [Static.scopes_declared_nil hs]
  | cons names outer =>
    obtain ⟨names', hs', hnames'⟩ := Static.scopes_declared_cons hs name
    rw [hs] at h
    rw [hs']
    cases h with
    | inside hlt hmade hholds hnames houter =>
      refine .inside hlt hmade hholds (fun x hx => ?_) houter
      rw [hnames', Bool.or_eq_true, decide_eq_true_eq] at hx
      rcases hx with rfl | hx
      · exact hname
      · exact hnames x hx

/-- The place behind a statement. -/
theorem At.stmt {t : Stmt} (ht : t.Fits W.known W.pending st os) (h : W.At m st os)
    (hname : ∀ name ∈ t.declaredName?, m.store.declares m.scope name.lexeme = true) :
    W.At m (st.stmt t).1 os := by
  rw [ht.place_eq]
  cases hd : t.declaredName? with
  | none => exact h
  | some name => exact Runs.declared h (hname name hd)

/-- The inside of a new scope. -/
theorem At.opened {outer : Scope} {b : Bindings} {names : NameMap Bool} {o : Origin}
    {scopes : List (NameMap Bool)} (h : W.Chain m.store outer scopes os)
    (hmade : W.made m.store.freshFrame o) (hcode : (∃ body, o = .block body) ∨ ∃ f, o = .call f)
    (hst : st.scopes = names :: scopes)
    (hnames : ∀ x, names.contains x = true → b.contains x = true) :
    W.At (m.opened outer b) st (o :: os) := by
  have hholds : W.Holds (m.store.addFrame b) m.store.freshFrame o := by
    rcases hcode with ⟨body, rfl⟩ | ⟨f, rfl⟩ <;> trivial
  rw [At, Runs, hst]
  exact h.addFrame hmade hholds hnames

/-- The scope around the methods of a class with a superclass. -/
theorem Runs.inSuper {σ : Store} {scope : Scope} (h : W.Runs σ scope st os)
    {methods : List FunDecl} (hmade : W.made σ.freshFrame (.super methods)) {c : Class}
    (hgiven : W.given σ.freshFrame (.super methods) (.class_ c)) :
    W.Chain (σ.addFrame (NameMap.empty.insert superName (.class_ c)))
      (.inside σ.freshFrame scope) (NameMap.empty.insertAll ([superName].map (·, true)) :: st.scopes)
      (.super methods :: os) := by
  refine Chain.addFrame h hmade ⟨c, ?_, hgiven⟩ fun x hx => ?_
  · rw [Store.frame_addFrame_self, NameMap.get?_insert_self]
  · simpa [NameMap.insertAll, NameMap.contains_insert] using hx

/-! ### Calls -/

theorem contains_bindings {f : Closure} {arguments : List Value}
    (harity : f.arity = arguments.length) {x : String} (hx : x ∈ f.decl.params.map Token.lexeme) :
    (f.bindings arguments).contains x = true := by
  have hall : ∀ (bs : List (String × Value)) (b : Bindings),
      b.contains x = true ∨ x ∈ bs.map Prod.fst → (b.insertAll bs).contains x = true := by
    intro bs
    induction bs with
    | nil => exact fun b h => h.elim id fun h => nomatch h
    | cons c bs ih =>
      intro b h
      refine ih _ ?_
      rw [NameMap.contains_insert, Bool.or_eq_true, decide_eq_true_eq]
      rw [List.map_cons, List.mem_cons] at h
      rcases h with h | h | h
      · exact .inl (.inr h)
      · exact .inl (.inl h.symm)
      · exact .inr h
  refine hall _ _ (.inr ?_)
  rw [List.map_fst_zip]
  · exact hx
  · rw [List.length_map]
    exact Nat.le_of_eq harity

/-- The scope of a function declares its parameters. -/
theorem exists_scopes_body (st : Static) (context : FunctionContext) (f : FunDecl) :
    ∃ names, (st.body context f).scopes = names :: st.scopes ∧
      ∀ x, names.contains x = true → x ∈ f.params.map Token.lexeme := by
  have hall : ∀ (ps : List Token) (st : Static) (names : NameMap Bool)
      (outer : List (NameMap Bool)), st.scopes = names :: outer →
        ∃ names', (st.params ps).1.scopes = names' :: outer ∧
          ∀ x, names'.contains x = true → names.contains x = true ∨ x ∈ ps.map Token.lexeme := by
    intro ps
    induction ps with
    | nil => exact fun st names outer h => ⟨names, h, fun x hx => .inl hx⟩
    | cons p ps ih =>
      intro st names outer h
      obtain ⟨names₁, h₁, hnames₁⟩ := Static.scopes_declared_cons h p
      obtain ⟨names₂, h₂, hnames₂⟩ := ih (st.declared p) names₁ outer h₁
      refine ⟨names₂, h₂, fun x hx => ?_⟩
      rw [List.map_cons, List.mem_cons]
      rcases hnames₂ x hx with hx | hx
      · rw [hnames₁, Bool.or_eq_true, decide_eq_true_eq] at hx
        exact hx.elim (fun hx => .inr (.inl hx.symm)) .inl
      · exact .inr (.inr hx)
  obtain ⟨names, hscopes, hnames⟩ :=
    hall f.params ({ st with function := context }.enter []) .empty st.scopes rfl
  exact ⟨names, hscopes, fun x hx => (hnames x hx).resolve_left (by simp)⟩

/-! ## The next moment -/

theorem Yields.of_ok {α : Type} {x : Exec α} {a : α} {Q : α → Machine → Prop} {m₀ : Machine}
    (h : W.Yields m₀ x m Q) (hx : x m = .ok a m') : W.Kept m₀ m' ∧ Q a m' := by
  unfold Yields Ends at h
  rwa [hx] at h

theorem Covers.next {μ ν : Moment} (h : W.Covers s μ) (hν : Next s μ ν) : W.Covers s ν :=
  ⟨fun ρ o hρ ho => h.opened ρ o (.head hν hρ) ho, fun ρ o v hρ ho => h.filled ρ o v (.head hν hρ) ho,
    fun ρ c methods hρ hc => h.classes ρ c methods (.head hν hρ) hc⟩

/-- A frame that the task itself opens. -/
theorem Covers.made {μ : Moment} (h : W.Covers s μ) {o : Origin} (ho : μ.opens = some o) :
    W.made μ.machine.store.freshFrame o :=
  h.opened μ o .refl ho

/-- What the task itself puts into a frame. -/
theorem Covers.given {μ : Moment} (h : W.Covers s μ) {o : Origin} {v : Value}
    (ho : μ.gives = some (o, v)) : W.given μ.machine.store.freshFrame o v :=
  h.filled μ o v .refl ho

/-- Good tasks with less fuel leave behind what they should. -/
def Below (W : World) (s : Setting) (fuel : Nat) : Prop :=
  ∀ μ : Moment, μ.fuel < fuel → W.Covers s μ → W.GoodMoment μ → W.Leaves s μ

/-- What a next task leaves behind. -/
theorem Below.next {μ ν : Moment} (hb : Below W s μ.fuel) (hc : W.Covers s μ) (h : Next s μ ν)
    (hν : W.GoodMoment ν) : W.Leaves s ν := by
  refine hb ν ?_ (hc.next h) hν
  cases h <;> exact Nat.lt_succ_self _

/-- The next moment of a good moment is good. -/
theorem GoodMoment.next {μ ν : Moment} (hb : Below W s μ.fuel) (hc : W.Covers s μ)
    (hg : W.GoodMoment μ) (h : Next s μ ν) : W.GoodMoment ν := by
  obtain ⟨hσ, hg⟩ := hg
  cases h with
  | group => exact ⟨hσ, hg⟩
  | operand => exact ⟨hσ, hg⟩
  | left =>
    obtain ⟨st, os, hat, hl, hr⟩ := hg
    exact ⟨hσ, st, os, hat, hl⟩
  | right ha =>
    obtain ⟨st, os, hat, hl, hr⟩ := hg
    obtain ⟨hk, -⟩ := Yields.of_ok (hb.next hc .left ⟨hσ, st, os, hat, hl⟩) ha
    exact ⟨hk.good, st, os, hk.at hat, hr⟩
  | logicalLeft =>
    obtain ⟨st, os, hat, hl, hr⟩ := hg
    exact ⟨hσ, st, os, hat, hl⟩
  | logicalRight ha =>
    obtain ⟨st, os, hat, hl, hr⟩ := hg
    obtain ⟨hk, -⟩ := Yields.of_ok (hb.next hc .logicalLeft ⟨hσ, st, os, hat, hl⟩) ha
    exact ⟨hk.good, st, os, hk.at hat, hr⟩
  | assigned =>
    obtain ⟨st, os, hat, hname, hv, hknown⟩ := hg
    exact ⟨hσ, st, os, hat, hv⟩
  | assign hv =>
    obtain ⟨st, os, hat, hname, hvalue, hknown⟩ := hg
    obtain ⟨hk, hgood⟩ := Yields.of_ok (hb.next hc .assigned ⟨hσ, st, os, hat, hvalue⟩) hv
    exact ⟨hk.good, st, os, hk.at hat, hname, hgood, hknown⟩
  | callee =>
    obtain ⟨st, os, hat, hcallee, hargs⟩ := hg
    exact ⟨hσ, st, os, hat, hcallee⟩
  | arguments hf =>
    obtain ⟨st, os, hat, hcallee, hargs⟩ := hg
    obtain ⟨hk, -⟩ := Yields.of_ok (hb.next hc .callee ⟨hσ, st, os, hat, hcallee⟩) hf
    exact ⟨hk.good, st, os, hk.at hat, hargs⟩
  | call hf hvs =>
    obtain ⟨st, os, hat, hcallee, hargs⟩ := hg
    obtain ⟨hk, hv⟩ := Yields.of_ok (hb.next hc .callee ⟨hσ, st, os, hat, hcallee⟩) hf
    obtain ⟨hk', hvs⟩ :=
      Yields.of_ok (hb.next hc (.arguments hf) ⟨hk.good, st, os, hk.at hat, hargs⟩) hvs
    exact ⟨hk'.good, hv.mono hk'.store, hvs⟩
  | object => exact ⟨hσ, hg⟩
  | method hi _ hf =>
    obtain ⟨hk, hv⟩ := Yields.of_ok (hb.next hc .object ⟨hσ, hg⟩) hi
    exact ⟨hk.good, (GoodInstance.ofClass hv).method hf, hv⟩
  | setObject =>
    obtain ⟨st, os, hat, hobject, hvalue⟩ := hg
    exact ⟨hσ, st, os, hat, hobject⟩
  | setValue hi =>
    obtain ⟨st, os, hat, hobject, hvalue⟩ := hg
    obtain ⟨hk, -⟩ := Yields.of_ok (hb.next hc .setObject ⟨hσ, st, os, hat, hobject⟩) hi
    exact ⟨hk.good, st, os, hk.at hat, hvalue⟩
  | superMethod _ hclass hi hf =>
    obtain ⟨scope, -, hclass⟩ := Option.bind_eq_some_iff.mp hclass
    obtain ⟨scope', -, hi⟩ := Option.bind_eq_some_iff.mp hi
    exact ⟨hσ, GoodClass.method (hσ.frames _ _ _ hclass) hf, hσ.frames _ _ _ hi⟩
  | head =>
    obtain ⟨st, os, hat, he, hes⟩ := hg
    exact ⟨hσ, st, os, hat, he⟩
  | tail hv =>
    obtain ⟨st, os, hat, he, hes⟩ := hg
    obtain ⟨hk, -⟩ := Yields.of_ok (hb.next hc .head ⟨hσ, st, os, hat, he⟩) hv
    exact ⟨hk.good, st, os, hk.at hat, hes⟩
  | enter harity _ =>
    obtain ⟨hcallee, hargs⟩ := hg
    exact ⟨hσ, harity, hcallee, hargs⟩
  | run =>
    obtain ⟨harity, hcallee, hargs⟩ := hg
    exact ⟨hσ, Option.some.inj harity, hcallee, hargs⟩
  | @bindInitializer _ c _ _ m f hf =>
    obtain ⟨harity, hcallee, hargs⟩ := hg
    have hclass : W.GoodClass m.withRecord.store c := GoodClass.mono m.evolves_withRecord hcallee
    exact ⟨hσ.addRecord, hclass.method hf, m.freshRecord_lt_withRecord, hclass⟩
  | @runInitializer _ c _ arguments m f g m₁ hf hbind =>
    obtain ⟨harity, hcallee, hargs⟩ := hg
    have hclass : W.GoodClass m.withRecord.store c := GoodClass.mono m.evolves_withRecord hcallee
    obtain ⟨hk, hgood⟩ := Yields.of_ok (hb.next hc (.bindInitializer hf)
      ⟨hσ.addRecord, hclass.method hf, m.freshRecord_lt_withRecord, hclass⟩) hbind
    have harity : f.arity = arguments.length := by
      simpa [Value.arity?, hf] using harity
    cases hbind
    exact ⟨hk.good, harity, hgood,
      fun v hv => ((hargs v hv).mono m.evolves_withRecord).mono hk.store⟩
  | @body _ f arguments m =>
    obtain ⟨harity, hf, hargs⟩ := hg
    have hmade := hc.made (o := .call f.decl) rfl
    obtain ⟨⟨st, context, os, hruns, hcontext, hfits⟩, -⟩ := hf
    obtain ⟨names, hnames, hparams⟩ := exists_scopes_body st context f.decl
    refine ⟨hσ.addFrame (Closure.forall_bindings hargs), st.body context f.decl, _,
      At.opened hruns hmade (.inr ⟨_, rfl⟩) hnames fun x hx => ?_, ?_⟩
    · exact contains_bindings harity (hparams x hx)
    · exact hfits.body
  | expression => exact ⟨hσ, hg⟩
  | print => exact ⟨hσ, hg⟩
  | initializer =>
    obtain ⟨st, os, hat, hname, he⟩ := hg
    exact ⟨hσ, st, os, hat, he⟩
  | @block _ body m =>
    obtain ⟨st, os, hat, hbody⟩ := hg
    have hinside : W.At (m.opened m.scope .empty) (st.enter []) (.block body :: os) := by
      refine At.opened hat (hc.made rfl) (.inl ⟨_, rfl⟩) rfl fun x hx => ?_
      cases hx
    refine ⟨hσ.addFrame fun x v hv => ?_, _, _, hinside, hbody⟩
    cases hv
  | condition =>
    obtain ⟨st, os, hat, hfits⟩ := hg
    exact ⟨hσ, st, os, hat, hfits.thenBranch.1⟩
  | thenBranch hv _ =>
    obtain ⟨st, os, hat, hfits⟩ := hg
    obtain ⟨hk, -⟩ :=
      Yields.of_ok (hb.next hc .condition ⟨hσ, st, os, hat, hfits.thenBranch.1⟩) hv
    exact ⟨hk.good, st, os, hk.at hat, hfits.thenBranch.2⟩
  | elseBranch hv _ =>
    obtain ⟨st, os, hat, hcondition, hthen, helse, -⟩ := hg
    obtain ⟨hk, -⟩ := Yields.of_ok (hb.next hc .condition ⟨hσ, st, os, hat, hcondition⟩) hv
    exact ⟨hk.good, st, os, hk.at hat, helse⟩
  | loop =>
    obtain ⟨st, os, hat, hcondition, hbody, -⟩ := hg
    exact ⟨hσ, st, os, hat, hcondition, hbody⟩
  | returned =>
    obtain ⟨st, os, hat, -, he⟩ := hg
    exact ⟨hσ, st, os, hat, he⟩
  | superclass =>
    obtain ⟨st, os, hat, hname, he, hmethods⟩ := hg
    exact ⟨hσ, st, os, hat, he⟩
  | declareBase =>
    obtain ⟨st, os, hat, hname, he, hmethods⟩ := hg
    exact ⟨hσ, st, os, hat, hname, by simp, hmethods⟩
  | declareDerived hclass =>
    obtain ⟨st, os, hat, hname, he, hmethods⟩ := hg
    obtain ⟨hk, hv⟩ := Yields.of_ok (hb.next hc .superclass ⟨hσ, st, os, hat, he⟩) hclass
    refine ⟨hk.good, st, os, hk.at hat, hname, ?_, hmethods⟩
    rintro _ ⟨⟩
    exact hv
  | first =>
    obtain ⟨st, os, hat, ht, hts⟩ := hg
    exact ⟨hσ, st, os, hat, ht⟩
  | rest hdone =>
    obtain ⟨st, os, hat, ht, hts⟩ := hg
    obtain ⟨hk, hname⟩ := Yields.of_ok (hb.next hc .first ⟨hσ, st, os, hat, ht⟩) hdone
    exact ⟨hk.good, _, os, At.stmt ht (hk.at hat) hname, hts⟩
  | loopCondition =>
    obtain ⟨st, os, hat, hcondition, hbody⟩ := hg
    exact ⟨hσ, st, os, hat, hcondition⟩
  | loopBody hv _ =>
    obtain ⟨st, os, hat, hcondition, hbody⟩ := hg
    obtain ⟨hk, -⟩ := Yields.of_ok (hb.next hc .loopCondition ⟨hσ, st, os, hat, hcondition⟩) hv
    exact ⟨hk.good, st, os, hk.at hat, hbody⟩
  | loopAgain hv ht hdone =>
    obtain ⟨st, os, hat, hcondition, hbody⟩ := hg
    obtain ⟨hk, -⟩ := Yields.of_ok (hb.next hc .loopCondition ⟨hσ, st, os, hat, hcondition⟩) hv
    obtain ⟨hk', -⟩ := Yields.of_ok
      (hb.next hc (.loopBody hv ht) ⟨hk.good, st, os, hk.at hat, hbody⟩) hdone
    exact ⟨hk'.good, st, os, hk'.at (hk.at hat), hcondition, hbody⟩

/-! ## What tasks leave behind -/

section

variable {n : Nat}

/-- The next tasks of a task leave behind what they should. -/
def NextLeave (W : World) (s : Setting) (μ : Moment) : Prop :=
  ∀ ν, Next s μ ν → W.Leaves s ν

theorem leaves_evaluate {e : Expr} (hσ : W.GoodStore m.store)
    (hnext : NextLeave W s ⟨n + 1, .evaluate e, m⟩) : W.Leaves s ⟨n + 1, .evaluate e, m⟩ := by
  have hk : W.Kept m m := .refl hσ
  unfold Leaves
  dsimp only
  cases e with
  | literal value =>
    rw [evaluate]
    refine .pure hk ?_
    cases value <;> trivial
  | group inner =>
    rw [evaluate]
    exact hnext _ .group
  | unary operator operand =>
    rw [evaluate]
    refine .bind hk (hnext _ .operand) fun v m₁ hv hk₁ _ => ?_
    exact yields_operate hk₁ fun w hw => goodValue_of_isPlain (isPlain_of_applyUnary hw)
  | binary left operator right =>
    rw [evaluate]
    refine .bind hk (hnext _ .left) fun a m₁ ha hk₁ _ => ?_
    refine .bind hk₁ (hnext _ (.right ha)) fun b m₂ hb hk₂ _ => ?_
    exact yields_operate hk₂ fun w hw => goodValue_of_isPlain (isPlain_of_applyBinary hw)
  | logical left operator right =>
    rw [evaluate]
    refine .bind hk (hnext _ .logicalLeft) fun a m₁ ha hk₁ hgood => ?_
    split
    · exact .pure hk₁ hgood
    · rename_i hop
      exact .last hk₁ (hnext _ (.logicalRight ha (Bool.eq_false_iff.mpr hop)))
  | var id name =>
    rw [evaluate]
    exact yields_readVariable hk
  | assign id name value =>
    rw [evaluate]
    refine .bind hk (hnext _ .assigned) fun v m₁ hv hk₁ hgood => ?_
    have hassign := hnext _ (.assign hv)
    refine .bind hk₁ hassign fun _ m₂ hdone hk₂ _ => ?_
    exact .pure hk₂ (hgood.mono (Yields.of_ok hassign hdone).1.store)
  | call callee paren arguments =>
    rw [evaluate]
    refine .bind hk (hnext _ .callee) fun f m₁ hf hk₁ _ => ?_
    refine .bind hk₁ (hnext _ (.arguments hf)) fun vs m₂ hvs hk₂ _ => ?_
    exact .last hk₂ (hnext _ (.call hf hvs))
  | get object name =>
    rw [evaluate]
    refine .bind hk (hnext _ .object) fun v m₁ hv hk₁ hgood => ?_
    cases v with
    | instance_ i =>
      cases hfield : m₁.store.field? i.record name.lexeme with
      | some w =>
        exact .of_eq (getProperty_of_field hfield) (.pure hk₁ (hk₁.good.fields _ _ _ hfield))
      | none =>
        refine .of_eq (getProperty_of_no_field hfield) (yields_methodFor hk₁ fun f hf => ?_)
        exact hnext _ (.method hv hfield hf)
    | _ => exact .fault hk₁
  | set object name value =>
    rw [evaluate]
    refine .bind hk (hnext _ .setObject) fun v m₁ hv hk₁ _ => ?_
    cases v with
    | instance_ i =>
      refine .bind_ok (a := i) (n := m₁) rfl ?_
      refine .bind hk₁ (hnext _ (.setValue hv)) fun w m₂ _ hk₂ hgood => ?_
      have hgood' : W.GoodStore (m₂.store.setField i.record name.lexeme w) :=
        hk₂.good.setField _ _ hgood
      have hσ' := Store.Evolves.setField m₂.store i.record name.lexeme w
      refine .bind_ok (a := ()) rfl (.pure (hk₂.trans (.of_store hσ' hgood')) ?_)
      exact hgood.mono hσ'
    | _ => exact .bind (Q := fun _ _ => True) hk₁ (.fault (.refl hk₁.good)) fun i m₂ hi => nomatch hi
  | this id keyword =>
    rw [evaluate]
    exact yields_readVariable hk
  | super id keyword method =>
    rw [evaluate]
    obtain ⟨d, c, i, hd, hc, hi, heq⟩ | ⟨-, heq⟩ := superMethod_cases s id keyword method m
    · exact .of_eq heq (yields_methodFor hk fun f hf => hnext _ (.superMethod hd hc hi hf))
    · exact .of_eq heq (.fault hk)

theorem leaves_evaluateAll {es : List Expr} (hσ : W.GoodStore m.store)
    (hnext : NextLeave W s ⟨n + 1, .evaluateAll es, m⟩) :
    W.Leaves s ⟨n + 1, .evaluateAll es, m⟩ := by
  have hk : W.Kept m m := .refl hσ
  unfold Leaves
  dsimp only
  cases es with
  | nil =>
    rw [evaluateAll]
    exact .pure hk (by simp)
  | cons e es =>
    rw [evaluateAll]
    refine .bind hk (hnext _ .head) fun v m₁ hv hk₁ hgood => ?_
    have htail := hnext _ (.tail hv)
    refine .bind hk₁ htail fun vs m₂ hvs hk₂ hall => ?_
    have hσ₂ := (Yields.of_ok htail hvs).1.store
    exact .pure hk₂ (List.forall_mem_cons.mpr ⟨hgood.mono hσ₂, hall⟩)

theorem leaves_call {callee : Value} {paren : Token} {arguments : List Value}
    (hσ : W.GoodStore m.store) (hnext : NextLeave W s ⟨n + 1, .call callee paren arguments, m⟩) :
    W.Leaves s ⟨n + 1, .call callee paren arguments, m⟩ := by
  have hk : W.Kept m m := .refl hσ
  unfold Leaves
  dsimp only
  rw [call]
  split
  · exact .fault hk
  · rename_i arity harity
    split
    · exact .fault hk
    · rename_i hlength
      have harity : callee.arity? = some arguments.length := by
        rw [harity, Decidable.not_not.mp hlength]
      refine .bind_ok (a := m) (n := m) rfl ?_
      dsimp only
      split
      · exact .fault hk
      · rename_i hdepth
        rw [withStackFor_eq]
        have henter := hnext _ (.enter harity (Nat.lt_of_not_le hdepth))
        exact Yields.asCall (P := fun v σ => W.GoodValue σ v) henter

theorem leaves_enter (hhost : ∃ now, s.host = Host.clockAt now) {callee : Value} {paren : Token}
    {arguments : List Value} (hg : W.GoodMoment ⟨n + 1, .enter callee paren arguments, m⟩)
    (hnext : NextLeave W s ⟨n + 1, .enter callee paren arguments, m⟩) :
    W.Leaves s ⟨n + 1, .enter callee paren arguments, m⟩ := by
  obtain ⟨hσ, harity, hcallee, hargs⟩ := hg
  have hk : W.Kept m m := .refl hσ
  unfold Leaves
  dsimp only
  cases callee with
  | native f =>
    rw [enter]
    obtain ⟨now, hhost⟩ := hhost
    rw [hhost, Host.clockAt]
    split
    · rename_i v hv
      refine .pure hk ?_
      split at hv <;> cases hv
      trivial
    · exact .fault hk
  | function f =>
    rw [enter]
    exact hnext _ .run
  | class_ c =>
    rw [enter]
    refine .bind_ok (a := ⟨m.store.freshRecord, c⟩) (n := m.withRecord) rfl ?_
    have hk₁ : W.Kept m m.withRecord := hk.withRecord
    have hgood : W.GoodInstance m.withRecord.store ⟨m.store.freshRecord, c⟩ :=
      ⟨m.freshRecord_lt_withRecord, GoodClass.mono hk₁.store hcallee⟩
    split
    · rename_i f hf
      have hbind := hnext _ (.bindInitializer hf)
      refine .bind hk₁ hbind fun g m₂ hg hk₂ _ => ?_
      have hrun := hnext _ (.runInitializer hf hg)
      refine .bind hk₂ hrun fun v m₃ hv hk₃ _ => ?_
      have hσ₂ := (Yields.of_ok hbind hg).1.store
      exact .pure hk₃ (hgood.mono (hσ₂.trans (Yields.of_ok hrun hv).1.store))
    · exact .pure hk₁ hgood
  | _ => cases harity

theorem leaves_run {f : Closure} {arguments : List Value}
    (hg : W.GoodMoment ⟨n + 1, .run f arguments, m⟩)
    (hnext : NextLeave W s ⟨n + 1, .run f arguments, m⟩) :
    W.Leaves s ⟨n + 1, .run f arguments, m⟩ := by
  obtain ⟨hσ, harity, hf, hargs⟩ := hg
  have hk : W.Kept m m := .refl hσ
  unfold Leaves
  dsimp only
  rw [run]
  refine .bind_ok (a := .inside m.store.freshFrame f.scope)
    (n := { m with store := m.store.addFrame (f.bindings arguments) }) rfl ?_
  have hk₁ := hk.addFrame (b := f.bindings arguments) (Closure.forall_bindings hargs)
  have hbody := hnext _ .body
  refine .bind hk₁ (.catchReturn (.inScope (P := fun _ _ => True) (.refl hk₁.good) hbody)) ?_
  intro v m₂ _ hk₂ hv
  split
  · refine .bind_ok (a := m₂) (n := m₂) rfl (.pure hk₂ ?_)
    cases hthis : m₂.store.getLocal? f.scope thisName with
    | none => trivial
    | some i => exact hk₂.good.frames _ _ _ hthis
  · exact .pure hk₂ hv

theorem leaves_executeAll {ts : List Stmt} (hσ : W.GoodStore m.store)
    (hnext : NextLeave W s ⟨n + 1, .executeAll ts, m⟩) : W.Leaves s ⟨n + 1, .executeAll ts, m⟩ := by
  have hk : W.Kept m m := .refl hσ
  unfold Leaves
  dsimp only
  cases ts with
  | nil =>
    rw [executeAll]
    exact .pure hk trivial
  | cons t ts =>
    rw [executeAll]
    refine .bind hk (hnext _ .first) fun _ m₁ hdone hk₁ _ => ?_
    exact .last hk₁ (hnext _ (.rest hdone))

theorem leaves_repeatWhile {condition : Expr} {body : Stmt} (hσ : W.GoodStore m.store)
    (hnext : NextLeave W s ⟨n + 1, .repeatWhile condition body, m⟩) :
    W.Leaves s ⟨n + 1, .repeatWhile condition body, m⟩ := by
  have hk : W.Kept m m := .refl hσ
  unfold Leaves
  dsimp only
  rw [repeatWhile]
  refine .bind hk (hnext _ .loopCondition) fun v m₁ hv hk₁ _ => ?_
  split
  · rename_i htrue
    refine .bind hk₁ (hnext _ (.loopBody hv htrue)) fun _ m₂ hdone hk₂ _ => ?_
    exact .last hk₂ (hnext _ (.loopAgain hv htrue hdone))
  · exact .pure hk₁ trivial

/-- The methods of a class that fits are good, in the scope that is around them. -/
theorem goodMethod_of_methodsFit {σ : Store} {scope : Scope} {methods : List FunDecl}
    {names : NameMap Bool} {scopes : List (NameMap Bool)} (hchain : W.Chain σ scope scopes os)
    (hscopes : st.scopes = names :: scopes)
    (hnames : ∀ x, names.contains x = true → x = thisName)
    (hfit : Stmt.MethodsFit W.known W.pending st os methods) {f : Closure}
    (hf : f.decl ∈ methods) (hscope : f.scope = scope)
    (hinit : f.isInitializer = f.decl.isInitializer) : W.GoodMethod σ f :=
  ⟨⟨st, _, names, scopes, os, hscope ▸ hchain, hscopes, hnames, Static.methodContext_ne _,
    hfit.of_mem hf⟩, hinit⟩

/-- Reserving the name of a class, with a scope for its superclass. -/
theorem Kept.reserved {name : Token} {superclass : Option Class} (hσ : W.GoodStore m.store)
    (hname : name.IsName) (hsuper : ∀ c ∈ superclass, W.GoodClass m.store c) :
    W.Kept m (m.reserved name superclass) := by
  have hk : W.Kept m { m with store := m.store.define m.scope name.lexeme .nil } :=
    Kept.define (.refl hσ) m.scope hname trivial
  cases superclass with
  | none => exact hk
  | some c =>
    have hc : W.GoodValue (m.store.define m.scope name.lexeme .nil) (.class_ c) :=
      (hsuper c rfl).mono hk.store
    exact hk.addFrame (NameMap.forall_single (x := superName) hc)

/-- The methods that are made on the machine with the reserved name are good. -/
theorem goodMethod_of_reserved {name : Token} {superclass : Option Class} {methods : List FunDecl}
    (hc : W.Covers s ⟨n, .declareClass name superclass methods, m⟩) (hat : W.At m st os)
    (hname : name.IsName)
    (hfit : Stmt.MethodsFit W.known W.pending ((st.declared name).methodsPlace superclass.isSome)
      (Static.methodOrigins os superclass.isSome methods) methods) {f : Closure}
    (hf : f.decl ∈ methods) (hscope : f.scope = m.methodScope superclass)
    (hinit : f.isInitializer = f.decl.isInitializer) :
    W.GoodMethod (m.reserved name superclass).store f := by
  have hat₁ : W.Runs (m.store.define m.scope name.lexeme .nil) m.scope (st.declared name) os :=
    Runs.declared (Chain.mono (.define _ _ _ hname.ne) hat) (declares_define hat.frame_lt _ _)
  cases superclass with
  | none =>
    refine goodMethod_of_methodsFit hat₁ rfl (fun x hx => ?_) hfit hf hscope hinit
    simpa [NameMap.insertAll, NameMap.contains_insert, eq_comm] using hx
  | some c =>
    have hmade := hc.made (o := .super methods) (by cases n <;> rfl)
    have hgiven := hc.given (o := .super methods) (v := .class_ c) rfl
    -- the frame for the superclass is the next one also after the name was bound
    have hfresh : (m.store.define m.scope name.lexeme .nil).freshFrame = m.store.freshFrame := by
      simp only [Store.freshFrame, Store.size_frames_define]
    rw [← hfresh] at hmade hgiven
    have hinside := hat₁.inSuper hmade hgiven
    rw [hfresh] at hinside
    refine goodMethod_of_methodsFit hinside rfl (fun x hx => ?_) hfit hf hscope hinit
    simpa [NameMap.insertAll, NameMap.contains_insert, eq_comm] using hx

/-- A class with good methods below a good class. -/
theorem goodClass_ofParts {σ : Store} {own : ClassBody} {superclass : Option Class}
    (hown : ∀ x f, own.methods.get? x = some f → W.GoodMethod σ f)
    (hsuper : ∀ c ∈ superclass, W.GoodClass σ c) (hdeclared : W.declared (.ofParts own superclass)) :
    W.GoodClass σ (.ofParts own superclass) := by
  cases superclass with
  | none =>
    refine ⟨fun body hbody => ?_, fun d hd => ?_⟩
    · obtain rfl := List.mem_singleton.mp hbody
      exact hown
    · obtain rfl := List.mem_singleton.mp hd
      exact hdeclared
  | some c =>
    refine ⟨fun body hbody => ?_, fun d hd => ?_⟩
    · rcases List.mem_cons.mp hbody with rfl | hbody
      · exact hown
      · exact (hsuper c rfl).methods body hbody
    · rcases List.mem_cons.mp hd with rfl | hd
      · exact hdeclared
      · exact (hsuper c rfl).declared d hd

theorem leaves_declareClass {name : Token} {superclass : Option Class} {methods : List FunDecl}
    (hc : W.Covers s ⟨n, .declareClass name superclass methods, m⟩)
    (hg : W.GoodMoment ⟨n, .declareClass name superclass methods, m⟩) :
    W.Leaves s ⟨n, .declareClass name superclass methods, m⟩ := by
  obtain ⟨hσ, st, os, hat, hname, hsuper, hmethods⟩ := hg
  obtain ⟨own, k, -, htable, heq⟩ := exists_declareClass name superclass methods m
  have hk : W.Kept m (m.reserved name superclass) := .reserved hσ hname hsuper
  have hσ₁ := Store.Evolves.withObjects (m.reserved name superclass).store k
  have hk₁ : W.Kept m { m.reserved name superclass with
      store := { (m.reserved name superclass).store with nextObject := k } } :=
    hk.trans (.of_store hσ₁ (hk.good.withObjects k))
  have hlt := Nat.lt_of_lt_of_le hat.frame_lt hk₁.store.size
  have hdeclared : W.declared (.ofParts own superclass) :=
    hc.classes _ _ methods .refl (Moment.declares_ofParts hat.frame_lt heq)
  have hclass : W.GoodClass (m.reserved name superclass).store (.ofParts own superclass) := by
    refine goodClass_ofParts (fun x f hf => ?_) (fun c hc => (hsuper c hc).mono hk.store) hdeclared
    obtain ⟨hmem, hscope, hinit⟩ := ((htable x).of_get? hf).resolve_left nofun
    exact goodMethod_of_reserved hc hat hname hmethods hmem hscope hinit
  have hdefined := Kept.define hk₁ m.scope hname (v := .class_ (.ofParts own superclass))
    ((hclass.mono hσ₁).mono (.define _ _ _ hname.ne))
  exact .ok heq ⟨hdefined.store, rfl, rfl, hdefined.good⟩ (declares_define hlt _ _)

theorem leaves_execute {t : Stmt} (hg : W.GoodMoment ⟨n + 1, .execute t, m⟩)
    (hnext : NextLeave W s ⟨n + 1, .execute t, m⟩) : W.Leaves s ⟨n + 1, .execute t, m⟩ := by
  obtain ⟨hσ, st, os, hat, hfits⟩ := hg
  have hk : W.Kept m m := .refl hσ
  unfold Leaves
  dsimp only
  cases t with
  | expression e =>
    rw [execute]
    refine .bind hk (hnext _ .expression) fun v m₁ _ hk₁ _ => ?_
    exact .pure hk₁ (by simp [Stmt.declaredName?])
  | print e =>
    rw [execute]
    refine .bind hk (hnext _ .print) fun v m₁ _ hk₁ _ => ?_
    exact (yields_print hk₁).mono fun _ m₂ _ _ => by simp [Stmt.declaredName?]
  | var name initializer =>
    have hdeclared : (Stmt.var name initializer).declaredName? = some name := rfl
    rw [hdeclared]
    cases initializer with
    | none =>
      rw [execute]
      refine (yields_define (v := .nil) hk hfits.1 trivial hat.frame_lt).mono fun _ m₁ _ h => ?_
      exact fun _ hx => Option.some.inj hx ▸ h
    | some e =>
      rw [execute]
      refine .bind hk (hnext _ .initializer) fun v m₁ _ hk₁ hgood => ?_
      have hgood := hgood.mono (.define _ m₁.scope v hfits.1.ne)
      refine (yields_define hk₁ hfits.1 hgood (hk₁.at hat).frame_lt).mono fun _ m₂ _ h => ?_
      exact fun _ hx => Option.some.inj hx ▸ h
  | block body =>
    rw [execute]
    refine .bind_ok (a := m) (n := m) rfl ?_
    refine .bind_ok (a := .inside m.store.freshFrame m.scope)
      (n := { m with store := m.store.addFrame .empty }) rfl ?_
    have hk₁ := hk.addFrame (b := .empty) (fun x v hv => nomatch hv)
    refine (Yields.inScope (P := fun _ _ => True) hk₁ (hnext _ .block)).mono ?_
    simp [Stmt.declaredName?]
  | if_ condition thenBranch elseBranch =>
    unfold execute
    refine .bind hk (hnext _ .condition) fun v m₁ hv hk₁ _ => ?_
    split
    · rename_i htrue
      refine (Yields.last hk₁ (hnext _ (.thenBranch hv htrue))).mono fun _ m₂ _ _ => ?_
      simp [Stmt.declaredName?]
    · rename_i hfalse
      cases elseBranch with
      | none => exact .pure hk₁ (by simp [Stmt.declaredName?])
      | some elseBranch =>
        have helse := hnext _ (.elseBranch hv (Bool.eq_false_iff.mpr hfalse))
        refine (Yields.last hk₁ helse).mono fun _ m₂ _ _ => ?_
        simp [Stmt.declaredName?]
  | while_ condition body =>
    rw [execute]
    refine Yields.mono (hnext _ .loop) fun _ m₂ _ _ => ?_
    simp [Stmt.declaredName?]
  | fun_ f =>
    have hdeclared : (Stmt.fun_ f).declaredName? = some f.name := rfl
    rw [hdeclared, execute]
    refine .bind_ok (a := m) (n := m) rfl ?_
    refine .bind_ok (a := ⟨m.store.freshObject, f, m.scope, false⟩)
      (n := { m with store := m.store.useObject }) rfl ?_
    have hk₁ : W.Kept m { m with store := m.store.useObject } := hk.useObject
    have hat₁ : W.Runs (m.store.useObject.define m.scope f.name.lexeme
        (.function ⟨m.store.freshObject, f, m.scope, false⟩)) m.scope (st.declared f.name) os := by
      refine Runs.declared (Chain.mono (.define _ _ _ hfits.1.ne) (hk₁.at hat)) ?_
      exact declares_define hat.frame_lt _ _
    have hgood : W.GoodFunction _ ⟨m.store.freshObject, f, m.scope, false⟩ :=
      ⟨⟨_, _, os, hat₁, by simp, hfits.2⟩, by simp⟩
    refine (yields_define (v := .function ⟨m.store.freshObject, f, m.scope, false⟩) hk₁ hfits.1
      hgood hat.frame_lt).mono fun _ m₁ _ h => ?_
    exact fun _ hx => Option.some.inj hx ▸ h
  | return_ keyword value =>
    cases value with
    | none =>
      rw [execute]
      exact ⟨hk, trivial⟩
    | some e =>
      rw [execute]
      refine .bind hk (hnext _ .returned) fun v m₁ _ hk₁ hgood => ?_
      exact ⟨hk₁, hgood⟩
  | class_ name superclass methods =>
    cases superclass with
    | none =>
      rw [execute]
      refine Yields.mono (hnext _ .declareBase) fun _ m₁ _ h => ?_
      exact fun _ hx => Option.some.inj hx ▸ h
    | some e =>
      rw [execute]
      refine .bind hk (hnext _ .superclass) fun v m₁ hv hk₁ hgood => ?_
      refine .bind hk₁ (yields_superclassOf (.refl hk₁.good)) fun c m₂ _ _ hclass => ?_
      obtain ⟨rfl, rfl⟩ := hclass
      refine (Yields.last hk₁ (hnext _ (.declareDerived hv))).mono fun _ m₂ _ h => ?_
      exact fun _ hx => Option.some.inj hx ▸ h

/-- Nothing is left to be done without fuel. -/
theorem leaves_zero {task : Task} (hc : W.Covers s ⟨0, task, m⟩)
    (hg : W.GoodMoment ⟨0, task, m⟩) : W.Leaves s ⟨0, task, m⟩ := by
  have hk : W.Kept m m := .refl hg.1
  cases task with
  | assign id name v =>
    obtain ⟨-, st, os, -, hname, hv, -⟩ := hg
    exact (yields_assignVariable hk hname hv).mono fun _ _ _ _ => trivial
  | bind f i => exact yields_bindMethod hk hg.2.1 hg.2.2 (hc.made rfl) (hc.given rfl)
  | declareClass => exact leaves_declareClass hc hg
  | _ =>
    unfold Leaves
    simp only [evaluate, evaluateAll, call, enter, run, execute, executeAll, repeatWhile]
    exact .outOfFuel hk

end

/-- Carrying out a good task leaves a good machine and good values behind. -/
theorem GoodMoment.leaves (hhost : ∃ now, s.host = Host.clockAt now) {μ : Moment}
    (hc : W.Covers s μ) (hg : W.GoodMoment μ) : W.Leaves s μ := by
  -- by induction on the fuel, for all tasks at once
  obtain ⟨fuel, hfuel⟩ : ∃ fuel, μ.fuel < fuel := ⟨_, Nat.lt_succ_self _⟩
  induction fuel generalizing μ with
  | zero => cases hfuel
  | succ fuel ih =>
    have hb : Below W s μ.fuel := fun ν hν hcν hgν => ih hcν hgν (by omega)
    have hnext : NextLeave W s μ := fun ν hν => hb.next hc hν (hg.next hb hc hν)
    obtain ⟨n, task, m⟩ := μ
    cases n with
    | zero => exact leaves_zero hc hg
    | succ n =>
      cases task with
      | evaluate e => exact leaves_evaluate hg.1 hnext
      | evaluateAll es => exact leaves_evaluateAll hg.1 hnext
      | assign id name v =>
        obtain ⟨hσ, st, os, -, hname, hv, -⟩ := hg
        exact (yields_assignVariable (.refl hσ) hname hv).mono fun _ _ _ _ => trivial
      | bind f i => exact yields_bindMethod (.refl hg.1) hg.2.1 hg.2.2 (hc.made rfl) (hc.given rfl)
      | call callee paren arguments => exact leaves_call hg.1 hnext
      | enter callee paren arguments => exact leaves_enter hhost hg hnext
      | run f arguments => exact leaves_run hg hnext
      | execute t => exact leaves_execute hg hnext
      | executeAll ts => exact leaves_executeAll hg.1 hnext
      | repeatWhile condition body => exact leaves_repeatWhile hg.1 hnext
      | declareClass name superclass methods => exact leaves_declareClass hc hg

/-- Every moment of an execution that starts well is good. -/
theorem GoodMoment.during (hhost : ∃ now, s.host = Host.clockAt now) {μ ν : Moment}
    (hc : W.Covers s μ) (hg : W.GoodMoment μ) (h : During s μ ν) :
    W.GoodMoment ν ∧ W.Covers s ν := by
  induction h with
  | refl => exact ⟨hg, hc⟩
  | tail _ hnext ih =>
    obtain ⟨hg, hc⟩ := ih
    exact ⟨hg.next (fun ρ _ hcρ hgρ => hgρ.leaves hhost hcρ) hc hnext, hc.next hnext⟩

end World

end LoxWalk
