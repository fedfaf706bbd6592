import Mathlib
import LoxWalk.Proofs.Session.Distances

/-!
# What `this`, `super` and properties lead to

Two scopes are around the body of a method of a derived class.  The outer one was opened when the
class was declared and holds the superclass of that time; the inner one was opened when the method
was bound and holds the instance.  So `super` is settled by the declaration, whatever the class of
the instance and whatever became of the variable of the superclass, and `this` by the binding
(`Lives.super_static_this_dynamic`).

A search for a method goes through the classes that inherit from each other.  What it finds is put
in terms of the text: every class goes back to a declaration (`Class.DeclaredWith`), and the search
ends at the nearest one whose declaration has a method of the name, with the last of these
(`Class.Finds`), or nowhere (`Class.Lacks`).
-/

namespace LoxWalk

open Exec

/-! ## What declarations put into classes -/

/-- What a class has under a name is what its declaration put there. -/
theorem Moment.Declares.entered {μ : Moment} {c : Class} {methods : List FunDecl}
    (h : μ.Declares c methods) (x : String) :
    Entered (μ.machine.methodScope c.superclass?) methods .empty c.own.methods x := by
  obtain ⟨name, m', -, hdeclare, hbound⟩ := h
  obtain ⟨own, k, -, hentered, heq⟩ := exists_declareClass name c.superclass? methods μ.machine
  rw [hdeclare] at heq
  cases heq
  have hlt := Store.lt_size_of_get? hbound
  rw [Machine.withClass, Store.size_frames_define] at hlt
  rw [Machine.getLocal?_withClass hlt] at hbound
  have hc : Class.ofParts own c.superclass? = c := by simpa using hbound
  have hown : c.own = own := by rw [← hc, Class.own_ofParts]
  rw [hown]
  exact hentered x

namespace Class

variable {xs xs' : List Execution} {c d : Class} {methods : List FunDecl} {x : String} {f : Closure}

theorem DeclaredWith.mono (hxs : ∀ y ∈ xs, y ∈ xs') (h : d.DeclaredWith xs methods) :
    d.DeclaredWith xs' methods := by
  obtain ⟨y, hy, hd⟩ := h
  exact ⟨y, hxs y hy, hd⟩

theorem DeclaredWith.get?_eq_none_iff (h : d.DeclaredWith xs methods) :
    d.own.methods.get? x = none ↔ ∀ g ∈ methods, g.name.lexeme ≠ x := by
  obtain ⟨y, -, μ, -, hμ⟩ := h
  have hentered := hμ.entered x
  unfold Entered at hentered
  rw [← lastNamed?_eq_none_iff]
  cases hlast : lastNamed? methods x with
  | none =>
    rw [hlast] at hentered
    exact iff_of_true hentered rfl
  | some decl =>
    rw [hlast] at hentered
    obtain ⟨id, hid⟩ := hentered
    simp [hid]

theorem DeclaredWith.lastNamed?_of_get? (h : d.DeclaredWith xs methods)
    (hf : d.own.methods.get? x = some f) : lastNamed? methods x = some f.decl := by
  obtain ⟨y, -, μ, -, hμ⟩ := h
  have hentered := hμ.entered x
  unfold Entered at hentered
  cases hlast : lastNamed? methods x with
  | none =>
    rw [hlast] at hentered
    exact nomatch hentered.symm.trans hf
  | some decl =>
    rw [hlast] at hentered
    obtain ⟨id, hid⟩ := hentered
    rw [← Option.some.inj (hid.symm.trans hf)]

/-! ### Searching -/

/-- The class was declared without a method of the name. -/
def DeclaresNone (xs : List Execution) (d : Class) (x : String) : Prop :=
  ∃ methods, d.DeclaredWith xs methods ∧ ∀ g ∈ methods, g.name.lexeme ≠ x

/-- No class, from `c` upwards, was declared with a method of the name. -/
def Lacks (xs : List Execution) (c : Class) (x : String) : Prop :=
  ∀ d ∈ c.upwards, d.DeclaresNone xs x

/-- The nearest class, from `c` upwards, that was declared with methods of the name has `f` for the
last of these. -/
def Finds (xs : List Execution) (c : Class) (x : String) (f : Closure) : Prop :=
  ∃ below b above methods, c.upwards = below ++ b :: above ∧ (∀ d ∈ below, d.DeclaresNone xs x) ∧
    b.DeclaredWith xs methods ∧ lastNamed? methods x = some f.decl ∧ b.own.methods.get? x = some f

/-- All classes from `c` upwards were declared. -/
def WasDeclared (xs : List Execution) (c : Class) : Prop :=
  ∀ d ∈ c.upwards, ∃ methods, d.DeclaredWith xs methods

theorem WasDeclared.mono (hxs : ∀ y ∈ xs, y ∈ xs') (h : c.WasDeclared xs) : c.WasDeclared xs' := by
  intro d hd
  obtain ⟨methods, hmethods⟩ := h d hd
  exact ⟨methods, hmethods.mono hxs⟩

theorem WasDeclared.of_goodClass {W : World} {σ : Store} (hc : W.GoodClass σ c)
    (hW : ∀ d, W.declared d → ∃ methods, d.DeclaredWith xs methods) : c.WasDeclared xs :=
  fun d hd => hW d (hc.declared d hd)

theorem WasDeclared.declaresNone (h : c.WasDeclared xs) (hd : d ∈ c.upwards)
    (hx : d.own.methods.get? x = none) : d.DeclaresNone xs x := by
  obtain ⟨methods, hmethods⟩ := h d hd
  exact ⟨methods, hmethods, hmethods.get?_eq_none_iff.mp hx⟩

theorem WasDeclared.lacks_iff (h : c.WasDeclared xs) : c.Lacks xs x ↔ c.method? x = none := by
  rw [method?_eq_findSome?_upwards, List.findSome?_eq_none_iff]
  refine ⟨fun hlacks d hd => ?_, fun hnone d hd => h.declaresNone hd (hnone d hd)⟩
  obtain ⟨methods, hmethods, hx⟩ := hlacks d hd
  exact hmethods.get?_eq_none_iff.mpr hx

theorem WasDeclared.finds (h : c.WasDeclared xs) (hf : c.method? x = some f) : c.Finds xs x f := by
  rw [method?_eq_findSome?_upwards] at hf
  obtain ⟨below, b, above, hsplit, hget, hbelow⟩ := List.findSome?_eq_some_iff.mp hf
  have hmem : ∀ d ∈ below ++ b :: above, d ∈ c.upwards := fun d hd => hsplit ▸ hd
  obtain ⟨methods, hmethods⟩ := h b (hmem b (by simp))
  refine ⟨below, b, above, methods, hsplit, fun d hd => ?_, hmethods,
    hmethods.lastNamed?_of_get? hget, hget⟩
  exact h.declaresNone (hmem d (by simp [hd])) (hbelow d hd)

end Class

/-! ## Methods of instances -/

/-- The function `g` is the method `f` of the instance `i`, made on the machine `m`: one more scope
is around it, which holds the instance, and nothing else changes. -/
structure Closure.BoundTo (g f : Closure) (i : Instance) (m m' : Machine) : Prop where
  decl : g.decl = f.decl
  isInitializer : g.isInitializer = f.isInitializer
  scope : g.scope = .inside m.store.freshFrame f.scope
  holds : m'.store.getLocal? g.scope thisName = some (.instance_ i)
  machine : m' = { m with
    store := (m.store.addFrame (NameMap.empty.insert thisName (.instance_ i))).useObject }

theorem Exec.exists_bindMethod (f : Closure) (i : Instance) (m : Machine) :
    ∃ g m', bindMethod f i m = .ok g m' ∧ g.BoundTo f i m m' := by
  refine ⟨_, _, rfl, rfl, rfl, rfl, ?_, rfl⟩
  show ((m.store.addFrame (NameMap.empty.insert thisName (.instance_ i))).frame
    m.store.freshFrame).get? thisName = _
  rw [Store.frame_addFrame_self, NameMap.get?_insert_self]

/-- The outcome is what a search for a method from `c` upwards leads to on the machine `m`: if there
is none, the name is reported, and else the method is bound to the instance. -/
def Class.Answers (xs : List Execution) (c : Class) (i : Instance) (name : Token) (m : Machine)
    (outcome : EStateM.Result Interrupt Machine Value) : Prop :=
  (outcome = .error (.fault (.atToken name (.undefinedProperty name.lexeme))) m ↔
      c.Lacks xs name.lexeme) ∧
    (¬ c.Lacks xs name.lexeme →
      ∃ f g m', c.Finds xs name.lexeme f ∧ g.BoundTo f i m m' ∧ outcome = .ok (.function g) m')

theorem Class.WasDeclared.answers {xs : List Execution} {c : Class} (h : c.WasDeclared xs)
    (i : Instance) (name : Token) (m : Machine) :
    c.Answers xs i name m (c.methodFor i name m) := by
  rw [Answers, h.lacks_iff]
  cases hf : c.method? name.lexeme with
  | none =>
    rw [methodFor_of_none hf]
    exact ⟨iff_of_true rfl rfl, fun hne => absurd rfl hne⟩
  | some f =>
    obtain ⟨g, m', hbind, hg⟩ := exists_bindMethod f i m
    rw [methodFor_of_some hf, bind_of_ok hbind]
    exact ⟨iff_of_false nofun nofun, fun _ => ⟨f, g, m', h.finds hf, hg, rfl⟩⟩

/-! ## Places in classes -/

/-- The class was declared with these methods when the frame was the next one. -/
def Class.DeclaredAt (xs : List Execution) (c : Class) (methods : List FunDecl) (frame : FrameId) :
    Prop :=
  ∃ x ∈ xs, ∃ μ, During x.setting x.start μ ∧ μ.Declares c methods ∧
    μ.machine.store.freshFrame = frame

namespace Machine

/-- At a place with these origins `this` stands for `i`: the scope of the instance of the innermost
method around it was made when the method was bound to `i`, and holds `i` still. -/
def Receives (xs : List Execution) (m : Machine) (os : List Origin) (i : Instance) : Prop :=
  ∃ d f scope, InMethod os d f ∧ m.scope.ancestor? d = some scope ∧
    m.store.getLocal? scope thisName = some (.instance_ i) ∧
      Given xs scope.frame (.this f) (.instance_ i)

/-- A place with these origins lies in the text of a method of `c`, or in a function or a block
inside it: the innermost method around it is one of those with which `c` was declared, and the
scope around that method was made by this declaration. -/
def LiesIn (xs : List Execution) (m : Machine) (os : List Origin) (c : Class) : Prop :=
  ∃ d f methods scope, InMethod os d f ∧ os[d + 1]? = some (.super methods) ∧ f ∈ methods ∧
    m.scope.ancestor? (d + 1) = some scope ∧ c.DeclaredAt xs methods scope.frame

end Machine

namespace World

variable {W : World} {m : Machine} {st : Static} {os : List Origin} {d : Nat}

theorem At.exists_this (h : W.At m st os) {f : FunDecl} (ho : os[d]? = some (.this f)) :
    ∃ scope i, m.scope.ancestor? d = some scope ∧
      m.store.getLocal? scope thisName = some (.instance_ i) ∧
        W.given scope.frame (.this f) (.instance_ i) := by
  obtain ⟨scope, -, hancestor, -, -, ⟨i, hi, hgiven⟩, -⟩ := Chain.exists_ancestor h ho
  exact ⟨scope, i, hancestor, hi, hgiven⟩

theorem At.exists_super (h : W.At m st os) {methods : List FunDecl}
    (ho : os[d]? = some (.super methods)) :
    ∃ scope c, m.scope.ancestor? d = some scope ∧
      m.store.getLocal? scope superName = some (.class_ c) ∧
        W.given scope.frame (.super methods) (.class_ c) := by
  obtain ⟨scope, -, hancestor, -, -, ⟨c, hc, hgiven⟩, -⟩ := Chain.exists_ancestor h ho
  exact ⟨scope, c, hancestor, hc, hgiven⟩

end World

/-- `this` stands for one instance. -/
theorem Machine.Receives.unique {xs : List Execution} {m : Machine} {os : List Origin}
    {i j : Instance} (h : m.Receives xs os i) (h' : m.Receives xs os j) : i = j := by
  obtain ⟨d, f, scope, hf, hscope, hi, -⟩ := h
  obtain ⟨d', f', scope', hf', hscope', hj, -⟩ := h'
  obtain ⟨rfl, rfl⟩ := hf.unique hf'
  obtain rfl : scope = scope' := Option.some.inj (hscope.symm.trans hscope')
  simpa using hi.symm.trans hj

namespace Lives

variable {s : Session} {xs : List Execution} {x : Execution} {n : Nat} {m : Machine}

/-- The scope for a superclass was made when a class that inherits from it was declared. -/
theorem declaredAt_of_given (h : Lives s xs) {frame : FrameId} {methods : List FunDecl}
    {superclass : Class} (hgiven : Given xs frame (.super methods) (.class_ superclass)) :
    ∃ c : Class, c.superclass? = some superclass ∧ c.DeclaredAt xs methods frame := by
  obtain ⟨y, hy, ⟨k, task, m⟩, hμ, hgives, hframe⟩ := hgiven
  obtain ⟨xs', -, -, -, hgood⟩ := h.goodMoment hy hμ
  cases task with
  | declareClass name superclass? methods' =>
    cases superclass? with
    | none => cases hgives
    | some c =>
      cases hgives
      obtain ⟨-, st, os, hat, -⟩ := hgood
      obtain ⟨own, i, -, -, heq⟩ := exists_declareClass name (some superclass) methods m
      exact ⟨.ofParts own (some superclass), Class.superclass?_ofParts own _, y, hy, _, hμ,
        Moment.declares_ofParts hat.frame_lt heq, hframe⟩
  | _ => cases hgives

/-- A value to which an expression evaluates is good. -/
theorem goodValue_of_evaluate (h : Lives s xs) (hx : x ∈ xs) {e : Expr}
    (hμ : During x.setting x.start ⟨n, .evaluate e, m⟩) {v : Value} {m' : Machine}
    (hv : evaluate x.setting n e m = .ok v m') :
    ∃ xs', (∀ y ∈ xs', y ∈ xs) ∧
      (World.of xs' x.setting.distances x.setting.globals).GoodValue m'.store v := by
  obtain ⟨xs', hxs, hhost, hcovers, hgood⟩ := h.goodMoment hx hμ
  have hleaves := hgood.leaves hhost hcovers
  exact ⟨xs', hxs, (World.Yields.of_ok hleaves hv).2⟩

theorem evaluate_this (h : Lives s xs) (hx : x ∈ xs) {id : NodeId} {keyword : Token}
    (hμ : During x.setting x.start ⟨n + 1, .evaluate (.this id keyword), m⟩) :
    ∃ u ∈ xs, ∃ site ∈ sites u.unit, site.id = id ∧ ∃ i, m.Receives xs site.origins i ∧
      evaluate x.setting (n + 1) (.this id keyword) m = .ok (.instance_ i) m := by
  obtain ⟨xs', hxs, -, -, -, st, os, hat, hkeyword, ⟨⟨u, hu, hsite⟩, hknown⟩, d, f, hd, hf⟩ :=
    h.goodMoment hx hμ
  obtain ⟨scope, i, hscope, hi, y, hy, hgiven⟩ := World.At.exists_this hat hf.here
  refine ⟨u, hxs u hu, _, hsite, rfl, i, ⟨d, f, scope, hf, hscope, hi, y, hxs y hy, hgiven⟩, ?_⟩
  have hdistance : x.setting.distances.distance? id = some d := hknown.trans hd
  have hget : m.store.getAt? m.scope d keyword.lexeme = some (.instance_ i) := by
    rw [hkeyword]
    exact Option.bind_eq_some_iff.mpr ⟨scope, hscope, hi⟩
  rw [evaluate]
  simp only [readVariable, hdistance]
  rw [get_bind, hget]
  rfl

theorem evaluate_super (h : Lives s xs) (hx : x ∈ xs) {id : NodeId} {keyword name : Token}
    (hμ : During x.setting x.start ⟨n + 1, .evaluate (.super id keyword name), m⟩) :
    ∃ u ∈ xs, ∃ site ∈ sites u.unit, site.id = id ∧ ∃ c superclass i,
      m.LiesIn xs site.origins c ∧ c.superclass? = some superclass ∧ m.Receives xs site.origins i ∧
        superclass.Answers xs i name m (evaluate x.setting (n + 1) (.super id keyword name) m) := by
  obtain ⟨xs', hxs, -, -, hσ, st, os, hat, ⟨⟨u, hu, hsite⟩, hknown⟩, d, f, methods, hd, hf, hsuper,
    hmem⟩ := h.goodMoment hx hμ
  obtain ⟨scope, i, hscope, hi, y, hy, hgiven⟩ := World.At.exists_this hat hf.here
  obtain ⟨scope', superclass, hscope', hc, z, hz, hgiven'⟩ := World.At.exists_super hat hsuper
  obtain ⟨c, hsuperclass, hdeclaredAt⟩ := h.declaredAt_of_given ⟨z, hxs z hz, hgiven'⟩
  have hdeclared : superclass.WasDeclared xs :=
    (Class.WasDeclared.of_goodClass (hσ.frames _ _ _ hc) fun _ hb => hb).mono hxs
  refine ⟨u, hxs u hu, _, hsite, rfl, c, superclass, i,
    ⟨d, f, methods, scope', hf, hsuper, hmem, hscope', hdeclaredAt⟩, hsuperclass,
    ⟨d, f, scope, hf, hscope, hi, y, hxs y hy, hgiven⟩, ?_⟩
  -- the instance is one scope further in than the superclass
  have hdistance : x.setting.distances.distance? id = some (d + 1) := hknown.trans hd
  have hget : m.store.getAt? m.scope (d + 1) superName = some (.class_ superclass) :=
    Option.bind_eq_some_iff.mpr ⟨scope', hscope', hc⟩
  have hthis : m.store.getAt? m.scope d thisName = some (.instance_ i) :=
    Option.bind_eq_some_iff.mpr ⟨scope, hscope, hi⟩
  rw [evaluate, superMethod_eq hdistance hget hthis]
  exact hdeclared.answers i name m

theorem evaluate_get (h : Lives s xs) (hx : x ∈ xs) {object : Expr} {name : Token}
    (hμ : During x.setting x.start ⟨n + 1, .evaluate (.get object name), m⟩) {i : Instance}
    {m₁ : Machine} (hi : evaluate x.setting n object m = .ok (.instance_ i) m₁) :
    (∀ v, m₁.store.field? i.record name.lexeme = some v →
      evaluate x.setting (n + 1) (.get object name) m = .ok v m₁) ∧
    (m₁.store.field? i.record name.lexeme = none →
      i.ofClass.Answers xs i name m₁ (evaluate x.setting (n + 1) (.get object name) m)) := by
  obtain ⟨xs', hxs, hgood⟩ := h.goodValue_of_evaluate hx (hμ.tail .object) hi
  have hdeclared : i.ofClass.WasDeclared xs :=
    (Class.WasDeclared.of_goodClass (World.GoodInstance.ofClass hgood) fun _ hb => hb).mono hxs
  have hstep : evaluate x.setting (n + 1) (.get object name) m =
      getProperty (.instance_ i) name m₁ := by
    rw [evaluate]
    exact bind_of_ok hi
  rw [hstep]
  refine ⟨fun v hv => getProperty_of_field hv, fun hnone => ?_⟩
  rw [getProperty_of_no_field hnone]
  exact hdeclared.answers i name m₁

/-- Wherever `this` is evaluated it is the instance of the method around it.  Wherever a method is
called on `super` it is searched for in the superclass with which the class around it was declared,
and it is bound to the instance that `this` stands for.  A property of an instance is its field, and
else a method that is searched for in its class. -/
theorem super_static_this_dynamic (h : Lives s xs) (hx : x ∈ xs) {n : Nat} {m : Machine} :
    (∀ id keyword, During x.setting x.start ⟨n + 1, .evaluate (.this id keyword), m⟩ →
      ∃ u ∈ xs, ∃ site ∈ sites u.unit, site.id = id ∧ ∃ i, m.Receives xs site.origins i ∧
        evaluate x.setting (n + 1) (.this id keyword) m = .ok (.instance_ i) m) ∧
    (∀ id keyword name,
      During x.setting x.start ⟨n + 1, .evaluate (.super id keyword name), m⟩ →
        ∃ u ∈ xs, ∃ site ∈ sites u.unit, site.id = id ∧ ∃ c superclass i,
          m.LiesIn xs site.origins c ∧ c.superclass? = some superclass ∧
            m.Receives xs site.origins i ∧ superclass.Answers xs i name m
              (evaluate x.setting (n + 1) (.super id keyword name) m)) ∧
    ∀ object name i m₁, During x.setting x.start ⟨n + 1, .evaluate (.get object name), m⟩ →
      evaluate x.setting n object m = .ok (.instance_ i) m₁ →
        (∀ v, m₁.store.field? i.record name.lexeme = some v →
          evaluate x.setting (n + 1) (.get object name) m = .ok v m₁) ∧
        (m₁.store.field? i.record name.lexeme = none →
          i.ofClass.Answers xs i name m₁ (evaluate x.setting (n + 1) (.get object name) m)) :=
  ⟨fun _ _ hμ => h.evaluate_this hx hμ, fun _ _ _ hμ => h.evaluate_super hx hμ,
    fun _ _ _ _ hμ hi => h.evaluate_get hx hμ hi⟩

end Lives

/-- The unit `class A{m(){}}class B<A{m(){super.m;}}B().m();`. -/
def Execution.overridingUnit : List Stmt :=
  [.class_ ⟨.identifier, "A", 1⟩ none [⟨⟨.identifier, "m", 1⟩, [], []⟩],
    .class_ ⟨.identifier, "B", 1⟩ (some (.var ⟨0⟩ ⟨.identifier, "A", 1⟩))
      [⟨⟨.identifier, "m", 1⟩, [],
        [.expression (.super ⟨1⟩ ⟨.keyword .super_, "super", 1⟩ ⟨.identifier, "m", 1⟩)]⟩],
    .expression (.call (.get (.call (.var ⟨2⟩ ⟨.identifier, "B", 1⟩) ⟨.symbol .rightParen, ")", 1⟩ [])
      ⟨.identifier, "m", 1⟩) ⟨.symbol .rightParen, ")", 1⟩ [])]

/-- The execution of this unit in a new session. -/
def Execution.overriding : Execution :=
  Session.execution 20 overridingUnit (.new (.new (.clockAt 0) 8 none) none)

theorem Execution.readsAs_overriding :
    Source.ReadsAs 0 "class A\x7bm()\x7b\x7d\x7dclass B<A\x7bm()\x7bsuper.m;\x7d\x7dB().m();"
      overridingUnit :=
  ⟨by decide +kernel, by cbv, by decide⟩

/-- In the method of `B` that overrides that of `A`, `super` leads to the superclass of `B`. -/
theorem Lives.super_static_this_dynamic_in_override : ∃ (s : Session) (m : Machine),
    Lives s [.overriding] ∧
      During Execution.overriding.setting Execution.overriding.start
        ⟨10, .evaluate (.super ⟨1⟩ ⟨.keyword .super_, "super", 1⟩ ⟨.identifier, "m", 1⟩), m⟩ ∧
      ∃ u ∈ [Execution.overriding], ∃ site ∈ sites u.unit, site.id = ⟨1⟩ ∧ ∃ c superclass i,
        m.LiesIn [.overriding] site.origins c ∧ c.superclass? = some superclass ∧
          m.Receives [.overriding] site.origins i ∧
            superclass.Answers [.overriding] i ⟨.identifier, "m", 1⟩ m
              (evaluate Execution.overriding.setting 10
                (.super ⟨1⟩ ⟨.keyword .super_, "super", 1⟩ ⟨.identifier, "m", 1⟩) m) := by
  have hlives : Lives _ [Execution.overriding] :=
    (Lives.new 0 8 none none).executed 20 Execution.readsAs_overriding
  have hcall : During Execution.overriding.setting Execution.overriding.start ⟨15, .call _ _ [], _⟩ :=
    .head (.rest rfl) (.head (.rest rfl) (.head .first (.head .expression (.single (.call rfl rfl)))))
  have hduring : During Execution.overriding.setting Execution.overriding.start
      ⟨10, .evaluate (.super ⟨1⟩ ⟨.keyword .super_, "super", 1⟩ ⟨.identifier, "m", 1⟩), _⟩ :=
    hcall.trans (.head (.enter rfl (by decide))
      (.head .run (.head .body (.head .first (.single .expression)))))
  exact ⟨_, _, hlives, hduring,
    (hlives.super_static_this_dynamic List.mem_cons_self).2.1 _ _ _ hduring⟩

end LoxWalk
