import LoxWalk.Proofs.Binding.Fitting
import LoxWalk.Proofs.Execution.Declarations

/-!
# Scopes that match the text

`World.Chain` relates a scope of a running program to a place of the text: frame by frame the scope
was opened for the origins around the place, and it binds the names that are declared there.  A value
is good when every function that can be reached through it would run in such a scope, and when it
came into being like all others (`World.GoodValue`): its classes were declared, its record exists,
and an initializer has an instance.  A store is good when all values in it are.

None of this gets lost while a program runs, because frames are only ever added, names stay bound,
and nothing ever changes what `this` and `super` stand for (`Store.Evolves`).
-/

namespace LoxWalk

/-! ## How stores change -/

namespace Store

/-- Frames, records and names stay, and so does what `this` and `super` stand for. -/
structure Evolves (σ σ' : Store) : Prop where
  size : σ.frames.size ≤ σ'.frames.size
  records : σ.records.size ≤ σ'.records.size
  contains : ∀ f x, (σ.frame f).contains x = true → (σ'.frame f).contains x = true
  own : ∀ f x v, x = thisName ∨ x = superName → (σ.frame f).get? x = some v →
    (σ'.frame f).get? x = some v

namespace Evolves

variable {σ σ₁ σ' : Store}

theorem refl (σ : Store) : σ.Evolves σ :=
  ⟨Nat.le_refl _, Nat.le_refl _, fun _ _ h => h, fun _ _ _ _ h => h⟩

theorem trans (h : σ.Evolves σ₁) (h' : σ₁.Evolves σ') : σ.Evolves σ' :=
  ⟨Nat.le_trans h.size h'.size, Nat.le_trans h.records h'.records,
    fun f x hx => h'.contains f x (h.contains f x hx),
    fun f x v hx hv => h'.own f x v hx (h.own f x v hx hv)⟩

/-- A change that leaves the frames alone. -/
theorem of_frames (h : σ'.frames = σ.frames) (hrecords : σ.records.size ≤ σ'.records.size) :
    σ.Evolves σ' := by
  have hf : ∀ f, σ'.frame f = σ.frame f := fun f => by rw [frame, h, frame]
  exact ⟨Nat.le_of_eq (by rw [h]), hrecords, fun f x hx => by rwa [hf],
    fun f x v _ hv => by rwa [hf]⟩

end Evolves

/-! ### Frames -/

theorem frame_addFrame_self (σ : Store) (b : Bindings) : (σ.addFrame b).frame σ.freshFrame = b := by
  simp [frame, addFrame, freshFrame]

theorem frame_addFrame_of_lt (σ : Store) (b : Bindings) {f : FrameId}
    (h : f.index < σ.frames.size) : (σ.addFrame b).frame f = σ.frame f := by
  simp only [frame, addFrame, Array.getElem?_push_lt h, Array.getElem?_eq_getElem h]

theorem lt_size_of_get? {σ : Store} {f : FrameId} {x : String} {v : Value}
    (h : (σ.frame f).get? x = some v) : f.index < σ.frames.size := by
  refine Nat.lt_of_not_le fun hle => ?_
  rw [frame, Array.getElem?_eq_none hle] at h
  cases h

theorem lt_size_of_contains {σ : Store} {f : FrameId} {x : String}
    (h : (σ.frame f).contains x = true) : f.index < σ.frames.size := by
  obtain ⟨v, hv⟩ := Option.isSome_iff_exists.mp h
  exact lt_size_of_get? hv

theorem get?_frame_define (σ : Store) (scope : Scope) (name : String) (v : Value) (f : FrameId)
    (x : String) :
    ((σ.define scope name v).frame f).get? x =
      if scope.frame = f ∧ name = x ∧ f.index < σ.frames.size then some v
      else (σ.frame f).get? x := by
  unfold frame
  rw [getElem?_frames_define]
  by_cases hf : scope.frame = f
  · subst hf
    by_cases hlt : scope.frame.index < σ.frames.size
    · simp [NameMap.get?_insert, hlt]
    · simp [hlt]
  · have hne : scope.frame.index ≠ f.index := fun he =>
      hf (by cases hs : scope.frame; cases f; simp_all)
    simp [hf, hne]

theorem size_frames_define (σ : Store) (scope : Scope) (name : String) (v : Value) :
    (σ.define scope name v).frames.size = σ.frames.size := by
  simp [define]

namespace Evolves

theorem define (σ : Store) (scope : Scope) {name : String} (v : Value)
    (hname : name ≠ thisName ∧ name ≠ superName) : σ.Evolves (σ.define scope name v) := by
  refine ⟨Nat.le_of_eq (size_frames_define _ _ _ _).symm, Nat.le_refl _, fun f x hx => ?_,
    fun f x w hx hw => ?_⟩
  · rw [NameMap.contains, get?_frame_define]
    split
    · rfl
    · exact hx
  · rw [get?_frame_define, if_neg]
    · exact hw
    · rintro ⟨-, rfl, -⟩
      exact hx.elim hname.1 hname.2

theorem withObjects (σ : Store) (k : Nat) : σ.Evolves { σ with nextObject := k } :=
  .of_frames rfl (Nat.le_refl _)

theorem addRecord (σ : Store) : σ.Evolves σ.addRecord :=
  .of_frames rfl (by simp [Store.addRecord])

theorem setField (σ : Store) (r : RecordId) (name : String) (v : Value) :
    σ.Evolves (σ.setField r name v) :=
  .of_frames rfl (by simp [Store.setField])

theorem addFrame (σ : Store) (b : Bindings) : σ.Evolves (σ.addFrame b) := by
  refine ⟨by simp [Store.addFrame], Nat.le_refl _, fun f x hx => ?_, fun f x v _ hv => ?_⟩
  · rwa [frame_addFrame_of_lt _ _ (lt_size_of_contains hx)]
  · rwa [frame_addFrame_of_lt _ _ (lt_size_of_get? hv)]

end Evolves

end Store

/-! ## Worlds -/

/-- What is taken for granted about an execution: what is known about the references of the code,
which of them may be assigned while their variable awaits its initializer, which frames were opened
for what and which instance or superclass they were given, which classes were declared, and the
top-level scope. -/
structure World where
  known : Site → Prop
  pending : String → NodeId → Prop
  made : FrameId → Origin → Prop
  given : FrameId → Origin → Value → Prop
  declared : Class → Prop
  globals : Scope

namespace World

variable (W : World)

/-- A frame that was opened for an instance or for a superclass still holds what it was given. -/
def Holds (σ : Store) (f : FrameId) : Origin → Prop
  | .this g =>
    ∃ i, (σ.frame f).get? thisName = some (.instance_ i) ∧ W.given f (.this g) (.instance_ i)
  | .super fs =>
    ∃ c, (σ.frame f).get? superName = some (.class_ c) ∧ W.given f (.super fs) (.class_ c)
  | _ => True

/-- A scope matches the scopes of a place of the text, which are opened for the given origins. -/
inductive Chain (σ : Store) : Scope → List (NameMap Bool) → List Origin → Prop where
  | top (hlt : W.globals.frame.index < σ.frames.size) : Chain σ W.globals [] []
  | inside {f : FrameId} {outer : Scope} {names : NameMap Bool} {o : Origin}
      {scopes : List (NameMap Bool)} {os : List Origin} (hlt : f.index < σ.frames.size)
      (hmade : W.made f o) (hholds : W.Holds σ f o)
      (hnames : ∀ x, names.contains x = true → (σ.frame f).contains x = true)
      (houter : Chain σ outer scopes os) :
      Chain σ (.inside f outer) (names :: scopes) (o :: os)

/-- Code at the place `st` runs in the scope. -/
def Runs (σ : Store) (scope : Scope) (st : Static) (os : List Origin) : Prop :=
  W.Chain σ scope st.scopes os

/-- A function fits the scope in which it was declared; an initializer has its instance there. -/
structure GoodFunction (σ : Store) (f : Closure) : Prop where
  fits : ∃ st context os, W.Runs σ f.scope st os ∧ context ≠ .topLevel ∧
    Stmt.FunFits W.known W.pending st context os f.decl
  bound : f.isInitializer = true → W.Holds σ f.scope.frame (.this f.decl)

/-- A method fits the scope of its class with one more scope inside for the instance; it is an
initializer if it has that name. -/
structure GoodMethod (σ : Store) (f : Closure) : Prop where
  fits : ∃ st context names scopes os, W.Chain σ f.scope scopes os ∧ st.scopes = names :: scopes ∧
    (∀ x, names.contains x = true → x = thisName) ∧ context ≠ .topLevel ∧
      Stmt.FunFits W.known W.pending st context (.this f.decl :: os) f.decl
  initializer : f.isInitializer = f.decl.isInitializer

/-- A class and those above it were declared, and all their methods are good. -/
structure GoodClass (σ : Store) (c : Class) : Prop where
  methods : ∀ own ∈ c.lineage, ∀ x f, own.methods.get? x = some f → W.GoodMethod σ f
  declared : ∀ d ∈ c.upwards, W.declared d

/-- An instance has a record and a good class. -/
structure GoodInstance (σ : Store) (i : Instance) : Prop where
  record : i.record.index < σ.records.size
  ofClass : W.GoodClass σ i.ofClass

/-- All functions and classes of a value are good, and what belongs to it exists. -/
def GoodValue (σ : Store) : Value → Prop
  | .function f => W.GoodFunction σ f
  | .class_ c => W.GoodClass σ c
  | .instance_ i => W.GoodInstance σ i
  | _ => True

/-- All values in a store are good. -/
structure GoodStore (σ : Store) : Prop where
  frames : ∀ f x v, (σ.frame f).get? x = some v → W.GoodValue σ v
  fields : ∀ r x v, σ.field? r x = some v → W.GoodValue σ v

variable {W} {σ σ' : Store} {scope : Scope} {scopes : List (NameMap Bool)} {os : List Origin}

/-! ### Nothing gets lost -/

theorem Holds.mono (hσ : σ.Evolves σ') {f : FrameId} {o : Origin} (h : W.Holds σ f o) :
    W.Holds σ' f o := by
  cases o with
  | this =>
    obtain ⟨i, hi, hgiven⟩ := h
    exact ⟨i, hσ.own _ _ _ (.inl rfl) hi, hgiven⟩
  | super =>
    obtain ⟨c, hc, hgiven⟩ := h
    exact ⟨c, hσ.own _ _ _ (.inr rfl) hc, hgiven⟩
  | _ => trivial

theorem Chain.mono (hσ : σ.Evolves σ') (h : W.Chain σ scope scopes os) :
    W.Chain σ' scope scopes os := by
  induction h with
  | top hlt => exact .top (Nat.lt_of_lt_of_le hlt hσ.size)
  | inside hlt hmade hholds hnames _ ih =>
    exact .inside (Nat.lt_of_lt_of_le hlt hσ.size) hmade (hholds.mono hσ)
      (fun x hx => hσ.contains _ _ (hnames x hx)) ih

theorem Chain.frame_lt (h : W.Chain σ scope scopes os) : scope.frame.index < σ.frames.size := by
  cases h with
  | top hlt => exact hlt
  | inside hlt => exact hlt

/-- Going out from a scope leads from one origin to the next. -/
theorem Chain.exists_ancestor (h : W.Chain σ scope scopes os) {d : Nat} {o : Origin}
    (ho : os[d]? = some o) : ∃ outer names, scope.ancestor? d = some outer ∧
      scopes[d]? = some names ∧ W.made outer.frame o ∧ W.Holds σ outer.frame o ∧
        ∀ x, names.contains x = true → σ.declares outer x = true := by
  induction h generalizing d with
  | top => cases ho
  | @inside f outer names _ _ _ hlt hmade hholds hnames _ ih =>
    cases d with
    | zero =>
      cases ho
      exact ⟨.inside f outer, names, rfl, rfl, hmade, hholds, hnames⟩
    | succ d => exact ih ho

theorem Chain.length_eq (h : W.Chain σ scope scopes os) : scopes.length = os.length := by
  induction h with
  | top => rfl
  | inside _ _ _ _ _ ih => rw [List.length_cons, List.length_cons, ih]

/-- A new frame inside a scope that matches. -/
theorem Chain.addFrame (h : W.Chain σ scope scopes os) {b : Bindings} {names : NameMap Bool}
    {o : Origin} (hmade : W.made σ.freshFrame o) (hholds : W.Holds (σ.addFrame b) σ.freshFrame o)
    (hnames : ∀ x, names.contains x = true → b.contains x = true) :
    W.Chain (σ.addFrame b) (.inside σ.freshFrame scope) (names :: scopes) (o :: os) := by
  have hlt : σ.freshFrame.index < (σ.addFrame b).frames.size := by
    simp [Store.addFrame, Store.freshFrame]
  refine .inside hlt hmade hholds (fun x hx => ?_) (h.mono (.addFrame _ _))
  rw [Store.frame_addFrame_self]
  exact hnames x hx

theorem GoodFunction.mono (hσ : σ.Evolves σ') {f : Closure} (h : W.GoodFunction σ f) :
    W.GoodFunction σ' f := by
  obtain ⟨⟨st, context, os, hruns, hrest⟩, hbound⟩ := h
  exact ⟨⟨st, context, os, Chain.mono hσ hruns, hrest⟩, fun hf => (hbound hf).mono hσ⟩

theorem GoodMethod.mono (hσ : σ.Evolves σ') {f : Closure} (h : W.GoodMethod σ f) :
    W.GoodMethod σ' f := by
  obtain ⟨⟨st, context, names, scopes, os, hchain, hrest⟩, hinit⟩ := h
  exact ⟨⟨st, context, names, scopes, os, hchain.mono hσ, hrest⟩, hinit⟩

theorem GoodClass.mono (hσ : σ.Evolves σ') {c : Class} (h : W.GoodClass σ c) : W.GoodClass σ' c :=
  ⟨fun own hown x f hf => (h.methods own hown x f hf).mono hσ, h.declared⟩

theorem GoodInstance.mono (hσ : σ.Evolves σ') {i : Instance} (h : W.GoodInstance σ i) :
    W.GoodInstance σ' i :=
  ⟨Nat.lt_of_lt_of_le h.record hσ.records, h.ofClass.mono hσ⟩

theorem GoodValue.mono (hσ : σ.Evolves σ') {v : Value} (h : W.GoodValue σ v) :
    W.GoodValue σ' v := by
  cases v with
  | function f => exact GoodFunction.mono hσ h
  | class_ c => exact GoodClass.mono hσ h
  | instance_ i => exact GoodInstance.mono hσ h
  | _ => trivial

theorem GoodClass.method {c : Class} (h : W.GoodClass σ c) {x : String} {f : Closure}
    (hf : c.method? x = some f) : W.GoodMethod σ f := by
  rw [Class.method?_eq_findSome?] at hf
  obtain ⟨own, hown, hf⟩ := List.exists_of_findSome?_eq_some hf
  exact h.methods own hown x f hf

/-! ### Changes of a good store -/

namespace GoodStore

theorem empty : W.GoodStore .empty := by
  refine ⟨fun f x v hv => ?_, fun r x v hv => ?_⟩
  · have hlt := Store.lt_size_of_get? hv
    cases hlt
  · unfold Store.field? Store.empty at hv
    rw [Array.getElem?_empty] at hv
    cases hv

/-- The value has to be good when the name is bound; it may be a function that calls itself. -/
theorem define (h : W.GoodStore σ) (scope : Scope) {name : String}
    (hname : name ≠ thisName ∧ name ≠ superName) {v : Value}
    (hv : W.GoodValue (σ.define scope name v) v) : W.GoodStore (σ.define scope name v) := by
  have hσ := Store.Evolves.define σ scope v hname
  refine ⟨fun f x w hw => ?_, fun r x w hw => (h.fields r x w hw).mono hσ⟩
  rw [Store.get?_frame_define] at hw
  split at hw
  · cases hw
    exact hv
  · exact (h.frames f x w hw).mono hσ

theorem addFrame (h : W.GoodStore σ) {b : Bindings}
    (hb : ∀ x v, b.get? x = some v → W.GoodValue σ v) : W.GoodStore (σ.addFrame b) := by
  have hσ := Store.Evolves.addFrame σ b
  refine ⟨fun f x w hw => ?_, fun r x w hw => (h.fields r x w hw).mono hσ⟩
  have hlt := Store.lt_size_of_get? hw
  rw [Store.addFrame, Array.size_push] at hlt
  by_cases hf : f.index < σ.frames.size
  · rw [Store.frame_addFrame_of_lt _ _ hf] at hw
    exact (h.frames f x w hw).mono hσ
  · obtain rfl : f = σ.freshFrame := by
      have hindex : f.index = σ.frames.size := by omega
      rw [Store.freshFrame, ← hindex]
    rw [Store.frame_addFrame_self] at hw
    exact (hb x w hw).mono hσ

theorem withObjects (h : W.GoodStore σ) (k : Nat) : W.GoodStore { σ with nextObject := k } := by
  have hσ := Store.Evolves.withObjects σ k
  exact ⟨fun f x w hw => (h.frames f x w hw).mono hσ, fun r x w hw => (h.fields r x w hw).mono hσ⟩

theorem useObject (h : W.GoodStore σ) : W.GoodStore σ.useObject :=
  h.withObjects _

theorem addRecord (h : W.GoodStore σ) : W.GoodStore σ.addRecord := by
  have hσ := Store.Evolves.addRecord σ
  refine ⟨fun f x w hw => (h.frames f x w hw).mono hσ, fun r x w hw => ?_⟩
  have hfield : σ.field? r x = some w := by
    unfold Store.field? Store.addRecord at *
    by_cases hr : r.index < σ.records.size
    · rwa [Array.getElem?_push_lt hr, ← Array.getElem?_eq_getElem hr] at hw
    · simp only [Array.getElem?_push] at hw
      split at hw
      · cases hw
      · exact hw
  exact (h.fields r x w hfield).mono hσ

theorem setField (h : W.GoodStore σ) (r : RecordId) (name : String) {v : Value}
    (hv : W.GoodValue σ v) : W.GoodStore (σ.setField r name v) := by
  have hσ := Store.Evolves.setField σ r name v
  refine ⟨fun f x w hw => (h.frames f x w hw).mono hσ, fun r' x w hw => ?_⟩
  have hfield : w = v ∨ σ.field? r' x = some w := by
    unfold Store.field? Store.setField at *
    rw [Array.getElem?_modify] at hw
    split at hw
    · cases hr : σ.records[r'.index]? with
      | none => simp [hr] at hw
      | some b =>
        rw [hr] at hw
        simp only [Option.map_some, Option.getD_some, NameMap.get?_insert] at hw
        split at hw
        · cases hw
          exact .inl rfl
        · exact .inr (by simpa using hw)
    · exact .inr hw
  rcases hfield with rfl | hfield
  · exact hv.mono hσ
  · exact (h.fields r' x w hfield).mono hσ

end GoodStore

/-! ### From one world to another -/

/-- What `W` says of code that lasts holds in `W'`. -/
structure Lasting (W W' : World) : Prop where
  code : Lasts W.known W.pending W'.known W'.pending
  made : ∀ f o, W.made f o → W'.made f o
  given : ∀ f o v, W.given f o v → W'.given f o v
  declared : ∀ c, W.declared c → W'.declared c
  globals : W'.globals = W.globals

namespace Lasting

variable {W' : World}

theorem holds (h : Lasting W W') {f : FrameId} {o : Origin} (hf : W.Holds σ f o) :
    W'.Holds σ f o := by
  cases o with
  | this =>
    obtain ⟨i, hi, hgiven⟩ := hf
    exact ⟨i, hi, h.given _ _ _ hgiven⟩
  | super =>
    obtain ⟨c, hc, hgiven⟩ := hf
    exact ⟨c, hc, h.given _ _ _ hgiven⟩
  | _ => trivial

theorem chain (h : Lasting W W') (hc : W.Chain σ scope scopes os) :
    W'.Chain σ scope scopes os := by
  induction hc with
  | top hlt =>
    rw [← h.globals] at hlt ⊢
    exact .top hlt
  | inside hlt hmade hholds hnames _ ih =>
    exact .inside hlt (h.made _ _ hmade) (h.holds hholds) hnames ih

theorem goodFunction (h : Lasting W W') {f : Closure} (hf : W.GoodFunction σ f) :
    W'.GoodFunction σ f := by
  obtain ⟨⟨st, context, os, hruns, hcontext, hfits⟩, hbound⟩ := hf
  exact ⟨⟨st, context, os, h.chain hruns, hcontext, h.code.function hcontext _ hfits⟩,
    fun hinit => h.holds (hbound hinit)⟩

theorem goodMethod (h : Lasting W W') {f : Closure} (hf : W.GoodMethod σ f) :
    W'.GoodMethod σ f := by
  obtain ⟨⟨st, context, names, scopes, os, hchain, hst, hnames, hcontext, hfits⟩, hinit⟩ := hf
  exact ⟨⟨st, context, names, scopes, os, h.chain hchain, hst, hnames, hcontext,
    h.code.function hcontext _ hfits⟩, hinit⟩

theorem goodClass (h : Lasting W W') {c : Class} (hc : W.GoodClass σ c) : W'.GoodClass σ c :=
  ⟨fun own hown x f hf => h.goodMethod (hc.methods own hown x f hf),
    fun d hd => h.declared d (hc.declared d hd)⟩

theorem goodValue (h : Lasting W W') {v : Value} (hv : W.GoodValue σ v) : W'.GoodValue σ v := by
  cases v with
  | function f => exact h.goodFunction hv
  | class_ c => exact h.goodClass hv
  | instance_ i => exact ⟨hv.record, h.goodClass hv.ofClass⟩
  | _ => trivial

theorem goodStore (h : Lasting W W') (hσ : W.GoodStore σ) : W'.GoodStore σ :=
  ⟨fun f x v hv => h.goodValue (hσ.frames f x v hv),
    fun r x v hv => h.goodValue (hσ.fields r x v hv)⟩

end Lasting

end World

end LoxWalk
