import LoxWalk.Proofs.Execution.World
import LoxWalk.Proofs.Simulation.Code

/-!
# Machines that run twins

Two programs that differ as a `Twin` says are run side by side.  Frames and records come into being
at the same time in both, so a scope of one is a scope of the other; a list of flags `W`, one for each
frame, tells in which frames the names differ.  The list only grows while the programs run, and
whatever is related stays related (`Twin.Values.mono`).
-/

namespace LoxWalk

namespace Store

theorem frame_of_size_le {σ : Store} {f : FrameId} (h : σ.frames.size ≤ f.index) :
    σ.frame f = .empty := by
  rw [frame, Array.getElem?_eq_none h]
  rfl

theorem field?_addRecord (σ : Store) (r : RecordId) (x : String) :
    σ.addRecord.field? r x = σ.field? r x := by
  unfold field? addRecord
  rw [Array.getElem?_push]
  split
  · rename_i hr
    rw [hr, Array.getElem?_eq_none (Nat.le_refl _)]
    rfl
  · rfl

theorem field?_setField (σ : Store) (r r' : RecordId) (x y : String) (v : Value) :
    (σ.setField r x v).field? r' y =
      if r = r' ∧ x = y ∧ r.index < σ.records.size then some v else σ.field? r' y := by
  unfold field? setField
  rw [Array.getElem?_modify]
  by_cases hr : r = r'
  · subst hr
    by_cases hlt : r.index < σ.records.size
    · simp [NameMap.get?_insert, hlt]
    · simp [hlt]
  · have hne : r.index ≠ r'.index := fun he => hr (by cases r; cases r'; simp_all)
    simp [hr, hne]

theorem frame_mem_of_owner? {σ : Store} {scope outer : Scope} {x : String}
    (h : σ.owner? scope x = some outer) : outer.frame ∈ scope.frames := by
  induction scope with
  | root f =>
    rw [owner?] at h
    split at h <;> cases h
    exact List.mem_singleton_self f
  | inside f inner ih =>
    rw [owner?] at h
    split at h
    · cases h
      exact List.mem_cons_self
    · exact List.mem_cons_of_mem _ (ih h)

end Store

namespace Twin

variable (T : Twin)

/-- The flag of a frame. -/
def frameFlag (W : List Bool) (f : FrameId) : Bool :=
  W[f.index]?.getD false

/-- The frames of a scope have the given flags. -/
def Flags (W : List Bool) (scope : Scope) (flags : List Bool) : Prop :=
  scope.frames.map (W[·.index]?) = flags.map some

/-! ## Values -/

/-- Functions that were declared in the same scope; `inner` are the flags of the scopes that will be
opened around the function before it runs. -/
structure Closures (W : List Bool) (inner : List Bool) (f f' : Closure) : Prop where
  id : f'.id = f.id
  scope : f'.scope = f.scope
  isInitializer : f'.isInitializer = f.isInitializer
  code : ∃ flags, Flags W f.scope flags ∧ Stmt.FunTwins T (inner ++ flags) f.decl f'.decl

/-- What two classes declare themselves. -/
structure Bodies (W : List Bool) (c c' : ClassBody) : Prop where
  id : c'.id = c.id
  name : c'.name = c.name
  methods : ∀ x, Option.Rel (T.Closures W [false]) (c.methods.get? x) (c'.methods.get? x)

/-- Classes with everything that they inherit. -/
def Classes (W : List Bool) (c c' : Class) : Prop :=
  List.Forall₂ (T.Bodies W) c.lineage c'.lineage

/-- Two values. -/
inductive Values (W : List Bool) : Value → Value → Prop where
  | nil : Values W .nil .nil
  | bool (b : Bool) : Values W (.bool b) (.bool b)
  | number (x : Float) : Values W (.number x) (.number x)
  | string (s : String) : Values W (.string s) (.string s)
  | native (f : Native) : Values W (.native f) (.native f)
  | function {f f' : Closure} (h : T.Closures W [] f f') : Values W (.function f) (.function f')
  | class_ {c c' : Class} (h : T.Classes W c c') : Values W (.class_ c) (.class_ c')
  | instance_ {i i' : Instance} (hr : i'.record = i.record) (h : T.Classes W i.ofClass i'.ofClass) :
      Values W (.instance_ i) (.instance_ i')

/-! ## Stores and machines -/

/-- Two stores. -/
structure Stores (W : List Bool) (σ σ' : Store) : Prop where
  size : σ.frames.size = W.length
  size' : σ'.frames.size = W.length
  frames : ∀ f x, Option.Rel (T.Values W) ((σ.frame f).get? x)
    ((σ'.frame f).get? (T.name (frameFlag W f) x))
  records : σ'.records.size = σ.records.size
  fields : ∀ r x, Option.Rel (T.Values W) (σ.field? r x) (σ'.field? r x)
  nextObject : σ'.nextObject = σ.nextObject

/-- Two machines. -/
structure Machines (W : List Bool) (m m' : Machine) : Prop where
  store : T.Stores W m.store m'.store
  scope : m'.scope = m.scope
  callDepth : m'.callDepth = m.callDepth
  output : m'.output = m.output
  globals : ∀ f ∈ T.globals.frames, W[f.index]? = some false

/-- What stays the same while two units run. -/
structure Settings (s s' : Setting) : Prop where
  globals : s.globals = T.globals
  globals' : s'.globals = T.globals
  maxCallDepth : s'.maxCallDepth = s.maxCallDepth
  host : ∃ now, s.host = .clockAt now ∧ s'.host = .clockAt now
  distances : ∀ x id id' d, T.known x id id' d →
    s.distances.distance? id = d ∧ s'.distances.distance? id' = d

variable {T} {W W' : List Bool}

/-! ## Flags -/

theorem getElem?_mono (hW : W <+: W') {i : Nat} {flag : Bool} (h : W[i]? = some flag) :
    W'[i]? = some flag := by
  obtain ⟨new, rfl⟩ := hW
  rw [List.getElem?_append_left (List.getElem?_eq_some_iff.mp h).1, h]

theorem Flags.mono (hW : W <+: W') {scope : Scope} {flags : List Bool}
    (h : Flags W scope flags) : Flags W' scope flags := by
  rw [Flags, ← h]
  refine List.map_congr_left fun f hf => ?_
  have hmem : W[f.index]? ∈ flags.map some := h ▸ List.mem_map_of_mem hf
  obtain ⟨flag, -, hflag⟩ := List.mem_map.mp hmem
  rw [← hflag, getElem?_mono hW hflag.symm]

theorem Flags.inside {f : FrameId} {outer : Scope} {flag : Bool} {flags : List Bool}
    (hf : W[f.index]? = some flag) (h : Flags W outer flags) :
    Flags W (.inside f outer) (flag :: flags) := by
  rw [Flags, Scope.frames, List.map_cons, List.map_cons, hf, h]

/-- The flag of the frame at a distance. -/
theorem Flags.frameFlag_ancestor {scope outer : Scope} {flags : List Bool} {d : Nat}
    (h : Flags W scope flags) (hd : scope.ancestor? d = some outer) :
    frameFlag W outer.frame = flagAt flags (some d) := by
  have hframe : scope.frames[d]? = some outer.frame := by
    rw [← Scope.map_frame_ancestor?, hd]
    rfl
  have hflag : (flags.map some)[d]? = some W[outer.frame.index]? := by
    rw [← h, List.getElem?_map, hframe]
    rfl
  rw [List.getElem?_map] at hflag
  obtain ⟨flag, hflag, heq⟩ := Option.map_eq_some_iff.mp hflag
  rw [frameFlag, flagAt, Option.bind_some, hflag, ← heq]

theorem Flags.frameFlag_here {scope : Scope} {flags : List Bool} (h : Flags W scope flags) :
    frameFlag W scope.frame = flagHere flags := by
  have hancestor : scope.ancestor? 0 = some scope := by cases scope <;> rfl
  rw [h.frameFlag_ancestor hancestor, flagAt, flagHere, List.head?_eq_getElem?]
  rfl

/-! ## Nothing gets lost -/

theorem rel_mono {α β : Type} {r r' : α → β → Prop} (h : ∀ a b, r a b → r' a b) {a : Option α}
    {b : Option β} (hab : Option.Rel r a b) : Option.Rel r' a b := by
  cases hab with
  | some hab => exact .some (h _ _ hab)
  | none => exact .none

theorem Closures.mono (hW : W <+: W') {inner : List Bool} {f f' : Closure}
    (h : T.Closures W inner f f') : T.Closures W' inner f f' := by
  obtain ⟨flags, hflags, hcode⟩ := h.code
  exact ⟨h.id, h.scope, h.isInitializer, flags, hflags.mono hW, hcode⟩

theorem Bodies.mono (hW : W <+: W') {c c' : ClassBody} (h : T.Bodies W c c') : T.Bodies W' c c' :=
  ⟨h.id, h.name, fun x => rel_mono (fun _ _ hf => hf.mono hW) (h.methods x)⟩

theorem Classes.mono (hW : W <+: W') {c c' : Class} (h : T.Classes W c c') : T.Classes W' c c' :=
  List.Forall₂.imp (fun _ _ hb => hb.mono hW) h

theorem Values.mono (hW : W <+: W') {v v' : Value} (h : T.Values W v v') : T.Values W' v v' := by
  cases h with
  | nil => exact .nil
  | bool b => exact .bool b
  | number x => exact .number x
  | string s => exact .string s
  | native f => exact .native f
  | function h => exact .function (h.mono hW)
  | class_ h => exact .class_ (h.mono hW)
  | instance_ hr h => exact .instance_ hr (h.mono hW)

theorem allValues_mono (hW : W <+: W') {vs vs' : List Value}
    (h : List.Forall₂ (T.Values W) vs vs') : List.Forall₂ (T.Values W') vs vs' :=
  h.imp fun _ _ hv => hv.mono hW

/-! ## What values tell -/

namespace Classes

variable {c c' : Class}

theorem own (h : T.Classes W c c') : T.Bodies W c.own c'.own := by
  unfold Classes at h
  cases c <;> cases c' <;> cases h <;> assumption

theorem method (h : T.Classes W c c') (x : String) :
    Option.Rel (T.Closures W [false]) (c.method? x) (c'.method? x) :=
  Class.rel_method? h fun _ _ hb => hb.methods x

end Classes

theorem Closures.arity {inner : List Bool} {f f' : Closure} (h : T.Closures W inner f f') :
    f'.arity = f.arity := by
  obtain ⟨_, _, hcode⟩ := h.code
  obtain ⟨id, ⟨name, params, body⟩, scope, isInitializer⟩ := f
  obtain ⟨_, _, params', _, hdecl, -, hparams, -⟩ := hcode
  rw [Closure.arity, Closure.arity, hdecl]
  exact hparams.length_eq.symm

theorem Closures.name {inner : List Bool} {f f' : Closure} (h : T.Closures W inner f f') :
    f'.name = f.name := by
  obtain ⟨_, _, hcode⟩ := h.code
  obtain ⟨id, ⟨name, params, body⟩, scope, isInitializer⟩ := f
  obtain ⟨_, _, _, _, hdecl, hname, -⟩ := hcode
  rw [Closure.name, Closure.name, hdecl]
  exact hname.lexeme

namespace Values

variable {v v' w w' : Value}

theorem isTruthy_eq (h : T.Values W v v') : v'.isTruthy = v.isTruthy := by
  cases h <;> rfl

theorem text_eq (h : T.Values W v v') : v'.text = v.text := by
  cases h with
  | function h => rw [Value.text, Value.text, h.name]
  | class_ h => exact h.own.name
  | instance_ _ h => rw [Value.text, Value.text, h.own.name]
  | _ => rfl

theorem arity?_eq (h : T.Values W v v') : v'.arity? = v.arity? := by
  cases h with
  | function h => exact congrArg some h.arity
  | @class_ c c' h =>
    have hm := h.method initializerName
    rw [Value.arity?, Value.arity?]
    revert hm
    cases c.method? initializerName <;> cases c'.method? initializerName <;> intro hm <;> cases hm
    · rfl
    · rename_i hf
      exact congrArg some hf.arity
  | _ => rfl

theorem equals_eq (h : T.Values W v v') (hw : T.Values W w w') : v'.equals w' = v.equals w := by
  cases h with
  | function h =>
    cases hw with
    | function hw => rw [Value.equals, Value.equals, h.id, hw.id]
    | _ => rfl
  | class_ h =>
    cases hw with
    | class_ hw => rw [Value.equals, Value.equals, h.own.id, hw.own.id]
    | _ => rfl
  | instance_ hr h =>
    cases hw with
    | instance_ hr' hw => rw [Value.equals, Value.equals, hr, hr']
    | _ => rfl
  | _ => cases hw <;> rfl

end Values

/-! ## Changes of stores -/

namespace Stores

variable {σ σ' : Store} {v v' : Value}

/-- A value that is found. -/
theorem getLocal? (h : T.Stores W σ σ') (scope : Scope) (x : String) :
    Option.Rel (T.Values W) (σ.getLocal? scope x)
      (σ'.getLocal? scope (T.name (frameFlag W scope.frame) x)) :=
  h.frames scope.frame x

theorem declares_eq (h : T.Stores W σ σ') (scope : Scope) (x : String) :
    σ'.declares scope (T.name (frameFlag W scope.frame) x) = σ.declares scope x := by
  have hx := h.frames scope.frame x
  unfold Store.declares NameMap.contains
  revert hx
  cases (σ.frame scope.frame).get? x <;>
    cases (σ'.frame scope.frame).get? (T.name (frameFlag W scope.frame) x) <;>
      intro hx <;> cases hx <;> rfl

theorem define (h : T.Stores W σ σ') (hv : T.Values W v v') (scope : Scope) (x : String) :
    T.Stores W (σ.define scope x v)
      (σ'.define scope (T.name (frameFlag W scope.frame) x) v') := by
  refine ⟨?_, ?_, fun f y => ?_, h.records, h.fields, h.nextObject⟩
  · rw [Store.size_frames_define, h.size]
  · rw [Store.size_frames_define, h.size']
  · rw [Store.get?_frame_define, Store.get?_frame_define, h.size, h.size']
    by_cases hf : scope.frame = f
    · subst hf
      simp only [name_inj]
      split
      · exact .some hv
      · exact h.frames _ _
    · rw [if_neg fun hc => hf hc.1, if_neg fun hc => hf hc.1]
      exact h.frames _ _

theorem addFrame (h : T.Stores W σ σ') {b b' : Bindings} (flag : Bool)
    (hb : ∀ x, Option.Rel (T.Values W) (b.get? x) (b'.get? (T.name flag x))) :
    T.Stores (W ++ [flag]) (σ.addFrame b) (σ'.addFrame b') := by
  have hW : W <+: W ++ [flag] := List.prefix_append _ _
  refine ⟨?_, ?_, fun f x => ?_, h.records,
    fun r x => rel_mono (fun _ _ hv => hv.mono hW) (h.fields r x), h.nextObject⟩
  · rw [Store.addFrame, Array.size_push, h.size, List.length_append, List.length_singleton]
  · rw [Store.addFrame, Array.size_push, h.size', List.length_append, List.length_singleton]
  · by_cases hlt : f.index < W.length
    · have hflag : frameFlag (W ++ [flag]) f = frameFlag W f := by
        rw [frameFlag, List.getElem?_append_left hlt, frameFlag]
      rw [Store.frame_addFrame_of_lt _ _ (h.size ▸ hlt), hflag,
        Store.frame_addFrame_of_lt _ _ (h.size' ▸ hlt)]
      exact rel_mono (fun _ _ hv => hv.mono hW) (h.frames f x)
    · by_cases heq : f.index = W.length
      · have hf : f = σ.freshFrame := by
          rw [Store.freshFrame, h.size, ← heq]
        have hf' : f = σ'.freshFrame := by
          rw [Store.freshFrame, h.size', ← heq]
        have hflag : frameFlag (W ++ [flag]) f = flag := by
          rw [frameFlag, heq, List.getElem?_concat_length]
          rfl
        rw [hflag]
        nth_rewrite 1 [hf]
        rw [hf', Store.frame_addFrame_self, Store.frame_addFrame_self]
        exact rel_mono (fun _ _ hv => hv.mono hW) (hb x)
      · -- no frame in either store
        rw [Store.frame_of_size_le, Store.frame_of_size_le]
        · exact .none
        · rw [Store.addFrame, Array.size_push, h.size']
          omega
        · rw [Store.addFrame, Array.size_push, h.size]
          omega

theorem useObject (h : T.Stores W σ σ') : T.Stores W σ.useObject σ'.useObject :=
  ⟨h.size, h.size', h.frames, h.records, h.fields, congrArg (· + 1) h.nextObject⟩

theorem addRecord (h : T.Stores W σ σ') : T.Stores W σ.addRecord σ'.addRecord := by
  refine ⟨h.size, h.size', h.frames, ?_, fun r x => ?_, h.nextObject⟩
  · rw [Store.addRecord, Store.addRecord, Array.size_push, Array.size_push, h.records]
  · rw [Store.field?_addRecord, Store.field?_addRecord]
    exact h.fields r x

theorem setField (h : T.Stores W σ σ') (hv : T.Values W v v') (r : RecordId) (x : String) :
    T.Stores W (σ.setField r x v) (σ'.setField r x v') := by
  refine ⟨h.size, h.size', h.frames, ?_, fun r' y => ?_, h.nextObject⟩
  · rw [Store.setField, Store.setField, Array.size_modify, Array.size_modify, h.records]
  · rw [Store.field?_setField, Store.field?_setField, h.records]
    split
    · exact .some hv
    · exact h.fields r' y

theorem freshFrame_eq (h : T.Stores W σ σ') : σ'.freshFrame = σ.freshFrame := by
  rw [Store.freshFrame, Store.freshFrame, h.size, h.size']

theorem freshRecord_eq (h : T.Stores W σ σ') : σ'.freshRecord = σ.freshRecord := by
  rw [Store.freshRecord, Store.freshRecord, h.records]

theorem freshObject_eq (h : T.Stores W σ σ') : σ'.freshObject = σ.freshObject := by
  rw [Store.freshObject, Store.freshObject, h.nextObject]

/-- The flag of the frame that is added. -/
theorem getElem?_freshFrame (h : T.Stores W σ σ') (flag : Bool) :
    (W ++ [flag])[σ.freshFrame.index]? = some flag := by
  rw [Store.freshFrame, h.size, List.getElem?_concat_length]

end Stores

/-! ## Names that are looked up -/

section

variable {σ σ' : Store} {scope : Scope} {flags : List Bool}

/-- A variable that is found at a distance. -/
theorem Stores.getAt? (h : T.Stores W σ σ') (hflags : Flags W scope flags) (d : Nat) (x : String) :
    Option.Rel (T.Values W) (σ.getAt? scope d x)
      (σ'.getAt? scope d (T.name (flagAt flags (some d)) x)) := by
  unfold Store.getAt?
  cases hd : scope.ancestor? d with
  | none => exact .none
  | some outer =>
    rw [← hflags.frameFlag_ancestor hd]
    exact h.getLocal? outer x

theorem Stores.ownerAt?_eq (h : T.Stores W σ σ') (hflags : Flags W scope flags) (d : Nat)
    (x : String) : σ'.ownerAt? scope d (T.name (flagAt flags (some d)) x) = σ.ownerAt? scope d x := by
  unfold Store.ownerAt?
  cases hd : scope.ancestor? d with
  | none => rfl
  | some outer =>
    rw [← hflags.frameFlag_ancestor hd, Option.filter_some, Option.filter_some, h.declares_eq]

/-- Where no frame is flagged, a name means the same. -/
theorem Stores.owner?_eq (h : T.Stores W σ σ')
    (hscope : ∀ f ∈ scope.frames, W[f.index]? = some false) (x : String) :
    σ'.owner? scope x = σ.owner? scope x := by
  induction scope with
  | root f =>
    have hf : frameFlag W f = false := by rw [frameFlag, hscope f (by simp [Scope.frames])]; rfl
    have hd := h.declares_eq (.root f) x
    rw [Scope.frame, hf, name_false] at hd
    rw [Store.owner?, Store.owner?, hd]
  | inside f outer ih =>
    have hf : frameFlag W f = false := by rw [frameFlag, hscope f (by simp [Scope.frames])]; rfl
    have hd := h.declares_eq (.inside f outer) x
    rw [Scope.frame, hf, name_false] at hd
    rw [Store.owner?, Store.owner?, hd]
    split
    · rfl
    · exact ih fun g hg => hscope g (List.mem_cons_of_mem _ hg)

theorem Stores.get? (h : T.Stores W σ σ')
    (hscope : ∀ f ∈ scope.frames, W[f.index]? = some false) (x : String) :
    Option.Rel (T.Values W) (σ.get? scope x) (σ'.get? scope x) := by
  unfold Store.get?
  rw [h.owner?_eq hscope]
  cases howner : σ.owner? scope x with
  | none => exact .none
  | some outer =>
    have hmem : outer.frame ∈ scope.frames := Store.frame_mem_of_owner? howner
    have hf : frameFlag W outer.frame = false := by rw [frameFlag, hscope _ hmem]; rfl
    have hget := h.getLocal? outer x
    rwa [hf, name_false] at hget

end

end Twin

end LoxWalk
