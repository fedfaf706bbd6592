import LoxWalk.Proofs.Simulation.Shifts
import LoxWalk.Proofs.Simulation.State

/-!
# Machines with extra scopes

The same program runs twice, once with extra scopes around some of its parts: scopes that hold
nothing and in which nothing is declared.  The run without them is called plain and the other
padded.

Frames come into being at different places of the two stores, so a `Padding` says for each frame of
the padded store for which frame of the plain one it stands.  It only grows while the programs run,
and whatever is related stays related (`Padding.Values.mono`).  Both runs look up distances in one
table: the code of the plain run is a copy of that of the padded run whose identities are larger by
`k`.  A reference and its copy have distances that differ by the extra scopes in between
(`Expr.Padded`, `Stmt.Padded`).
-/

namespace LoxWalk

/-- For each frame of the padded store the frame of the plain store for which it stands, or `none`
if it is extra. -/
abbrev Padding := List (Option FrameId)

namespace Padding

/-- So many scopes the padded run has to go out where the plain run goes out `d`.  The flags tell of
the scopes around a place, innermost first, which are extra; further out no scope is. -/
def distance : List Bool → Nat → Nat
  | [], d => d
  | true :: π, d => distance π d + 1
  | false :: _, 0 => 0
  | false :: π, d + 1 => distance π d + 1

/-- The distance of a reference, and that of its copy in the plain run. -/
def Known (s : Setting) (k : Nat) (π : List Bool) (r : NodeId) : Prop :=
  s.distances.distance? r = (s.distances.distance? (r.shift k)).map (distance π)

/-- No scope is extra. -/
def Plain (π : List Bool) : Prop :=
  ∀ flag ∈ π, flag = false

end Padding

/-! ## Code -/

section

variable (s : Setting) (k : Nat)

mutual

/-- An expression that runs with extra scopes around it, and its copy without them.  Between the
scope of a superclass and that of an instance there is none. -/
def Expr.Padded (π : List Bool) : Expr → Prop
  | .literal _ => True
  | .group inner => inner.Padded π
  | .unary _ operand => operand.Padded π
  | .binary left _ right => left.Padded π ∧ right.Padded π
  | .logical left _ right => left.Padded π ∧ right.Padded π
  | .var r _ => Padding.Known s k π r
  | .assign r _ value => value.Padded π ∧ Padding.Known s k π r
  | .call callee _ arguments => callee.Padded π ∧ Expr.AllPadded π arguments
  | .get object _ => object.Padded π
  | .set object _ value => object.Padded π ∧ value.Padded π
  | .this r _ => Padding.Known s k π r
  | .super r _ _ => Padding.Known s k π r ∧ ∀ d, s.distances.distance? (r.shift k) = some d →
      Padding.distance π (d - 1) = Padding.distance π d - 1

/-- Several expressions. -/
def Expr.AllPadded (π : List Bool) : List Expr → Prop
  | [] => True
  | e :: es => e.Padded π ∧ Expr.AllPadded π es

end

/-- An expression that may be left out. -/
def Expr.Padded? (π : List Bool) : Option Expr → Prop
  | some e => e.Padded s k π
  | none => True

mutual

/-- A statement that runs with extra scopes around it, and its copy without them.  Nothing is
declared in an extra scope. -/
def Stmt.Padded (π : List Bool) : Stmt → Prop
  | .expression e => e.Padded s k π
  | .print e => e.Padded s k π
  | .var _ initializer => π.head? ≠ some true ∧ Expr.Padded? s k π initializer
  | .block body => Stmt.AllPadded (false :: π) body
  | .if_ condition thenBranch none => condition.Padded s k π ∧ thenBranch.Padded π
  | .if_ condition thenBranch (some elseBranch) =>
    condition.Padded s k π ∧ thenBranch.Padded π ∧ elseBranch.Padded π
  | .while_ condition body => condition.Padded s k π ∧ body.Padded π
  | .fun_ f => π.head? ≠ some true ∧ Stmt.FunPadded π f
  | .return_ _ value => Expr.Padded? s k π value
  | .class_ _ superclass methods =>
    π.head? ≠ some true ∧ Expr.Padded? s k π superclass ∧
      Stmt.MethodsPadded (if superclass.isSome then false :: π else π) methods

/-- Statements that follow each other. -/
def Stmt.AllPadded (π : List Bool) : List Stmt → Prop
  | [] => True
  | t :: ts => t.Padded π ∧ Stmt.AllPadded π ts

/-- A function that is declared there. -/
def Stmt.FunPadded (π : List Bool) : FunDeclOf Stmt → Prop
  | ⟨_, _, body⟩ => Stmt.AllPadded (false :: π) body

/-- The methods of a class; around each is the scope of its instance. -/
def Stmt.MethodsPadded (π : List Bool) : List (FunDeclOf Stmt) → Prop
  | [] => True
  | f :: fs => Stmt.FunPadded (false :: π) f ∧ Stmt.MethodsPadded π fs

end

end

/-! ### Code that is its own copy -/

namespace Padding

theorem Plain.cons {π : List Bool} (h : Plain π) : Plain (false :: π) :=
  List.forall_mem_cons.mpr ⟨rfl, h⟩

theorem Plain.head? {π : List Bool} (h : Plain π) : π.head? ≠ some true := by
  cases π with
  | nil => simp
  | cons flag π => simp [h flag List.mem_cons_self]

theorem Plain.distance {π : List Bool} (h : Plain π) (d : Nat) : distance π d = d := by
  induction π generalizing d with
  | nil => rfl
  | cons flag π ih =>
    obtain ⟨rfl, hπ⟩ := List.forall_mem_cons.mp h
    cases d with
    | zero => rfl
    | succ d => rw [Padding.distance, ih hπ]

theorem Plain.known {π : List Bool} (h : Plain π) (s : Setting) (r : NodeId) : Known s 0 π r := by
  rw [Known, NodeId.shift_zero, funext h.distance]
  exact Option.map_id'.symm

end Padding

section

variable {s : Setting} {π : List Bool}

open Padding

mutual

theorem Expr.padded_plain (h : Plain π) : (e : Expr) → e.Padded s 0 π
  | .literal _ => trivial
  | .group inner => inner.padded_plain h
  | .unary _ operand => operand.padded_plain h
  | .binary left _ right => ⟨left.padded_plain h, right.padded_plain h⟩
  | .logical left _ right => ⟨left.padded_plain h, right.padded_plain h⟩
  | .var r _ => h.known s r
  | .assign r _ value => ⟨value.padded_plain h, h.known s r⟩
  | .call callee _ arguments => ⟨callee.padded_plain h, Expr.allPadded_plain h arguments⟩
  | .get object _ => object.padded_plain h
  | .set object _ value => ⟨object.padded_plain h, value.padded_plain h⟩
  | .this r _ => h.known s r
  | .super r _ _ => ⟨h.known s r, fun d _ => by rw [h.distance, h.distance]⟩

theorem Expr.allPadded_plain (h : Plain π) : (es : List Expr) → Expr.AllPadded s 0 π es
  | [] => trivial
  | e :: es => ⟨e.padded_plain h, Expr.allPadded_plain h es⟩

end

theorem Expr.padded?_plain (h : Plain π) (e : Option Expr) : Expr.Padded? s 0 π e := by
  cases e with
  | none => trivial
  | some e => exact e.padded_plain h

mutual

theorem Stmt.padded_plain : (t : Stmt) → {π : List Bool} → Plain π → t.Padded s 0 π
  | .expression e, _, h => e.padded_plain h
  | .print e, _, h => e.padded_plain h
  | .var _ initializer, _, h => ⟨h.head?, Expr.padded?_plain h initializer⟩
  | .block body, _, h => Stmt.allPadded_plain body h.cons
  | .if_ condition thenBranch none, _, h => ⟨condition.padded_plain h, thenBranch.padded_plain h⟩
  | .if_ condition thenBranch (some elseBranch), _, h =>
    ⟨condition.padded_plain h, thenBranch.padded_plain h, elseBranch.padded_plain h⟩
  | .while_ condition body, _, h => ⟨condition.padded_plain h, body.padded_plain h⟩
  | .fun_ f, _, h => ⟨h.head?, Stmt.funPadded_plain f h⟩
  | .return_ _ value, _, h => Expr.padded?_plain h value
  | .class_ _ superclass methods, _, h => by
    refine ⟨h.head?, Expr.padded?_plain h superclass, Stmt.methodsPadded_plain methods ?_⟩
    split
    · exact h.cons
    · exact h

theorem Stmt.allPadded_plain : (ts : List Stmt) → {π : List Bool} → Plain π →
    Stmt.AllPadded s 0 π ts
  | [], _, _ => trivial
  | t :: ts, _, h => ⟨t.padded_plain h, Stmt.allPadded_plain ts h⟩

theorem Stmt.funPadded_plain : (f : FunDeclOf Stmt) → {π : List Bool} → Plain π →
    Stmt.FunPadded s 0 π f
  | ⟨_, _, body⟩, _, h => Stmt.allPadded_plain body h.cons

theorem Stmt.methodsPadded_plain : (fs : List (FunDeclOf Stmt)) → {π : List Bool} → Plain π →
    Stmt.MethodsPadded s 0 π fs
  | [], _, _ => trivial
  | f :: fs, _, h => ⟨Stmt.funPadded_plain f h.cons, Stmt.methodsPadded_plain fs h⟩

end

end

namespace Padding

/-! ## Scopes -/

/-- The frame `f'` of the padded run stands for the frame `f` of the plain run. -/
def Stands (W : Padding) (f f' : FrameId) : Prop :=
  W[f'.index]? = some (some f)

/-- Scopes of which none is extra. -/
inductive Same (W : Padding) : Scope → Scope → Prop where
  | root {f f' : FrameId} (h : Stands W f f') : Same W (.root f) (.root f')
  | inside {f f' : FrameId} {outer outer' : Scope} (h : Stands W f f') (ho : Same W outer outer') :
      Same W (.inside f outer) (.inside f' outer')

/-- Scopes that differ by the extra ones that are flagged. -/
inductive Scopes (W : Padding) : List Bool → Scope → Scope → Prop where
  | same {scope scope' : Scope} (h : Same W scope scope') : Scopes W [] scope scope'
  | inside {π : List Bool} {f f' : FrameId} {outer outer' : Scope} (h : Stands W f f')
      (ho : Scopes W π outer outer') : Scopes W (false :: π) (.inside f outer) (.inside f' outer')
  | extra {π : List Bool} {f' : FrameId} {scope outer' : Scope} (h : W[f'.index]? = some none)
      (ho : Scopes W π scope outer') : Scopes W (true :: π) scope (.inside f' outer')

/-! ## Values -/

section

variable (s : Setting) (W : Padding)

/-- Functions of which one is a copy of the other; `inner` are the flags of the scopes that will be
opened around the function before it runs.  None is declared in an extra scope. -/
structure Closures (inner : List Bool) (f f' : Closure) : Prop where
  identity : f'.id = f.id
  isInitializer : f'.isInitializer = f.isInitializer
  code : ∃ k π, f.decl = Stmt.shiftFun k id f'.decl ∧ Scopes W π f.scope f'.scope ∧
    (inner ++ π).head? ≠ some true ∧ Stmt.FunPadded s k (inner ++ π) f'.decl

/-- What two classes declare themselves. -/
structure Bodies (c c' : ClassBody) : Prop where
  identity : c'.id = c.id
  name : c'.name = c.name
  methods : ∀ x, Option.Rel (Closures s W [false]) (c.methods.get? x) (c'.methods.get? x)

/-- Classes with everything that they inherit. -/
def Classes (c c' : Class) : Prop :=
  List.Forall₂ (Bodies s W) c.lineage c'.lineage

/-- Two values. -/
inductive Values : Value → Value → Prop where
  | nil : Values .nil .nil
  | bool (b : Bool) : Values (.bool b) (.bool b)
  | number (x : Float) : Values (.number x) (.number x)
  | string (t : String) : Values (.string t) (.string t)
  | native (f : Native) : Values (.native f) (.native f)
  | function {f f' : Closure} (h : Closures s W [] f f') : Values (.function f) (.function f')
  | class_ {c c' : Class} (h : Classes s W c c') : Values (.class_ c) (.class_ c')
  | instance_ {i i' : Instance} (hr : i'.record = i.record) (h : Classes s W i.ofClass i'.ofClass) :
      Values (.instance_ i) (.instance_ i')

/-! ## Stores and machines -/

/-- Two stores.  Different frames stand for different frames, and the extra ones stay empty. -/
structure Stores (σ σ' : Store) : Prop where
  size : σ'.frames.size = W.length
  lt : ∀ {f f'}, Stands W f f' → f.index < σ.frames.size
  inj : ∀ {f f' g'}, Stands W f f' → Stands W f g' → f' = g'
  frames : ∀ {f f'}, Stands W f f' → ∀ x,
    Option.Rel (Values s W) ((σ.frame f).get? x) ((σ'.frame f').get? x)
  extra : ∀ {f' : FrameId}, W[f'.index]? = some none → ∀ x, (σ'.frame f').get? x = none
  records : σ'.records.size = σ.records.size
  fields : ∀ r x, Option.Rel (Values s W) (σ.field? r x) (σ'.field? r x)
  nextObject : σ'.nextObject = σ.nextObject

/-- Two machines whose current scopes differ as the flags say. -/
structure Machines (π : List Bool) (m m' : Machine) : Prop where
  store : Stores s W m.store m'.store
  scope : Scopes W π m.scope m'.scope
  callDepth : m'.callDepth = m.callDepth
  output : m'.output = m.output
  globals : Same W s.globals s.globals

end

variable {s : Setting} {W W' : Padding} {π : List Bool}

/-! ## Nothing gets lost -/

theorem getElem?_mono (hW : W <+: W') {i : Nat} {f : Option FrameId} (h : W[i]? = some f) :
    W'[i]? = some f := by
  obtain ⟨new, rfl⟩ := hW
  rw [List.getElem?_append_left (List.getElem?_eq_some_iff.mp h).1, h]

theorem Same.mono (hW : W <+: W') {scope scope' : Scope} (h : Same W scope scope') :
    Same W' scope scope' := by
  induction h with
  | root h => exact .root (getElem?_mono hW h)
  | inside h _ ih => exact .inside (getElem?_mono hW h) ih

theorem Scopes.mono (hW : W <+: W') {scope scope' : Scope} (h : Scopes W π scope scope') :
    Scopes W' π scope scope' := by
  induction h with
  | same h => exact .same (h.mono hW)
  | inside h _ ih => exact .inside (getElem?_mono hW h) ih
  | extra h _ ih => exact .extra (getElem?_mono hW h) ih

theorem Closures.mono (hW : W <+: W') {inner : List Bool} {f f' : Closure}
    (h : Closures s W inner f f') : Closures s W' inner f f' := by
  obtain ⟨k, π, hdecl, hscope, hcode⟩ := h.code
  exact ⟨h.identity, h.isInitializer, k, π, hdecl, hscope.mono hW, hcode⟩

theorem Bodies.mono (hW : W <+: W') {c c' : ClassBody} (h : Bodies s W c c') : Bodies s W' c c' :=
  ⟨h.identity, h.name, fun x => Twin.rel_mono (fun _ _ hf => hf.mono hW) (h.methods x)⟩

theorem Classes.mono (hW : W <+: W') {c c' : Class} (h : Classes s W c c') : Classes s W' c c' :=
  List.Forall₂.imp (fun _ _ hb => hb.mono hW) h

theorem Values.mono (hW : W <+: W') {v v' : Value} (h : Values s W v v') : Values s W' v v' := by
  cases h with
  | nil => exact .nil
  | bool b => exact .bool b
  | number x => exact .number x
  | string t => exact .string t
  | native f => exact .native f
  | function h => exact .function (h.mono hW)
  | class_ h => exact .class_ (h.mono hW)
  | instance_ hr h => exact .instance_ hr (h.mono hW)

theorem allValues_mono (hW : W <+: W') {vs vs' : List Value}
    (h : List.Forall₂ (Values s W) vs vs') : List.Forall₂ (Values s W') vs vs' :=
  h.imp fun _ _ hv => hv.mono hW

/-! ## What values tell -/

namespace Classes

variable {c c' : Class}

theorem own (h : Classes s W c c') : Bodies s W c.own c'.own := by
  unfold Classes at h
  cases c <;> cases c' <;> cases h <;> assumption

theorem method (h : Classes s W c c') (x : String) :
    Option.Rel (Closures s W [false]) (c.method? x) (c'.method? x) :=
  Class.rel_method? h fun _ _ hb => hb.methods x

end Classes

namespace Closures

variable {inner : List Bool} {f f' : Closure}

theorem arity (h : Closures s W inner f f') : f'.arity = f.arity := by
  obtain ⟨k, π, hdecl, -⟩ := h.code
  obtain ⟨_, ⟨_, params, _⟩, _, _⟩ := f'
  rw [Closure.arity, Closure.arity, hdecl]
  exact (List.length_map _).symm

theorem name (h : Closures s W inner f f') : f'.name = f.name := by
  obtain ⟨k, π, hdecl, -⟩ := h.code
  obtain ⟨_, ⟨_, _, _⟩, _, _⟩ := f'
  rw [Closure.name, Closure.name, hdecl]
  rfl

end Closures

namespace Values

variable {v v' w w' : Value}

theorem isTruthy_eq (h : Values s W v v') : v'.isTruthy = v.isTruthy := by
  cases h <;> rfl

theorem text_eq (h : Values s W v v') : v'.text = v.text := by
  cases h with
  | function h => rw [Value.text, Value.text, h.name]
  | class_ h => exact h.own.name
  | instance_ _ h => rw [Value.text, Value.text, h.own.name]
  | _ => rfl

theorem arity?_eq (h : Values s W v v') : v'.arity? = v.arity? := by
  cases h with
  | function h => exact congrArg some h.arity
  | @class_ c c' h =>
    have hm := h.method initializerName
    rw [Value.arity?, Value.arity?]
    revert hm
    cases c.method? initializerName <;> cases c'.method? initializerName <;> intro hm <;> cases hm
    · rfl
    · rename_i hf
      exact congrArg some hf.arity
  | _ => rfl

theorem equals_eq (h : Values s W v v') (hw : Values s W w w') : v'.equals w' = v.equals w := by
  cases h with
  | function h =>
    cases hw with
    | function hw => rw [Value.equals, Value.equals, h.identity, hw.identity]
    | _ => rfl
  | class_ h =>
    cases hw with
    | class_ hw => rw [Value.equals, Value.equals, h.own.identity, hw.own.identity]
    | _ => rfl
  | instance_ hr h =>
    cases hw with
    | instance_ hr' hw => rw [Value.equals, Value.equals, hr, hr']
    | _ => rfl
  | _ => cases hw <;> rfl

end Values

/-! ## Changes of stores -/

theorem stands_append {f f' : FrameId} {new : Option FrameId} :
    Stands (W ++ [new]) f f' ↔ Stands W f f' ∨ f'.index = W.length ∧ new = some f := by
  unfold Stands
  rcases Nat.lt_trichotomy f'.index W.length with hlt | heq | hlt
  · rw [List.getElem?_append_left hlt]
    exact (or_iff_left fun h => Nat.ne_of_lt hlt h.1).symm
  · have hnone : W[f'.index]? = none := List.getElem?_eq_none (Nat.le_of_eq heq.symm)
    rw [hnone, heq, List.getElem?_concat_length]
    simp
  · have hnone : (W ++ [new])[f'.index]? = none := by
      rw [List.getElem?_eq_none_iff, List.length_append, List.length_singleton]
      omega
    rw [hnone, List.getElem?_eq_none (Nat.le_of_lt hlt)]
    exact (or_iff_left fun h => Nat.ne_of_gt hlt h.1).symm

theorem Stands.lt_length {f f' : FrameId} (h : Stands W f f') : f'.index < W.length :=
  (List.getElem?_eq_some_iff.mp h).1

namespace Stores

variable {σ σ' : Store} {v v' : Value}

theorem getLocal? (h : Stores s W σ σ') {scope scope' : Scope}
    (hs : Stands W scope.frame scope'.frame) (x : String) :
    Option.Rel (Values s W) (σ.getLocal? scope x) (σ'.getLocal? scope' x) :=
  h.frames hs x

theorem declares_eq (h : Stores s W σ σ') {scope scope' : Scope}
    (hs : Stands W scope.frame scope'.frame) (x : String) :
    σ'.declares scope' x = σ.declares scope x := by
  have hx := h.frames hs x
  unfold Store.declares NameMap.contains
  revert hx
  cases (σ.frame scope.frame).get? x <;> cases (σ'.frame scope'.frame).get? x <;>
    intro hx <;> cases hx <;> rfl

theorem define (h : Stores s W σ σ') {scope scope' : Scope}
    (hs : Stands W scope.frame scope'.frame) (hv : Values s W v v') (x : String) :
    Stores s W (σ.define scope x v) (σ'.define scope' x v') := by
  refine ⟨?_, ?_, h.inj, ?_, ?_, h.records, h.fields, h.nextObject⟩
  · rw [Store.size_frames_define, h.size]
  · intro f f' hf
    rw [Store.size_frames_define]
    exact h.lt hf
  · intro f f' hf y
    have hiff : scope.frame = f ↔ scope'.frame = f' := by
      refine ⟨fun heq => h.inj hs (heq ▸ hf), fun heq => ?_⟩
      rw [Stands, heq, hf, Option.some.injEq, Option.some.injEq] at hs
      exact hs.symm
    rw [Store.get?_frame_define, Store.get?_frame_define]
    simp only [hiff, h.size, h.lt hf, hf.lt_length, and_true]
    split
    · exact .some hv
    · exact h.frames hf y
  · intro f' hf' y
    rw [Store.get?_frame_define, if_neg]
    · exact h.extra hf' y
    · rintro ⟨rfl, -⟩
      rw [Stands, hf'] at hs
      cases hs

theorem addFrame (h : Stores s W σ σ') {b b' : Bindings}
    (hb : ∀ x, Option.Rel (Values s W) (b.get? x) (b'.get? x)) :
    Stores s (W ++ [some σ.freshFrame]) (σ.addFrame b) (σ'.addFrame b') := by
  have hW : W <+: W ++ [some σ.freshFrame] := List.prefix_append _ _
  have hsize : (σ.addFrame b).frames.size = σ.frames.size + 1 := Array.size_push _
  -- the frames that are added stand for each other, all others are old
  have hcases : ∀ {f f'}, Stands (W ++ [some σ.freshFrame]) f f' →
      Stands W f f' ∨ f' = σ'.freshFrame ∧ f = σ.freshFrame := by
    intro f f' hf
    refine (stands_append.mp hf).imp_right fun ⟨hlast, heq⟩ => ⟨?_, (Option.some.inj heq).symm⟩
    rw [Store.freshFrame, h.size, ← hlast]
  have hnew : ∀ {f'}, Stands W σ.freshFrame f' → False := fun hf => Nat.lt_irrefl _ (h.lt hf)
  refine ⟨?_, ?_, ?_, ?_, ?_, h.records,
    fun r x => Twin.rel_mono (fun _ _ hv => hv.mono hW) (h.fields r x), h.nextObject⟩
  · rw [Store.addFrame, Array.size_push, h.size, List.length_append, List.length_singleton]
  · intro f f' hf
    rw [hsize]
    rcases hcases hf with hold | ⟨-, rfl⟩
    · exact Nat.lt_succ_of_lt (h.lt hold)
    · exact Nat.lt_succ_self _
  · intro f f' g' hf hg
    rcases hcases hf with hold | ⟨rfl, rfl⟩ <;> rcases hcases hg with hold' | ⟨rfl, heq⟩
    · exact h.inj hold hold'
    · exact (hnew (heq ▸ hold)).elim
    · exact (hnew hold').elim
    · rfl
  · intro f f' hf x
    refine Twin.rel_mono (fun _ _ (hv : Values s W _ _) => hv.mono hW) ?_
    rcases hcases hf with hold | ⟨rfl, rfl⟩
    · rw [Store.frame_addFrame_of_lt _ _ (h.lt hold),
        Store.frame_addFrame_of_lt _ _ (h.size ▸ hold.lt_length)]
      exact h.frames hold x
    · rw [Store.frame_addFrame_self, Store.frame_addFrame_self]
      exact hb x
  · intro f' hf' x
    by_cases hlt : f'.index < W.length
    · rw [List.getElem?_append_left hlt] at hf'
      rw [Store.frame_addFrame_of_lt _ _ (h.size ▸ hlt)]
      exact h.extra hf' x
    · rw [List.getElem?_append_right (Nat.le_of_not_lt hlt)] at hf'
      cases List.mem_singleton.mp (List.mem_of_getElem? hf')

/-- A frame is added to the padded store alone. -/
theorem addExtra (h : Stores s W σ σ') : Stores s (W ++ [none]) σ (σ'.addFrame .empty) := by
  have hW : W <+: W ++ [none] := List.prefix_append _ _
  have hold : ∀ {f f'}, Stands (W ++ [none]) f f' → Stands W f f' := fun hf =>
    (stands_append.mp hf).resolve_right fun ⟨_, heq⟩ => by cases heq
  refine ⟨?_, fun hf => h.lt (hold hf), fun hf hg => h.inj (hold hf) (hold hg), ?_, ?_, h.records,
    fun r x => Twin.rel_mono (fun _ _ hv => hv.mono hW) (h.fields r x), h.nextObject⟩
  · rw [Store.addFrame, Array.size_push, h.size, List.length_append, List.length_singleton]
  · intro f f' hf x
    rw [Store.frame_addFrame_of_lt _ _ (h.size ▸ (hold hf).lt_length)]
    exact Twin.rel_mono (fun _ _ hv => hv.mono hW) (h.frames (hold hf) x)
  · intro f' hf' x
    by_cases hlt : f'.index < W.length
    · rw [List.getElem?_append_left hlt] at hf'
      rw [Store.frame_addFrame_of_lt _ _ (h.size ▸ hlt)]
      exact h.extra hf' x
    · have hfresh : f' = σ'.freshFrame := by
        have hlen := (List.getElem?_eq_some_iff.mp hf').1
        rw [List.length_append, List.length_singleton] at hlen
        have hindex : f'.index = W.length :=
          Nat.le_antisymm (Nat.le_of_lt_succ hlen) (Nat.le_of_not_lt hlt)
        rw [Store.freshFrame, h.size, ← hindex]
      rw [hfresh, Store.frame_addFrame_self]
      rfl

theorem useObject (h : Stores s W σ σ') : Stores s W σ.useObject σ'.useObject :=
  ⟨h.size, h.lt, h.inj, h.frames, h.extra, h.records, h.fields, congrArg (· + 1) h.nextObject⟩

theorem addRecord (h : Stores s W σ σ') : Stores s W σ.addRecord σ'.addRecord := by
  refine ⟨h.size, h.lt, h.inj, h.frames, h.extra, ?_, fun r x => ?_, h.nextObject⟩
  · rw [Store.addRecord, Store.addRecord, Array.size_push, Array.size_push, h.records]
  · rw [Store.field?_addRecord, Store.field?_addRecord]
    exact h.fields r x

theorem setField (h : Stores s W σ σ') (hv : Values s W v v') (r : RecordId) (x : String) :
    Stores s W (σ.setField r x v) (σ'.setField r x v') := by
  refine ⟨h.size, h.lt, h.inj, h.frames, h.extra, ?_, fun r' y => ?_, h.nextObject⟩
  · rw [Store.setField, Store.setField, Array.size_modify, Array.size_modify, h.records]
  · rw [Store.field?_setField, Store.field?_setField, h.records]
    split
    · exact .some hv
    · exact h.fields r' y

theorem freshRecord_eq (h : Stores s W σ σ') : σ'.freshRecord = σ.freshRecord := by
  rw [Store.freshRecord, Store.freshRecord, h.records]

theorem freshObject_eq (h : Stores s W σ σ') : σ'.freshObject = σ.freshObject := by
  rw [Store.freshObject, Store.freshObject, h.nextObject]

/-- The frames that are added stand for each other. -/
theorem stands_freshFrame (h : Stores s W σ σ') :
    Stands (W ++ [some σ.freshFrame]) σ.freshFrame σ'.freshFrame :=
  stands_append.mpr (.inr ⟨h.size, rfl⟩)

/-- A frame that is added to the padded store alone is extra. -/
theorem extra_freshFrame (h : Stores s W σ σ') :
    (W ++ [none])[σ'.freshFrame.index]? = some none := by
  rw [Store.freshFrame, h.size, List.getElem?_concat_length]

end Stores

/-! ## Names that are looked up -/

section

variable {σ σ' : Store} {scope scope' : Scope}

theorem Same.stands (h : Same W scope scope') : Stands W scope.frame scope'.frame := by
  cases h <;> assumption

theorem Same.ancestor? (h : Same W scope scope') (d : Nat) :
    Option.Rel (fun a a' => Stands W a.frame a'.frame) (scope.ancestor? d)
      (scope'.ancestor? d) := by
  induction h generalizing d with
  | root h =>
    cases d with
    | zero => exact .some h
    | succ d => exact .none
  | inside h _ ih =>
    cases d with
    | zero => exact .some h
    | succ d => exact ih d

/-- Going out by related distances, one gets to frames of which one stands for the other. -/
theorem Scopes.ancestor? (h : Scopes W π scope scope') (d : Nat) :
    Option.Rel (fun a a' => Stands W a.frame a'.frame) (scope.ancestor? d)
      (scope'.ancestor? (distance π d)) := by
  induction h generalizing d with
  | same h => exact h.ancestor? d
  | inside h _ ih =>
    cases d with
    | zero => exact .some h
    | succ d => exact ih d
  | extra _ _ ih => exact ih d

/-- Where names are declared, the innermost scope is not extra. -/
theorem Scopes.stands (h : Scopes W π scope scope') (hπ : π.head? ≠ some true) :
    Stands W scope.frame scope'.frame := by
  cases h with
  | same h => exact h.stands
  | inside h _ => exact h
  | extra _ _ => exact (hπ rfl).elim

/-- A variable that is found at a distance. -/
theorem Stores.getAt? (h : Stores s W σ σ') (hs : Scopes W π scope scope') (d : Nat) (x : String) :
    Option.Rel (Values s W) (σ.getAt? scope d x) (σ'.getAt? scope' (distance π d) x) := by
  have hancestor := hs.ancestor? d
  unfold Store.getAt?
  revert hancestor
  generalize scope.ancestor? d = a, scope'.ancestor? (distance π d) = a'
  intro hancestor
  cases hancestor with
  | some hf => exact h.getLocal? hf x
  | none => exact .none

theorem Stores.ownerAt? (h : Stores s W σ σ') (hs : Scopes W π scope scope') (d : Nat)
    (x : String) :
    Option.Rel (fun a a' => Stands W a.frame a'.frame) (σ.ownerAt? scope d x)
      (σ'.ownerAt? scope' (distance π d) x) := by
  have hancestor := hs.ancestor? d
  unfold Store.ownerAt?
  revert hancestor
  generalize scope.ancestor? d = a, scope'.ancestor? (distance π d) = a'
  intro hancestor
  cases hancestor with
  | some hf =>
    rw [Option.filter_some, Option.filter_some, h.declares_eq hf]
    split
    · exact .some hf
    · exact .none
  | none => exact .none

theorem Stores.owner? (h : Stores s W σ σ') (hs : Same W scope scope') (x : String) :
    Option.Rel (fun a a' => Stands W a.frame a'.frame) (σ.owner? scope x) (σ'.owner? scope' x) := by
  induction hs with
  | @root f f' hf =>
    have hdeclares := h.declares_eq (Same.root hf).stands x
    rw [Store.owner?, Store.owner?, hdeclares]
    split
    · exact .some hf
    · exact .none
  | @inside f f' outer outer' hf ho ih =>
    have hdeclares := h.declares_eq (Same.inside hf ho).stands x
    rw [Store.owner?, Store.owner?, hdeclares]
    split
    · exact .some hf
    · exact ih

theorem Stores.get? (h : Stores s W σ σ') (hs : Same W scope scope') (x : String) :
    Option.Rel (Values s W) (σ.get? scope x) (σ'.get? scope' x) := by
  have howner := h.owner? hs x
  unfold Store.get?
  revert howner
  generalize σ.owner? scope x = a, σ'.owner? scope' x = a'
  intro howner
  cases howner with
  | some hf => exact h.getLocal? hf x
  | none => exact .none

end

end Padding

end LoxWalk
