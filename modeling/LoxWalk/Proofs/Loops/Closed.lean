import LoxWalk.Proofs.Confinement.Cells
import LoxWalk.Proofs.Loops.Run
import LoxWalk.Proofs.Session.Distances

/-!
# Machines without dangling frames

A machine is closed if every frame to which it refers exists.  A closed machine stands for itself,
with no extra frame, and so the padded run of any code starts on the machine of the plain run
(`Padding.Machines.of_closed`).  Whenever a statement is executed in a session, the machine is
closed (`Lives.closed`), since all values in its store are good.
-/

namespace LoxWalk

/-- All frames of a scope are among the first `n`. -/
def Scope.Below (n : Nat) (scope : Scope) : Prop :=
  ∀ f ∈ scope.frames, f.index < n

/-- All frames to which a value refers are among the first `n`. -/
def Value.Below (n : Nat) (v : Value) : Prop :=
  ∀ f, v.Refers (.frame f) → f.index < n

/-- Every frame to which the machine refers exists, and so does the top level. -/
structure Machine.Closed (globals : Scope) (m : Machine) : Prop where
  globals : globals.Below m.store.frames.size
  scope : m.scope.Below m.store.frames.size
  frames : ∀ f x v, (m.store.frame f).get? x = some v → v.Below m.store.frames.size
  fields : ∀ r x v, m.store.field? r x = some v → v.Below m.store.frames.size

theorem Scope.refers_of_mem {scope : Scope} {f : FrameId} (h : f ∈ scope.frames) :
    scope.Refers (.frame f) :=
  ⟨f, h, rfl⟩

theorem Scope.mem_of_refers {scope : Scope} {f : FrameId} (h : scope.Refers (.frame f)) :
    f ∈ scope.frames := by
  obtain ⟨g, hg, heq⟩ := h
  cases heq
  exact hg

namespace Padding

/-! ## A closed machine stands for itself -/

/-- Each of the first `n` frames stands for itself. -/
def unpadded (n : Nat) : Padding :=
  (List.range n).map fun i => some ⟨i⟩

theorem length_unpadded (n : Nat) : (unpadded n).length = n := by
  rw [unpadded, List.length_map, List.length_range]

theorem getElem?_unpadded {n i : Nat} {f : Option FrameId} :
    (unpadded n)[i]? = some f ↔ i < n ∧ f = some ⟨i⟩ := by
  rw [unpadded, List.getElem?_map, Option.map_eq_some_iff]
  constructor
  · rintro ⟨j, hj, rfl⟩
    obtain ⟨hlt, rfl⟩ := List.getElem?_eq_some_iff.mp hj
    rw [List.length_range] at hlt
    rw [List.getElem_range]
    exact ⟨hlt, rfl⟩
  · rintro ⟨hlt, rfl⟩
    exact ⟨i, List.getElem?_range hlt, rfl⟩

theorem stands_unpadded {n : Nat} {f f' : FrameId} :
    Stands (unpadded n) f f' ↔ f = f' ∧ f'.index < n := by
  rw [Stands, getElem?_unpadded, Option.some.injEq, and_comm]

variable {s : Setting} {n : Nat}

theorem Same.of_below {scope : Scope} (h : scope.Below n) : Same (unpadded n) scope scope := by
  induction scope with
  | root f => exact .root (stands_unpadded.mpr ⟨rfl, h f List.mem_cons_self⟩)
  | inside f outer ih =>
    exact .inside (stands_unpadded.mpr ⟨rfl, h f List.mem_cons_self⟩)
      (ih fun g hg => h g (List.mem_cons_of_mem _ hg))

theorem plain_nil : Plain [] :=
  List.forall_mem_nil _

theorem Closures.of_below {inner : List Bool} {f : Closure} (hinner : Plain inner)
    (h : f.scope.Below n) : Closures s (unpadded n) inner f f := by
  have hplain : Plain (inner ++ []) := by rwa [List.append_nil]
  exact ⟨rfl, rfl, 0, [], (Stmt.shiftFun_zero f.decl).symm, .same (.of_below h), hplain.head?,
    Stmt.funPadded_plain f.decl hplain⟩

theorem Classes.of_below {c : Class} (h : ∀ f, c.Refers (.frame f) → f.index < n) :
    Classes s (unpadded n) c c := by
  refine List.forall₂_same.mpr fun own hown => ⟨rfl, rfl, fun x => ?_⟩
  cases hf : own.methods.get? x with
  | none => exact .none
  | some f =>
    exact .some (.of_below plain_nil.cons fun g hg =>
      h g ⟨own, hown, x, f, hf, Scope.refers_of_mem hg⟩)

theorem Values.of_below {v : Value} (h : v.Below n) : Values s (unpadded n) v v := by
  cases v with
  | nil => exact .nil
  | bool b => exact .bool b
  | number x => exact .number x
  | string t => exact .string t
  | native f => exact .native f
  | function f => exact .function (.of_below plain_nil fun g hg => h g (Scope.refers_of_mem hg))
  | class_ c => exact .class_ (.of_below h)
  | instance_ i => exact .instance_ rfl (.of_below fun f hf => h f (.inr hf))

theorem rel_of_below {o : Option Value} (h : ∀ v, o = some v → v.Below n) :
    Option.Rel (Values s (unpadded n)) o o := by
  cases o with
  | none => exact .none
  | some v => exact .some (.of_below (h v rfl))

theorem Machines.of_closed {m : Machine} (h : m.Closed s.globals) :
    Machines s (unpadded m.store.frames.size) [] m m := by
  refine ⟨⟨(length_unpadded _).symm, ?_, ?_, ?_, ?_, rfl, fun r x => rel_of_below (h.fields r x),
    rfl⟩, .same (.of_below h.scope), rfl, rfl, .of_below h.globals⟩
  · intro f f' hf
    obtain ⟨rfl, hlt⟩ := stands_unpadded.mp hf
    exact hlt
  · intro f f' g' hf hg
    exact (stands_unpadded.mp hf).1.symm.trans (stands_unpadded.mp hg).1
  · intro f f' hf x
    obtain ⟨rfl, -⟩ := stands_unpadded.mp hf
    exact rel_of_below (h.frames f x)
  · intro f' hf'
    cases (getElem?_unpadded.mp hf').2

end Padding

/-! ## Sessions -/

namespace World

variable {W : World} {σ : Store}

theorem Chain.globals_lt {scope : Scope} {scopes : List (NameMap Bool)} {os : List Origin}
    (h : W.Chain σ scope scopes os) : W.globals.frame.index < σ.frames.size := by
  induction h with
  | top hlt => exact hlt
  | inside _ _ _ _ _ ih => exact ih

section

variable (hglobals : W.globals.Below σ.frames.size)

include hglobals

/-- A scope that matches a place of the text has frames that exist. -/
theorem Chain.frames_below {scope : Scope} {scopes : List (NameMap Bool)} {os : List Origin}
    (h : W.Chain σ scope scopes os) : scope.Below σ.frames.size := by
  induction h with
  | top _ => exact hglobals
  | inside hlt _ _ _ _ ih => exact List.forall_mem_cons.mpr ⟨hlt, ih⟩

theorem GoodClass.frames_below {c : Class} (h : W.GoodClass σ c) {f : FrameId}
    (hf : c.Refers (.frame f)) : f.index < σ.frames.size := by
  obtain ⟨own, hown, x, g, hg, hrefers⟩ := hf
  obtain ⟨⟨-, -, -, scopes, os, hchain, -⟩, -⟩ := h.methods own hown x g hg
  exact hchain.frames_below hglobals f (Scope.mem_of_refers hrefers)

theorem GoodValue.frames_below {v : Value} (h : W.GoodValue σ v) : v.Below σ.frames.size := by
  intro f hf
  cases v with
  | function g =>
    obtain ⟨⟨st, -, os, hruns, -⟩, -⟩ := h
    exact Chain.frames_below hglobals hruns f (Scope.mem_of_refers hf)
  | class_ c => exact GoodClass.frames_below hglobals h hf
  | instance_ i =>
    rcases hf with hf | hf
    · cases hf
    · exact GoodClass.frames_below hglobals h.ofClass hf
  | _ => exact hf.elim

end

/-- The machine is closed whenever a statement is executed. -/
theorem GoodMoment.closed {μ : Moment} (h : W.GoodMoment μ) {root : FrameId}
    (hroot : W.globals = .root root) {t : Stmt} (ht : μ.task = .execute t) :
    μ.machine.Closed W.globals := by
  obtain ⟨hstore, htask⟩ := h
  rw [ht] at htask
  obtain ⟨st, os, hat, -⟩ := htask
  have hglobals : W.globals.Below μ.machine.store.frames.size := by
    have hlt := hat.globals_lt
    rw [hroot] at hlt ⊢
    exact List.forall_mem_singleton.mpr hlt
  exact ⟨hglobals, hat.frames_below hglobals,
    fun f x v hv => (hstore.frames f x v hv).frames_below hglobals,
    fun r x v hv => (hstore.fields r x v hv).frames_below hglobals⟩

end World

/-- Whenever a session executes a statement, every frame exists to which the machine refers. -/
theorem Lives.closed {s : Session} {xs : List Execution} (h : Lives s xs) {x : Execution}
    (hx : x ∈ xs) {μ : Moment} (hμ : During x.setting x.start μ) {t : Stmt}
    (ht : μ.task = .execute t) : μ.machine.Closed x.setting.globals := by
  obtain ⟨s₀, xs₀, fuel, source, unit, h₀, hsource, rfl, -⟩ := h.exists_executed hx
  have hgood := ((h₀.sound.goodMoment_start hsource fuel).during
    (h₀.sound.host_execution fuel unit) (Session.covers_start s₀ xs₀ fuel unit) hμ).1
  have hglobals : (s₀.execution fuel unit).setting.globals = s₀.engine.globals :=
    Engine.globals_noteAll _ _
  rw [hglobals]
  exact hgood.closed (W := s₀.world xs₀ fuel unit) h₀.globals_eq ht

end LoxWalk
