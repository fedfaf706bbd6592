import LoxWalk.Proofs.Simulation.Shifts
import LoxWalk.Proofs.Simulation.State

/-!
# Stores that are their own twins

A good store is related to itself by every `Twin` that knows the references of its world and does
not ask for other lines.  No frame of it is flagged.
-/

namespace LoxWalk

open Twin (Flags Unflagged)

variable {T : Twin} {W : World} {σ : Store} {scope : Scope} {scopes : List (NameMap Bool)}
  {os : List Origin} {f : FrameId}

/-- None of the frames of a store is flagged. -/
def Store.unflagged (σ : Store) : List Bool :=
  List.replicate σ.frames.size false

namespace Store

theorem getElem?_unflagged (h : f.index < σ.frames.size) : σ.unflagged[f.index]? = some false :=
  List.getElem?_replicate_of_lt h

theorem frameFlag_unflagged (σ : Store) (f : FrameId) : Twin.frameFlag σ.unflagged f = false := by
  rw [Twin.frameFlag, unflagged, List.getElem?_replicate]
  split <;> rfl

end Store

namespace World

/-- The flags of a scope that matches the text. -/
theorem Chain.flags (hW : W.globals = .root f) (h : W.Chain σ scope scopes os) :
    ∃ flags, Unflagged flags ∧ Flags σ.unflagged scope flags := by
  induction h with
  | top hlt =>
    rw [hW] at hlt ⊢
    refine ⟨[false], by simp [Unflagged], ?_⟩
    have hroot : σ.unflagged[f.index]? = some false := Store.getElem?_unflagged hlt
    rw [Flags, Scope.frames, List.map_singleton, hroot]
    rfl
  | inside hlt _ _ _ _ ih =>
    obtain ⟨flags, hflags, houter⟩ := ih
    exact ⟨false :: flags, hflags.cons, houter.inside (Store.getElem?_unflagged hlt)⟩

variable (hT : T.Allows W.known 0 id) (hW : W.globals = .root f)

include hT hW

theorem GoodFunction.closures {g : Closure} (h : W.GoodFunction σ g) :
    T.Closures σ.unflagged [] g g := by
  obtain ⟨⟨st, context, os, hruns, hcontext, hfits⟩, -⟩ := h
  obtain ⟨flags, hflags, hscope⟩ := Chain.flags hW hruns
  refine ⟨rfl, rfl, rfl, flags, hscope, ?_⟩
  have htwins := hT.function hflags hcontext g.decl hfits
  rwa [Stmt.shiftFun_zero] at htwins

theorem GoodMethod.closures {g : Closure} (h : W.GoodMethod σ g) :
    T.Closures σ.unflagged [false] g g := by
  obtain ⟨⟨st, context, names, scopes, os, hchain, -, -, hcontext, hfits⟩, -⟩ := h
  obtain ⟨flags, hflags, hscope⟩ := hchain.flags hW
  refine ⟨rfl, rfl, rfl, flags, hscope, ?_⟩
  have htwins := hT.function hflags.cons hcontext g.decl hfits
  rwa [Stmt.shiftFun_zero] at htwins

theorem GoodClass.classes {c : Class} (h : W.GoodClass σ c) : T.Classes σ.unflagged c c := by
  refine List.forall₂_same.mpr fun own hown => ⟨rfl, rfl, fun x => ?_⟩
  cases hf : own.methods.get? x with
  | none => exact .none
  | some g => exact .some (GoodMethod.closures hT hW (h.methods own hown x g hf))

theorem GoodValue.values {v : Value} (h : W.GoodValue σ v) : T.Values σ.unflagged v v := by
  cases v with
  | function g => exact .function (GoodFunction.closures hT hW h)
  | class_ c => exact .class_ (GoodClass.classes hT hW h)
  | instance_ i => exact .instance_ rfl (GoodClass.classes hT hW h.ofClass)
  | nil => exact .nil
  | bool b => exact .bool b
  | number x => exact .number x
  | string s => exact .string s
  | native g => exact .native g

theorem GoodStore.stores (h : W.GoodStore σ) : T.Stores σ.unflagged σ σ := by
  have hlength : σ.frames.size = σ.unflagged.length := by
    rw [Store.unflagged, List.length_replicate]
  refine ⟨hlength, hlength, fun g x => ?_, rfl, fun r x => ?_, rfl⟩
  · rw [σ.frameFlag_unflagged, Twin.name_false]
    cases hv : (σ.frame g).get? x with
    | none => exact .none
    | some v => exact .some (GoodValue.values hT hW (h.frames g x v hv))
  · cases hv : σ.field? r x with
    | none => exact .none
    | some v => exact .some (GoodValue.values hT hW (h.fields r x v hv))

/-- A machine with a good store whose top level has a frame. -/
theorem GoodStore.machines {m : Machine} (h : W.GoodStore m.store)
    (hlt : f.index < m.store.frames.size) (hglobals : T.globals = W.globals) :
    T.Machines m.store.unflagged m m := by
  refine ⟨GoodStore.stores hT hW h, rfl, rfl, rfl, fun g hg => ?_⟩
  rw [hglobals, hW, Scope.frames, List.mem_singleton] at hg
  rw [hg, Store.getElem?_unflagged hlt]

end World

end LoxWalk
