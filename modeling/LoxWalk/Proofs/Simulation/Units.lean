import LoxWalk.Proofs.Session.Reports
import LoxWalk.Proofs.Simulation.Run

/-!
# Units of twins

Two units that differ only as a `Twin` says, executed on engines whose machines are related, end in
the same way, report diagnostics that differ only as the `Twin` says, and leave related machines
behind (`Twin.accounts_of_twins`).
-/

namespace LoxWalk

namespace Twin

variable (T : Twin)

/-- Two diagnostics: only those of faults at run time may differ. -/
def Diagnostics (d d' : Diagnostic) : Prop :=
  d' = d ∨ ∃ e e', d = .runtime e ∧ d' = .runtime e' ∧ T.Errors e e'

/-- Two units end alike. -/
inductive Ends : Outcome → Outcome → Prop where
  | finished : Ends .finished .finished
  | failed {e e' : RuntimeError} (h : T.Errors e e') : Ends (.failed e) (.failed e')
  | channelFull : Ends .channelFull .channelFull
  | outOfFuel : Ends .outOfFuel .outOfFuel

/-- The accounts of two units on machines whose frames had the flags `W`. -/
structure Accounts (W : List Bool) (a a' : Account) : Prop where
  status : a'.status = a.status
  reports : List.Forall₂ T.Diagnostics a.reports a'.reports
  machines : ∃ W', W <+: W' ∧ T.Machines W' a.engine.machine a'.engine.machine

variable {T} {W : List Bool} {x : Extent} {e e' : Engine} {unit unit' : List Stmt} {f : FrameId}

theorem Ends.status_eq {o o' : Outcome} (h : T.Ends o o') : o'.status = o.status := by
  cases h <;> rfl

theorem Ends.reports {o o' : Outcome} (h : T.Ends o o') :
    List.Forall₂ T.Diagnostics o.reports o'.reports := by
  cases h with
  | finished => exact .nil
  | failed h => exact .cons (.inr ⟨_, _, rfl, rfl, h⟩) .nil
  | channelFull => exact .cons (.inl rfl) .nil
  | outOfFuel => exact .nil

theorem Ends.of_interrupts {returns : Bool} {i i' : Interrupt}
    (h : T.Interrupts returns W i i') :
    T.Ends (Engine.outcome (.error i)) (Engine.outcome (.error i')) := by
  cases h with
  | returning => exact .finished
  | fault h => exact .failed h
  | channelFull => exact .channelFull
  | outOfFuel => exact .outOfFuel

/-- Two machines when a unit has ended. -/
theorem Machines.ended {m m' : Machine} (h : T.Machines W m m') (he : e'.globals = e.globals) :
    T.Machines W (e.ended m).machine (e'.ended m').machine :=
  ⟨h.store, he, rfl, h.output, h.globals⟩

/-- The top level is not flagged. -/
theorem Machines.flags_globals {m m' : Machine} (h : T.Machines W m m')
    (hroot : T.globals = .root f) : Flags W T.globals [false] := by
  have hf : W[f.index]? = some false := h.globals f (by simp [hroot, Scope.frames])
  rw [hroot, Flags, Scope.frames, List.map_singleton, hf]
  rfl

/-- Units that differ only as `T` says have accounts that differ only as `T` says. -/
theorem accounts_of_twins (hset : T.Settings e.setting e'.setting)
    (hm : T.Machines W e.machine e'.machine) (hscope : e.machine.scope = T.globals)
    (hroot : T.globals = .root f) (h : Stmt.AllTwins T x [false] unit unit') (fuel : Nat) :
    T.Accounts W (e.executed fuel unit) (e'.executed fuel unit') := by
  have hflags : Flags W e.machine.scope [false] := hscope ▸ hm.flags_globals hroot
  have hagree := (simulates hset (.inl rfl : Fuel False fuel fuel)).executeAll hm
    hflags h
  have hglobals : e'.globals = e.globals := hset.globals'.trans hset.globals.symm
  unfold Agree at hagree
  revert hagree
  generalize hr : executeAll e.setting fuel unit e.machine = r,
    hr' : executeAll e'.setting fuel unit' e'.machine = r'
  intro hagree
  cases hagree with
  | @ok W' m m' _ _ hs hm' =>
    rw [Engine.executed_of_ok hr, Engine.executed_of_ok hr']
    exact ⟨rfl, .nil, W', hs.flags, hm'.ended hglobals⟩
  | @error W' m m' i i' hs hm' hi =>
    have hends := Ends.of_interrupts hi
    rw [Engine.executed_of_error hr, Engine.executed_of_error hr']
    exact ⟨hends.status_eq, hends.reports, W', hs.flags, hm'.ended hglobals⟩
  | exempt hfalse => exact hfalse.elim

end Twin

end LoxWalk
