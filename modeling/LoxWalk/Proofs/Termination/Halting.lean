import LoxWalk.Proofs.Confinement.Closures
import LoxWalk.Proofs.Termination.LoopFree

/-!
# Only loops run forever

Without loops an execution ends, however recursive the program is.  For a part of the program whose
callees end this follows by recursion on the tree: with enough fuel for each of its parts there is
enough for the whole.  The body of a callee is no part of the tree, but it runs one call deeper, and
calls go only as deep as the limit allows; so the calls end by induction on the number of calls that
may still be made.

To run out of fuel is no outcome.  `Exec.Settles` says that from some fuel on there is an outcome,
which is always the same.
-/

namespace LoxWalk

open Exec

variable {R : Cell → Prop}

/-! ## Enough fuel -/

/-- With enough fuel `x` ends on the machine `m`, and more fuel changes nothing; it goes back to the
scope and the calls of `m`, leaves a tame store behind, and yields something with the property `Q`. -/
structure Exec.SettlesAt {α : Type} (R : Cell → Prop) (x : Nat → Exec α) (m : Machine) (Q : α → Prop)
    (fuel : Nat) : Prop where
  same : ∀ k, fuel ≤ k → x k m = x fuel m
  restores : (x fuel).Restores m
  tames : (x fuel).Tames R m Q

/-- Some fuel is enough. -/
def Exec.Settles {α : Type} (R : Cell → Prop) (x : Nat → Exec α) (m : Machine) (Q : α → Prop) : Prop :=
  ∃ fuel, SettlesAt R x m Q fuel

/-- Code that uses only tame values runs on the machine, inside `d` calls. -/
structure Machine.Ready (R : Cell → Prop) (d : Nat) (m : Machine) : Prop where
  store : m.store.Tame R
  scope : m.scope.Within R
  callDepth : m.callDepth = d

theorem Machine.Ready.restored {d : Nat} {m n : Machine} (h : m.Ready R d) (hn : m.Restored n)
    (hstore : n.store.Tame R) : n.Ready R d :=
  ⟨hstore, hn.scope ▸ h.scope, hn.callDepth.trans h.callDepth⟩

namespace Exec.Settles

variable {α β : Type} {m : Machine} {d : Nat} {Q : α → Prop} {P : β → Prop}

/-- A single step needs no fuel. -/
theorem step {x : Exec α} (hx : x.OnStore) (h : x.Tames R m Q) : Settles R (fun _ => x) m Q :=
  ⟨0, fun _ _ => rfl, .of_onStore hx m, h⟩

theorem print {v : Value} (h : m.store.Tame R) :
    Settles R (fun _ => Exec.print v) m fun _ => True :=
  ⟨0, fun _ _ => rfl, .print v m, .print h⟩

theorem succ {x : Nat → Exec α} (h : Settles R (fun k => x (k + 1)) m Q) : Settles R x m Q := by
  obtain ⟨fuel, hsame, hrestores, htames⟩ := h
  refine ⟨fuel + 1, fun k hk => ?_, hrestores, htames⟩
  obtain ⟨j, rfl⟩ : ∃ j, k = j + 1 := ⟨k - 1, by omega⟩
  exact hsame j (by omega)

/-- Two parts; the second one starts where the first one ends. -/
theorem bind {x : Nat → Exec α} {f : Nat → α → Exec β} (hm : m.Ready R d) (hx : Settles R x m Q)
    (hf : ∀ a n, n.Ready R d → Q a → Settles R (fun k => f k a) n P) :
    Settles R (fun k => x k >>= f k) m P := by
  obtain ⟨fuel, hsame, hrestores, htames⟩ := hx
  unfold Tames Ends at htames
  cases hr : x fuel m with
  | error i n =>
    have hbind : ∀ k, fuel ≤ k → (x k >>= f k) m = .error i n := fun k hk =>
      bind_of_error ((hsame k hk).trans hr)
    rw [hr] at htames
    refine ⟨fuel, fun k hk => ?_, ?_, ?_⟩
    · rw [hbind k hk, hbind fuel (Nat.le_refl _)]
    · exact Restores.bind hrestores fun a n hx => by rw [hr] at hx; cases hx
    · unfold Tames Ends
      rw [hbind fuel (Nat.le_refl _)]
      exact htames
  | ok a n =>
    rw [hr] at htames
    have hn : m.Restored n := after_of_ok hr ▸ hrestores
    obtain ⟨fuel', hsame', hrestores', htames'⟩ := hf a n (hm.restored hn htames.1) htames.2
    have hbind : ∀ k, fuel ≤ k → fuel' ≤ k → (x k >>= f k) m = f fuel' a n := fun k hk hk' =>
      (bind_of_ok ((hsame k hk).trans hr)).trans (hsame' k hk')
    have hmax := hbind (max fuel fuel') (Nat.le_max_left ..) (Nat.le_max_right ..)
    refine ⟨max fuel fuel', fun k hk => ?_, ?_, ?_⟩
    · rw [hmax, hbind k (by omega) (by omega)]
    · unfold Restores after at hrestores' ⊢
      rw [hmax]
      exact hn.trans hrestores'
    · unfold Tames Ends at htames' ⊢
      rwa [hmax]

/-- A first part that needs no fuel and yields a known result. -/
theorem bind_ok {x : Exec α} {f : Nat → α → Exec β} {a : α} {n : Machine} (hx : x m = .ok a n)
    (hn : m.Restored n) (hf : Settles R (fun k => f k a) n P) :
    Settles R (fun k => x >>= f k) m P := by
  obtain ⟨fuel, hsame, hrestores, htames⟩ := hf
  refine ⟨fuel, fun k hk => ?_, ?_, .bind_ok hx htames⟩
  · rw [bind_of_ok hx, bind_of_ok hx, hsame k hk]
  · unfold Restores at hrestores ⊢
    rw [after_bind_of_ok hx]
    exact hn.trans hrestores

theorem inScope {x : Nat → Exec α} {scope : Scope} (hx : Settles R x { m with scope := scope } Q) :
    Settles R (fun k => Exec.inScope scope (x k)) m Q := by
  obtain ⟨fuel, hsame, hrestores, htames⟩ := hx
  refine ⟨fuel, fun k hk => ?_, .inScope hrestores, ?_⟩
  · simp only [Exec.inScope, hsame k hk]
  · unfold Tames Ends at htames ⊢
    unfold Exec.inScope
    cases hr : x fuel { m with scope := scope } with
    | ok a n => rwa [hr] at htames
    | error i n => rwa [hr] at htames

theorem asCall {x : Nat → Exec α} (hx : Settles R x m.called Q) :
    Settles R (fun k => Exec.asCall (x k)) m Q := by
  obtain ⟨fuel, hsame, hrestores, htames⟩ := hx
  unfold Machine.called at hsame htames
  refine ⟨fuel, fun k hk => ?_, .asCall hrestores, ?_⟩
  · simp only [Exec.asCall, hsame k hk]
  · unfold Tames Ends at htames ⊢
    unfold Exec.asCall
    cases hr : x fuel { m with callDepth := m.callDepth + 1 } with
    | ok a n => rwa [hr] at htames
    | error i n => rwa [hr] at htames

theorem catchReturn {x : Nat → Exec Unit} (hx : Settles R x m fun _ => True) :
    Settles R (fun k => Exec.catchReturn (x k)) m (Value.Tame R) := by
  obtain ⟨fuel, hsame, hrestores, htames⟩ := hx
  refine ⟨fuel, fun k hk => ?_, ?_, ?_⟩
  · simp only [Exec.catchReturn, hsame k hk]
  · unfold Restores at hrestores ⊢
    rwa [after_catchReturn]
  · unfold Tames Ends at htames ⊢
    unfold Exec.catchReturn
    cases hr : x fuel m with
    | ok a n =>
      rw [hr] at htames
      exact ⟨htames.1, .of_isPlain trivial⟩
    | error i n =>
      rw [hr] at htames
      cases i <;> exact htames

end Exec.Settles

/-! ## Trees -/

/-- Code that runs inside `d` calls starts from the top level among the cells, and all calls that it
makes end. -/
structure Setting.CallsSettle (s : Setting) (R : Cell → Prop) (d : Nat) : Prop where
  globals : s.globals.Within R
  call : ∀ (callee : Value) (paren : Token) (arguments : List Value) (m : Machine), m.Ready R d →
    callee.Tame R → (∀ v ∈ arguments, v.Tame R) →
      Settles R (fun k => call s k callee paren arguments) m (Value.Tame R)

section

variable {s : Setting} {d : Nat}

mutual

/-- An expression ends if its calls do. -/
theorem settles_evaluate (hs : s.CallsSettle R d) : (e : Expr) → {m : Machine} → m.Ready R d →
    Settles R (fun k => evaluate s k e) m (Value.Tame R)
  | .literal value, m, hm =>
    .succ (.step (.pure _) (.pure hm.store (.of_isPlain (isPlain_literal value))))
  | .group inner, m, hm => .succ (settles_evaluate hs inner hm)
  | .unary operator operand, m, hm => by
    refine .succ (.bind hm (settles_evaluate hs operand hm) fun v n hn _ => ?_)
    exact .step (.operate _ _) (.operate hn.store fun _ => isPlain_of_applyUnary)
  | .binary left operator right, m, hm => by
    refine .succ (.bind hm (settles_evaluate hs left hm) fun a n hn _ => ?_)
    refine .bind hn (settles_evaluate hs right hn) fun b n hn _ => ?_
    exact .step (.operate _ _) (.operate hn.store fun _ => isPlain_of_applyBinary)
  | .logical left operator right, m, hm => by
    refine .succ (.bind hm (settles_evaluate hs left hm) fun a n hn ha => ?_)
    split
    · exact .step (.pure a) (.pure hn.store ha)
    · exact settles_evaluate hs right hn
  | .var id name, m, hm =>
    .succ (.step (.readVariable s id name) (.readVariable hm.store hm.scope hs.globals))
  | .assign id name value, m, hm => by
    refine .succ (.bind hm (settles_evaluate hs value hm) fun v n hn hv => ?_)
    refine .bind hn (.step (.assignVariable s id name v) (.assignVariable hn.store hv)) ?_
    exact fun _ n hn _ => .step (.pure v) (.pure hn.store hv)
  | .call callee paren arguments, m, hm => by
    refine .succ (.bind hm (settles_evaluate hs callee hm) fun f n hn hf => ?_)
    refine .bind hn (settles_evaluateAll hs arguments hn) fun vs n hn hvs => ?_
    exact hs.call f paren vs n hn hf hvs
  | .get object name, m, hm => by
    refine .succ (.bind hm (settles_evaluate hs object hm) fun v n hn hv => ?_)
    exact .step (.getProperty v name) (.getProperty hn.store hv)
  | .set object name value, m, hm => by
    refine .succ (.bind hm (settles_evaluate hs object hm) fun v n hn hv => ?_)
    refine .bind hn (.step (.fieldOwner v name) (.fieldOwner hn.store)) fun i n hn _ => ?_
    refine .bind hn (settles_evaluate hs value hn) fun w n hn hw => ?_
    refine .step (.bind (.modifyStore _) fun _ => .pure w) ?_
    exact .bind_ok rfl (.pure (hn.store.setField _ _ hw) hw)
  | .this id keyword, m, hm =>
    .succ (.step (.readVariable s id keyword) (.readVariable hm.store hm.scope hs.globals))
  | .super id keyword method, m, hm =>
    .succ (.step (.superMethod s id keyword method) (.superMethod hm.store hm.scope))

/-- Expressions end if their calls do. -/
theorem settles_evaluateAll (hs : s.CallsSettle R d) : (es : List Expr) → {m : Machine} →
    m.Ready R d → Settles R (fun k => evaluateAll s k es) m fun vs => ∀ v ∈ vs, v.Tame R
  | [], m, hm => .succ (.step (.pure []) (.pure hm.store (by simp)))
  | e :: es, m, hm => by
    refine .succ (.bind hm (settles_evaluate hs e hm) fun v n hn hv => ?_)
    refine .bind hn (settles_evaluateAll hs es hn) fun vs n hn hvs => ?_
    exact .step (.pure _) (.pure hn.store (List.forall_mem_cons.mpr ⟨hv, hvs⟩))

end

theorem Machine.Ready.opened {m : Machine} (hm : m.Ready R d) {b : Bindings}
    (hb : ∀ x v, b.get? x = some v → v.Tame R) {outer : Scope} (houter : outer.Within R) :
    (m.opened outer b).Ready R d :=
  ⟨hm.store.addFrame hb, hm.store.within_freshFrame houter, hm.callDepth⟩

mutual

/-- A statement without loops ends if its calls do. -/
theorem settles_execute (hs : s.CallsSettle R d) : (t : Stmt) → t.LoopFree → {m : Machine} →
    m.Ready R d → Settles R (fun k => execute s k t) m fun _ => True
  | .expression e, _, m, hm => by
    refine .succ (.bind hm (settles_evaluate hs e hm) fun v n hn _ => ?_)
    exact .step (.pure ()) (.pure hn.store trivial)
  | .print e, _, m, hm =>
    .succ (.bind hm (settles_evaluate hs e hm) fun _ _ hn _ => .print hn.store)
  | .var name none, _, m, hm =>
    .succ (.step (.define name .nil) (.define hm.store (.of_isPlain trivial)))
  | .var name (some e), _, m, hm => by
    refine .succ (.bind hm (settles_evaluate hs e hm) fun v n hn hv => ?_)
    exact .step (.define name v) (.define hn.store hv)
  | .block body, ht, m, hm => by
    have hopened := hm.opened (b := .empty) (fun _ _ h => nomatch h) hm.scope
    refine .succ (.bind_ok (a := m) (n := m) rfl ⟨rfl, rfl⟩ ?_)
    refine .bind_ok (a := .inside m.store.freshFrame m.scope) rfl ⟨rfl, rfl⟩ ?_
    exact .inScope (settles_executeAll hs body ht hopened)
  | .if_ condition thenBranch elseBranch, ht, m, hm => by
    refine .succ (.bind hm (settles_evaluate hs condition hm) fun v n hn _ => ?_)
    split
    · exact settles_execute hs thenBranch ht.1 hn
    · exact settles_execute? hs elseBranch ht.2 hn
  | .while_ _ _, ht, _, _ => ht.elim
  | .fun_ decl, ht, m, hm => by
    refine .succ (.bind_ok (a := m) (n := m) rfl ⟨rfl, rfl⟩ ?_)
    refine .bind_ok (n := { m with store := m.store.useObject }) rfl ⟨rfl, rfl⟩ ?_
    exact .step (.define _ _) (.define (hm.store.withObjects _) ⟨hm.scope, ht⟩)
  | .return_ _ none, _, m, hm =>
    .succ (.step (.throw _) (.throw hm.store (.of_isPlain trivial)))
  | .return_ _ (some e), _, m, hm => by
    refine .succ (.bind hm (settles_evaluate hs e hm) fun v n hn hv => ?_)
    exact .step (.throw _) (.throw hn.store hv)
  | .class_ name none methods, ht, m, hm => by
    refine .succ (.step (x := declareClass name none methods) (.declareClass name none methods) ?_)
    exact .declareClass hm.store hm.scope ht (by simp)
  | .class_ name (some e) methods, ht, m, hm => by
    refine .succ (.bind hm (settles_evaluate hs e hm) fun v n hn hv => ?_)
    refine .bind hn (.step (.superclassOf name e v) (.superclassOf hn.store hv)) fun c n hn hc => ?_
    refine .step (.declareClass name (some c) methods) (.declareClass hn.store hn.scope ht ?_)
    rintro _ ⟨⟩
    exact hc

/-- Statements without loops end if their calls do. -/
theorem settles_executeAll (hs : s.CallsSettle R d) : (ts : List Stmt) → Stmt.AllLoopFree ts →
    {m : Machine} → m.Ready R d → Settles R (fun k => executeAll s k ts) m fun _ => True
  | [], _, _, hm => .succ (.step (.pure ()) (.pure hm.store trivial))
  | t :: ts, hts, _, hm =>
    .succ (.bind hm (settles_execute hs t hts.1 hm) fun _ _ hn _ => settles_executeAll hs ts hts.2 hn)

theorem settles_execute? (hs : s.CallsSettle R d) : (t : Option Stmt) → Stmt.LoopFree? t →
    {m : Machine} → m.Ready R d →
      Settles R (fun k => match t with
        | some t => execute s k t
        | none => pure ()) m fun _ => True
  | none, _, _, hm => .step (.pure ()) (.pure hm.store trivial)
  | some t, ht, _, hm => settles_execute hs t ht hm

end

/-! ## Calls -/

/-- The run of a function without loops ends if the calls in its body do. -/
theorem settles_run (hs : s.CallsSettle R d) {f : Closure} {arguments : List Value} {m : Machine}
    (hm : m.Ready R d) (hf : (Value.function f).Tame R) (harguments : ∀ v ∈ arguments, v.Tame R) :
    Settles R (fun k => run s k f arguments) m (Value.Tame R) := by
  have hbindings := Closure.forall_bindings (f := f) harguments
  have hbody := settles_executeAll hs f.decl.body (Closure.LoopFree.body hf.loopFree)
    (hm.opened hbindings hf.refers)
  have hopened : Machine.Ready R d { m with store := m.store.addFrame (f.bindings arguments) } :=
    ⟨hm.store.addFrame hbindings, hm.scope, hm.callDepth⟩
  refine .succ (.bind_ok (a := .inside m.store.freshFrame f.scope) rfl ⟨rfl, rfl⟩ ?_)
  refine .bind hopened (.catchReturn (.inScope hbody)) fun v n hn hv => ?_
  split
  · exact .step (.boundInstance f) (.boundInstance hn.store hf)
  · exact .step (.pure v) (.pure hn.store hv)

/-- To enter a callable value ends if the calls in its body do. -/
theorem settles_enter (hs : s.CallsSettle R d) (hconfined : s.host.Confined)
    (hhost : s.host.LoopFree) {callee : Value} {paren : Token} {arguments : List Value} {m : Machine}
    (hm : m.Ready R d) (hcallee : callee.Tame R) (harguments : ∀ v ∈ arguments, v.Tame R) :
    Settles R (fun k => enter s k callee paren arguments) m (Value.Tame R) := by
  refine .succ ?_
  cases callee with
  | native f =>
    simp only [enter]
    split
    · rename_i v hv
      refine .step (.pure v) (.pure hm.store ⟨fun p hp => ?_, ?_⟩)
      · obtain ⟨a, ha, hp⟩ := hconfined f.name arguments v hv p hp
        exact (harguments a ha).refers p hp
      · exact hhost f.name arguments v hv fun a ha => (harguments a ha).loopFree
    · exact .step (.fault _ _) (.fault hm.store)
  | function f => exact settles_run hs hm hcallee harguments
  | class_ c =>
    have hinstance := hm.store.freshRecord hcallee
    have hrecord : m.withRecord.Ready R d := ⟨hm.store.addRecord, hm.scope, hm.callDepth⟩
    refine .bind_ok (a := ⟨m.store.freshRecord, c⟩) (n := m.withRecord) rfl ⟨rfl, rfl⟩ ?_
    split
    · rename_i f hf
      have hbound := Tames.bindMethod hrecord.store (hcallee.method hf) hinstance
      refine .bind hrecord (.step (.bindMethod f _) hbound) fun g n hn hg => ?_
      refine .bind hn (settles_run hs hn hg harguments) fun _ n hn _ => ?_
      exact .step (.pure _) (.pure hn.store hinstance)
    · exact .step (.pure _) (.pure hrecord.store hinstance)
  | _ => exact .step (.fault _ _) (.fault hm.store)

/-- Calls end if those end that are made one call deeper, as long as this is allowed. -/
theorem callsSettle_of_next (hconfined : s.host.Confined) (hhost : s.host.LoopFree)
    (hglobals : s.globals.Within R) (hnext : d < s.maxCallDepth → s.CallsSettle R (d + 1)) :
    s.CallsSettle R d := by
  refine ⟨hglobals, fun callee paren arguments m hm hcallee harguments => .succ ?_⟩
  simp only [call]
  split
  · exact .step (.fault _ _) (.fault hm.store)
  · split
    · exact .step (.fault _ _) (.fault hm.store)
    · refine .bind_ok (a := m) (n := m) rfl ⟨rfl, rfl⟩ ?_
      simp only [withStackFor_eq, hm.callDepth]
      split
      · exact .step (.fault _ _) (.fault hm.store)
      · rename_i hdepth
        have hcalled : m.called.Ready R (d + 1) :=
          ⟨hm.store, hm.scope, congrArg (· + 1) hm.callDepth⟩
        have hs := hnext (Nat.lt_of_not_le hdepth)
        exact .asCall (settles_enter hs hconfined hhost hcalled hcallee harguments)

/-- All calls end: the induction is on the number of calls that may still be made. -/
theorem callsSettle (hconfined : s.host.Confined) (hhost : s.host.LoopFree)
    (hglobals : s.globals.Within R) (d : Nat) : s.CallsSettle R d := by
  induction hleft : s.maxCallDepth - d generalizing d with
  | zero => exact callsSettle_of_next hconfined hhost hglobals fun hlt => by omega
  | succ left ih =>
    exact callsSettle_of_next hconfined hhost hglobals fun _ => ih (d + 1) (by omega)

end

/-! ## Main statement -/

/-- With enough fuel `x` has an outcome on the machine `m`, and more fuel does not change it. -/
def Exec.Halts {α : Type} (x : Nat → Exec α) (m : Machine) : Prop :=
  ∃ fuel r, (∀ k, fuel ≤ k → x k m = r) ∧ ∀ m', r ≠ .error .outOfFuel m'

theorem Exec.Settles.halts {α : Type} {x : Nat → Exec α} {m : Machine} {Q : α → Prop}
    (h : Settles R x m Q) : Halts x m := by
  obtain ⟨fuel, hsame, -, htames⟩ := h
  refine ⟨fuel, x fuel m, hsame, fun m' hr => ?_⟩
  unfold Tames Ends at htames
  rw [hr] at htames
  exact htames.2

/-- No loop is in a function or a method that code can get at which runs on the machine. -/
def Setting.LoopFree (s : Setting) (m : Machine) : Prop :=
  ∀ p b x v, m.store.Reaches (s.Roots m.scope) p → m.store.at? p = some b → b.get? x = some v →
    v.LoopFree

/-- What code can get at that runs on the machine, and what is new. -/
def Setting.InReach (s : Setting) (m : Machine) (p : Cell) : Prop :=
  m.store.Reaches (s.Roots m.scope) p ∨ m.store.at? p = none

theorem Setting.LoopFree.ready {s : Setting} {m : Machine} (h : s.LoopFree m) :
    m.Ready (s.InReach m) m.callDepth := by
  refine ⟨⟨fun p b x v hp hb hv => ?_, fun p hp => .inr hp⟩, fun p hp => .inl (.root (.inl hp)), rfl⟩
  have hreach : m.store.Reaches (s.Roots m.scope) p := by
    refine hp.resolve_right fun hnone => ?_
    rw [hb] at hnone
    cases hnone
  exact ⟨fun q hq => .inl (hreach.link ⟨b, x, v, hb, hv, hq⟩), h p b x v hreach hb hv⟩

/-- On every machine every expression ends, and so does every statement without loops, if there are
no loops in the functions and methods that can be got at, however they call each other. -/
theorem halts_without_loops (s : Setting) (hconfined : s.host.Confined) (hhost : s.host.LoopFree)
    (m : Machine) (hm : s.LoopFree m) :
    (∀ e, Halts (fun k => evaluate s k e) m) ∧
      ∀ t : Stmt, t.LoopFree → Halts (fun k => execute s k t) m := by
  have hglobals : s.globals.Within (s.InReach m) := fun p hp => .inl (.root (.inr hp))
  have hs := callsSettle hconfined hhost hglobals m.callDepth
  exact ⟨fun e => (settles_evaluate hs e hm.ready).halts,
    fun t ht => (settles_execute hs t ht hm.ready).halts⟩

/-- A function that does nothing but call itself ends. -/
theorem halts_without_loops_recursion :
    Recursion.setting.LoopFree Recursion.machine ∧
      Halts (fun k => execute Recursion.setting k (.block Recursion.closure.decl.body))
        Recursion.machine := by
  have hm : Recursion.setting.LoopFree Recursion.machine := by
    intro p b x v _ hb hv
    cases p with
    | frame f =>
      obtain rfl := List.mem_singleton.mp (Array.mem_def.mp (Array.mem_of_getElem? hb))
      refine NameMap.forall_single (P := Value.LoopFree) (x := "f") ?_ x v hv
      exact ⟨trivial, trivial⟩
    | record r => cases hb
  have hhalts := halts_without_loops Recursion.setting (Host.confined_clockAt 0)
    (Host.loopFree_clockAt 0) Recursion.machine hm
  exact ⟨hm, hhalts.2 _ ⟨trivial, trivial⟩⟩

end LoxWalk
