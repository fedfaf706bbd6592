import LoxWalk.Proofs.Execution.Balance
import LoxWalk.Proofs.Loops.ForLoops
import LoxWalk.Proofs.Loops.Run

/-!
# Rounds of a loop with clauses

The tree that is read of a loop with clauses runs with an extra scope around its body and its
increment in each round, if there is an increment.  It ends as a copy of the loop itself does
(`Padding.agree_execute_desugared`).

The tree is deeper than the loop, so its run takes more fuel: a bounded number of units, since each
round takes its fuel from the one before.
-/

namespace LoxWalk

open Exec

/-! ## Execution with any fuel -/

section

variable (s : Setting) (fuel : Nat)

theorem execute_expression (e : Expr) : execute s fuel (.expression e) = (do
    let _ ← evaluate s (fuel - 1) e
    pure ()) := by
  cases fuel <;> rfl

theorem execute_while (e : Expr) (t : Stmt) :
    execute s fuel (.while_ e t) = repeatWhile s (fuel - 1) e t := by
  cases fuel <;> rfl

theorem executeAll_singleton (t : Stmt) : executeAll s fuel [t] = execute s (fuel - 1) t := by
  cases fuel with
  | zero => rfl
  | succ fuel =>
    cases fuel with
    | zero => rfl
    | succ fuel => exact bind_pure _

theorem executeAll_pair (t u : Stmt) : executeAll s fuel [t, u] = (do
    execute s (fuel - 1) t
    execute s (fuel - 2) u) := by
  cases fuel with
  | zero => rfl
  | succ fuel =>
    rw [executeAll, executeAll_singleton]
    rfl

end

namespace Padding

variable {L : Slack} {s : Setting} {W : Padding} {π : List Bool} {m m' : Machine}

/-! ## Fuel -/

/-- The fuel of the padded run is larger by `c` at least, or not larger at all; then the run that
gets less may run out of it. -/
def Slack.Spares (L : Slack) (c n n' : Nat) : Prop :=
  L.plain ∧ n + c ≤ n' ∨ L.padded ∧ n' ≤ n

namespace Slack.Spares

variable {c c' n n' : Nat}

/-- A part of the padded run that lies deeper by `d`. -/
theorem sub (h : L.Spares c n n') (d : Nat) (hd : c' + d ≤ c) : L.Spares c' n (n' - d) :=
  h.imp (And.imp_right fun _ => by omega) (And.imp_right fun _ => by omega)

theorem allows (h : L.Spares c n n') (d : Nat) (hd : d ≤ c) : L.Allows n (n' - d) :=
  .inr (h.imp (And.imp_right fun _ => by omega) (And.imp_right fun _ => by omega))

theorem of_succ (h : L.Spares c (n + 1) (n' + 1)) : L.Spares c n n' :=
  h.imp (And.imp_right fun _ => by omega) (And.imp_right fun _ => by omega)

/-- The padded run has no fuel only if it may run out of it. -/
theorem padded (h : L.Spares (c + 1) n 0) : L.padded :=
  h.elim (fun h => absurd h.2 (by omega)) And.left

end Slack.Spares

/-! ## Steps of one run alone -/

namespace Agree

variable {α β γ δ : Type} {Q : Padding → α → β → Prop}

/-- The results of one run are looked at. -/
theorem map_left {x : Exec α} {x' : Exec β} {f : α → γ} {R : Padding → γ → β → Prop}
    (hx : Agree L s W π x x' m m' Q) (h : ∀ W a b, Q W a b → R W (f a) b) :
    Agree L s W π (do let a ← x; Pure.pure (f a)) x' m m' R := by
  have hmap : Agree L s W π (do let a ← x; Pure.pure (f a)) (x' >>= Pure.pure) m m' R :=
    hx.bind fun W₁ a b _ _ _ hm hq => .pure hm (h W₁ a b hq)
  rwa [bind_pure] at hmap

/-- The padded run opens an extra scope for a part of the program. -/
theorem inExtraScope {x : Exec α} {x' : Exec β} (hm : Machines s W π m m')
    (hrestores : x.Restores m) (hx : ∀ W₁ m₁', W <+: W₁ → Machines s W₁ (true :: π) m m₁' →
      Agree L s W₁ (true :: π) x x' m m₁' Q) :
    Agree L s W π x (do
      let scope ← newScope (← get).scope .empty
      Exec.inScope scope x') m m' Q := by
  have hW : W <+: W ++ [none] := List.prefix_append _ _
  have hinside : Machines s (W ++ [none]) (true :: π) m
      { m' with
        store := m'.store.addFrame .empty, scope := .inside m'.store.freshFrame m'.scope } :=
    ⟨hm.store.addExtra, .extra hm.store.extra_freshFrame (hm.scope.mono hW), hm.callDepth,
      hm.output, hm.globals.mono hW⟩
  -- the scope of the padded run is its former one again, and that of the plain run has not changed
  have hmachines : ∀ {W₁ m₁ m₁'}, W ++ [none] <+: W₁ → m₁.scope = m.scope →
      Machines s W₁ (true :: π) m₁ m₁' → Machines s W₁ π m₁ { m₁' with scope := m'.scope } :=
    fun hW₁ hscope hm₁ =>
      ⟨hm₁.store, hscope ▸ hm.scope.mono (hW.trans hW₁), hm₁.callDepth, hm₁.output, hm₁.globals⟩
  have hagree := hx _ _ hW hinside
  have hscope := hrestores.scope
  unfold Agree at hagree ⊢
  change Outcomes _ _ _ _ _ _ (Exec.inScope _ x' { m' with store := m'.store.addFrame .empty })
  unfold Exec.inScope
  dsimp only
  unfold after at hscope
  revert hagree hscope
  generalize x m = r, x' { m' with
    store := m'.store.addFrame .empty, scope := .inside m'.store.freshFrame m'.scope } = r'
  intro hagree hscope
  cases hagree with
  | ok hW₁ hm₁ hq => exact .ok (hW.trans hW₁) (hmachines hW₁ hscope hm₁) hq
  | error hW₁ hm₁ he => exact .error (hW.trans hW₁) (hmachines hW₁ hscope hm₁) he
  | plain h m₁ _ => exact .plain h _ _
  | padded h _ m₁ => exact .padded h _ _

end Agree

end Padding

/-! ## Loops -/

/-- The flags of the scopes around the body in the tree that is read: one more is extra, if there is
an increment. -/
def ForLoop.extra (l : ForLoop) (π : List Bool) : List Bool :=
  if l.increment.isSome then true :: π else π

/-- The parts of a loop as they stand in the tree that is read, and those of its copy: there is an
extra scope around the body, if there is an increment, and around the increment. -/
structure ForLoop.Padded (s : Setting) (k : Nat) (π : List Bool) (l : ForLoop) : Prop where
  condition : Expr.Padded? s k π l.condition
  body : l.body.Padded s k (l.extra π)
  increment : Expr.Padded? s k (true :: π) l.increment

namespace Padding

variable {L : Slack} {s : Setting} {W : Padding} {π : List Bool} {m m' : Machine} {k n n' : Nat}
  {l : ForLoop}

theorem agree_holds (hhost : ∃ now, s.host = .clockAt now) (hn : L.Spares 4 n n')
    (hm : Machines s W π m m') (hl : l.Padded s k π) :
    Agree L s W π ((l.shift k).holds s n)
      (evaluate s n' (l.condition.getD (.literal (.bool true)))) m m'
      fun _ b v => v.isTruthy = b := by
  have hcondition := hl.condition
  unfold ForLoop.holds ForLoop.shift
  dsimp only
  cases hc : l.condition with
  | none =>
    cases n' with
    | zero => exact .padded hn.padded _ _
    | succ n' =>
      rw [Option.getD_none, evaluate]
      exact .pure hm rfl
  | some e =>
    rw [hc] at hcondition
    exact .map_left ((simulates hhost (hn.allows 0 (by decide))).evaluate hm hcondition)
      fun _ _ _ hv => hv.isTruthy_eq

/-- One round.  With an increment the padded run opens a scope for it and the body. -/
theorem agree_round (hhost : ∃ now, s.host = .clockAt now) (hn : L.Spares 4 n n')
    (hm : Machines s W π m m') (hl : l.Padded s k π) :
    Agree L s W π ((l.shift k).round s n) (execute s n' l.step) m m' fun _ _ _ => True := by
  have hbody := hl.body
  have hincrement := hl.increment
  unfold ForLoop.extra at hbody
  unfold ForLoop.round ForLoop.advance ForLoop.step ForLoop.shift
  dsimp only
  cases hi : l.increment with
  | none =>
    simp only [hi, Option.isSome_none, Bool.false_eq_true, if_false] at hbody
    dsimp only [Option.map_none]
    rw [bind_pure]
    exact (simulates hhost (hn.allows 0 (by decide))).execute hm hbody
  | some e =>
    simp only [hi, Option.isSome_some, if_true] at hbody
    rw [hi] at hincrement
    dsimp only [Option.map_some]
    cases n' with
    | zero => exact .padded hn.padded _ _
    | succ n' =>
      rw [execute, executeAll_pair, execute_expression]
      -- the plain run opens no scope, so it has to come back to its scope by itself
      have hrestores : Exec.Restores (do
          execute s n (l.body.shift k id)
          let _ ← evaluate s n (e.shift k id)
          pure ()) m :=
        .bind (.carried s ⟨n, .execute _, m⟩) fun _ m₁ _ =>
          .bind (.carried s ⟨n, .evaluate _, m₁⟩) fun _ m₂ _ => .of_onStore (.pure ()) m₂
      refine .inExtraScope hm hrestores fun W₁ m₁' hW₁ hm₁ => ?_
      have hbodyFuel : L.Allows n (n' - 1) := hn.allows 2 (by decide)
      have hincrementFuel : L.Allows n (n' - 2 - 1) := hn.allows 4 (by decide)
      refine .bind ((simulates hhost hbodyFuel).execute hm₁ hbody) fun W₂ _ _ m₂ m₂' _ hm₂ _ => ?_
      exact .bind ((simulates hhost hincrementFuel).evaluate hm₂ hincrement)
        fun W₃ _ _ m₃ m₃' _ hm₃ _ => .pure hm₃ trivial

/-- Round after round; the induction is on the fuel of the loop, which both runs spend alike. -/
theorem agree_rounds (hhost : ∃ now, s.host = .clockAt now) (hn : L.Spares 4 n n')
    (hm : Machines s W π m m') (hl : l.Padded s k π) :
    Agree L s W π ((l.shift k).rounds s n)
      (repeatWhile s n' (l.condition.getD (.literal (.bool true))) l.step) m m'
      fun _ _ _ => True := by
  induction n generalizing n' W m m' with
  | zero =>
    -- the loop has no fuel for a round, and the tree may have some
    rcases hn with ⟨hplain, -⟩ | ⟨hpadded, hle⟩
    · exact .plain hplain _ _
    · obtain rfl := Nat.le_zero.mp hle
      exact .padded hpadded _ _
  | succ n ih =>
    cases n' with
    | zero => exact .padded hn.padded _ _
    | succ n' =>
      have hn₁ : L.Spares 4 n n' := hn.of_succ
      rw [ForLoop.rounds, repeatWhile]
      refine .bind (agree_holds hhost hn₁ hm hl) fun W₁ b v m₁ m₁' _ hm₁ hv => ?_
      rw [hv]
      split
      · exact .bind (agree_round hhost hn₁ hm₁ hl) fun W₂ _ _ m₂ m₂' _ hm₂ _ => ih hn₁ hm₂
      · exact .pure hm₁ trivial

/-- The loop and the tree that is read of it.  Both runs open the scope of the initializer. -/
theorem agree_execute_desugared (hhost : ∃ now, s.host = .clockAt now) (hn : L.Spares 8 n n')
    (hm : Machines s W [] m m') (hinitializer : ∀ t ∈ l.initializer, t.Padded s k [])
    (hl : l.Padded s k []) :
    Agree L s W [] ((l.shift k).execute s n) (execute s n' l.desugared) m m' fun _ _ _ => True := by
  cases hi : l.initializer with
  | none =>
    have hplain : (l.shift k).execute s n = (l.shift k).rounds s n := by
      rw [ForLoop.execute, ForLoop.shift, hi]
      rfl
    rw [ForLoop.desugared_of_none hi, ForLoop.loop, execute_while, hplain]
    exact agree_rounds hhost (hn.sub 1 (by decide)) hm hl
  | some t =>
    cases n' with
    | zero => exact .padded hn.padded _ _
    | succ n' =>
      have hinitialFuel : L.Allows n (n' - 1) := hn.allows 2 (by decide)
      have hroundsFuel : L.Spares 4 n (n' - 2 - 1) := hn.sub 4 (by decide)
      have hW : W <+: W ++ [some m.store.freshFrame] := List.prefix_append _ _
      have hσ := hm.store.addFrame (Simulates.rel_empty W)
      have hm₁ := hm.of_store hW hσ
      obtain ⟨hsame⟩ := hm₁.scope
      have hplain : (l.shift k).execute s n = (do
          let scope ← newScope (← get).scope .empty
          inScope scope do
            execute s n (t.shift k id)
            (l.shift k).rounds s n) := by
        rw [ForLoop.execute, ForLoop.shift, hi]
        rfl
      rw [ForLoop.desugared_of_some hi, ForLoop.loop, execute, executeAll_pair, execute_while,
        hplain]
      refine .bind_ok (a := m) (b := m') rfl rfl ?_
      refine .bind_ok (a := .inside m.store.freshFrame m.scope)
        (b := .inside m'.store.freshFrame m'.scope) rfl rfl ?_
      -- around the loop no scope is extra, nor is the one that both runs open here
      have hm₂ := hm₁.enter (.same (.inside hm.store.stands_freshFrame hsame))
      have hinitial := (simulates hhost hinitialFuel).execute hm₂ (hinitializer t hi)
      exact .extend hW (.inScope hm₁.scope (hinitial.bind
        fun W₃ _ _ m₃ m₃' _ hm₃ _ => agree_rounds hhost hroundsFuel hm₃ hl))

end Padding

end LoxWalk
