import LoxWalk.Proofs.Execution.Balance
import LoxWalk.Proofs.Printing.Scanned
import LoxWalk.Proofs.Session.Histories
import LoxWalk.Proofs.Tracking.Execution

/-!
# Only declarations bind names

Evaluation gives variables of enclosing scopes new values, and what it calls declares variables of
its own.  Nothing of this binds a name in a scope that was there before: an assignment needs a name
that is bound already, and whatever is declared on the way is declared in a scope that is new
(`Tracker.bystanders`).  So of all statements that the grammar knows only a declaration adds a name,
its own, and only to the current scope.

No name is ever removed from any scope (`Tracker.growth`).
-/

namespace LoxWalk

open Exec

namespace Store

/-- The names that a frame binds. -/
def names (σ : Store) (f : FrameId) : List String :=
  (σ.frame f).names

/-- All frames of `σ` bind the same names in `σ'`. -/
structure KeepsNames (σ σ' : Store) : Prop where
  size : σ.frames.size ≤ σ'.frames.size
  names : ∀ f, f.index < σ.frames.size → σ'.names f = σ.names f

/-- All frames of `σ` bind the same names in `σ'`, but the frame `f₀` may bind one more, the one
that is declared. -/
def Gains (σ : Store) (f₀ : FrameId) (declared : Option Token) (σ' : Store) : Prop :=
  ∀ f, f.index < σ.frames.size →
    σ'.names f = σ.names f ∨ f = f₀ ∧ ∃ t ∈ declared, σ'.names f = σ.names f ++ [t.lexeme]

/-- No frame binds fewer names in `σ'` than in `σ`. -/
def NamesGrow (σ σ' : Store) : Prop :=
  ∀ f, σ.names f <+: σ'.names f

/-! ## What single changes do to names -/

section

variable {σ σ₁ σ₂ : Store} {c : Scope} {x : String} {f : FrameId}

theorem declares_iff_mem_names : σ.declares c x = true ↔ x ∈ σ.names c.frame :=
  NameMap.contains_iff_mem_names _ _

theorem names_of_le (h : σ.frames.size ≤ f.index) : σ.names f = [] := by
  rw [names, frame, Array.getElem?_eq_none h]
  rfl

theorem names_define_of_ne (v : Value) (h : c.frame ≠ f) :
    (σ.define c x v).names f = σ.names f := by
  have hindex : c.frame.index ≠ f.index := fun he => h (congrArg FrameId.mk he)
  rw [names, names, frame, frame, getElem?_frames_define, if_neg hindex]

theorem names_define_self (v : Value) (h : c.frame.index < σ.frames.size) :
    (σ.define c x v).names c.frame =
      if σ.declares c x then σ.names c.frame else σ.names c.frame ++ [x] := by
  have hframe : (σ.define c x v).frame c.frame = (σ.frame c.frame).insert x v := by
    rw [frame, frame, getElem?_frames_define, if_pos rfl, Array.getElem?_eq_getElem h]
    rfl
  rw [names, hframe, NameMap.names_insert]
  rfl

theorem names_define_of_declares (v : Value) (h : σ.declares c x = true) (f : FrameId) :
    (σ.define c x v).names f = σ.names f := by
  by_cases hf : c.frame = f
  · subst hf
    rw [names_define_self v (lt_size_of_contains h), if_pos h]
  · exact names_define_of_ne v hf

theorem mem_names_define (v : Value) (h : c.frame.index < σ.frames.size) :
    x ∈ (σ.define c x v).names c.frame := by
  rw [names_define_self v h]
  split
  · rename_i hx
    exact declares_iff_mem_names.mp hx
  · simp

theorem names_addFrame_of_lt (b : Bindings) (h : f.index < σ.frames.size) :
    (σ.addFrame b).names f = σ.names f := by
  rw [names, names, frame_addFrame_of_lt σ b h]

theorem size_frames_addFrame (b : Bindings) :
    (σ.addFrame b).frames.size = σ.frames.size + 1 := by
  rw [addFrame, Array.size_push]

namespace KeepsNames

theorem refl (σ : Store) : σ.KeepsNames σ :=
  ⟨Nat.le_refl _, fun _ _ => rfl⟩

theorem trans (h : σ.KeepsNames σ₁) (h' : σ₁.KeepsNames σ₂) : σ.KeepsNames σ₂ :=
  ⟨Nat.le_trans h.size h'.size, fun f hf =>
    (h'.names f (Nat.lt_of_lt_of_le hf h.size)).trans (h.names f hf)⟩

theorem addFrame (h : σ.KeepsNames σ₁) (b : Bindings) : σ.KeepsNames (σ₁.addFrame b) := by
  refine ⟨?_, fun f hf => ?_⟩
  · rw [size_frames_addFrame]
    exact Nat.le_succ_of_le h.size
  · rw [names_addFrame_of_lt b (Nat.lt_of_lt_of_le hf h.size)]
    exact h.names f hf

/-- A name that is declared is bound already, or the scope is new. -/
theorem define (h : σ.KeepsNames σ₁) (v : Value)
    (hx : c.frame.index < σ.frames.size → x ∈ σ.names c.frame) :
    σ.KeepsNames (σ₁.define c x v) := by
  refine ⟨?_, fun f hf => ?_⟩
  · rw [size_frames_define]
    exact h.size
  · by_cases hc : c.frame = f
    · subst hc
      -- an old frame has the name in `σ`, and so it still has it in `σ₁`
      have hdeclares : σ₁.declares c x = true := by
        rw [declares_iff_mem_names, h.names _ hf]
        exact hx hf
      rw [names_define_of_declares v hdeclares]
      exact h.names _ hf
    · rw [names_define_of_ne v hc]
      exact h.names f hf

theorem gains (h : σ.KeepsNames σ₁) (f₀ : FrameId) (declared : Option Token) :
    σ.Gains f₀ declared σ₁ :=
  fun f hf => .inl (h.names f hf)

theorem trans_gains {f₀ : FrameId} {declared : Option Token} (h : σ.KeepsNames σ₁)
    (h' : σ₁.Gains f₀ declared σ₂) : σ.Gains f₀ declared σ₂ := by
  intro f hf
  have hgains := h' f (Nat.lt_of_lt_of_le hf h.size)
  rwa [h.names f hf] at hgains

end KeepsNames

theorem Gains.trans_keepsNames {f₀ : FrameId} {declared : Option Token}
    (h : σ.Gains f₀ declared σ₁) (hsize : σ.frames.size ≤ σ₁.frames.size)
    (h' : σ₁.KeepsNames σ₂) : σ.Gains f₀ declared σ₂ := by
  intro f hf
  rw [h'.names f (Nat.lt_of_lt_of_le hf hsize)]
  exact h f hf

theorem gains_define (σ : Store) (c : Scope) (name : Token) (v : Value) :
    σ.Gains c.frame (some name) (σ.define c name.lexeme v) := by
  intro f hf
  by_cases hc : c.frame = f
  · subst hc
    rw [names_define_self v hf]
    split
    · exact .inl rfl
    · exact .inr ⟨rfl, name, rfl, rfl⟩
  · exact .inl (names_define_of_ne v hc)

namespace NamesGrow

theorem refl (σ : Store) : σ.NamesGrow σ :=
  fun _ => List.prefix_rfl

theorem trans (h : σ.NamesGrow σ₁) (h' : σ₁.NamesGrow σ₂) : σ.NamesGrow σ₂ :=
  fun f => (h f).trans (h' f)

theorem define (σ : Store) (c : Scope) (x : String) (v : Value) :
    σ.NamesGrow (σ.define c x v) := by
  intro f
  by_cases hc : c.frame = f
  · subst hc
    by_cases hlt : c.frame.index < σ.frames.size
    · rw [names_define_self v hlt]
      split
      · exact List.prefix_rfl
      · exact List.prefix_append _ _
    · rw [names_of_le (Nat.le_of_not_lt hlt)]
      exact List.nil_prefix
  · rw [names_define_of_ne v hc]

theorem addFrame (σ : Store) (b : Bindings) : σ.NamesGrow (σ.addFrame b) := by
  intro f
  by_cases hlt : f.index < σ.frames.size
  · rw [names_addFrame_of_lt b hlt]
  · rw [names_of_le (Nat.le_of_not_lt hlt)]
    exact List.nil_prefix

end NamesGrow

end

end Store

namespace Tracker

/-! ## The frames that are there already -/

/-- The frames of `σ₀` bind the same names for ever.  What is declared is declared in new frames. -/
def bystanders (σ₀ : Store) : Tracker where
  Note := Unit
  le _ _ := True
  store _ σ := σ₀.KeepsNames σ
  value _ _ := True
  scope _ _ := True
  current _ c := σ₀.frames.size ≤ c.frame.index
  refl _ := trivial
  trans _ _ := trivial
  value_mono _ h := h
  scope_mono _ h := h
  current_mono _ h := h
  scope_of_current _ := trivial
  plain _ _ _ := trivial
  ofFrame _ _ := trivial
  ofRecord _ _ := trivial
  closure _ := trivial
  method _ _ := trivial
  ofClass _ := trivial
  define _ h hc _ := ⟨(), trivial, h.define _ fun hlt => (Nat.not_lt_of_le hc hlt).elim⟩
  assign {_ σ c x _} h hx _ := by
    refine ⟨(), trivial, h.define _ fun hlt => ?_⟩
    rw [← h.names _ hlt]
    exact Store.declares_iff_mem_names.mp hx
  addFrame h _ _ := ⟨(), trivial, h.addFrame _, h.size⟩
  newFunction _ _ h _ := ⟨(), trivial, ⟨h.size, h.names⟩, trivial⟩
  newBase _ h _ _ := ⟨(), trivial, ⟨h.size, h.names⟩, trivial⟩
  newDerived _ h _ _ _ := ⟨(), trivial, ⟨h.size, h.names⟩, trivial⟩
  addRecord h _ := ⟨(), trivial, ⟨h.size, h.names⟩, trivial⟩
  setField _ _ h _ := ⟨(), trivial, ⟨h.size, h.names⟩⟩

theorem bystanders_trusts (σ₀ : Store) (host : Host) : (bystanders σ₀).Trusts host :=
  fun _ _ _ _ _ _ => trivial

/-! ## Names that only become more -/

/-- The note is the store itself. -/
def growth : Tracker where
  Note := Store
  le σ σ' := σ.NamesGrow σ'
  store g σ := σ = g
  value _ _ := True
  scope _ _ := True
  current _ _ := True
  refl := .refl
  trans h h' := h.trans h'
  value_mono _ h := h
  scope_mono _ h := h
  current_mono _ h := h
  scope_of_current _ := trivial
  plain _ _ _ := trivial
  ofFrame _ _ := trivial
  ofRecord _ _ := trivial
  closure _ := trivial
  method _ _ := trivial
  ofClass _ := trivial
  define {_ σ c v} x h _ _ := ⟨σ.define c x v, h ▸ .define σ c x v, rfl⟩
  assign {_ σ c x v} h _ _ := ⟨σ.define c x v, h ▸ .define σ c x v, rfl⟩
  addFrame {_ σ _ b} h _ _ := ⟨σ.addFrame b, h ▸ .addFrame σ b, rfl, trivial⟩
  newFunction {_ σ _} _ _ h _ := ⟨σ.useObject, h ▸ .refl σ, rfl, trivial⟩
  newBase {_ σ} _ h _ _ := ⟨σ.useObject, h ▸ .refl σ, rfl, trivial⟩
  newDerived {_ σ _} _ h _ _ _ := ⟨σ.useObject, h ▸ .refl σ, rfl, trivial⟩
  addRecord {_ σ _} h _ := ⟨σ.addRecord, h ▸ .refl σ, rfl, trivial⟩
  setField {_ σ v} r x h _ := ⟨σ.setField r x v, h ▸ .refl σ, rfl⟩

theorem growth_trusts (host : Host) : growth.Trusts host :=
  fun _ _ _ _ _ _ => trivial

end Tracker

/-! ## Expressions -/

/-- However `x` ends on the machine `m`, all frames bind the same names. -/
def Exec.KeepsNames {α : Type} (x : Exec α) (m : Machine) : Prop :=
  m.store.KeepsNames (x.after m).store

section

variable {s : Setting} {n : Nat} {m : Machine} {α β : Type}

theorem keepsNames_evaluate (s : Setting) (n : Nat) (e : Expr) (m : Machine) :
    (evaluate s n e).KeepsNames m ∧
      ∀ ν, During s ⟨n, .evaluate e, m⟩ ν → m.store.KeepsNames ν.machine.store := by
  have hfits : (Tracker.bystanders m.store).Fits () ⟨n, .evaluate e, m⟩ :=
    ⟨.refl _, trivial, trivial⟩
  obtain ⟨_, hreaches⟩ := hfits.tracked (Tracker.bystanders_trusts m.store s.host)
  refine ⟨hreaches.store, fun ν hν => ?_⟩
  obtain ⟨_, _, -, -, hnoted⟩ := hreaches.moments ν hν
  exact hnoted.fits.store

/-- What is declared in a block is declared in its own scope. -/
theorem keepsNames_block (s : Setting) (n : Nat) (body : List Stmt) (m : Machine) :
    (execute s n (.block body)).KeepsNames m := by
  cases n with
  | zero => exact .refl _
  | succ n =>
    have hfits : (Tracker.bystanders m.store).Fits ()
        ⟨n, .executeAll body, m.opened m.scope .empty⟩ :=
      ⟨.addFrame (.refl _) _, trivial, Nat.le_refl m.store.frames.size⟩
    obtain ⟨_, hreaches⟩ := hfits.tracked (Tracker.bystanders_trusts m.store s.host)
    have hafter : ((execute s (n + 1) (.block body)).after m).store =
        ((executeAll s n body).after (m.opened m.scope .empty)).store := by
      have hget : (get : Exec Machine) m = .ok m m := rfl
      have hopened : newScope m.scope .empty m = .ok (.inside m.store.freshFrame m.scope)
          { m with store := m.store.addFrame .empty } := rfl
      rw [execute, after_bind_of_ok hget, after_bind_of_ok hopened, after_inScope]
      rfl
    rw [KeepsNames, hafter]
    exact hreaches.store

/-! ## Statements that declare nothing -/

namespace Exec.KeepsNames

variable {x : Exec α} {f : α → Exec β}

theorem of_store (h : (x.after m).store = m.store) : x.KeepsNames m := by
  rw [KeepsNames, h]
  exact .refl _

theorem bind (hx : x.KeepsNames m) (hf : ∀ a m₁, x m = .ok a m₁ → (f a).KeepsNames m₁) :
    (x >>= f).KeepsNames m := by
  unfold KeepsNames at hx ⊢
  cases hr : x m with
  | ok a m₁ =>
    rw [after_of_ok hr] at hx
    rw [after_bind_of_ok hr]
    exact hx.trans (hf a m₁ hr)
  | error i m₁ => rwa [after_bind_of_error hr]

theorem print (v : Value) (m : Machine) : (Exec.print v).KeepsNames m := by
  refine of_store ?_
  unfold after Exec.print
  cases m.output.writeLine v.text with
  | mk accepted output => cases accepted <;> rfl

end Exec.KeepsNames

/-- A statement that declares nothing binds no name, and neither does a loop around one.  Both are
shown together by induction on the fuel, since a loop is executed round by round. -/
theorem keepsNames_execute (s : Setting) (n : Nat) :
    (∀ (t : Stmt) (m : Machine), (∀ node ∈ t.nodes, node.Sound) → t.declares = false →
      (execute s n t).KeepsNames m) ∧
    ∀ (condition : Expr) (body : Stmt) (m : Machine), (∀ node ∈ body.nodes, node.Sound) →
      body.declares = false → (repeatWhile s n condition body).KeepsNames m := by
  induction n with
  | zero => exact ⟨fun _ _ _ _ => .refl _, fun _ _ _ _ _ => .refl _⟩
  | succ n ih =>
    obtain ⟨ihStmt, ihLoop⟩ := ih
    have hevaluate (e : Expr) (m : Machine) : (evaluate s n e).KeepsNames m :=
      (keepsNames_evaluate s n e m).1
    refine ⟨fun t m hsound hdeclares => ?_, fun condition body m hsound hdeclares => ?_⟩
    · cases t with
      | expression e =>
        rw [execute]
        exact .bind (hevaluate e m) fun _ _ _ => .refl _
      | print e =>
        rw [execute]
        exact .bind (hevaluate e m) fun v m₁ _ => .print v m₁
      | block body => exact keepsNames_block s (n + 1) body m
      | if_ condition thenBranch elseBranch =>
        -- the grammar has no declarations as branches
        have hbranches : thenBranch.declares = false ∧ ∀ t ∈ elseBranch, t.declares = false := by
          cases elseBranch <;> exact hsound _ List.mem_cons_self
        cases elseBranch with
        | none =>
          rw [execute]
          refine .bind (hevaluate condition m) fun v m₁ _ => ?_
          split
          · refine ihStmt thenBranch m₁ (fun node hnode => hsound node ?_) hbranches.1
            exact List.mem_cons_of_mem _ (List.mem_append_right _ hnode)
          · exact .refl _
        | some branch =>
          rw [execute]
          refine .bind (hevaluate condition m) fun v m₁ _ => ?_
          split
          · refine ihStmt thenBranch m₁ (fun node hnode => hsound node ?_) hbranches.1
            refine List.mem_cons_of_mem _ (List.mem_append_right _ ?_)
            exact List.mem_append_left _ hnode
          · refine ihStmt branch m₁ (fun node hnode => hsound node ?_) (hbranches.2 branch rfl)
            refine List.mem_cons_of_mem _ (List.mem_append_right _ ?_)
            exact List.mem_append_right _ hnode
      | while_ condition body =>
        rw [execute]
        refine ihLoop condition body m (fun node hnode => hsound node ?_)
          (hsound _ List.mem_cons_self)
        exact List.mem_cons_of_mem _ (List.mem_append_right _ hnode)
      | return_ keyword value =>
        cases value with
        | none => exact .refl _
        | some e =>
          rw [execute]
          exact .bind (hevaluate e m) fun _ _ _ => .refl _
      | var name initializer => cases hdeclares
      | fun_ f => cases hdeclares
      | class_ name superclass methods => cases hdeclares
    · rw [repeatWhile]
      refine .bind (hevaluate condition m) fun v m₁ _ => ?_
      split
      · refine .bind (ihStmt body m₁ hsound hdeclares) fun _ m₂ _ => ?_
        exact ihLoop condition body m₂ hsound hdeclares
      · exact .refl _

/-! ## Declarations -/

theorem scope_of_evaluate {e : Expr} {v : Value} {m₁ : Machine}
    (h : evaluate s n e m = .ok v m₁) : m₁.scope = m.scope := by
  have hrestored : m.Restored ((evaluate s n e).after m) :=
    Restores.carried s ⟨n, .evaluate e, m⟩
  rw [← after_of_ok h]
  exact hrestored.scope

/-- Something that is evaluated before a declaration binds no name. -/
theorem gains_evaluate_bind {e : Expr} {f : Value → Exec Unit} {declared : Option Token}
    (hf : ∀ (v : Value) (m₁ : Machine), m₁.scope = m.scope →
      m₁.store.Gains m.scope.frame declared ((f v).after m₁).store) :
    m.store.Gains m.scope.frame declared ((evaluate s n e >>= f).after m).store := by
  have hevaluate : m.store.KeepsNames ((evaluate s n e).after m).store :=
    (keepsNames_evaluate s n e m).1
  cases hr : evaluate s n e m with
  | ok v m₁ =>
    rw [after_of_ok hr] at hevaluate
    rw [after_bind_of_ok hr]
    exact hevaluate.trans_gains (hf v m₁ (scope_of_evaluate hr))
  | error i m₁ =>
    rw [after_bind_of_error hr]
    exact hevaluate.gains _ _

/-- The name of a class is bound twice, but it is one name. -/
theorem gains_declareClass (name : Token) (superclass : Option Class) (methods : List FunDecl)
    (m : Machine) :
    m.store.Gains m.scope.frame (some name)
      ((declareClass name superclass methods).after m).store := by
  obtain ⟨own, k, -, -, heq⟩ := exists_declareClass name superclass methods m
  have hreserved : (m.store.define m.scope name.lexeme .nil).KeepsNames
      (m.reserved name superclass).store := by
    cases superclass with
    | none => exact .refl _
    | some c => exact .addFrame (.refl _) _
  -- the methods are objects, and take no frames
  have hobjects : (m.store.define m.scope name.lexeme .nil).KeepsNames
      { (m.reserved name superclass).store with nextObject := k } :=
    ⟨hreserved.size, hreserved.names⟩
  have hsize := Store.size_frames_define m.store m.scope name.lexeme .nil
  rw [after_of_ok heq]
  refine (Store.gains_define _ _ _ _).trans_keepsNames (Nat.le_of_eq hsize.symm) ?_
  exact hobjects.define _ fun hlt => Store.mem_names_define _ (hsize ▸ hlt)

/-- A declaration binds at most its own name. -/
theorem gains_execute {t : Stmt} (ht : t.declares = true) :
    m.store.Gains m.scope.frame t.declaredName? ((execute s n t).after m).store := by
  cases n with
  | zero =>
    have hkeeps : m.store.KeepsNames ((execute s 0 t).after m).store := .refl _
    exact hkeeps.gains _ _
  | succ n =>
    cases t with
    | var name initializer =>
      cases initializer with
      | none => exact Store.gains_define m.store m.scope name .nil
      | some e =>
        rw [execute]
        refine gains_evaluate_bind fun v m₁ hscope => ?_
        rw [← hscope]
        exact Store.gains_define m₁.store m₁.scope name v
    | fun_ f => exact Store.gains_define m.store.useObject m.scope f.name _
    | class_ name superclass methods =>
      cases superclass with
      | none =>
        rw [execute]
        exact gains_declareClass name none methods m
      | some e =>
        rw [execute]
        refine gains_evaluate_bind fun v m₁ hscope => ?_
        rw [← hscope]
        cases hc : superclassOf name e v m₁ with
        | ok c m₂ =>
          obtain ⟨rfl, rfl⟩ := eq_class_of_superclassOf hc
          rw [after_bind_of_ok hc]
          exact gains_declareClass name (some c) methods m₂
        | error i m₂ =>
          have hstore : m₂ = m₁ := by
            unfold superclassOf at hc
            split at hc
            · cases hc
            · split at hc <;> (cases hc; rfl)
          subst hstore
          rw [after_bind_of_error hc, after_of_error hc]
          exact (Store.KeepsNames.refl _).gains _ _
    | _ => cases ht

end

/-! ## No name is removed -/

/-- From the first moment of an execution to any other and to its end names only become more. -/
theorem namesGrow_carried (s : Setting) (μ : Moment) :
    μ.Carried s fun x m => m.store.NamesGrow (x.after m).store ∧
      ∀ ν, During s μ ν → m.store.NamesGrow ν.machine.store ∧
        ν.machine.store.NamesGrow (x.after m).store := by
  have hfits : Tracker.growth.Fits μ.machine.store μ := by
    refine ⟨rfl, trivial, ?_⟩
    cases μ with
    | mk fuel task m => cases task <;> simp [Tracker.Handles, Tracker.growth]
  have htracked := hfits.tracked (Tracker.growth_trusts s.host)
  have hgrow {α : Type} {x : Exec α} {m : Machine} {Q : Store → α → Prop}
      (hx : Tracker.growth.Tracks s x m m.store Q (During s μ)) :
      m.store.NamesGrow (x.after m).store ∧
        ∀ ν, During s μ ν → m.store.NamesGrow ν.machine.store ∧
          ν.machine.store.NamesGrow (x.after m).store := by
    obtain ⟨σ', hreaches⟩ := hx
    have hσ' : (x.after m).store = σ' := hreaches.store
    refine ⟨hσ' ▸ hreaches.le, fun ν hν => ?_⟩
    obtain ⟨σ, σ₁, hle, hle₁, hnoted⟩ := hreaches.moments ν hν
    have hσ : ν.machine.store = σ := hnoted.fits.store
    exact ⟨hσ ▸ hle, hσ ▸ hσ' ▸ Tracker.growth.trans hnoted.le hle₁⟩
  cases μ with
  | mk fuel task m => cases task <;> exact hgrow htracked

theorem Session.namesGrow_run (t : Session) (fuel : Nat) (source : String) :
    t.engine.machine.store.NamesGrow (t.run fuel source).2.engine.machine.store := by
  by_cases h : ∃ unit, Source.ReadsAs t.nextId source unit
  · obtain ⟨unit, hsource⟩ := h
    rw [engine_run_of_readsAs hsource]
    exact (namesGrow_carried _ ⟨fuel, .executeAll unit, t.engine.machine⟩).1
  · obtain he | ⟨unit, -, he⟩ := engine_run_of_refused fuel (not_exists.mp h)
    · rw [he]
      exact .refl _
    · rw [he, Engine.machine_noteAll]
      exact .refl _

theorem Session.namesGrow_after (t : Session) (events : List Session.Event) :
    t.engine.machine.store.NamesGrow (t.after events).engine.machine.store := by
  induction events generalizing t with
  | nil => exact .refl _
  | cons e events ih =>
    have hlater := ih (t.happen e)
    cases e with
    | unit fuel source => exact (t.namesGrow_run fuel source).trans hlater
    | reset => exact hlater
    | clock now => exact hlater

/-! ## All of this together -/

/-- A statement that comes from a source text, as a part of a program that is accepted. -/
def Grammar.ProducesStmt (t : Stmt) : Prop :=
  ∃ n source ss, (program n (Source.tokens source)).result = .ok ss ∧ .stmt t ∈ Stmt.allNodes ss

theorem Grammar.ProducesStmt.sound {t : Stmt} (h : ProducesStmt t) :
    ∀ node ∈ t.nodes, node.Sound := by
  obtain ⟨n, source, ss, hprogram, ht⟩ := h
  have hsound := (reads_of_program_eq_ok hprogram).sound
    (fun t ht => Source.genuine_of_mem_tokens ((List.takeWhile_prefix _).subset ht)) trivial
  exact fun node hnode => hsound node (Stmt.closed_allNodes ss _ ht node hnode)

/-- On any machine and however it ends, evaluation leaves the names of all scopes that are there as
they are, at every moment and at its end.  A statement of an accepted program adds at most one name,
that of the variable, function or class that it declares, and adds it to the current scope.  No name
is ever removed from any scope, neither while something runs nor between units. -/
theorem only_declarations_bind (s : Setting) (fuel : Nat) (m : Machine) :
    (∀ e, m.store.KeepsNames ((evaluate s fuel e).after m).store ∧
      ∀ ν, During s ⟨fuel, .evaluate e, m⟩ ν → m.store.KeepsNames ν.machine.store) ∧
    (∀ t, Grammar.ProducesStmt t →
      m.store.Gains m.scope.frame t.declaredName? ((execute s fuel t).after m).store) ∧
    (∀ μ : Moment, μ.Carried s fun x m => m.store.NamesGrow (x.after m).store ∧
      ∀ ν, During s μ ν → m.store.NamesGrow ν.machine.store ∧
        ν.machine.store.NamesGrow (x.after m).store) ∧
    ∀ (t : Session) (events : List Session.Event),
      t.engine.machine.store.NamesGrow (t.after events).engine.machine.store := by
  refine ⟨fun e => keepsNames_evaluate s fuel e m, fun t ht => ?_, namesGrow_carried s,
    Session.namesGrow_after⟩
  cases hdeclares : t.declares with
  | true => exact gains_execute hdeclares
  | false =>
    have hkeeps := (keepsNames_execute s fuel).1 t m ht.sound hdeclares
    exact Store.KeepsNames.gains hkeeps _ _

/-- In a new session `var a;` adds at most the name `a`, and adds it at the top level. -/
theorem only_declarations_bind_variable :
    Grammar.ProducesStmt (.var (Grammar.nameToken "a") none) ∧
      Session.sample.engine.machine.store.Gains ⟨0⟩ (some (Grammar.nameToken "a"))
        ((execute Session.sample.engine.setting 1 (.var (Grammar.nameToken "a") none)).after
          Session.sample.engine.machine).store := by
  have h : Grammar.ProducesStmt (.var (Grammar.nameToken "a") none) := by
    refine ⟨0, "var a;", [.var (Grammar.nameToken "a") none], by cbv, ?_⟩
    simp [Stmt.allNodes, Stmt.nodes]
  exact ⟨h, (only_declarations_bind Session.sample.engine.setting 1
    Session.sample.engine.machine).2.1 _ h⟩

end LoxWalk
