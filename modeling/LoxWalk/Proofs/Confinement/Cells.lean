import Mathlib.Logic.Relation
import LoxWalk.Proofs.Execution.World

/-!
# What can be reached in a store

A cell of the store is a frame or a record.  A value refers to the frames of the scopes in which
its functions and methods were declared, and, if it is an instance, to the record of its fields; one
place links to another if something bound there refers to it.  What can be reached from some places
is what the links lead to in any number of steps.

A `Territory` says where an execution may get to and where it may write.  A store is `Good` for a
territory when everything bound inside refers to the inside again, and everything outside is what it
was at first.  The changes that an execution makes to a store keep it good.
-/

namespace LoxWalk

/-- A frame or a record of a store. -/
inductive Cell where
  | frame (f : FrameId)
  | record (r : RecordId)

/-! ## References -/

/-- The frames of a scope: its own, and those of everything that encloses it. -/
def Scope.Refers (scope : Scope) (p : Cell) : Prop :=
  ∃ f ∈ scope.frames, p = .frame f

/-- The scopes of the methods of a class, the inherited ones among them. -/
def Class.Refers (c : Class) (p : Cell) : Prop :=
  ∃ own ∈ c.lineage, ∃ x f, own.methods.get? x = some f ∧ f.scope.Refers p

/-- The cells that a value leads to without a look into the store. -/
def Value.Refers : Value → Cell → Prop
  | function f, p => f.scope.Refers p
  | class_ c, p => c.Refers p
  | instance_ i, p => p = .record i.record ∨ i.ofClass.Refers p
  | _, _ => False

/-- A host whose functions make values only from what their arguments lead to. -/
def Host.Confined (host : Host) : Prop :=
  ∀ name arguments v, host name arguments = .ok v →
    ∀ p, v.Refers p → ∃ a ∈ arguments, a.Refers p

theorem Host.confined_clockAt (now : Float) : (Host.clockAt now).Confined := by
  intro name arguments v hv p hp
  unfold Host.clockAt at hv
  split at hv <;> cases hv
  exact hp.elim

theorem Class.Refers.of_method {c : Class} {x : String} {f : Closure} (hf : c.method? x = some f)
    {p : Cell} (hp : f.scope.Refers p) : c.Refers p := by
  rw [Class.method?_eq_findSome?] at hf
  obtain ⟨own, hown, hf⟩ := List.exists_of_findSome?_eq_some hf
  exact ⟨own, hown, x, f, hf, hp⟩

theorem Scope.refers_of_ancestor? {scope outer : Scope} {d : Nat}
    (h : scope.ancestor? d = some outer) {p : Cell} (hp : outer.Refers p) : scope.Refers p := by
  induction scope generalizing d with
  | root f =>
    cases d <;> cases h
    exact hp
  | inside f inner ih =>
    cases d with
    | zero =>
      cases h
      exact hp
    | succ d =>
      obtain ⟨f', hf', rfl⟩ := ih h
      exact ⟨f', List.mem_cons_of_mem _ hf', rfl⟩

theorem Scope.refers_frame (scope : Scope) : scope.Refers (.frame scope.frame) := by
  cases scope <;> exact ⟨_, List.mem_cons_self, rfl⟩

namespace Store

/-! ## Cells -/

/-- What is bound in a cell, if the store has it. -/
def at? (σ : Store) : Cell → Option Bindings
  | .frame f => σ.frames[f.index]?
  | .record r => σ.records[r.index]?

/-- Something that is bound in `p` refers to `q`. -/
def Links (σ : Store) (p q : Cell) : Prop :=
  ∃ b x v, σ.at? p = some b ∧ b.get? x = some v ∧ v.Refers q

/-- The links lead from one of the roots to `q`. -/
def Reaches (σ : Store) (roots : Cell → Prop) (q : Cell) : Prop :=
  ∃ p, roots p ∧ Relation.ReflTransGen σ.Links p q

theorem Reaches.root {σ : Store} {roots : Cell → Prop} {p : Cell} (h : roots p) :
    σ.Reaches roots p :=
  ⟨p, h, .refl⟩

theorem Reaches.link {σ : Store} {roots : Cell → Prop} {p q : Cell} (h : σ.Reaches roots p)
    (hpq : σ.Links p q) : σ.Reaches roots q := by
  obtain ⟨root, hroot, hp⟩ := h
  exact ⟨root, hroot, hp.tail hpq⟩

/-- The nearest scope that binds a name is one of those that enclose the scope. -/
theorem refers_of_owner? {σ : Store} {scope owner : Scope} {x : String}
    (h : σ.owner? scope x = some owner) {p : Cell} (hp : owner.Refers p) : scope.Refers p := by
  induction scope with
  | root f =>
    unfold owner? at h
    split at h <;> cases h
    exact hp
  | inside f outer ih =>
    unfold owner? at h
    split at h
    · cases h
      exact hp
    · obtain ⟨f', hf', rfl⟩ := ih h
      exact ⟨f', List.mem_cons_of_mem _ hf', rfl⟩

theorem at?_of_getLocal? {σ : Store} {scope : Scope} {x : String} {v : Value}
    (h : σ.getLocal? scope x = some v) :
    ∃ b, σ.at? (.frame scope.frame) = some b ∧ b.get? x = some v := by
  unfold getLocal? frame at h
  cases hb : σ.frames[scope.frame.index]? with
  | none =>
    rw [hb] at h
    cases h
  | some b =>
    rw [hb] at h
    exact ⟨b, hb, h⟩

theorem at?_of_field? {σ : Store} {r : RecordId} {x : String} {v : Value}
    (h : σ.field? r x = some v) : ∃ b, σ.at? (.record r) = some b ∧ b.get? x = some v := by
  unfold field? at h
  cases hb : σ.records[r.index]? with
  | none =>
    rw [hb] at h
    cases h
  | some b =>
    rw [hb] at h
    exact ⟨b, hb, h⟩

/-! ### Changes -/

theorem at?_define (σ : Store) (scope : Scope) (x : String) (v : Value) (p : Cell) :
    (σ.define scope x v).at? p = σ.at? p ∨ p = .frame scope.frame ∧
      (σ.define scope x v).at? p = (σ.at? p).map (·.insert x v) := by
  cases p with
  | record r => exact .inl rfl
  | frame f =>
    have hat : (σ.define scope x v).at? (.frame f) = (σ.define scope x v).frames[f.index]? := rfl
    rw [hat, getElem?_frames_define]
    by_cases hf : scope.frame.index = f.index
    · right
      rw [if_pos hf]
      obtain ⟨i⟩ := f
      exact ⟨congrArg (fun i => Cell.frame ⟨i⟩) hf.symm, rfl⟩
    · left
      rw [if_neg hf]
      rfl

theorem at?_setField (σ : Store) (r : RecordId) (x : String) (v : Value) (p : Cell) :
    (σ.setField r x v).at? p = σ.at? p ∨ p = .record r ∧
      (σ.setField r x v).at? p = (σ.at? p).map (·.insert x v) := by
  cases p with
  | frame f => exact .inl rfl
  | record r' =>
    have hat : (σ.setField r x v).at? (.record r') =
        (σ.records.modify r.index (·.insert x v))[r'.index]? := rfl
    rw [hat, Array.getElem?_modify]
    by_cases hr : r.index = r'.index
    · right
      rw [if_pos hr]
      obtain ⟨i⟩ := r'
      exact ⟨congrArg (fun i => Cell.record ⟨i⟩) hr.symm, rfl⟩
    · left
      rw [if_neg hr]
      rfl

theorem at?_addFrame_of_ne (σ : Store) (b : Bindings) {p : Cell} (hp : p ≠ .frame σ.freshFrame) :
    (σ.addFrame b).at? p = σ.at? p := by
  cases p with
  | record r => rfl
  | frame f =>
    have hf : f.index ≠ σ.frames.size := by
      intro h
      exact hp (congrArg (fun i => Cell.frame ⟨i⟩) h)
    show (σ.frames.push b)[f.index]? = σ.frames[f.index]?
    rw [Array.getElem?_push, if_neg hf]

theorem at?_addFrame_self (σ : Store) (b : Bindings) :
    (σ.addFrame b).at? (.frame σ.freshFrame) = some b := by
  show (σ.frames.push b)[σ.frames.size]? = some b
  rw [Array.getElem?_push, if_pos rfl]

theorem at?_addRecord_of_ne (σ : Store) {p : Cell} (hp : p ≠ .record σ.freshRecord) :
    σ.addRecord.at? p = σ.at? p := by
  cases p with
  | frame f => rfl
  | record r =>
    have hr : r.index ≠ σ.records.size := by
      intro h
      exact hp (congrArg (fun i => Cell.record ⟨i⟩) h)
    show (σ.records.push .empty)[r.index]? = σ.records[r.index]?
    rw [Array.getElem?_push, if_neg hr]

theorem at?_addRecord_self (σ : Store) : σ.addRecord.at? (.record σ.freshRecord) = some .empty := by
  show (σ.records.push .empty)[σ.records.size]? = some .empty
  rw [Array.getElem?_push, if_pos rfl]

end Store

/-! ## Territories -/

/-- Where an execution that starts with the store `σ₀` may get to, and where it may write: at least
in new cells, and in the records that it may get to. -/
structure Territory (σ₀ : Store) where
  reach : Cell → Prop
  write : Cell → Prop
  reach_of_write : ∀ p, write p → reach p
  write_record : ∀ r, reach (.record r) → write (.record r)
  write_fresh : ∀ p, σ₀.at? p = none → write p

namespace Territory

variable {σ₀ σ : Store} (T : Territory σ₀)

/-- A value leads only to the inside. -/
def Holds (v : Value) : Prop :=
  ∀ p, v.Refers p → T.reach p

/-- All variables of a scope may be written. -/
def Writes (scope : Scope) : Prop :=
  ∀ p, scope.Refers p → T.write p

/-- What is bound inside leads to the inside, and outside nothing has changed. -/
structure Good (σ : Store) : Prop where
  frames : σ₀.frames.size ≤ σ.frames.size
  records : σ₀.records.size ≤ σ.records.size
  holds : ∀ p b x v, T.reach p → σ.at? p = some b → b.get? x = some v → T.Holds v
  same : ∀ p, ¬ T.write p → σ.at? p = σ₀.at? p

variable {T}

theorem Holds.of_method {c : Class} (h : ∀ p, c.Refers p → T.reach p) {x : String} {f : Closure}
    (hf : c.method? x = some f) : T.Holds (.function f) :=
  fun p hp => h p (.of_method hf hp)

theorem holds_nil : T.Holds .nil :=
  fun _ h => h.elim

/-- A new scope inside a scope. -/
theorem Writes.inside {f : FrameId} {outer : Scope} (hf : T.write (.frame f))
    (houter : T.Writes outer) : T.Writes (.inside f outer) := by
  rintro p ⟨f', hf', rfl⟩
  rcases List.mem_cons.mp hf' with rfl | hf'
  · exact hf
  · exact houter _ ⟨f', hf', rfl⟩

namespace Good

theorem write_freshFrame (h : T.Good σ) : T.write (.frame σ.freshFrame) :=
  T.write_fresh _ (Array.getElem?_eq_none h.frames)

theorem write_freshRecord (h : T.Good σ) : T.write (.record σ.freshRecord) :=
  T.write_fresh _ (Array.getElem?_eq_none h.records)

theorem getLocal? (h : T.Good σ) {scope : Scope} (hscope : T.reach (.frame scope.frame))
    {x : String} {v : Value} (hv : σ.getLocal? scope x = some v) : T.Holds v := by
  obtain ⟨b, hb, hv⟩ := Store.at?_of_getLocal? hv
  exact h.holds _ b x v hscope hb hv

theorem field? (h : T.Good σ) {r : RecordId} (hr : T.reach (.record r)) {x : String} {v : Value}
    (hv : σ.field? r x = some v) : T.Holds v := by
  obtain ⟨b, hb, hv⟩ := Store.at?_of_field? hv
  exact h.holds _ b x v hr hb hv

/-- Binding a name of one cell that may be written. -/
theorem insert {σ' : Store} (h : T.Good σ) {p : Cell} (hp : T.write p) {x : String} {v : Value}
    (hv : T.Holds v) (hframes : σ'.frames.size = σ.frames.size)
    (hrecords : σ'.records.size = σ.records.size)
    (hat : ∀ q, σ'.at? q = σ.at? q ∨ q = p ∧ σ'.at? q = (σ.at? q).map (·.insert x v)) :
    T.Good σ' := by
  refine ⟨by rw [hframes]; exact h.frames, by rw [hrecords]; exact h.records, ?_, ?_⟩
  · intro q b y w hq hb hw
    rcases hat q with heq | ⟨-, heq⟩
    · exact h.holds q b y w hq (heq ▸ hb) hw
    · rw [heq] at hb
      obtain ⟨b', hb', rfl⟩ := Option.map_eq_some_iff.mp hb
      exact NameMap.forall_insert (fun z u hu => h.holds q b' z u hq hb' hu) hv y w hw
  · intro q hq
    rcases hat q with heq | ⟨rfl, -⟩
    · rw [heq]
      exact h.same q hq
    · exact absurd hp hq

theorem define (h : T.Good σ) {scope : Scope} (hscope : T.Writes scope) (x : String) {v : Value}
    (hv : T.Holds v) : T.Good (σ.define scope x v) := by
  refine h.insert (hscope _ scope.refers_frame) hv ?_ rfl (σ.at?_define scope x v)
  exact Store.size_frames_define σ scope x v

theorem setField (h : T.Good σ) {r : RecordId} (hr : T.reach (.record r)) (x : String) {v : Value}
    (hv : T.Holds v) : T.Good (σ.setField r x v) := by
  refine h.insert (T.write_record r hr) hv rfl ?_ (σ.at?_setField r x v)
  simp [Store.setField]

theorem addFrame (h : T.Good σ) {b : Bindings} (hb : ∀ x v, b.get? x = some v → T.Holds v) :
    T.Good (σ.addFrame b) := by
  refine ⟨?_, h.records, ?_, ?_⟩
  · have hsize : (σ.addFrame b).frames.size = σ.frames.size + 1 := Array.size_push b
    have hle := h.frames
    omega
  · intro p b' x v hp hb' hv
    by_cases hfresh : p = .frame σ.freshFrame
    · subst hfresh
      rw [Store.at?_addFrame_self] at hb'
      cases hb'
      exact hb x v hv
    · rw [σ.at?_addFrame_of_ne b hfresh] at hb'
      exact h.holds p b' x v hp hb' hv
  · intro p hp
    rw [σ.at?_addFrame_of_ne b ?_]
    · exact h.same p hp
    · rintro rfl
      exact hp h.write_freshFrame

theorem addRecord (h : T.Good σ) : T.Good σ.addRecord := by
  refine ⟨h.frames, ?_, ?_, ?_⟩
  · have hsize : σ.addRecord.records.size = σ.records.size + 1 := by simp [Store.addRecord]
    have hle := h.records
    omega
  · intro p b x v hp hb hv
    by_cases hfresh : p = .record σ.freshRecord
    · subst hfresh
      rw [Store.at?_addRecord_self] at hb
      cases hb
      cases hv
    · rw [σ.at?_addRecord_of_ne hfresh] at hb
      exact h.holds p b x v hp hb hv
  · intro p hp
    rw [σ.at?_addRecord_of_ne ?_]
    · exact h.same p hp
    · rintro rfl
      exact hp h.write_freshRecord

/-- The identities of functions and classes are no part of a cell. -/
theorem withObjects (h : T.Good σ) (k : Nat) : T.Good { σ with nextObject := k } :=
  ⟨h.frames, h.records, fun p => by cases p <;> exact h.holds _, fun p => by cases p <;> exact h.same _⟩

end Good

end Territory

end LoxWalk
