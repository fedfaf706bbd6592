import LoxWalk.Store

/-!
# By name and by distance

A variable is found by its name, in the nearest scope outwards that declares it, or by a distance, in
the one scope that is so many steps out.  The two ways meet in the least distance at which the name is
declared (`Store.Nearest`).

A heap is a store with the scopes that were made in it (`Heap`).  Many of its scopes enclose the same
scope, and so a write is seen from many of them: from exactly those whose nearest declaration of the
name is the one that was written (`Store.Wrote`).  That a frame belongs to one scope of the heap only
is what makes this a matter of scopes and not of frames (`Heap.eq_of_frame_eq`).
-/

namespace LoxWalk

namespace Store

variable {σ σ' : Store} {e a b : Scope} {x y : String} {v : Value} {d k : Nat}

/-! ## The nearest declaration -/

/-- The scope `a` is `k` steps out from `e`, and is the first on the way that declares `x`. -/
structure Nearest (σ : Store) (e : Scope) (x : String) (k : Nat) (a : Scope) : Prop where
  ancestor : e.ancestor? k = some a
  declares : σ.declares a x = true
  least : ∀ j < k, ∀ b, e.ancestor? j = some b → σ.declares b x = false

/-- No scope from `e` outwards declares `x`. -/
def Undeclared (σ : Store) (e : Scope) (x : String) : Prop :=
  ∀ k b, e.ancestor? k = some b → σ.declares b x = false

theorem Nearest.here (h : σ.declares e x = true) : σ.Nearest e x 0 e :=
  ⟨by cases e <;> rfl, h, fun _ hj => absurd hj (Nat.not_lt_zero _)⟩

theorem Nearest.further {f : FrameId} (hf : σ.declares (.inside f e) x = false)
    (h : σ.Nearest e x k a) : σ.Nearest (.inside f e) x (k + 1) a := by
  refine ⟨h.ancestor, h.declares, fun j hj b hb => ?_⟩
  cases j with
  | zero =>
    cases hb
    exact hf
  | succ j => exact h.least j (Nat.lt_of_succ_lt_succ hj) b hb

/-- Going outwards ends at the nearest declaration, or finds none at all. -/
theorem nearest_or_undeclared (σ : Store) (e : Scope) (x : String) :
    (∃ k a, σ.Nearest e x k a ∧ σ.owner? e x = some a) ∨
      (σ.Undeclared e x ∧ σ.owner? e x = none) := by
  induction e with
  | root f =>
    unfold owner?
    by_cases hf : σ.declares (.root f) x = true
    · exact .inl ⟨0, _, .here hf, if_pos hf⟩
    · refine .inr ⟨fun k b hb => ?_, if_neg hf⟩
      cases k <;> cases hb
      exact Bool.eq_false_iff.mpr hf
  | inside f outer ih =>
    unfold owner?
    by_cases hf : σ.declares (.inside f outer) x = true
    · exact .inl ⟨0, _, .here hf, if_pos hf⟩
    · rw [if_neg hf]
      have hf := Bool.eq_false_iff.mpr hf
      obtain ⟨k, a, hnearest, howner⟩ | ⟨hnone, howner⟩ := ih
      · exact .inl ⟨k + 1, a, hnearest.further hf, howner⟩
      · refine .inr ⟨fun k b hb => ?_, howner⟩
        cases k with
        | zero =>
          cases hb
          exact hf
        | succ k => exact hnone k b hb

theorem Nearest.unique {k' : Nat} {a' : Scope} (h : σ.Nearest e x k a)
    (h' : σ.Nearest e x k' a') : k = k' ∧ a = a' := by
  obtain hlt | rfl | hlt := Nat.lt_trichotomy k k'
  · have := h'.least k hlt a h.ancestor
    rw [h.declares] at this
    cases this
  · exact ⟨rfl, Option.some.inj (h.ancestor.symm.trans h'.ancestor)⟩
  · have := h.least k' hlt a' h'.ancestor
    rw [h'.declares] at this
    cases this

theorem owner?_eq_some_iff : σ.owner? e x = some a ↔ ∃ k, σ.Nearest e x k a := by
  obtain ⟨k, a', hnearest, howner⟩ | ⟨hnone, howner⟩ := nearest_or_undeclared σ e x
  · rw [howner, Option.some.injEq]
    constructor
    · rintro rfl
      exact ⟨k, hnearest⟩
    · rintro ⟨k', h⟩
      exact (hnearest.unique h).2
  · rw [howner]
    refine iff_of_false nofun ?_
    rintro ⟨k, h⟩
    have := hnone k a h.ancestor
    rw [h.declares] at this
    cases this

theorem Nearest.owner? (h : σ.Nearest e x k a) : σ.owner? e x = some a :=
  owner?_eq_some_iff.mpr ⟨k, h⟩

theorem Undeclared.owner? (h : σ.Undeclared e x) : σ.owner? e x = none := by
  obtain ⟨k, a, hnearest, -⟩ | ⟨-, howner⟩ := nearest_or_undeclared σ e x
  · have := h k a hnearest.ancestor
    rw [hnearest.declares] at this
    cases this
  · exact howner

/-! ## Writes -/

/-- A write by name as its caller sees it: whether it was done, and the store from then on. -/
def assign (σ : Store) (e : Scope) (x : String) (v : Value) : Bool × Store :=
  match σ.assign? e x v with
  | some σ' => (true, σ')
  | none => (false, σ)

/-- A write by distance as its caller sees it. -/
def assignAt (σ : Store) (e : Scope) (d : Nat) (x : String) (v : Value) : Bool × Store :=
  match σ.assignAt? e d x v with
  | some σ' => (true, σ')
  | none => (false, σ)

theorem Nearest.assign (h : σ.Nearest e x k a) (v : Value) :
    σ.assign e x v = (true, σ.define a x v) := by
  rw [Store.assign, assign?, h.owner?]
  rfl

theorem Undeclared.assign (h : σ.Undeclared e x) (v : Value) : σ.assign e x v = (false, σ) := by
  rw [Store.assign, assign?, h.owner?]
  rfl

theorem assignAt_of_declares (ha : e.ancestor? d = some a) (hx : σ.declares a x = true)
    (v : Value) : σ.assignAt e d x v = (true, σ.define a x v) := by
  rw [assignAt, assignAt?, ownerAt?, ha, Option.filter_some, if_pos hx]
  rfl

theorem assignAt_of_not_declares (h : ∀ b, e.ancestor? d = some b → σ.declares b x = false)
    (v : Value) : σ.assignAt e d x v = (false, σ) := by
  rw [assignAt, assignAt?, ownerAt?, Option.filter_eq_none_iff.mpr ?_]
  · rfl
  · intro b hb hx
    rw [h b hb] at hx
    cases hx

theorem getAt?_eq (ha : e.ancestor? d = some a) (x : String) :
    σ.getAt? e d x = σ.getLocal? a x := by
  rw [getAt?, ha, Option.bind_some]

theorem getLocal?_eq_none_iff : σ.getLocal? e x = none ↔ σ.declares e x = false :=
  Option.isSome_eq_false_iff.trans Option.isNone_iff_eq_none |>.symm

theorem getAt?_eq_none (h : ∀ b, e.ancestor? d = some b → σ.declares b x = false) :
    σ.getAt? e d x = none := by
  cases ha : e.ancestor? d with
  | none =>
    rw [getAt?, ha]
    rfl
  | some a => exact (getAt?_eq ha x).trans (getLocal?_eq_none_iff.mpr (h a ha))

/-! ### What a write changes -/

/-- A frame that declares something is there. -/
theorem lt_size_of_declares (h : σ.declares a x = true) : a.frame.index < σ.frames.size := by
  by_cases hlt : a.frame.index < σ.frames.size
  · exact hlt
  · rw [declares, frame, Array.getElem?_eq_none (Nat.le_of_not_lt hlt)] at h
    cases h

theorem declares_define (hx : σ.declares a x = true) (b : Scope) (y : String) :
    (σ.define a x v).declares b y = σ.declares b y := by
  have hlocal := getLocal?_define σ a b x y v (lt_size_of_declares hx)
  split at hlocal
  case isTrue h =>
    obtain ⟨hframe, rfl⟩ := h
    have hb : σ.declares b x = true := by
      rw [declares, ← hframe]
      exact hx
    rw [hb]
    exact congrArg Option.isSome hlocal
  case isFalse h => exact congrArg Option.isSome hlocal

theorem nearest_define (hx : σ.declares a x = true) :
    (σ.define a x v).Nearest b y k e ↔ σ.Nearest b y k e := by
  constructor <;> rintro ⟨hancestor, hdeclares, hleast⟩
  · simp only [declares_define hx] at hdeclares hleast
    exact ⟨hancestor, hdeclares, hleast⟩
  · refine ⟨hancestor, ?_, fun j hj c hc => ?_⟩
    · rw [declares_define hx]
      exact hdeclares
    · rw [declares_define hx]
      exact hleast j hj c hc

theorem owner?_define (hx : σ.declares a x = true) (b : Scope) (y : String) :
    (σ.define a x v).owner? b y = σ.owner? b y := by
  apply Option.ext
  intro c
  rw [owner?_eq_some_iff, owner?_eq_some_iff]
  exact exists_congr fun k => nearest_define hx


theorem size_frames_assign (σ : Store) (e : Scope) (x : String) (v : Value) :
    (σ.assign e x v).2.frames.size = σ.frames.size := by
  obtain ⟨k, a, hnearest, -⟩ | ⟨hnone, -⟩ := nearest_or_undeclared σ e x
  · rw [hnearest.assign]
    exact Array.size_modify
  · rw [hnone.assign]

theorem size_frames_assignAt (σ : Store) (e : Scope) (d : Nat) (x : String) (v : Value) :
    (σ.assignAt e d x v).2.frames.size = σ.frames.size := by
  by_cases h : ∃ a, e.ancestor? d = some a ∧ σ.declares a x = true
  · obtain ⟨a, ha, hx⟩ := h
    rw [assignAt_of_declares ha hx]
    exact Array.size_modify
  · rw [assignAt_of_not_declares fun b hb => Bool.eq_false_iff.mpr fun hx => h ⟨b, hb, hx⟩]

/-! ## Heaps -/

/-- What a write of `v` to the name `x` of the scope `a` makes of a store, as it is seen from some
scopes. -/
structure Wrote (σ : Store) (scopes : List Scope) (a : Scope) (x : String) (v : Value)
    (σ' : Store) : Prop where
  here : σ'.getLocal? a x = some v
  elsewhere : ∀ b ∈ scopes, ∀ y, ¬ (b = a ∧ y = x) → σ'.getLocal? b y = σ.getLocal? b y
  read : ∀ b ∈ scopes, ∀ k, σ.Nearest b x k a → σ'.get? b x = some v
  readElsewhere : ∀ b ∈ scopes, ∀ y, ¬ (y = x ∧ ∃ k, σ.Nearest b x k a) →
    σ'.get? b y = σ.get? b y
  readAt : ∀ b d, b.ancestor? d = some a → σ'.getAt? b d x = some v
  readAtElsewhere : ∀ b ∈ scopes, ∀ d y, ¬ (y = x ∧ b.ancestor? d = some a) →
    σ'.getAt? b d y = σ.getAt? b d y
  names : ∀ b y, σ'.declares b y = σ.declares b y
  others : σ'.frames.size = σ.frames.size ∧ σ'.records = σ.records ∧
    σ'.nextObject = σ.nextObject

end Store

open Store

/-- A store with the scopes in it, as calls build them one after the other.  A write that is refused
is a call, too. -/
inductive Heap : Store → List Scope → Prop where
  | empty : Heap .empty []
  | root {σ scopes} (h : Heap σ scopes) :
    Heap (σ.addFrame .empty) (.root σ.freshFrame :: scopes)
  | child {σ scopes e} (h : Heap σ scopes) (he : e ∈ scopes) :
    Heap (σ.addFrame .empty) (.inside σ.freshFrame e :: scopes)
  | define {σ scopes e} (h : Heap σ scopes) (he : e ∈ scopes) (x : String) (v : Value) :
    Heap (σ.define e x v) scopes
  | assign {σ scopes e} (h : Heap σ scopes) (he : e ∈ scopes) (x : String) (v : Value) :
    Heap (σ.assign e x v).2 scopes
  | assignAt {σ scopes e} (h : Heap σ scopes) (he : e ∈ scopes) (d : Nat) (x : String)
    (v : Value) : Heap (σ.assignAt e d x v).2 scopes

/-- What holds of a heap: each scope has a frame of its own, and what is around it is in the heap,
too. -/
structure Numbered (σ : Store) (scopes : List Scope) : Prop where
  frame_lt : ∀ e ∈ scopes, e.frame.index < σ.frames.size
  closed : ∀ e ∈ scopes, ∀ outer ∈ e.outer?, outer ∈ scopes
  distinct : ∀ a ∈ scopes, ∀ b ∈ scopes, a.frame = b.frame → a = b

namespace Numbered

variable {σ σ' : Store} {scopes : List Scope} {a e : Scope} {d : Nat}

theorem add (h : Numbered σ scopes) {new : Scope} (hframe : new.frame = σ.freshFrame)
    (houter : ∀ outer ∈ new.outer?, outer ∈ scopes) :
    Numbered (σ.addFrame .empty) (new :: scopes) := by
  have hfresh : ∀ e ∈ scopes, e.frame ≠ new.frame := fun e he heq =>
    Nat.ne_of_lt (h.frame_lt e he) (congrArg FrameId.index (heq.trans hframe))
  refine ⟨fun e he => ?_, fun e he outer hmem => ?_, fun a ha b hb heq => ?_⟩
  · rw [addFrame, Array.size_push]
    obtain rfl | he := List.mem_cons.mp he
    · rw [hframe]
      exact Nat.lt_succ_self _
    · exact Nat.lt_succ_of_lt (h.frame_lt e he)
  · obtain rfl | he := List.mem_cons.mp he
    · exact List.mem_cons_of_mem _ (houter outer hmem)
    · exact List.mem_cons_of_mem _ (h.closed e he outer hmem)
  · obtain ha | ha := List.mem_cons.mp ha <;> obtain hb | hb := List.mem_cons.mp hb
    · exact ha.trans hb.symm
    · exact absurd (ha ▸ heq.symm) (hfresh b hb)
    · exact absurd (hb ▸ heq) (hfresh a ha)
    · exact h.distinct a ha b hb heq

theorem of_size (h : Numbered σ scopes) (hsize : σ'.frames.size = σ.frames.size) :
    Numbered σ' scopes :=
  ⟨fun e he => hsize ▸ h.frame_lt e he, h.closed, h.distinct⟩

theorem mem_of_ancestor? (h : Numbered σ scopes) (he : e ∈ scopes)
    (ha : e.ancestor? d = some a) : a ∈ scopes := by
  induction e generalizing d with
  | root f =>
    cases d <;> cases ha
    exact he
  | inside f outer ih =>
    cases d with
    | zero =>
      cases ha
      exact he
    | succ d => exact ih (h.closed _ he outer rfl) ha

end Numbered

namespace Heap

variable {σ : Store} {scopes : List Scope} {a e : Scope} {x : String} {v : Value} {k : Nat}

theorem numbered (h : Heap σ scopes) : Numbered σ scopes := by
  induction h with
  | empty => exact ⟨nofun, nofun, nofun⟩
  | root _ ih => exact ih.add rfl nofun
  | child _ he ih =>
    refine ih.add rfl fun outer houter => ?_
    cases houter
    exact he
  | define _ _ _ _ ih => exact ih.of_size Array.size_modify
  | assign _ _ _ _ ih => exact ih.of_size (size_frames_assign ..)
  | assignAt _ _ _ _ _ ih => exact ih.of_size (size_frames_assignAt ..)

/-- A write to a name that a scope declares is seen from all scopes that get there, and nowhere
else. -/
theorem wrote (h : Heap σ scopes) (ha : a ∈ scopes) (hx : σ.declares a x = true) (v : Value) :
    σ.Wrote scopes a x v (σ.define a x v) := by
  have hlocal : ∀ b ∈ scopes, ∀ y, (σ.define a x v).getLocal? b y =
      if b = a ∧ y = x then some v else σ.getLocal? b y := by
    intro b hb y
    have hiff : (a.frame = b.frame ∧ x = y) ↔ (b = a ∧ y = x) :=
      and_congr ⟨fun hframe => (h.numbered.distinct a ha b hb hframe).symm, fun heq => heq ▸ rfl⟩
        eq_comm
    simp only [getLocal?_define σ a b x y v (lt_size_of_declares hx), hiff]
  have hhere : (σ.define a x v).getLocal? a x = some v :=
    (hlocal a ha x).trans (if_pos ⟨rfl, rfl⟩)
  have helsewhere : ∀ b ∈ scopes, ∀ y, ¬ (b = a ∧ y = x) →
      (σ.define a x v).getLocal? b y = σ.getLocal? b y :=
    fun b hb y hne => (hlocal b hb y).trans (if_neg hne)
  refine ⟨hhere, helsewhere, fun b _ k hk => ?_, fun b hb y hne => ?_, fun b d hd => ?_,
    fun b hb d y hne => ?_, declares_define hx, Array.size_modify, rfl, rfl⟩
  · rw [get?, owner?_define hx, hk.owner?]
    exact hhere
  · rw [get?, get?, owner?_define hx]
    cases howner : σ.owner? b y with
    | none => rfl
    | some c =>
      obtain ⟨k, hk⟩ := owner?_eq_some_iff.mp howner
      refine helsewhere c (h.numbered.mem_of_ancestor? hb hk.ancestor) y ?_
      rintro ⟨rfl, rfl⟩
      exact hne ⟨rfl, k, hk⟩
  · exact (getAt?_eq hd x).trans hhere
  · cases hd : b.ancestor? d with
    | none => rw [getAt?, getAt?, hd]; rfl
    | some c =>
      rw [getAt?_eq hd, getAt?_eq hd]
      refine helsewhere c (h.numbered.mem_of_ancestor? hb hd) y ?_
      rintro ⟨rfl, rfl⟩
      exact hne ⟨rfl, hd⟩

end Heap

/-! ## Agreement -/

/-- The same names are bound to the same values. -/
def SameBindings (σ : Store) (a : Scope) (σ' : Store) (a' : Scope) : Prop :=
  ∀ x, σ.getLocal? a x = σ'.getLocal? a' x

namespace SameBindings

variable {σ σ' : Store} {a a' e e' : Scope} {d d' : Nat}

theorem declares_eq (h : SameBindings σ a σ' a') (x : String) :
    σ.declares a x = σ'.declares a' x :=
  congrArg Option.isSome (h x)

/-- A write at a distance does with equal bindings the same. -/
theorem assignAt (h : SameBindings σ a σ' a') (ha : e.ancestor? d = some a)
    (ha' : e'.ancestor? d' = some a') (x : String) (v : Value) :
    (σ.assignAt e d x v).1 = (σ'.assignAt e' d' x v).1 ∧
      SameBindings (σ.assignAt e d x v).2 a (σ'.assignAt e' d' x v).2 a' := by
  cases hx : σ.declares a x with
  | true =>
    have hx' := (h.declares_eq x).symm.trans hx
    rw [assignAt_of_declares ha hx, assignAt_of_declares ha' hx']
    refine ⟨rfl, fun y => ?_⟩
    rw [getLocal?_define σ a a x y v (lt_size_of_declares hx),
      getLocal?_define σ' a' a' x y v (lt_size_of_declares hx'), h y]
    simp only [true_and]
  | false =>
    have hx' := (h.declares_eq x).symm.trans hx
    rw [assignAt_of_not_declares fun b hb => Option.some.inj (ha.symm.trans hb) ▸ hx,
      assignAt_of_not_declares fun b hb => Option.some.inj (ha'.symm.trans hb) ▸ hx']
    exact ⟨rfl, h⟩

end SameBindings

namespace Heap

/-- By name a variable is read and written in the nearest scope that declares it, just as by the
distance of that scope, and all scopes of the heap that get to this declaration see the write.  What
is refused changes nothing.  By distance, a variable is read and written in one scope, whose bindings
alone decide about the outcome, whatever the store and the other scopes are. -/
theorem names_reach_least_distance {σ : Store} {scopes : List Scope} {e : Scope}
    (h : Heap σ scopes) (he : e ∈ scopes) (x : String) (v : Value) :
    ((∃ k a, σ.Nearest e x k a ∧ a ∈ scopes ∧
        σ.get? e x = σ.getAt? e k x ∧ (σ.get? e x).isSome = true ∧
        ∃ σ', σ.assign e x v = (true, σ') ∧ σ.assignAt e k x v = (true, σ') ∧
          σ.Wrote scopes a x v σ') ∨
      (σ.Undeclared e x ∧ σ.get? e x = none ∧ σ.assign e x v = (false, σ))) ∧
    (∀ d, (∀ a, e.ancestor? d = some a → σ.declares a x = false) →
      σ.getAt? e d x = none ∧ σ.assignAt e d x v = (false, σ)) ∧
    ∀ d a, e.ancestor? d = some a →
      (σ.assignAt e d x v).1 = σ.declares a x ∧
      ∀ σ' e' a', e'.ancestor? d = some a' → SameBindings σ a σ' a' →
        σ.getAt? e d x = σ'.getAt? e' d x ∧
        (σ.assignAt e d x v).1 = (σ'.assignAt e' d x v).1 ∧
        SameBindings (σ.assignAt e d x v).2 a (σ'.assignAt e' d x v).2 a' := by
  refine ⟨?_, fun d hd => ⟨getAt?_eq_none hd, assignAt_of_not_declares hd v⟩,
    fun d a ha => ⟨?_, fun σ' e' a' ha' hsame => ⟨?_, hsame.assignAt ha ha' x v⟩⟩⟩
  · obtain ⟨k, a, hk, howner⟩ | ⟨hnone, howner⟩ := nearest_or_undeclared σ e x
    · have hmem := h.numbered.mem_of_ancestor? he hk.ancestor
      have hget : σ.get? e x = σ.getLocal? a x := by
        rw [get?, howner, Option.bind_some]
      refine .inl ⟨k, a, hk, hmem, hget.trans (getAt?_eq hk.ancestor x).symm, ?_, _,
        hk.assign v, assignAt_of_declares hk.ancestor hk.declares v, h.wrote hmem hk.declares v⟩
      rw [hget]
      exact hk.declares
    · refine .inr ⟨hnone, ?_, hnone.assign v⟩
      rw [get?, howner, Option.bind_none]
  · cases hx : σ.declares a x with
    | true => rw [assignAt_of_declares ha hx]
    | false =>
      rw [assignAt_of_not_declares fun b hb => Option.some.inj (ha.symm.trans hb) ▸ hx]
  · rw [getAt?_eq ha, getAt?_eq ha', hsame x]

/-- The scopes of two calls in a block in a program. -/
def shadowedScopes : List Scope :=
  [.inside ⟨3⟩ (.inside ⟨1⟩ (.root ⟨0⟩)), .inside ⟨2⟩ (.inside ⟨1⟩ (.root ⟨0⟩)),
    .inside ⟨1⟩ (.root ⟨0⟩), .root ⟨0⟩]

/-- The program and the block declare `x`, the calls do not. -/
def shadowedStore : Store :=
  ((((Store.empty.addFrame .empty).define (.root ⟨0⟩) "x" .nil).addFrame .empty).define
    (.inside ⟨1⟩ (.root ⟨0⟩)) "x" (.bool true)).addFrame .empty |>.addFrame .empty

/-- One call writes to `x`, the other one sees it, and the program does not. -/
theorem names_reach_least_distance_shadowed :
    Heap shadowedStore shadowedScopes ∧
      ∃ σ', shadowedStore.assign (.inside ⟨2⟩ (.inside ⟨1⟩ (.root ⟨0⟩))) "x" (.bool false) =
          (true, σ') ∧
        σ'.get? (.inside ⟨3⟩ (.inside ⟨1⟩ (.root ⟨0⟩))) "x" = some (.bool false) ∧
        σ'.get? (.root ⟨0⟩) "x" = some .nil := by
  have hheap : Heap shadowedStore shadowedScopes := by
    have hprogram := root empty |>.define List.mem_cons_self "x" .nil
    have hblock := hprogram.child List.mem_cons_self |>.define List.mem_cons_self "x" (.bool true)
    exact hblock.child List.mem_cons_self |>.child (List.mem_cons_of_mem _ List.mem_cons_self)
  have hnearest : ∀ f, shadowedStore.declares (.inside f (.inside ⟨1⟩ (.root ⟨0⟩))) "x" = false →
      shadowedStore.Nearest (.inside f (.inside ⟨1⟩ (.root ⟨0⟩))) "x" 1
        (.inside ⟨1⟩ (.root ⟨0⟩)) :=
    fun f hf => .further hf (.here (by decide))
  obtain ⟨⟨k, a, hk, -, -, -, σ', hassign, -, hwrote⟩ | ⟨hnone, -⟩, -⟩ :=
    names_reach_least_distance hheap (List.mem_cons_of_mem _ List.mem_cons_self) "x" (.bool false)
  · obtain ⟨rfl, rfl⟩ := hk.unique (hnearest ⟨2⟩ (by decide))
    refine ⟨hheap, σ', hassign, ?_, ?_⟩
    · exact hwrote.read _ List.mem_cons_self 1 (hnearest ⟨3⟩ (by decide))
    · rw [hwrote.readElsewhere (.root ⟨0⟩) (by decide) "x"]
      · rfl
      · rintro ⟨-, k, hk⟩
        cases k <;> cases hk.ancestor
  · exact absurd (hnone 1 _ rfl) (by decide)

end Heap

end LoxWalk
