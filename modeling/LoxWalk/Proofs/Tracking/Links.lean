import LoxWalk.Proofs.Simulation.State
import LoxWalk.Proofs.Tracking.Execution

/-!
# The links between scopes and between classes

Scopes hold functions that hold scopes, and instances hold classes whose methods hold the scopes
that hold those instances, so what a program builds is full of cycles.  Of all these references the
searches follow only two kinds: from a scope to the one that encloses it, and from a class to the
one that it inherits from.

`Links` are all links of these two kinds, by the places of frames and the identities of classes.  A
link leads to something that is older, and every frame but the first has one, so the walks along
them end: that of a scope at the first frame.  `Tracker.links` shows that execution only ever adds
links, from a frame or a class that is new.
-/

namespace LoxWalk

open Exec

/-- The links of the frames and objects that there are so far, and the methods of each class. -/
structure Links where
  frames : Nat
  objects : Nat
  outer? : FrameId → Option FrameId
  superclass? : ObjectId → Option ObjectId
  methods : ObjectId → NameMap Closure
  frames_pos : 0 < frames
  outer_lt {f g : FrameId} (h : outer? f = some g) : g.index < f.index
  superclass_lt {i j : ObjectId} (h : superclass? i = some j) : j.index < i.index
  isSome_outer? {f : FrameId} (h : 0 < f.index) (hlt : f.index < frames) : (outer? f).isSome

namespace Links

variable (L : Links)

/-! ## Scopes, classes and values that go along the links -/

/-- The scope is one of those that there are: each of its frames leads to the next, and the last one
is the first of all frames. -/
def Follows : Scope → Prop
  | .root f => f.index = 0
  | .inside f outer => f.index < L.frames ∧ L.outer? f = some outer.frame ∧ Follows outer

/-- The methods of a class are those of its identity, and their scopes go along the links. -/
structure KnowsBody (own : ClassBody) : Prop where
  index : own.id.index < L.objects
  methods : L.methods own.id = own.methods
  scopes : ∀ x f, own.methods.get? x = some f → L.Follows f.scope

/-- The class and all classes that it inherits from go along the links. -/
def Descends : Class → Prop
  | .base own => L.KnowsBody own ∧ L.superclass? own.id = none
  | .derived own c => L.KnowsBody own ∧ L.superclass? own.id = some c.own.id ∧ Descends c

/-- All scopes and classes of a value go along the links. -/
def Knows : Value → Prop
  | .function f => L.Follows f.scope
  | .class_ c => L.Descends c
  | .instance_ i => L.Descends i.ofClass
  | _ => True

/-- The frames and objects of a store are among those that there are, and all values in the store go
along the links. -/
structure Describes (σ : Store) : Prop where
  frames : σ.frames.size ≤ L.frames
  objects : σ.nextObject ≤ L.objects
  bound : ∀ f x v, (σ.frame f).get? x = some v → L.Knows v
  fields : ∀ r x v, σ.field? r x = some v → L.Knows v

/-- There are no other frames and objects than those of the store. -/
structure Matches (σ : Store) : Prop extends L.Describes σ where
  frames_eq : L.frames = σ.frames.size
  objects_eq : L.objects = σ.nextObject

/-- The links of `L` are there for ever. -/
structure Grows (L L' : Links) : Prop where
  frames : L.frames ≤ L'.frames
  objects : L.objects ≤ L'.objects
  outer? : ∀ f, f.index < L.frames → L'.outer? f = L.outer? f
  superclass? : ∀ i, i.index < L.objects → L'.superclass? i = L.superclass? i
  methods : ∀ i, i.index < L.objects → L'.methods i = L.methods i

variable {L} {L' L'' : Links} {σ : Store} {c : Scope}

theorem Follows.frame_lt (h : L.Follows c) : c.frame.index < L.frames := by
  cases c with
  | root f =>
    have hf : f.index = 0 := h
    rw [Scope.frame, hf]
    exact L.frames_pos
  | inside f outer => exact h.1

theorem Descends.body {C : Class} (h : L.Descends C) : L.KnowsBody C.own := by
  cases C with
  | base own => exact h.1
  | derived own C => exact h.1

/-- A method that is found is one of the class or of a class above it. -/
theorem Descends.method {C : Class} {x : String} {f : Closure} (h : L.Descends C)
    (hf : C.method? x = some f) : L.Follows f.scope := by
  induction C with
  | base own => exact h.1.scopes x f hf
  | derived own C ih =>
    rw [Class.method?] at hf
    split at hf
    · rename_i g hg
      cases hf
      exact h.1.scopes x _ hg
    · exact ih h.2.2 hf

theorem knows_of_isPlain {v : Value} (h : v.IsPlain) : L.Knows v := by
  cases v with
  | function f => exact h.elim
  | class_ C => exact h.elim
  | instance_ i => exact h.elim
  | _ => trivial

/-! ## Links that are added -/

namespace Grows

theorem refl (L : Links) : L.Grows L :=
  ⟨Nat.le_refl _, Nat.le_refl _, fun _ _ => rfl, fun _ _ => rfl, fun _ _ => rfl⟩

theorem trans (h : L.Grows L') (h' : L'.Grows L'') : L.Grows L'' where
  frames := Nat.le_trans h.frames h'.frames
  objects := Nat.le_trans h.objects h'.objects
  outer? f hf := (h'.outer? f (Nat.lt_of_lt_of_le hf h.frames)).trans (h.outer? f hf)
  superclass? i hi :=
    (h'.superclass? i (Nat.lt_of_lt_of_le hi h.objects)).trans (h.superclass? i hi)
  methods i hi := (h'.methods i (Nat.lt_of_lt_of_le hi h.objects)).trans (h.methods i hi)

theorem follows (h : L.Grows L') (hc : L.Follows c) : L'.Follows c := by
  induction c with
  | root f => exact hc
  | inside f outer ih =>
    obtain ⟨hlt, houter, hrest⟩ := hc
    exact ⟨Nat.lt_of_lt_of_le hlt h.frames, (h.outer? f hlt).trans houter, ih hrest⟩

theorem knowsBody (h : L.Grows L') {own : ClassBody} (hown : L.KnowsBody own) :
    L'.KnowsBody own where
  index := Nat.lt_of_lt_of_le hown.index h.objects
  methods := (h.methods own.id hown.index).trans hown.methods
  scopes x f hf := h.follows (hown.scopes x f hf)

theorem descends (h : L.Grows L') {C : Class} (hC : L.Descends C) : L'.Descends C := by
  induction C with
  | base own => exact ⟨h.knowsBody hC.1, (h.superclass? _ hC.1.index).trans hC.2⟩
  | derived own C ih =>
    obtain ⟨hown, hsuper, hrest⟩ := hC
    exact ⟨h.knowsBody hown, (h.superclass? _ hown.index).trans hsuper, ih hrest⟩

theorem knows (h : L.Grows L') {v : Value} (hv : L.Knows v) : L'.Knows v := by
  cases v with
  | function f => exact h.follows hv
  | class_ C => exact h.descends hv
  | instance_ i => exact h.descends hv
  | _ => trivial

theorem describes (h : L.Grows L') (hσ : L.Describes σ) : L'.Describes σ where
  frames := Nat.le_trans hσ.frames h.frames
  objects := Nat.le_trans hσ.objects h.objects
  bound f x v hv := h.knows (hσ.bound f x v hv)
  fields r x v hv := h.knows (hσ.fields r x v hv)

end Grows

/-- The links with one more frame. -/
def addFrame (L : Links) (outer : FrameId) (houter : outer.index < L.frames) : Links :=
  { L with
    frames := L.frames + 1
    outer? := fun f => if f.index = L.frames then some outer else L.outer? f
    frames_pos := Nat.succ_pos _
    outer_lt := by
      intro f g h
      split at h
      · rename_i hf
        cases h
        rwa [hf]
      · exact L.outer_lt h
    isSome_outer? := by
      intro f h hlt
      split
      · rfl
      · exact L.isSome_outer? h (by omega) }

/-- The links with one more object, which is a class if it has methods or a superclass. -/
def addObject (L : Links) (superclass : Option ObjectId) (methods : NameMap Closure)
    (hsuper : ∀ i ∈ superclass, i.index < L.objects) : Links :=
  { L with
    objects := L.objects + 1
    superclass? := fun i => if i.index = L.objects then superclass else L.superclass? i
    methods := fun i => if i.index = L.objects then methods else L.methods i
    superclass_lt := by
      intro i j h
      split at h
      · rename_i hi
        rw [hi]
        exact hsuper j h
      · exact L.superclass_lt h }

theorem grows_addFrame {outer : FrameId} (houter : outer.index < L.frames) :
    L.Grows (L.addFrame outer houter) where
  frames := Nat.le_succ _
  objects := Nat.le_refl _
  outer? _ hf := if_neg (Nat.ne_of_lt hf)
  superclass? _ _ := rfl
  methods _ _ := rfl

theorem grows_addObject {superclass : Option ObjectId} {methods : NameMap Closure}
    (hsuper : ∀ i ∈ superclass, i.index < L.objects) :
    L.Grows (L.addObject superclass methods hsuper) where
  frames := Nat.le_refl _
  objects := Nat.le_succ _
  outer? _ _ := rfl
  superclass? _ hi := if_neg (Nat.ne_of_lt hi)
  methods _ hi := if_neg (Nat.ne_of_lt hi)

theorem follows_addFrame (hc : L.Follows c) :
    (L.addFrame c.frame hc.frame_lt).Follows (.inside ⟨L.frames⟩ c) :=
  ⟨Nat.lt_succ_self _, if_pos rfl, (grows_addFrame hc.frame_lt).follows hc⟩

/-- A class that is declared is the newest object. -/
theorem knowsBody_addObject {superclass : Option ObjectId} {own : ClassBody}
    (hsuper : ∀ i ∈ superclass, i.index < L.objects) (hid : own.id.index = L.objects)
    (hown : ∀ x f, own.methods.get? x = some f → L.Follows f.scope) :
    (L.addObject superclass own.methods hsuper).KnowsBody own where
  index := hid ▸ Nat.lt_succ_self _
  methods := if_pos hid
  scopes x f hf := (grows_addObject hsuper).follows (hown x f hf)

/-! ## Changes of a store -/

namespace Matches

theorem define (h : L.Matches σ) (c : Scope) (x : String) {v : Value} (hv : L.Knows v) :
    L.Matches (σ.define c x v) where
  frames := by
    rw [Store.size_frames_define]
    exact h.frames
  objects := h.objects
  bound f y w hw := by
    rw [Store.get?_frame_define] at hw
    split at hw
    · cases hw
      exact hv
    · exact h.bound f y w hw
  fields := h.fields
  frames_eq := by
    rw [Store.size_frames_define]
    exact h.frames_eq
  objects_eq := h.objects_eq

theorem addFrame (h : L.Matches σ) {outer : Scope} (houter : L.Follows outer) {b : Bindings}
    (hb : ∀ x v, b.get? x = some v → L.Knows v) :
    (L.addFrame outer.frame houter.frame_lt).Matches (σ.addFrame b) := by
  have hgrows := grows_addFrame houter.frame_lt
  have hsize : L.frames + 1 = (σ.addFrame b).frames.size := by
    rw [Store.addFrame, Array.size_push, h.frames_eq]
  refine ⟨⟨Nat.le_of_eq hsize.symm, h.objects, fun f x v hv => hgrows.knows ?_, fun r x v hv =>
    hgrows.knows (h.fields r x v hv)⟩, hsize, h.objects_eq⟩
  have hlt := Store.lt_size_of_get? hv
  by_cases hf : f.index < σ.frames.size
  · rw [Store.frame_addFrame_of_lt _ _ hf] at hv
    exact h.bound f x v hv
  · -- what binds something behind the old frames is the new frame
    obtain rfl : f = σ.freshFrame := by
      have hindex : f.index = σ.frames.size := by
        rw [← hsize, h.frames_eq] at hlt
        omega
      rw [Store.freshFrame, ← hindex]
    rw [Store.frame_addFrame_self] at hv
    exact hb x v hv

theorem addObject (h : L.Matches σ) {superclass : Option ObjectId} {methods : NameMap Closure}
    (hsuper : ∀ i ∈ superclass, i.index < L.objects) :
    (L.addObject superclass methods hsuper).Matches σ.useObject := by
  have hgrows : L.Grows (L.addObject superclass methods hsuper) := grows_addObject hsuper
  have hobjects : L.objects + 1 = σ.useObject.nextObject := congrArg (· + 1) h.objects_eq
  exact ⟨⟨h.frames, Nat.le_of_eq hobjects.symm, fun f x v hv => hgrows.knows (h.bound f x v hv),
    fun r x v hv => hgrows.knows (h.fields r x v hv)⟩, h.frames_eq, hobjects⟩

theorem addRecord (h : L.Matches σ) : L.Matches σ.addRecord := by
  refine ⟨⟨h.frames, h.objects, h.bound, fun r x v hv => ?_⟩, h.frames_eq, h.objects_eq⟩
  rw [Store.field?_addRecord] at hv
  exact h.fields r x v hv

theorem setField (h : L.Matches σ) (r : RecordId) (x : String) {v : Value} (hv : L.Knows v) :
    L.Matches (σ.setField r x v) := by
  refine ⟨⟨h.frames, h.objects, h.bound, fun r' y w hw => ?_⟩, h.frames_eq, h.objects_eq⟩
  rw [Store.field?_setField] at hw
  split at hw
  · cases hw
    exact hv
  · exact h.fields r' y w hw

end Matches

end Links

/-- Every frame and every class that is new gets a link to one that is there. -/
def Tracker.links : Tracker where
  Note := Links
  le := Links.Grows
  store := Links.Matches
  value := Links.Knows
  scope := Links.Follows
  current := Links.Follows
  refl := .refl
  trans := .trans
  value_mono h hv := h.knows hv
  scope_mono h hc := h.follows hc
  current_mono h hc := h.follows hc
  scope_of_current h := h
  plain _ _ h := Links.knows_of_isPlain h
  ofFrame h hv := h.bound _ _ _ hv
  ofRecord h hv := h.fields _ _ _ hv
  closure h := h
  method h hf := Links.Descends.method h hf
  ofClass h := h
  define {g _ c _} x h _ hv := ⟨g, .refl g, h.define c x hv⟩
  assign {g _ c x _} h _ hv := ⟨g, .refl g, h.define c x hv⟩
  addFrame {g σ outer _} h houter hb := by
    refine ⟨g.addFrame outer.frame houter.frame_lt, Links.grows_addFrame houter.frame_lt,
      h.addFrame houter hb, ?_⟩
    rw [Store.freshFrame, ← h.frames_eq]
    exact Links.follows_addFrame houter
  newFunction {g _ _} _ _ h hc := by
    have hnone : ∀ i ∈ (none : Option ObjectId), i.index < g.objects := fun _ hi => by cases hi
    exact ⟨g.addObject none .empty hnone, Links.grows_addObject hnone, h.addObject hnone,
      (Links.grows_addObject hnone).follows hc⟩
  newBase {g _} own h hid hown := by
    have hindex : own.id.index = g.objects := by
      rw [hid, h.objects_eq]
      rfl
    have hnone : ∀ i ∈ (none : Option ObjectId), i.index < g.objects := fun _ hi => by cases hi
    exact ⟨g.addObject none own.methods hnone, Links.grows_addObject hnone, h.addObject hnone,
      Links.knowsBody_addObject hnone hindex hown, if_pos hindex⟩
  newDerived {g _ C} own h hid hown hC := by
    have hindex : own.id.index = g.objects := by
      rw [hid, h.objects_eq]
      rfl
    -- the superclass is a value that is there, and so it is older
    have hsuper : ∀ i ∈ some C.own.id, i.index < g.objects := by
      rintro _ ⟨⟩
      exact (Links.Descends.body hC).index
    exact ⟨g.addObject (some C.own.id) own.methods hsuper, Links.grows_addObject hsuper,
      h.addObject hsuper, Links.knowsBody_addObject hsuper hindex hown, if_pos hindex,
      (Links.grows_addObject hsuper).descends hC⟩
  addRecord {g _ _} h hc := ⟨g, .refl g, h.addRecord, hc⟩
  setField {g _ _} r x h hv := ⟨g, .refl g, h.setField r x hv⟩

/-- The clock yields numbers. -/
theorem Tracker.links_trusts (now : Float) : Tracker.links.Trusts (.clockAt now) := by
  intro L name arguments v h _
  unfold Host.clockAt at h
  split at h
  · cases h
    trivial
  · cases h

/-! ## Walks along links -/

section

variable {α β : Type}

/-- Goes from `i` from link to link until something is found or there is no further link; nothing
comes of a search that is not at its end after so many steps. -/
def search (next? : β → Option β) (found? : β → Option α) : Nat → β → Option (Option α)
  | 0, _ => none
  | n + 1, i =>
    match found? i with
    | some a => some (some a)
    | none =>
      match next? i with
      | some j => search next? found? n j
      | none => some none

/-- Goes exactly so many links. -/
def hop (next? : β → Option β) : Nat → β → Option β
  | 0, i => some i
  | n + 1, i => (next? i).bind (hop next? n)

/-- From `i` the links lead through the list to an end. -/
inductive Walk (next? : β → Option β) : β → List β → Prop where
  | last {i : β} (h : next? i = none) : Walk next? i [i]
  | step {i j : β} {l : List β} (h : next? i = some j) (hrest : Walk next? j l) :
      Walk next? i (i :: l)

namespace Walk

variable {next? : β → Option β} {i : β} {l : List β}

/-- If each link leads to something of lower rank, then nothing is met twice. -/
theorem pairwise (h : Walk next? i l) {rank : β → Nat}
    (hrank : ∀ i j, next? i = some j → rank j < rank i) :
    l.Pairwise fun i j => rank j < rank i := by
  have hall : l.Pairwise (fun i j => rank j < rank i) ∧ ∀ j ∈ l, rank j ≤ rank i := by
    induction h with
    | last => simp
    | @step i j l hnext _ ih =>
      have hlt := hrank i j hnext
      refine ⟨List.pairwise_cons.mpr ⟨fun k hk => ?_, ih.1⟩,
        List.forall_mem_cons.mpr ⟨Nat.le_refl _, fun k hk => ?_⟩⟩
      · exact Nat.lt_of_le_of_lt (ih.2 k hk) hlt
      · exact Nat.le_trans (ih.2 k hk) (Nat.le_of_lt hlt)
  exact hall.1

/-- A search ends after as many steps as there are things to be met, with the first in which
something is found. -/
theorem search_eq (h : Walk next? i l) (found? : β → Option α) {n : Nat} (hn : l.length ≤ n) :
    search next? found? n i = some (l.findSome? found?) := by
  induction h generalizing n with
  | @last i hnext =>
    cases n with
    | zero => exact absurd hn (Nat.not_succ_le_zero _)
    | succ n =>
      rw [search, List.findSome?_cons]
      cases found? i with
      | some a => rfl
      | none => rw [hnext]; rfl
  | @step i j l hnext _ ih =>
    cases n with
    | zero => exact absurd hn (Nat.not_succ_le_zero _)
    | succ n =>
      rw [search, List.findSome?_cons]
      cases found? i with
      | some a => rfl
      | none =>
        rw [hnext]
        exact ih (Nat.le_of_succ_le_succ hn)

theorem hop_eq (h : Walk next? i l) (n : Nat) : hop next? n i = l[n]? := by
  induction h generalizing n with
  | last hnext =>
    cases n with
    | zero => rfl
    | succ n => rw [hop, hnext]; rfl
  | step hnext _ ih =>
    cases n with
    | zero => rfl
    | succ n =>
      rw [hop, hnext]
      exact ih n

end Walk

end

/-! ## Searches -/

namespace Store

/-- The meaning of a name is what the nearest frame binds to it. -/
theorem get?_eq_findSome? (σ : Store) (c : Scope) (x : String) :
    σ.get? c x = c.frames.findSome? fun f => (σ.frame f).get? x := by
  rw [get?]
  induction c with
  | root f =>
    rw [owner?, Scope.frames, List.findSome?_cons, declares, NameMap.contains, Scope.frame]
    cases h : (σ.frame f).get? x with
    | some v => simpa [getLocal?, Scope.frame] using h
    | none => rfl
  | inside f outer ih =>
    rw [owner?, Scope.frames, List.findSome?_cons, declares, NameMap.contains, Scope.frame]
    cases h : (σ.frame f).get? x with
    | some v => simpa [getLocal?, Scope.frame] using h
    | none => exact ih

/-- The variable that a name means is in the nearest frame that binds the name. -/
theorem map_frame_owner? (σ : Store) (c : Scope) (x : String) :
    (σ.owner? c x).map Scope.frame =
      c.frames.findSome? fun f => if (σ.frame f).contains x then some f else none := by
  induction c with
  | root f =>
    rw [owner?, Scope.frames, List.findSome?_cons, declares, Scope.frame]
    cases (σ.frame f).contains x <;> rfl
  | inside f outer ih =>
    rw [owner?, Scope.frames, List.findSome?_cons, declares, Scope.frame]
    cases (σ.frame f).contains x with
    | true => rfl
    | false => exact ih

end Store

namespace Links

variable {L : Links} {c : Scope} {C : Class}

theorem outer?_eq_none {f : FrameId} (h : f.index = 0) : L.outer? f = none := by
  cases hf : L.outer? f with
  | none => rfl
  | some g =>
    have hlt := L.outer_lt hf
    omega

theorem Follows.walk (h : L.Follows c) : Walk L.outer? c.frame c.frames := by
  induction c with
  | root f => exact .last (outer?_eq_none h)
  | inside f outer ih => exact .step h.2.1 (ih h.2.2)

/-- Every scope ends at the first frame. -/
theorem Follows.getLast?_frames (h : L.Follows c) : c.frames.getLast? = some ⟨0⟩ := by
  induction c with
  | root f =>
    cases f
    cases h
    rfl
  | inside f outer ih =>
    have hlast := ih h.2.2
    rw [Scope.frames, List.getLast?_cons, hlast]
    rfl

theorem Descends.walk (h : L.Descends C) :
    Walk L.superclass? C.own.id (C.lineage.map (·.id)) := by
  induction C with
  | base own => exact .last h.2
  | derived own C ih => exact .step h.2.1 (ih h.2.2)

/-- The methods that belong to the identities are those of the classes. -/
theorem Descends.findSome?_methods (h : L.Descends C) (x : String) :
    (C.lineage.map (·.id)).findSome? (fun i => (L.methods i).get? x) = C.method? x := by
  rw [Class.method?_eq_findSome?, List.findSome?_map]
  induction C with
  | base own => simp [Class.lineage, h.1.methods]
  | derived own C ih =>
    rw [Class.lineage, List.findSome?_cons, List.findSome?_cons, ih h.2.2]
    simp only [Function.comp, h.1.methods]

/-- What is true of a scope that goes along the links: it ends at the first frame and meets no
frame twice, and all searches that start there end, with the results that they have by
definition. -/
structure ScopeEnds (L : Links) (σ : Store) (c : Scope) : Prop where
  walk : Walk L.outer? c.frame c.frames
  older : c.frames.Pairwise fun f g => g.index < f.index
  last : c.frames.getLast? = some ⟨0⟩
  get : ∀ x n, c.frames.length ≤ n →
    search L.outer? (fun f => (σ.frame f).get? x) n c.frame = some (σ.get? c x)
  assign : ∀ x n, c.frames.length ≤ n →
    search L.outer? (fun f => if (σ.frame f).contains x then some f else none) n c.frame =
      some ((σ.owner? c x).map Scope.frame)
  ancestor : ∀ d, hop L.outer? d c.frame = (c.ancestor? d).map Scope.frame

/-- What is true of a class that goes along the links: nothing inherits from itself, and all
searches for methods end. -/
structure ClassEnds (L : Links) (C : Class) : Prop where
  walk : Walk L.superclass? C.own.id (C.lineage.map (·.id))
  older : (C.lineage.map (·.id)).Pairwise fun i j => j.index < i.index
  method : ∀ x n, C.lineage.length ≤ n →
    search L.superclass? (fun i => (L.methods i).get? x) n C.own.id = some (C.method? x)

theorem Follows.ends (h : L.Follows c) (σ : Store) : L.ScopeEnds σ c where
  walk := h.walk
  older := h.walk.pairwise fun _ _ => L.outer_lt
  last := h.getLast?_frames
  get x n hn := by rw [h.walk.search_eq _ hn, σ.get?_eq_findSome?]
  assign x n hn := by rw [h.walk.search_eq _ hn, σ.map_frame_owner?]
  ancestor d := by rw [h.walk.hop_eq, Scope.map_frame_ancestor?]

theorem Descends.ends (h : L.Descends C) : L.ClassEnds C where
  walk := h.walk
  older := h.walk.pairwise fun _ _ => L.superclass_lt
  method x n hn := by rw [h.walk.search_eq _ (by simpa using hn), h.findSome?_methods]

end Links

end LoxWalk
