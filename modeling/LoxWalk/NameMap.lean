/-!
# Finite maps from names

A `NameMap` holds what is bound in one place: the variables of a scope, the fields of an instance,
the methods of a class.  Names stay in the order in which they came, and a name that is bound again
keeps its place.

`get?_insert` says what an insertion does to every later look-up, `names_insert` what it does to the
names.
-/

namespace LoxWalk

/-- What is bound to each of finitely many names. -/
structure NameMap (α : Type) where
  entries : List (String × α)
deriving DecidableEq

namespace NameMap

variable {α : Type}

/-- No name at all. -/
def empty : NameMap α :=
  ⟨[]⟩

/-- What is bound to a name among some entries. -/
def find? (x : String) : List (String × α) → Option α
  | [] => none
  | (y, a) :: rest => if y = x then some a else find? x rest

/-- Some entries with `x` bound to `a`. -/
def put (x : String) (a : α) : List (String × α) → List (String × α)
  | [] => [(x, a)]
  | (y, b) :: rest => if y = x then (y, a) :: rest else (y, b) :: put x a rest

/-- What is bound to `x`. -/
def get? (m : NameMap α) (x : String) : Option α :=
  find? x m.entries

/-- Whether something is bound to `x`. -/
def contains (m : NameMap α) (x : String) : Bool :=
  (m.get? x).isSome

/-- Binds `x` to `a`, whatever was bound to it before. -/
def insert (m : NameMap α) (x : String) (a : α) : NameMap α :=
  ⟨put x a m.entries⟩

/-- Binds several names, one after the other. -/
def insertAll (m : NameMap α) (bindings : List (String × α)) : NameMap α :=
  bindings.foldl (fun m b => m.insert b.1 b.2) m

/-- The bound names in order. -/
def names (m : NameMap α) : List String :=
  m.entries.map (·.1)

/-! ## What an insertion changes -/

@[simp]
theorem get?_empty (x : String) : (empty : NameMap α).get? x = none := rfl

theorem get?_insert (m : NameMap α) (x y : String) (a : α) :
    (m.insert x a).get? y = if x = y then some a else m.get? y := by
  unfold get? insert
  induction m.entries with
  | nil => simp [put, find?]
  | cons e rest ih =>
    obtain ⟨z, b⟩ := e
    by_cases hzx : z = x <;> by_cases hxy : x = y <;> by_cases hzy : z = y <;>
      simp_all [put, find?]

@[simp]
theorem get?_insert_self (m : NameMap α) (x : String) (a : α) : (m.insert x a).get? x = some a := by
  simp [get?_insert]

theorem get?_insert_of_ne (m : NameMap α) {x y : String} (a : α) (h : x ≠ y) :
    (m.insert x a).get? y = m.get? y := by
  simp [get?_insert, h]

/-- All that is bound has a property that it had before and that what is inserted has. -/
theorem forall_insert {P : α → Prop} {m : NameMap α} (hm : ∀ x a, m.get? x = some a → P a) {x : String}
    {a : α} (ha : P a) : ∀ y b, (m.insert x a).get? y = some b → P b := by
  intro y b hb
  rw [get?_insert] at hb
  split at hb
  · cases hb
    exact ha
  · exact hm y b hb

theorem forall_insertAll {P : α → Prop} {m : NameMap α} (hm : ∀ x a, m.get? x = some a → P a)
    {bindings : List (String × α)} (h : ∀ b ∈ bindings, P b.2) :
    ∀ y b, (m.insertAll bindings).get? y = some b → P b := by
  induction bindings generalizing m with
  | nil => exact hm
  | cons b bindings ih =>
    obtain ⟨hb, h⟩ := List.forall_mem_cons.mp h
    exact ih (forall_insert hm hb) h

theorem forall_single {P : α → Prop} {x : String} {a : α} (ha : P a) :
    ∀ y b, (empty.insert x a).get? y = some b → P b :=
  forall_insert (fun _ _ h => nomatch h) ha

/-- A name is bound exactly when it is one of the names. -/
theorem contains_iff_mem_names (m : NameMap α) (x : String) : m.contains x ↔ x ∈ m.names := by
  unfold contains get? names
  induction m.entries with
  | nil => simp [find?]
  | cons e rest ih =>
    obtain ⟨y, a⟩ := e
    by_cases h : y = x
    · simp [find?, h]
    · simp [find?, h, ih, Ne.symm h]

/-- An insertion adds its name behind the others unless it is one of them already. -/
theorem names_insert (m : NameMap α) (x : String) (a : α) :
    (m.insert x a).names = if m.contains x then m.names else m.names ++ [x] := by
  unfold contains get? insert names
  induction m.entries with
  | nil => simp [put, find?]
  | cons e rest ih =>
    obtain ⟨y, b⟩ := e
    by_cases h : y = x
    · simp [put, find?, h]
    · simp only [put, find?, h, if_false, List.map_cons, ih]
      split <;> simp

end NameMap

end LoxWalk
