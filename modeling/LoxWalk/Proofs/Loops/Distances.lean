import LoxWalk.Proofs.Loops.Rounds
import LoxWalk.Proofs.Loops.Widening

/-!
# Distances in a loop with clauses

A reference in the tree that is read of a loop may be further away from the scope that it is bound
to than in the loop, since the block around body and increment lies in between.  It is bound to the
same scope: with the distances of its references the tree is padded (`ForLoop.WellFormed.padded`),
and condition and increment refer to the variable that the initializer declares
(`ForLoop.WellFormed.sharesVariable`).

A function around the loop may be called inside it, and then the tree runs during the loop.  So the
tree and the loop are bound in one setting, the loop under identities that are larger by some `k`
(`ForLoop.Bound`).
-/

namespace LoxWalk

/-! ## Tables of a part of the program -/

/-- A table with the findings has what is to be recorded of the references. -/
theorem Findings.Resolve.recorded {found : Findings} {rs : List Reference} {ids : List NodeId}
    {distance? : NodeId → Option Nat} (h : found.Resolve rs)
    (hids : (rs.map Reference.id).Perm ids) (hn : ids.Nodup) (ht : found.Tabulated ids distance?) :
    Recorded distance? rs :=
  fun _ hr => h.distance?_eq (hids.nodup_iff.mpr hn) ht hr
    (hids.mem_iff.mp (List.mem_map_of_mem hr))

/-- All that is found are references of the tree. -/
theorem Findings.Resolve.mem_ids {found : Findings} {rs : List Reference} {ids : List NodeId}
    (h : found.Resolve rs) (hids : (rs.map Reference.id).Perm ids) {b : BoundReference}
    (hb : b ∈ found.bound) : b.id ∈ ids := by
  obtain ⟨r, hr, hrecorded⟩ := h.exists_reference hb
  rw [Reference.id_of_recorded? hrecorded]
  exact hids.mem_iff.mp (List.mem_map_of_mem hr)

section

variable {k : Nat} {found : Findings} {ids : List NodeId} {distance? : NodeId → Option Nat}

/-- Findings about references whose identities are larger by `k`. -/
theorem Findings.Tabulated.of_shift
    (h : (found.shift k id).Tabulated (ids.map (NodeId.shift k)) distance?) :
    found.Tabulated ids fun r => distance? (r.shift k) := by
  refine ⟨fun b hb => h.bound (b.renumber k) (List.mem_map_of_mem hb), fun r hr hne => ?_⟩
  refine h.unbound (r.shift k) (List.mem_map_of_mem hr) fun b' hb' heq => ?_
  obtain ⟨b, hb, rfl⟩ := List.mem_map.mp hb'
  exact hne b hb (Engine.id_renumber_inj.mp heq)

theorem Findings.Consistent.shift (h : found.Consistent) (k : Nat) :
    (found.shift k id).Consistent := by
  rintro _ hb _ hb' heq
  obtain ⟨b, hmem, rfl⟩ := List.mem_map.mp hb
  obtain ⟨b', hmem', rfl⟩ := List.mem_map.mp hb'
  exact h b hmem b' hmem' (Engine.id_renumber_inj.mp heq)

/-- Noting the distances of other references says nothing about these. -/
theorem Findings.Tabulated.noteAll {e : Engine} (h : found.Tabulated ids e.distances.distance?)
    (hids : ∀ b ∈ found.bound, b.id ∈ ids) {bound : List BoundReference}
    (hother : ∀ b ∈ bound, b.id ∉ ids) :
    found.Tabulated ids (e.noteAll bound).distances.distance? := by
  have hsame : ∀ r ∈ ids, (e.noteAll bound).distances.distance? r = e.distances.distance? r :=
    fun r hr => Engine.distance?_noteAll_of_forall_ne fun b hb heq => hother b hb (heq ▸ hr)
  refine ⟨fun b hb => ?_, fun r hr hne => ?_⟩
  · rw [hsame _ (hids b hb)]
    exact h.bound b hb
  · rw [hsame r hr]
    exact h.unbound r hr hne

end

mutual

/-- All references in an expression stand in one place. -/
theorem Expr.place_of_mem_references {p : Surroundings} {r : Reference} :
    (e : Expr) → r ∈ e.references p → r.place = p
  | .literal _, h => nomatch h
  | .group inner, h => inner.place_of_mem_references h
  | .unary _ operand, h => operand.place_of_mem_references h
  | .binary left _ right, h => (List.mem_append.mp h).elim left.place_of_mem_references
      right.place_of_mem_references
  | .logical left _ right, h => (List.mem_append.mp h).elim left.place_of_mem_references
      right.place_of_mem_references
  | .var _ _, h => List.mem_singleton.mp h ▸ rfl
  | .assign _ _ value, h => (List.mem_append.mp h).elim value.place_of_mem_references
      fun h => List.mem_singleton.mp h ▸ rfl
  | .call callee _ arguments, h => (List.mem_append.mp h).elim callee.place_of_mem_references
      (Expr.place_of_mem_allReferences arguments)
  | .get object _, h => object.place_of_mem_references h
  | .set object _ value, h => (List.mem_append.mp h).elim value.place_of_mem_references
      object.place_of_mem_references
  | .this _ _, h => List.mem_singleton.mp h ▸ rfl
  | .super _ _ _, h => List.mem_singleton.mp h ▸ rfl

theorem Expr.place_of_mem_allReferences {p : Surroundings} {r : Reference} :
    (es : List Expr) → r ∈ Expr.allReferences p es → r.place = p
  | [], h => nomatch h
  | e :: es, h => (List.mem_append.mp h).elim e.place_of_mem_references
      (Expr.place_of_mem_allReferences es)

end

theorem Expr.place_of_mem_references? {p : Surroundings} {r : Reference} {e : Option Expr}
    (h : r ∈ Expr.references? p e) : r.place = p := by
  cases e with
  | none => cases h
  | some e => exact e.place_of_mem_references h

namespace Static

variable {st : Static} {p : Surroundings}

/-- Whatever the walk knows, there are surroundings of which it does. -/
theorem exists_knows (st : Static) : ∃ p : Surroundings, st.Knows p := by
  obtain ⟨inClass, hclass⟩ : ∃ inClass, st.inClass = classContextOf inClass := by
    cases st.inClass
    · exact ⟨none, rfl⟩
    · exact ⟨some false, rfl⟩
    · exact ⟨some true, rfl⟩
  refine ⟨⟨st.scopes.map NameMap.names, inClass⟩, ?_, hclass⟩
  rw [List.forall₂_map_right_iff, List.forall₂_same]
  intro scope _ x
  rw [Bool.eq_iff_iff, NameMap.contains_iff_mem_names, decide_eq_true_iff]

/-- The innermost scope around a statement is not that of a superclass. -/
theorem AtStatement.superInside (h : st.AtStatement) (hp : st.Knows p) : p.SuperInside [] := by
  intro d hd
  rw [← hp.distance?_eq] at hd
  cases d with
  | succ d => exact ⟨Nat.succ_pos d, rfl⟩
  | zero =>
    have hsuper := h.super
    unfold Static.distance? at hd
    unfold Static.declaresHere at hsuper
    cases hs : st.scopes with
    | nil =>
      rw [hs] at hd
      cases hd
    | cons scope outer =>
      rw [hs] at hd hsuper
      rw [List.findIdx?_cons, show scope.contains superName = false from hsuper] at hd
      cases houter : outer.findIdx? (·.contains superName) <;> rw [houter] at hd <;> cases hd

end Static

/-! ## The parts of the tree -/

namespace ForLoop

variable {l : ForLoop} {st : Static} {p : Surroundings} {s : Setting} {k : Nat}

/-- A loop whose identities are larger by `k` is bound at the same distances. -/
theorem findings_shift (l : ForLoop) (st : Static) :
    (l.shift k).findings st = (l.findings st).shift k id := by
  have hinside : (l.shift k).inside st = l.inside st := by
    unfold inside shift
    cases l.initializer with
    | none => rfl
    | some t => exact (Prod.ext_iff.mp (Static.stmt_shift k id (st.enter []) t)).1
  have hinitial : (l.shift k).initialFindings st = (l.initialFindings st).shift k id := by
    unfold initialFindings shift
    cases l.initializer with
    | none => rfl
    | some t => exact (Prod.ext_iff.mp (Static.stmt_shift k id (st.enter []) t)).2
  rw [findings, findings, hinitial, hinside, shift, Static.expr?_shift, Static.expr?_shift,
    Static.stmt_shift, Findings.shift_append, Findings.shift_append, Findings.shift_append]

/-- The references of the tree that is read: those in body and increment have an extra scope around
them. -/
theorem WellFormed.references_desugared (hl : l.WellFormed) (p : Surroundings) :
    l.desugared.references p = l.initialReferences p ++
      (Expr.references? (l.place p) l.condition ++
        (l.body.references ((l.place p).widen (l.extra [])) ++
          Expr.references? ((l.place p).widen [true]) l.increment)) := by
  have hcondition (q : Surroundings) :
      (l.condition.getD (.literal (.bool true))).references q = Expr.references? q l.condition := by
    cases l.condition <;> rfl
  have hstep (q : Surroundings) : l.step.references q =
      l.body.references (q.widen (l.extra [])) ++
        Expr.references? (q.widen [true]) l.increment := by
    unfold step extra
    cases l.increment with
    | none => exact (List.append_nil _).symm
    | some e =>
      -- the body declares nothing, so the increment stands in the same place of the block
      rw [Stmt.references, Stmt.allReferences, Stmt.allReferences, Stmt.allReferences,
        List.append_nil, l.body.names_eq_nil hl.body hl.declares, Surroundings.behind_nil]
      rfl
  have hloop (q : Surroundings) : l.loop.references q = Expr.references? q l.condition ++
      (l.body.references (q.widen (l.extra [])) ++
        Expr.references? (q.widen [true]) l.increment) := by
    rw [loop, Stmt.references, hcondition, hstep]
  unfold initialReferences place
  cases hi : l.initializer with
  | none => rw [desugared_of_none hi, hloop, List.nil_append]
  | some t =>
    rw [desugared_of_some hi, Stmt.references, Stmt.allReferences, Stmt.allReferences,
      Stmt.allReferences, List.append_nil, hloop]

/-- With the distances of its references the tree is padded. -/
theorem WellFormed.padded (hl : l.WellFormed) (h : st.AtStatement) (hp : st.Knows p)
    (htree : Recorded s.distances.distance? (l.desugared.references p))
    (hcopy : Recorded (s.distances.ofCopy? k) (l.references p)) :
    (∀ t ∈ l.initializer, t.Padded s k []) ∧ l.Padded s k [] := by
  have hinside : (l.place p).SuperInside [] :=
    (hl.atStatement h).superInside (l.knows_inside hp)
  rw [hl.references_desugared] at htree
  unfold references at hcopy
  simp only [recorded_append] at htree hcopy
  obtain ⟨hinitial, hcondition, hbody, hincrement⟩ := htree
  obtain ⟨⟨⟨hinitial', hcondition'⟩, hbody'⟩, hincrement'⟩ := hcopy
  refine ⟨fun t ht => ?_, ⟨?_, ?_, ?_⟩⟩
  · rw [Option.mem_def] at ht
    rw [initialReferences, ht] at hinitial hinitial'
    exact t.padded_of_recorded ((Static.AtStatement.block st).superInside hp.block)
      (hl.initializer t ht) (.inr (by simp)) hinitial hinitial'
  · exact Expr.padded?_of_recorded hinside l.condition hl.condition hcondition hcondition'
  · have hsuper : (l.place p).SuperInside (l.extra []) := by
      unfold extra
      split
      · exact hinside.extra
      · exact hinside
    exact l.body.padded_of_recorded hsuper hl.body (.inl hl.declares) hbody hbody'
  · exact Expr.padded?_of_recorded hinside.extra l.increment hl.increment hincrement hincrement'

/-! ## What the references refer to -/

/-- The condition and the increment refer by the name of a variable to the one that the initializer
declares, in the scope of the loop: the condition stands in this scope, and the increment in the
block right inside it. -/
structure SharesVariable (l : ForLoop) (p : Surroundings) (name : String)
    (distance? : NodeId → Option Nat) : Prop where
  condition : ∀ r ∈ Expr.references? (l.place p) l.condition, r.referent = .variable →
    r.token.lexeme = name → distance? r.id = some 0
  increment : ∀ r ∈ Expr.references? ((l.place p).enter []) l.increment, r.referent = .variable →
    r.token.lexeme = name → distance? r.id = some 1

theorem WellFormed.sharesVariable (hl : l.WellFormed) {distance? : NodeId → Option Nat}
    (h : Recorded distance? (l.desugared.references p)) {name : Token} {e : Option Expr}
    (hi : l.initializer = some (.var name e)) :
    l.SharesVariable p name.lexeme distance? := by
  have hscopes : (l.place p).scopes = [name.lexeme] :: p.scopes := by
    rw [place, hi]
    rfl
  have hfault {r : Reference} (hr : r.referent = .variable) : r.fault? = none := by
    rw [Reference.fault?, hr]
  rw [hl.references_desugared] at h
  simp only [recorded_append] at h
  obtain ⟨-, hcondition, -, hincrement⟩ := h
  constructor
  · intro r hr hvariable hname
    rw [hcondition r hr, Reference.map_snd_recorded?_eq_some_iff]
    refine ⟨hfault hvariable, [], [name.lexeme], p.scopes, ?_, rfl, ?_, List.forall_mem_nil _⟩
    · rw [Expr.place_of_mem_references? hr, hscopes, List.nil_append]
    · rw [hname]
      exact List.mem_singleton_self _
  · intro r hr hvariable hname
    rw [hincrement r hr, Reference.map_snd_recorded?_eq_some_iff]
    refine ⟨hfault hvariable, [[]], [name.lexeme], p.scopes, ?_, rfl, ?_, ?_⟩
    · rw [Expr.place_of_mem_references? hr, Surroundings.enter, hscopes, List.singleton_append]
    · rw [hname]
      exact List.mem_singleton_self _
    · exact List.forall_mem_singleton.mpr List.not_mem_nil

/-! ## Settings -/

/-- A setting has the distances of the tree that is read, and those of the loop under identities
that are larger by `k`. -/
structure Bound (l : ForLoop) (st : Static) (s : Setting) (k : Nat) : Prop where
  tree : (st.stmt l.desugared).2.Tabulated l.desugared.ids s.distances.distance?
  loop : ((l.shift k).findings st).Tabulated (l.desugared.ids.map (NodeId.shift k))
    s.distances.distance?

/-- The distances of the tree. -/
theorem Bound.recorded_tree (h : l.Bound st s k) (hn : l.desugared.ids.Nodup) (hp : st.Knows p) :
    Recorded s.distances.distance? (l.desugared.references p) :=
  (Static.resolve_stmt l.desugared hp).2.recorded (Stmt.map_id_references _ p) hn h.tree

/-- The distances of the loop. -/
theorem Bound.recorded_loop (h : l.Bound st s k) (hn : l.desugared.ids.Nodup) (hp : st.Knows p) :
    Recorded (s.distances.ofCopy? k) (l.references p) := by
  have hloop := h.loop
  rw [l.findings_shift] at hloop
  exact (l.resolve_findings hp).recorded (l.map_id_references p) hn hloop.of_shift

/-- Binding the tree and the loop brings an engine into such a setting, if nothing was known of the
identities and the two do not share any. -/
theorem bound_noteAll {n n' : Nat} (hn : l.desugared.ids.Nodup)
    (hrange : ∀ r ∈ l.desugared.ids, n ≤ r.index ∧ r.index < n') (st : Static) {e : Engine}
    (he : ∀ r : NodeId, n ≤ r.index → e.distances.distance? r = none) (hk : n' ≤ n + k) :
    l.Bound st ((e.noteAll (st.stmt l.desugared).2.bound).noteAll
      ((l.shift k).findings st).bound).setting k := by
  obtain ⟨p, hp⟩ := st.exists_knows
  have htree := (Static.resolve_stmt l.desugared hp).2
  have hloop := l.resolve_findings hp
  have hids := Stmt.map_id_references l.desugared p
  have hids' := l.map_id_references p
  rw [l.findings_shift]
  -- what is noted for the loop lies behind all identities of the tree
  have hother : ∀ b ∈ ((l.findings st).shift k id).bound, n' ≤ b.id.index := by
    rintro _ hb
    obtain ⟨b, hmem, rfl⟩ := List.mem_map.mp hb
    exact Nat.le_trans hk (Nat.add_le_add_right (hrange _ (hloop.mem_ids hids' hmem)).1 k)
  constructor
  · have hfresh : ∀ r ∈ l.desugared.ids, e.distances.distance? r = none :=
      fun r hr => he r (hrange r hr).1
    refine ((htree.consistent (hids.nodup_iff.mpr hn)).tabulated_noteAll hfresh).noteAll
      (fun b hb => htree.mem_ids hids hb) fun b hb hmem => ?_
    exact Nat.not_lt.mpr (hother b hb) (hrange _ hmem).2
  · rw [l.findings_shift]
    refine ((hloop.consistent (hids'.nodup_iff.mpr hn)).shift k).tabulated_noteAll fun r' hr' => ?_
    obtain ⟨r, hr, rfl⟩ := List.mem_map.mp hr'
    have hge : n' ≤ (r.shift k).index :=
      Nat.le_trans hk (Nat.add_le_add_right (hrange r hr).1 k)
    have hle : n ≤ (r.shift k).index :=
      Nat.le_trans (hrange r hr).1 (Nat.le_add_right r.index k)
    rw [Engine.distance?_noteAll_of_forall_ne fun b hb heq => ?_, he _ hle]
    have hlt := (hrange _ (htree.mem_ids hids hb)).2
    rw [heq] at hlt
    exact Nat.not_lt.mpr hge hlt

end ForLoop

end LoxWalk
