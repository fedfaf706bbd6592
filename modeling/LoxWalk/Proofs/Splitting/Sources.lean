import LoxWalk.Proofs.Renaming.Declarations
import LoxWalk.Proofs.Session.Distances
import LoxWalk.Proofs.Simulation.Sources

/-!
# One source text behind another

Two source texts with nothing wrong in them can be put into one text, with a new line between them.
There is nothing wrong with this text either, and it is read as the statements of the first and then
those of the second, which stand further down (`Source.readsAs_append_newline`).
-/

namespace LoxWalk

/-! ## Texts that are moved -/

/-- A unit that is read again, when `c` more identities are in use, from a place `k` lines further
down. -/
def Twin.moved (c k : Nat) (unit : List Stmt) : Twin where
  line l l' := l' = l + k
  rename := id
  renames _ := True
  rename_rename := id_eq
  rename_this := id_eq thisName
  rename_super := id_eq superName
  known _ id id' d := id' = id.shift c ∧ ∀ s ∈ sites unit, s.id = id → s.distance? = d
  globals := .root ⟨0⟩

namespace Source

variable {n c k : Nat} {source source' : String} {unit : List Stmt}

theorem respelled_of_alike_moved {w w' : List Token}
    (h : List.Forall₂ (Twin.moved c k unit).Alike w w') : w' = w.map (Token.lower k) := by
  induction h with
  | nil => rfl
  | @cons t t' w w' ht _ ih =>
    obtain ⟨flag, hkind, hlexeme, -, hline⟩ := ht
    have hname : t'.lexeme = t.lexeme := by
      rw [hlexeme]
      cases flag <;> rfl
    obtain ⟨kind, lexeme, line⟩ := t'
    dsimp only at hkind hname
    obtain rfl : line = t.line + k := hline
    rw [List.map_cons, ih, hkind, hname]
    rfl

/-- A unit that is read again. -/
theorem ReadsAs.shift (h : ReadsAs n source unit) (he : errors source' = [])
    (htokens : tokens source' = (tokens source).map (Token.lower k)) :
    ReadsAs (n + c) source' (Stmt.shiftAll c (· + k) unit) ∧
      (Grammar.program (n + c) (tokens source')).nextId =
        (Grammar.program n (tokens source)).nextId + c ∧
      (findings (Stmt.shiftAll c (· + k) unit)).bound =
        (findings unit).bound.map (BoundReference.renumber c) := by
  let T := Twin.moved c k unit
  have hn := Grammar.nodup_of_program_eq_ok h.parsed
  have hallows : T.Allows (· ∈ sites unit) c (· + k) :=
    ⟨fun s hs => ⟨rfl, fun s' hs' hid => congrArg Site.distance? (eq_of_mem_sites hn hs' hs hid)⟩,
      fun _ => rfl⟩
  have htwins := h.twins_shiftAll hallows
  have hlawful : T.Lawful (NodeId.shift c) :=
    ⟨fun _ _ => .inl rfl, trivial, trivial, fun _ _ _ _ hk => hk.1⟩
  have htracks : T.Tracks (sites unit) := fun s hs _ _ _ hk => (hk.2 s hs rfl).symm
  obtain ⟨hbound, w, w', t, hw, ht, hww', hreads⟩ := h.twin hlawful (fun l => ⟨l + k, rfl⟩) htracks
    (fun _ _ => trivial) htwins
  rw [hw, List.map_append, List.map_singleton, ← respelled_of_alike_moved hww'] at htokens
  obtain ⟨hreadsAs, hnext⟩ := hreads source' (t.lower k) he htokens ht
  exact ⟨hreadsAs, hnext, hbound⟩

end Source

/-! ## Statements that follow each other -/

/-- Two programs, one after the other, are a program; the second begins with a statement and not
with an `else`. -/
theorem Reads.program_append {n n₁ n₂ : Nat} {w w' : List Token} {unit unit' : List Stmt}
    (h : Reads .program n w (.stmts unit) n₁) (h' : Reads .program n₁ w' (.stmts unit') n₂) :
    Reads .program n (w ++ w') (.stmts (unit ++ unit')) n₂ := by
  induction unit generalizing n w with
  | nil =>
    cases h
    exact h'
  | cons s unit ih =>
    cases h with
    | programNext hs hmore =>
      rw [List.append_assoc, List.cons_append]
      exact .programNext hs (ih hmore)

namespace Static

/-- Outside all scopes a statement declares nothing. -/
theorem fst_stmt_of_scopes_nil {st : Static} (h : st.scopes = []) : (s : Stmt) →
    (st.stmt s).1 = st
  | .expression _ => rfl
  | .print _ => rfl
  | .block _ => rfl
  | .return_ _ _ => rfl
  | .var name _ => scopes_declared_nil h name
  | .fun_ f => scopes_declared_nil h f.name
  | .class_ name _ _ => scopes_declared_nil h name
  | .while_ _ body => fst_stmt_of_scopes_nil h body
  | .if_ _ thenBranch none => fst_stmt_of_scopes_nil h thenBranch
  | .if_ _ thenBranch (some elseBranch) => by
    rw [stmt]
    dsimp only
    rw [fst_stmt_of_scopes_nil h thenBranch, fst_stmt_of_scopes_nil h elseBranch]

/-- So what is behind other statements is bound as if it stood alone. -/
theorem stmts_append_of_scopes_nil {st : Static} (h : st.scopes = []) (ss ss' : List Stmt) :
    (st.stmts (ss ++ ss')).2.bound = (st.stmts ss).2.bound ++ (st.stmts ss').2.bound ∧
      (st.stmts (ss ++ ss')).2.errors = (st.stmts ss).2.errors ++ (st.stmts ss').2.errors := by
  induction ss with
  | nil => exact ⟨rfl, rfl⟩
  | cons s ss ih =>
    obtain ⟨hbound, herrors⟩ := ih
    rw [List.cons_append, stmts, stmts]
    dsimp only
    rw [fst_stmt_of_scopes_nil h]
    constructor
    · change (st.stmt s).2.bound ++ _ = ((st.stmt s).2.bound ++ _) ++ _
      rw [hbound, List.append_assoc]
    · change (st.stmt s).2.errors ++ _ = ((st.stmt s).2.errors ++ _) ++ _
      rw [herrors, List.append_assoc]

end Static

theorem findings_append (unit unit' : List Stmt) :
    (findings (unit ++ unit')).bound = (findings unit).bound ++ (findings unit').bound ∧
      (findings (unit ++ unit')).errors = (findings unit).errors ++ (findings unit').errors :=
  Static.stmts_append_of_scopes_nil rfl unit unit'

namespace Source

variable {n : Nat} {a b : String} {unit unit' : List Stmt}

/-- Two source texts with nothing wrong in them, one behind the other. -/
theorem readsAs_append_newline (ha : ReadsAs n a unit)
    (hb : ReadsAs (Grammar.program n (tokens a)).nextId (below (linesBefore a) b) unit') :
    ReadsAs n (a ++ "\n" ++ b) (unit ++ unit') ∧
      (Grammar.program n (tokens (a ++ "\n" ++ b))).nextId =
        (Grammar.program (Grammar.program n (tokens a)).nextId
          (tokens (below (linesBefore a) b))).nextId ∧
      (findings (unit ++ unit')).bound = (findings unit).bound ++ (findings unit').bound := by
  obtain ⟨herrors, w, t, hw, ht, htokens⟩ :=
    tokens_append_newline ha.scanned ((tokens_below _ b).1.mp hb.scanned)
  obtain ⟨v, u, hv, hu, heof, hreads⟩ := ha.exists_reads
  obtain ⟨v', u', hv', hu', heof', hreads'⟩ := hb.exists_reads
  obtain ⟨rfl, -⟩ := List.append_inj' (hw.symm.trans hv) rfl
  obtain ⟨hbound, hfaults⟩ := findings_append unit unit'
  have hjoined : tokens (a ++ "\n" ++ b) = (w ++ v') ++ [u'] := by
    rw [htokens, ← (tokens_below (linesBefore a) b).2, hv', List.append_assoc]
  have hnoEof : ∀ t ∈ w ++ v', t.isEof = false :=
    fun t ht => (List.mem_append.mp ht).elim (heof t) (heof' t)
  rw [ha.resolved, hb.resolved] at hfaults
  obtain ⟨hreadsAs, hnext⟩ := readsAs_of_reads herrors hjoined hu' hnoEof
    (hreads.program_append hreads') hfaults
  exact ⟨hreadsAs, hnext, hbound⟩

end Source

end LoxWalk
