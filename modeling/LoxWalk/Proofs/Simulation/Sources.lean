import LoxWalk.Proofs.Binding.Shifting
import LoxWalk.Proofs.Session.Units
import LoxWalk.Proofs.Simulation.Places
import LoxWalk.Proofs.Simulation.Shifts
import LoxWalk.Proofs.Simulation.Texts

/-!
# Source texts of twins

When a source text with nothing wrong in it is read as a unit, then every unit that differs from it
only as a `Twin` says is read from any source text whose tokens differ in the same way, and there is
nothing wrong with that text either (`Source.ReadsAs.twin`).
-/

namespace LoxWalk

/-- Tokens that may stand against each other end a text or do not. -/
theorem Twin.isEof_eq_false {T : Twin} {w w' : List Token} (h : List.Forall₂ T.Alike w w')
    (hw : ∀ u ∈ w, u.isEof = false) : ∀ u ∈ w', u.isEof = false := by
  induction h with
  | nil => exact fun _ hu => nomatch hu
  | @cons u u' w w' huu' _ ih =>
    obtain ⟨hu, hw⟩ := List.forall_mem_cons.mp hw
    obtain ⟨flag, htokens⟩ := huu'
    refine List.forall_mem_cons.mpr ⟨?_, ih hw⟩
    rw [Token.isEof, htokens.kind]
    exact hu

namespace Source

variable {n n' : Nat} {source : String} {unit : List Stmt} {w : List Token} {t : Token}

/-- The tokens in front of the end, and how they are read. -/
theorem ReadsAs.exists_reads (h : ReadsAs n source unit) : ∃ w t, tokens source = w ++ [t] ∧
    t.kind = .eof ∧ (∀ u ∈ w, u.isEof = false) ∧
      Reads .program n w (.stmts unit) (Grammar.program n (tokens source)).nextId := by
  obtain ⟨w, t, hw, ht, heof⟩ := tokens_eq_concat source
  refine ⟨w, t, hw, ht, heof, ?_⟩
  have hreads := Grammar.reads_of_program_eq_ok h.parsed
  have hbody : Grammar.body (tokens source) = w := by rw [hw, Grammar.body_concat ht heof]
  rwa [hbody] at hreads

/-- A source text whose tokens are read as a unit. -/
theorem readsAs_of_reads (he : errors source = []) (hw : tokens source = w ++ [t])
    (ht : t.kind = .eof) (heof : ∀ u ∈ w, u.isEof = false)
    (hreads : Reads .program n w (.stmts unit) n') (hf : (findings unit).errors = []) :
    ReadsAs n source unit ∧ (Grammar.program n (tokens source)).nextId = n' := by
  refine ⟨⟨he, ?_, hf⟩, ?_⟩
  · rw [hw]
    exact (Grammar.program_eq_ok_iff_reads ht heof).mpr ⟨n', hreads⟩
  · have hread := hreads.readBy [] [] (fun _ hv => nomatch hv) rfl
    rw [List.append_nil] at hread
    rw [hw, Grammar.nextId_program, Grammar.start, Grammar.body_concat ht heof, hread]

/-- A unit that differs only as `T` says from one that is read from a source text. -/
theorem ReadsAs.twin {T : Twin} {c : Nat} {x : Extent} {flags : List Bool} {unit' : List Stmt}
    (h : ReadsAs n source unit) (hT : T.Lawful (NodeId.shift c))
    (hline : ∀ l, ∃ l', T.line l l') (htracks : T.Tracks (sites unit))
    (hcovers : T.Covers (Stmt.allWords unit))
    (htwins : Stmt.AllTwins T x flags unit unit') :
    (findings unit').bound = (findings unit).bound.map (BoundReference.renumber c) ∧
      ∃ w w' t, tokens source = w ++ [t] ∧ t.kind = .eof ∧ List.Forall₂ T.Alike w w' ∧
        ∀ source' t', errors source' = [] → tokens source' = w' ++ [t'] → t'.kind = .eof →
          ReadsAs (n + c) source' unit' ∧
            (Grammar.program (n + c) (tokens source')).nextId =
              (Grammar.program n (tokens source)).nextId + c := by
  have hfound := hT.findings htwins htracks hcovers
  obtain ⟨w, t, hw, ht, heof, hreads⟩ := h.exists_reads
  -- for reading only the identities matter
  have hweaker : ∀ x, T.Weaker (fun _ id id' _ => id'.index = id.index + c) x := by
    intro x id id' d hk
    refine ⟨d, ?_, fun _ _ _ h => h⟩
    rw [hT.move x id id' d hk]
    rfl
  have hshifted : (Fragment.stmts unit).Twins (T.withKnown fun _ id id' _ => id'.index = id.index + c)
      x flags (.stmts unit') :=
    ⟨unit', rfl, Stmt.AllTwins.weaken (hweaker .lasting) (hweaker x) htwins⟩
  obtain ⟨r', w', rfl, hww', hreads'⟩ := Reads.twin (T := T.withKnown _) (fun _ _ _ _ => Iff.rfl)
    hline hreads hshifted
  have halike : List.Forall₂ T.Alike w w' :=
    hww'.imp fun _ _ ⟨flag, h⟩ => ⟨flag, h.kind, h.lexeme, h.renames, h.line⟩
  refine ⟨hfound.bound, w, w', t, hw, ht, halike, fun source' t' he' hw' ht' => ?_⟩
  exact readsAs_of_reads he' hw' ht' (Twin.isEof_eq_false halike heof) hreads'
    (hfound.errors h.resolved)

/-- A unit that is read differs from its shifted copy as every `Twin` says that knows its
references. -/
theorem ReadsAs.twins_shiftAll {T : Twin} {c : Nat} {move : Nat → Nat} (h : ReadsAs n source unit)
    (hallows : T.Allows (· ∈ sites unit) c move) :
    Stmt.AllTwins T .unit [false] unit (Stmt.shiftAll c move unit) := by
  have hfits : Stmt.AllFit (· ∈ sites unit) (fun _ _ => True) .top [] unit :=
    Static.fits_unit (Grammar.wellFormed_of_program_eq_ok h.parsed) h.resolved (fun _ hs => hs)
      fun _ _ _ _ => trivial
  exact hallows.stmts (by simp [Twin.Unflagged]) unit hfits

/-- A unit that is read differs from itself as every `Twin` says that knows its references. -/
theorem ReadsAs.twins_self {T : Twin} (h : ReadsAs n source unit)
    (hallows : T.Allows (· ∈ sites unit) 0 id) : Stmt.AllTwins T .unit [false] unit unit := by
  have htwins := h.twins_shiftAll hallows
  rwa [Stmt.shiftAll_zero] at htwins

end Source

end LoxWalk
