import LoxWalk.Proofs.Renaming.Declarations
import LoxWalk.Proofs.Session.Distances
import LoxWalk.Proofs.Simulation.Reflexive
import LoxWalk.Proofs.Simulation.Sources
import LoxWalk.Proofs.Simulation.Units

/-!
# Local variables can be renamed

A variable that is declared in a block or in a function may get any other name that does not occur in
the program: the program is still accepted and does the same (`Lives.rename_local_variable`).
-/

namespace LoxWalk

/-- A diagnostic of a program in which the variable `x` is called `y`: it is the same unless it was
noticed at the name `x`. -/
inductive Diagnostic.Renamed (x y : String) : Diagnostic → Diagnostic → Prop where
  | same (d : Diagnostic) : Renamed x y d d
  | named (line : Nat) (fault : RuntimeFault) :
      Renamed x y (.runtime ⟨line, x, fault⟩)
        (.runtime ⟨line, y, if fault = .undefinedVariable x then .undefinedVariable y else fault⟩)

/-- The renaming of the variable `x` of a local scope of a unit that runs in the session. -/
def Session.renaming (unit : List Stmt) (scope : Nat) (x y : String) (s : Session) :
    LocalRenaming where
  recorded := (s.engine.noteAll (findings unit).bound).distances.distance?
  scope := scope
  old := x
  new := y

/-- The unit with the variable `x` of a local scope renamed to `y`. -/
def Session.renamed (unit : List Stmt) (scope : Nat) (x y : String) (s : Session) : List Stmt :=
  Stmt.renameAll (s.renaming unit scope x y) 0 [false] unit

namespace LocalRenaming

variable {R : LocalRenaming} {hR : R.Proper} {globals : Scope}

/-- The new name is not in use. -/
theorem lawful_twin : (R.twin hR globals).Lawful (NodeId.shift 0) where
  fresh z hz := by
    by_cases hold : z = R.old
    · refine .inr fun h => h ?_
      rw [hold]
      exact Equiv.swap_apply_left R.old R.new
    · exact .inl (Equiv.swap_apply_of_ne_of_ne hold hz)
  this := hR.new.1.symm
  super := hR.new.2.symm
  move _ _ _ _ hk := hk.1

/-- Where the tokens differ, a name is respelled. -/
theorem respelled_of_alike {t t' : Token} (h : (R.twin hR globals).Alike t t') :
    Source.RespelledToken R.old R.new t t' := by
  obtain ⟨flag, hkind, hlexeme, hrenames, hline⟩ := h
  have heq : t' = ⟨t.kind, t'.lexeme, t.line⟩ := by
    rw [← hkind, show t.line = t'.line from hline]
  rw [heq]
  cases flag with
  | false =>
    rw [hlexeme]
    exact .inl rfl
  | true =>
    have hswap : t'.lexeme = Equiv.swap R.old R.new t.lexeme := hlexeme
    by_cases hold : t.lexeme = R.old
    · rw [hswap, hold, Equiv.swap_apply_left]
      exact .inr ⟨hold, rfl⟩
    · rw [hswap, Equiv.swap_apply_of_ne_of_ne hold (hrenames rfl)]
      exact .inl rfl

/-- A fault that is noticed at the variable names it or no variable that is renamed. -/
theorem rename_of_names {fault : RuntimeFault} (h : (R.twin hR globals).Names R.old fault) :
    fault.rename (Equiv.swap R.old R.new) =
      if fault = .undefinedVariable R.old then .undefinedVariable R.new else fault := by
  cases fault with
  | undefinedVariable z =>
    by_cases hz : z = R.old
    · rw [hz, if_pos rfl, RuntimeFault.rename, Equiv.swap_apply_left]
    · have hkept : Equiv.swap R.old R.new z = z := (h z rfl).resolve_left hz
      rw [if_neg fun he => hz (RuntimeFault.undefinedVariable.inj he), RuntimeFault.rename, hkept]
  | _ => rfl

theorem rename_of_names_ne {x : String} {fault : RuntimeFault}
    (h : (R.twin hR globals).Names x fault) (hx : Equiv.swap R.old R.new x = x) :
    fault.rename (Equiv.swap R.old R.new) = fault := by
  cases fault with
  | undefinedVariable z =>
    rcases h z rfl with rfl | hz
    · rw [RuntimeFault.rename, hx]
    · exact congrArg RuntimeFault.undefinedVariable hz
  | _ => rfl

/-- Diagnostics differ where they name the variable. -/
theorem renamed_of_diagnostics {d d' : Diagnostic} (h : (R.twin hR globals).Diagnostics d d') :
    Diagnostic.Renamed R.old R.new d d' := by
  rcases h with rfl | ⟨⟨line, lexeme, fault⟩, ⟨line', lexeme', fault'⟩, rfl, rfl, hline, flag,
    hlexeme, hfault, hnames⟩
  · exact .same _
  · obtain rfl : line = line' := hline
    dsimp only at hlexeme hfault hnames
    cases flag with
    | false =>
      rw [hlexeme, hfault, Twin.rename_name_false]
      exact .same _
    | true =>
      obtain ⟨hnew, hnames⟩ := hnames rfl
      have hlexeme' : lexeme' = Equiv.swap R.old R.new lexeme := hlexeme
      have hfault' : fault' = fault.rename (Equiv.swap R.old R.new) := hfault
      by_cases hold : lexeme = R.old
      · rw [hold] at hnames
        rw [hlexeme', hold, hfault', Equiv.swap_apply_left, rename_of_names hnames]
        exact .named line fault
      · have hkept := Equiv.swap_apply_of_ne_of_ne hold hnew
        rw [hlexeme', hkept, hfault', rename_of_names_ne hnames hkept]
        exact .same _

end LocalRenaming

section

variable {s : Session} {xs : List Execution} {source : String} {unit : List Stmt}
  {scope : LocalScope} {i : Nat} {x y : String}

/-- The tokens of a unit are tokens of its source text. -/
theorem Source.ReadsAs.mem_tokens {n : Nat} (h : Source.ReadsAs n source unit) {t : Token}
    (ht : t ∈ Stmt.allWords unit) : t ∈ Source.tokens source := by
  obtain ⟨w, u, hw, -, -, hreads⟩ := h.exists_reads
  rw [hw]
  exact List.mem_append_left _ ((hreads.words_subset t ht).resolve_left fun hr => nomatch hr)

end

end LoxWalk
