import LoxWalk.Proofs.Grammar.Acceptance

/-!
# The grammar without its limits

Three restrictions of the grammar are checked while a program is read, and reading goes on when one
of them is violated: lists of parameters and of arguments are bounded, and to the left of `=` there is
a variable or a property access.  `Nonterminal.relaxed` is the grammar without these restrictions,
and `Allows` says which sequences of tokens are derivable in it (`Derives.allows`).

`Blames` says at which places a sequence that is derivable in the relaxed grammar violates the
restrictions: there is one complaint for each entry that is too much and one for each `=` that
assigns to anything else.  The complaint about an entry comes before those inside the entry, the one
about a `=` behind those inside both sides.  A sequence has such complaints exactly if it is derivable
(`Blames.allowed`, `Allows.exists_blames`).
-/

namespace LoxWalk

open Ebnf

/-! ## The relaxed grammar -/

/-- What can be assigned to. -/
def Ebnf.target : Ebnf :=
  (rule .call ++ sym .dot).opt ++ ident

/-- Any number of entries with commas between them. -/
def Ebnf.entries (a : Ebnf) : Ebnf :=
  a ++ (sym .comma ++ a).many

namespace Nonterminal

/-- Whether the rule has a restriction that is given up. -/
def isRestricted : Nonterminal → Bool
  | parameters => true
  | arguments => true
  | assignment => true
  | _ => false

/-- The right sides of the rules, with lists of any length and any operand in front of `=`. -/
def relaxed : Nonterminal → Ebnf
  | parameters => entries ident
  | arguments => entries (rule expression)
  | assignment => rule (level .or) ++ sym .equal ++ rule assignment ||| rule (level .or)
  | r => r.body

theorem relaxed_eq_body {r : Nonterminal} (h : r.isRestricted = false) : r.relaxed = r.body := by
  cases r with
  | parameters | arguments | assignment => cases h
  | _ => rfl

end Nonterminal

/-- The sequences of tokens that an expression of the notation stands for in the relaxed grammar. -/
inductive Allows : Ebnf → List Token → Prop where
  | token {k : TokenKind} {t : Token} (h : t.kind.agrees k = true) : Allows (.token k) [t]
  | rule {r : Nonterminal} {w : List Token} (h : Allows r.relaxed w) : Allows (.rule r) w
  | seq {a b : Ebnf} {u v : List Token} (ha : Allows a u) (hb : Allows b v) :
      Allows (.seq a b) (u ++ v)
  | altLeft {a b : Ebnf} {w : List Token} (h : Allows a w) : Allows (.alt a b) w
  | altRight {a b : Ebnf} {w : List Token} (h : Allows b w) : Allows (.alt a b) w
  | optNone {a : Ebnf} : Allows (.opt a) []
  | optSome {a : Ebnf} {w : List Token} (h : Allows a w) : Allows (.opt a) w
  | manyNil {a : Ebnf} : Allows (.many a) []
  | manyCons {a : Ebnf} {u v : List Token} (h : Allows a u) (more : Allows (.many a) v) :
      Allows (.many a) (u ++ v)

/-! ## Places where a restriction is violated -/

/-- What places are looked for in: whatever the notation describes, or the entries of a list behind
`count` others. -/
inductive Part where
  | plain (a : Ebnf)
  | entries (a : Ebnf) (fault : ParseFault) (count : Nat)

/-- An entry behind `count` others is too much when the list is full. -/
def excess (fault : ParseFault) (count : Nat) (entry : List Token) : List Complaint :=
  if maxArity ≤ count then [⟨entry.head?, fault⟩] else []

/-- The tokens `w` are derivable in the relaxed grammar, and `es` is about the places where they
violate the restrictions of the grammar. -/
inductive Blames : Part → List Token → List Complaint → Prop where
  | token {k : TokenKind} {t : Token} (h : t.kind.agrees k = true) :
      Blames (.plain (.token k)) [t] []
  | rule {r : Nonterminal} {w es} (hr : r.isRestricted = false) (h : Blames (.plain r.body) w es) :
      Blames (.plain (.rule r)) w es
  | seq {a b : Ebnf} {u v es es'} (ha : Blames (.plain a) u es) (hb : Blames (.plain b) v es') :
      Blames (.plain (.seq a b)) (u ++ v) (es ++ es')
  | altLeft {a b : Ebnf} {w es} (h : Blames (.plain a) w es) : Blames (.plain (.alt a b)) w es
  | altRight {a b : Ebnf} {w es} (h : Blames (.plain b) w es) : Blames (.plain (.alt a b)) w es
  | optNone {a : Ebnf} : Blames (.plain (.opt a)) [] []
  | optSome {a : Ebnf} {w es} (h : Blames (.plain a) w es) : Blames (.plain (.opt a)) w es
  | manyNil {a : Ebnf} : Blames (.plain (.many a)) [] []
  | manyCons {a : Ebnf} {u v es es'} (h : Blames (.plain a) u es)
      (more : Blames (.plain (.many a)) v es') : Blames (.plain (.many a)) (u ++ v) (es ++ es')
  -- lists
  | parameters {w es} (h : Blames (.entries ident .tooManyParameters 0) w es) :
      Blames (.plain (.rule .parameters)) w es
  | arguments {w es} (h : Blames (.entries (.rule .expression) .tooManyArguments 0) w es) :
      Blames (.plain (.rule .arguments)) w es
  | lastEntry {a : Ebnf} {fault : ParseFault} {count : Nat} {w es} (h : Blames (.plain a) w es) :
      Blames (.entries a fault count) w (excess fault count w ++ es)
  | nextEntry {a : Ebnf} {fault : ParseFault} {count : Nat} {u t v es es'}
      (h : Blames (.plain a) u es) (ht : t.kind = .symbol .comma)
      (more : Blames (.entries a fault (count + 1)) v es') :
      Blames (.entries a fault count) (u ++ t :: v) (excess fault count u ++ es ++ es')
  -- assignments
  | unassigned {w es} (h : Blames (.plain (.rule (.level .or))) w es) :
      Blames (.plain (.rule .assignment)) w es
  | assigned {u t v es es'} (hu : Blames (.plain target) u es) (ht : t.kind = .symbol .equal)
      (hv : Blames (.plain (.rule .assignment)) v es') :
      Blames (.plain (.rule .assignment)) (u ++ t :: v) (es ++ es')
  | misassigned {u t v es es'} (hu : Blames (.plain (.rule (.level .or))) u es)
      (hnot : ¬Allows target u) (ht : t.kind = .symbol .equal)
      (hv : Blames (.plain (.rule .assignment)) v es') :
      Blames (.plain (.rule .assignment)) (u ++ t :: v) (es ++ es' ++ [⟨some t, .invalidTarget⟩])

/-! ## Derivations in the relaxed grammar -/

namespace Allows

variable {a b : Ebnf} {t : Token} {u v w : List Token}

theorem of_eq (h : Allows a w) (e : w = v) : Allows a v :=
  e ▸ h

theorem of_kind {k : TokenKind} (h : t.kind = k) : Allows (.token k) [t] := by
  refine .token ?_
  rw [h]
  cases k <;> simp [TokenKind.agrees]

/-- A repetition gets one longer at its end. -/
theorem manySnoc (h : Allows (.many a) u) (last : Allows a v) : Allows (.many a) (u ++ v) := by
  generalize he : Ebnf.many a = b at h
  induction h with
  | manyNil =>
    cases he
    exact .of_eq (.manyCons last .manyNil) (by simp)
  | manyCons first _ _ ih =>
    cases he
    exact .of_eq (.manyCons first (ih rfl)) (by simp)
  | _ => cases he

/-- A unary expression is an expression of each level. -/
theorem level_of_unary (p : Precedence) (h : Allows (.rule .unary) w) :
    Allows (.rule (.level p)) w := by
  have step (q : Precedence) (hq : Allows (.rule (.operand q)) w) : Allows (.rule (.level q)) w :=
    .rule (.of_eq (.seq hq .manyNil) (List.append_nil w))
  cases p with
  | factor => exact step _ h
  | term => exact step _ (step .factor h)
  | comparison => exact step _ (step .term (step .factor h))
  | equality => exact step _ (step .comparison (step .term (step .factor h)))
  | and => exact step _ (step .equality (step .comparison (step .term (step .factor h))))
  | or => exact step _ (step .and (step .equality (step .comparison (step .term (step .factor h)))))

/-- A callee and what follows it once more. -/
theorem callSnoc (h : Allows (.rule .call) u) (last : Allows callTail v) :
    Allows (.rule .call) (u ++ v) := by
  cases h with
  | rule hbody =>
    cases hbody with
    | seq hprimary hmore =>
      exact .rule (.of_eq (.seq hprimary (hmore.manySnoc last)) (List.append_assoc _ _ _).symm)

/-- What can be assigned to is a call without more behind it. -/
theorem call_of_target (h : Allows target w) : Allows (.rule .call) w := by
  cases h with
  | seq hobject hname =>
    cases hobject with
    | optNone =>
      have hprimary : Allows (.rule .primary) _ :=
        .rule (.altLeft (.altLeft (.altRight hname)))
      exact .rule (.of_eq (.seq hprimary .manyNil) (by simp))
    | optSome hobject =>
      cases hobject with
      | seq hcall hdot =>
        exact .of_eq (hcall.callSnoc (.altRight (.seq hdot hname))) (List.append_assoc _ _ _).symm

theorem or_of_target (h : Allows target w) : Allows (.rule (.level .or)) w :=
  level_of_unary .or (.rule (.altRight h.call_of_target))

end Allows

/-- The same without bounds on repetitions. -/
def Ebnf.unbounded : Ebnf → Ebnf
  | .seq a b => .seq a.unbounded b.unbounded
  | .alt a b => .alt a.unbounded b.unbounded
  | .opt a => .opt a.unbounded
  | .many a => .many a.unbounded
  | .upTo _ a => .many a.unbounded
  | a => a

/-- The relaxed grammar allows what the grammar derives. -/
theorem Derives.allows {a : Ebnf} {w : List Token} (h : Derives a w) : Allows a.unbounded w := by
  induction h with
  | token h => exact .token h
  | @rule r w _ ih =>
    cases r with
    | assignment =>
      cases ih with
      | altRight hor => exact .rule (.altRight hor)
      | altLeft hassignment =>
        cases hassignment with
        | seq hleft hvalue =>
          cases hleft with
          | seq htarget hequal =>
            exact .rule (.altLeft (.seq (.seq (Allows.or_of_target htarget) hequal) hvalue))
    | level p => cases p <;> exact .rule ih
    | _ => exact .rule ih
  | seq _ _ iha ihb => exact .seq iha ihb
  | altLeft _ ih => exact .altLeft ih
  | altRight _ ih => exact .altRight ih
  | optNone => exact .optNone
  | optSome _ ih => exact .optSome ih
  | manyNil | upToNil => exact .manyNil
  | manyCons _ _ iha ihb | upToCons _ _ iha ihb => exact .manyCons iha ihb

/-! ## Complaints go with derivations -/

/-- What the relaxed grammar allows of a part. -/
def Part.Allowed : Part → List Token → Prop
  | plain a, w => Allows a w
  | entries a _ _, w => Allows (.entries a) w

/-- There are complaints about derivable sequences only. -/
theorem Blames.allowed {p : Part} {w : List Token} {es : List Complaint} (h : Blames p w es) :
    p.Allowed w := by
  induction h with
  | token h => exact .token h
  | rule hr _ ih =>
    refine .rule ?_
    rw [Nonterminal.relaxed_eq_body hr]
    exact ih
  | seq _ _ iha ihb => exact .seq iha ihb
  | altLeft _ ih => exact .altLeft ih
  | altRight _ ih => exact .altRight ih
  | optNone => exact .optNone
  | optSome _ ih => exact .optSome ih
  | manyNil => exact .manyNil
  | manyCons _ _ iha ihb => exact .manyCons iha ihb
  | parameters _ ih => exact .rule ih
  | arguments _ ih => exact .rule ih
  | lastEntry _ ih => exact .of_eq (.seq ih .manyNil) (by simp)
  | nextEntry _ ht _ ih ihm =>
    cases ihm with
    | seq hnext hmore =>
      exact .of_eq (.seq ih (.manyCons (.seq (.of_kind ht) hnext) hmore)) (by simp)
  | unassigned _ ih => exact .rule (.altRight ih)
  | assigned _ ht _ ihu ihv =>
    exact .rule (.altLeft (.of_eq (.seq (.seq (Allows.or_of_target ihu) (.of_kind ht)) ihv) (by simp)))
  | misassigned _ _ ht _ ihu ihv =>
    exact .rule (.altLeft (.of_eq (.seq (.seq ihu (.of_kind ht)) ihv) (by simp)))

namespace Blames

theorem of_eq {p : Part} {w v : List Token} {es : List Complaint} (h : Blames p w es) (e : w = v) :
    Blames p v es :=
  e ▸ h

/-- Entries of a list, counted from any number. -/
theorem exists_entries {a : Ebnf} {u v : List Token} {es es' : List Complaint} (fault : ParseFault)
    (count : Nat) (hu : Blames (.plain a) u es)
    (hv : Blames (.plain (.many (sym .comma ++ a))) v es') :
    ∃ es'', Blames (.entries a fault count) (u ++ v) es'' := by
  generalize hp : Part.plain (.many (sym .comma ++ a)) = p at hv
  induction hv generalizing u es count with
  | manyNil => exact ⟨_, .of_eq (.lastEntry hu) (List.append_nil u).symm⟩
  | manyCons hnext _ _ ih =>
    cases hp
    cases hnext with
    | seq hcomma hentry =>
      cases hcomma with
      | token ht =>
        obtain ⟨es'', hmore⟩ := ih (count + 1) hentry rfl
        exact ⟨_, .of_eq (.nextEntry hu (TokenKind.eq_of_agrees_symbol ht) hmore) (by simp)⟩
  | _ => cases hp

/-- An assignment to whatever stands in front of `=`. -/
theorem exists_assignment {u v : List Token} {t : Token} {es es' : List Complaint}
    (hu : Blames (.plain (.rule (.level .or))) u es)
    (htarget : Allows target u → ∃ es, Blames (.plain target) u es)
    (ht : t.kind = .symbol .equal) (hv : Blames (.plain (.rule .assignment)) v es') :
    ∃ es'', Blames (.plain (.rule .assignment)) (u ++ t :: v) es'' := by
  by_cases h : Allows target u
  · obtain ⟨es'', hes''⟩ := htarget h
    exact ⟨_, .assigned hes'' ht hv⟩
  · exact ⟨_, .misassigned hu h ht hv⟩

end Blames

/-- There are complaints about every derivable sequence of a bounded length, since there are such
complaints about shorter ones. -/
theorem Allows.exists_blames_of_shorter {n : Nat} {a : Ebnf} {w : List Token}
    (hshorter : ∀ u : List Token, u.length < n → Allows target u → ∃ es, Blames (.plain target) u es)
    (h : Allows a w) (hlength : w.length ≤ n) : ∃ es, Blames (.plain a) w es := by
  induction h with
  | token h => exact ⟨[], .token h⟩
  | @rule r w hbody ih =>
    obtain ⟨es, hes⟩ := ih hlength
    cases hr : r.isRestricted with
    | false =>
      rw [Nonterminal.relaxed_eq_body hr] at hes
      exact ⟨es, .rule hr hes⟩
    | true =>
      cases r with
      | parameters =>
        cases hes with
        | seq hfirst hmore =>
          obtain ⟨es', hes'⟩ := hfirst.exists_entries .tooManyParameters 0 hmore
          exact ⟨es', .parameters hes'⟩
      | arguments =>
        cases hes with
        | seq hfirst hmore =>
          obtain ⟨es', hes'⟩ := hfirst.exists_entries .tooManyArguments 0 hmore
          exact ⟨es', .arguments hes'⟩
      | assignment =>
        cases hes with
        | altRight hor => exact ⟨es, .unassigned hor⟩
        | altLeft hassignment =>
          cases hassignment with
          | @seq _ _ _ v _ _ hleft hvalue =>
            cases hleft with
            | @seq _ _ u _ _ _ hleft hequal =>
              cases hequal with
              | @token _ t ht =>
                simp only [List.length_append, List.length_singleton] at hlength
                obtain ⟨es', hes'⟩ := hleft.exists_assignment (hshorter u (by omega))
                  (TokenKind.eq_of_agrees_symbol ht) hvalue
                exact ⟨es', hes'.of_eq (by simp)⟩
      | _ => cases hr
  | seq _ _ iha ihb =>
    rw [List.length_append] at hlength
    obtain ⟨es, hes⟩ := iha (by omega)
    obtain ⟨es', hes'⟩ := ihb (by omega)
    exact ⟨es ++ es', .seq hes hes'⟩
  | altLeft _ ih =>
    obtain ⟨es, hes⟩ := ih hlength
    exact ⟨es, .altLeft hes⟩
  | altRight _ ih =>
    obtain ⟨es, hes⟩ := ih hlength
    exact ⟨es, .altRight hes⟩
  | optNone => exact ⟨[], .optNone⟩
  | optSome _ ih =>
    obtain ⟨es, hes⟩ := ih hlength
    exact ⟨es, .optSome hes⟩
  | manyNil => exact ⟨[], .manyNil⟩
  | manyCons _ _ iha ihb =>
    rw [List.length_append] at hlength
    obtain ⟨es, hes⟩ := iha (by omega)
    obtain ⟨es', hes'⟩ := ihb (by omega)
    exact ⟨es ++ es', .manyCons hes hes'⟩

/-- There are complaints about every derivable sequence. -/
theorem Allows.exists_blames {a : Ebnf} {w : List Token} (h : Allows a w) :
    ∃ es, Blames (.plain a) w es := by
  -- what is assigned to is derived anew, but it is shorter than the assignment
  have hall (n : Nat) : ∀ (a : Ebnf) (w : List Token), Allows a w → w.length ≤ n →
      ∃ es, Blames (.plain a) w es := by
    induction n with
    | zero => exact fun a w h hn => h.exists_blames_of_shorter (fun u hu => by omega) hn
    | succ n ih =>
      exact fun a w h hn => h.exists_blames_of_shorter (fun u hu hu' => ih _ u hu' (by omega)) hn
  exact hall w.length a w h (Nat.le_refl _)

end LoxWalk
