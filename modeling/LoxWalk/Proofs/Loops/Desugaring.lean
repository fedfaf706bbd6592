import LoxWalk.Proofs.Loops.Closed
import LoxWalk.Proofs.Loops.Distances

/-!
# The tree of a loop with clauses

What is read behind the word `for` is a tree of blocks and a `while` loop.  It behaves as the loop
with its clauses does: it breaks the same rules, and on every machine it ends alike, with the same
output and the same interruption (`forLoop_faithful_and_hygienic`).

A loop that never ends has no end to be compared, but its output has: it is cut where the channel is
full, and then both loops end for that reason.
-/

namespace LoxWalk

open Exec

/-! ## Ends -/

/-- A run that is over, and not for lack of fuel. -/
def Ended (r : EStateM.Result Interrupt Machine Unit) : Prop :=
  ∀ m, r ≠ .error .outOfFuel m

/-- Two runs that began on the machine `m` end alike: with the same output, both at their end or
both with the same interruption, and on machines that differ by nothing but empty frames. -/
def EndAlike (s : Setting) (m : Machine) (r r' : EStateM.Result Interrupt Machine Unit) : Prop :=
  Padding.Outcomes .none s (Padding.unpadded m.store.frames.size) [] (fun _ _ _ => True) r r'

namespace Padding.Outcomes

variable {s : Setting} {W : Padding} {π : List Bool} {Q : Padding → Unit → Unit → Prop}
  {r r' : EStateM.Result Interrupt Machine Unit}

/-- The plain run may run out of fuel alone, but it did not. -/
theorem of_ended (h : Outcomes ⟨True, False⟩ s W π Q r r') (hr : Ended r) :
    Outcomes .none s W π Q r r' := by
  cases h with
  | ok hW hm hq => exact .ok hW hm hq
  | error hW hm he => exact .error hW hm he
  | plain _ m _ => exact (hr m rfl).elim
  | padded h => exact h.elim

/-- The padded run may run out of fuel alone, but it did not. -/
theorem of_ended_padded (h : Outcomes ⟨False, True⟩ s W π Q r r') (hr : Ended r') :
    Outcomes .none s W π Q r r' := by
  cases h with
  | ok hW hm hq => exact .ok hW hm hq
  | error hW hm he => exact .error hW hm he
  | plain h => exact h.elim
  | padded _ _ m => exact (hr m rfl).elim

end Padding.Outcomes

/-! ## Main statement -/

namespace ForLoop

variable {l : ForLoop} {st : Static} {s : Setting} {k : Nat} {m : Machine}

/-- The loop and the tree run alike, as far as their fuel lets them. -/
theorem WellFormed.agree (hl : l.WellFormed) (hn : l.desugared.ids.Nodup) (hst : st.AtStatement)
    (hbound : l.Bound st s k) (hhost : ∃ now, s.host = .clockAt now) (hm : m.Closed s.globals)
    {L : Padding.Slack} {fuel fuel' : Nat} (hfuel : L.Spares 8 fuel fuel') :
    Padding.Agree L s (Padding.unpadded m.store.frames.size) [] ((l.shift k).execute s fuel)
      (LoxWalk.execute s fuel' l.desugared) m m fun _ _ _ => True := by
  obtain ⟨p, hp⟩ := st.exists_knows
  obtain ⟨hinitializer, hpadded⟩ :=
    hl.padded hst hp (hbound.recorded_tree hn hp) (hbound.recorded_loop hn hp)
  exact Padding.agree_execute_desugared hhost hfuel (.of_closed hm) hinitializer hpadded

end ForLoop

/-- The tree that is read behind the word `for` is a loop with clauses.

It declares nothing and breaks the rules that the loop breaks, in the same order.  It is hygienic:
nothing is declared in the extra block around body and increment, so condition and increment refer
to the variable of the initializer whatever the body declares.  And where the tree and the loop are
bound, which binding them brings about, each of them ends on every machine if the other does, and
then both end alike. -/
theorem forLoop_faithful_and_hygienic {o : Bool} {n n' : Nat} {t : Token} {w : List Token}
    (ht : t.kind = .keyword .for_) (hw : ∀ u ∈ w, u.Genuine) :
    (∀ tree, Reads (.statement o) n (t :: w) (.stmt tree) n' ↔
      ∃ l : ForLoop, l.IsRead o n w n' ∧ tree = l.desugared) ∧
    ∀ l : ForLoop, l.IsRead o n w n' → ∀ st : Static, st.AtStatement →
      (st.stmt l.desugared).1 = st ∧
      (st.stmt l.desugared).2.errors = (l.findings st).errors ∧
      (((l.inside st).enter []).stmt l.body).1 = (l.inside st).enter [] ∧
      (∀ (e : Engine) (k : Nat), (∀ r : NodeId, n ≤ r.index → e.distances.distance? r = none) →
        n' ≤ n + k →
          l.Bound st ((e.noteAll (st.stmt l.desugared).2.bound).noteAll
            ((l.shift k).findings st).bound).setting k) ∧
      ∀ (s : Setting) (k : Nat), l.Bound st s k →
        (∀ p, st.Knows p → ∀ name e, l.initializer = some (.var name e) →
          l.SharesVariable p name.lexeme s.distances.distance?) ∧
        ((∃ now, s.host = .clockAt now) → ∀ m : Machine, m.Closed s.globals →
          (∀ fuel, Ended ((l.shift k).execute s fuel m) → ∀ fuel', fuel + 8 ≤ fuel' →
            EndAlike s m ((l.shift k).execute s fuel m) (execute s fuel' l.desugared m)) ∧
          (∀ fuel', Ended (execute s fuel' l.desugared m) → ∀ fuel, fuel' ≤ fuel →
            EndAlike s m ((l.shift k).execute s fuel m) (execute s fuel' l.desugared m))) := by
  refine ⟨ForLoop.reads_iff ht, fun l hread st hst => ?_⟩
  have hl := hread.wellFormed hw
  obtain ⟨hn, hrange⟩ : l.desugared.ids.Nodup ∧
      ∀ r ∈ l.desugared.ids, n ≤ r.index ∧ r.index < n' := by
    obtain ⟨-, new, hperm, hnodup, hnew⟩ :=
      ((ForLoop.reads_iff ht l.desugared).mpr ⟨l, hread, rfl⟩).freshIds
    exact ⟨hperm.nodup_iff.mpr hnodup, fun r hr => hnew r (hperm.mem_iff.mp hr)⟩
  refine ⟨hl.place_desugared st, hl.errors_desugared hst, hl.place_body _,
    fun e k he hk => ForLoop.bound_noteAll hn hrange st he hk, fun s k hbound => ⟨?_, ?_⟩⟩
  · intro p hp name e hi
    exact hl.sharesVariable (hbound.recorded_tree hn hp) hi
  · intro hhost m hm
    refine ⟨fun fuel hended fuel' hfuel => ?_, fun fuel' hended fuel hfuel => ?_⟩
    · -- the loop may have too little fuel, but it ended
      have hagree := hl.agree hn hst hbound hhost hm (L := ⟨True, False⟩) (.inl ⟨trivial, hfuel⟩)
      exact hagree.of_ended hended
    · -- now the tree is the one that ended
      have hagree := hl.agree hn hst hbound hhost hm (L := ⟨False, True⟩) (.inr ⟨trivial, hfuel⟩)
      exact hagree.of_ended_padded hended

/-! ### A loop with one round -/

namespace OneRound

/-- The variable of the loop. -/
def name : Token :=
  ⟨.identifier, "a", 1⟩

/-- The word `for`. -/
def keyword : Token :=
  ⟨.keyword .for_, "for", 1⟩

/-- The tokens of `(var a; !a; a = true) {}`. -/
def tokens : List Token :=
  [⟨.symbol .leftParen, "(", 1⟩, ⟨.keyword .var_, "var", 1⟩, name, ⟨.symbol .semicolon, ";", 1⟩,
    ⟨.symbol .bang, "!", 1⟩, name, ⟨.symbol .semicolon, ";", 1⟩, name, ⟨.symbol .equal, "=", 1⟩,
    ⟨.keyword .true_, "true", 1⟩, ⟨.symbol .rightParen, ")", 1⟩, ⟨.symbol .leftBrace, "\x7b", 1⟩,
    ⟨.symbol .rightBrace, "\x7d", 1⟩]

/-- The loop that is read. -/
def loop : ForLoop where
  initializer := some (.var name none)
  condition := some (.unary ⟨.symbol .bang, "!", 1⟩ (.var ⟨0⟩ name))
  increment := some (.assign ⟨2⟩ name (.literal (.bool true)))
  body := .block []

/-- All these tokens come from a text. -/
theorem genuine : ∀ u ∈ keyword :: tokens, u.Genuine := by
  intro u hu
  have hsource : Source.tokens "for (var a; !a; a = true) \x7b\x7d" =
      (keyword :: tokens) ++ [⟨.eof, "", 1⟩] := by
    decide +kernel
  have hmem : u ∈ Source.tokens "for (var a; !a; a = true) \x7b\x7d" :=
    hsource ▸ List.mem_append_left _ hu
  exact Source.genuine_of_mem_tokens hmem

theorem isRead : loop.IsRead false 0 tokens 3 := by
  have hname (n : Nat) : Reads .unary n [name] (.expr (.var ⟨n⟩ name)) (n + 1) :=
    .of_primary (.name rfl)
  have htrue : Reads .unary 2 [⟨.keyword .true_, "true", 1⟩] (.expr (.literal (.bool true))) 2 :=
    .of_primary (.literal rfl)
  refine ⟨_, [⟨.keyword .var_, "var", 1⟩, name, ⟨.symbol .semicolon, ";", 1⟩],
    [⟨.symbol .bang, "!", 1⟩, name, ⟨.symbol .semicolon, ";", 1⟩],
    [name, ⟨.symbol .equal, "=", 1⟩, ⟨.keyword .true_, "true", 1⟩, ⟨.symbol .rightParen, ")", 1⟩],
    [⟨.symbol .leftBrace, "\x7b", 1⟩, ⟨.symbol .rightBrace, "\x7d", 1⟩], 0, 1, 3, rfl, rfl,
    ?_, ?_, ?_, ?_⟩
  · exact .forVariable rfl (.uninitialized rfl rfl)
  · exact .given (.terminated rfl (.plain (.of_unary (.prefixed (.inl rfl) (hname 0)))) rfl)
  · exact .given (.terminated rfl (.assign (.of_unary (hname 1)) rfl (.plain (.of_unary htrue))) rfl)
  · exact .block rfl (.blockEnd rfl)

/-- An engine with an empty top level. -/
def engine : Engine :=
  ⟨.empty, [], .root ⟨0⟩, 8, .clockAt 0, ⟨⟨#[⟨[]⟩], #[], 0⟩, .root ⟨0⟩, 0, .new none⟩⟩

/-- The distances of the tree and of the loop are noted. -/
def setting : Setting :=
  ((engine.noteAll (Static.top.stmt loop.desugared).2.bound).noteAll
    ((loop.shift 3).findings .top).bound).setting

theorem closed : engine.machine.Closed setting.globals := by
  have hroot : (Scope.root ⟨0⟩).Below 1 := fun f hf => List.mem_singleton.mp hf ▸ Nat.one_pos
  refine ⟨hroot, hroot, fun f x v hv => ?_, fun r x v hv => ?_⟩
  · obtain ⟨i⟩ := f
    obtain rfl : i = 0 := Nat.lt_one_iff.mp (Store.lt_size_of_get? hv)
    cases hv
  · cases hv

/-- The loop ends in its second round. -/
theorem ended : Ended ((loop.shift 3).execute setting 4 engine.machine) := by
  have hok : (loop.shift 3).execute setting 4 engine.machine = .ok () _ := rfl
  rw [hok]
  exact nofun

end OneRound

/-- In `for (var a; !a; a = true) {}` condition and increment refer to the variable `a` of the loop,
and the tree that is read ends as the loop does. -/
theorem forLoop_faithful_and_hygienic_one_round :
    Reads (.statement false) 0 (OneRound.keyword :: OneRound.tokens)
        (.stmt OneRound.loop.desugared) 3 ∧
      OneRound.setting.distances.distance? ⟨0⟩ = some 0 ∧
      OneRound.setting.distances.distance? ⟨2⟩ = some 1 ∧
      EndAlike OneRound.setting OneRound.engine.machine
        ((OneRound.loop.shift 3).execute OneRound.setting 4 OneRound.engine.machine)
        (execute OneRound.setting 12 OneRound.loop.desugared OneRound.engine.machine) := by
  obtain ⟨hreads, hloop⟩ := @forLoop_faithful_and_hygienic false 0 3 OneRound.keyword
    OneRound.tokens rfl fun u hu => OneRound.genuine u (List.mem_cons_of_mem _ hu)
  obtain ⟨-, -, -, hnoted, hbound⟩ := hloop OneRound.loop OneRound.isRead .top .top
  obtain ⟨hshares, hends⟩ := hbound OneRound.setting 3
    (hnoted OneRound.engine 3 (fun _ _ => rfl) (by decide))
  have hshared := hshares .top ⟨.nil, rfl⟩ OneRound.name none rfl
  refine ⟨(hreads _).mpr ⟨_, OneRound.isRead, rfl⟩, ?_, ?_, ?_⟩
  · exact hshared.condition _ (List.mem_singleton_self _) rfl rfl
  · exact hshared.increment _ (List.mem_singleton_self _) rfl rfl
  · exact (hends ⟨0, rfl⟩ OneRound.engine.machine OneRound.closed).1 4 OneRound.ended 12 (by decide)

end LoxWalk
