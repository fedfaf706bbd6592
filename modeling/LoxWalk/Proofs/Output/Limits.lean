import LoxWalk.Proofs.Execution.Parts

/-!
# Output with a limit

The same code runs on two machines that are the same except for their channels: one channel takes
everything, the other one takes `limit` bytes altogether and no more.  As long as the limit is not
exceeded both executions do the same.  If the first one writes more, then there is one print that
begins below the limit and ends above it (`Moment.Overflows`).  There the second one stops: it fills
its channel, and changes nothing any more on its way out.

`Exec.Limited` puts this as a property of parts of an execution, which holds of all of an execution
by what it inherits from its parts.
-/

namespace LoxWalk

open Exec

/-- The bytes of the line on which a value is printed. -/
def Value.line (v : Value) : ByteArray :=
  (v.text ++ "\n").toUTF8

/-- The machine with a channel that takes `limit` bytes altogether. -/
def Machine.limited (limit : Nat) (m : Machine) : Machine :=
  { m with output := ⟨m.output.written, some (limit - m.output.written.size)⟩ }

/-- Carrying out the task of the moment comes to a `print` whose operand evaluates to `v` and leaves
the machine `m` behind. -/
def Moment.Prints (s : Setting) (μ : Moment) (v : Value) (m : Machine) : Prop :=
  ∃ n e m₀, During s μ ⟨n + 1, .execute (.print e), m₀⟩ ∧ evaluate s n e m₀ = .ok v m

/-- The print during which the limit is exceeded, if `written` is written in the end. -/
structure Moment.Overflows (s : Setting) (μ : Moment) (limit : Nat) (written : ByteArray) (v : Value)
    (m : Machine) : Prop where
  prints : μ.Prints s v m
  before : m.output.written.size ≤ limit
  behind : limit < (m.output.written ++ v.line).size
  goesOn : ∃ rest, written = m.output.written ++ v.line ++ rest

/-- A machine that stopped where the limit is exceeded: its channel is full, and its store is as it
was at the print that did not fit. -/
def Machine.StoppedAt (s : Setting) (μ : Moment) (limit : Nat) (written : ByteArray)
    (m' : Machine) : Prop :=
  m'.output = ⟨written.extract 0 limit, some 0⟩ ∧
    ∃ v m, μ.Overflows s limit written v m ∧ m'.store = m.store

/-- What a limit makes of the execution `x` on a machine whose channel has none: nothing if the limit
is enough for all that is written, and else that it stops when the limit is exceeded. -/
structure Exec.Limited {α : Type} (s : Setting) (μ : Moment) (limit : Nat) (x : Exec α) (m : Machine) :
    Prop where
  writes : ∃ w, (x.after m).output = ⟨m.output.written ++ w, none⟩
  same : (x.after m).output.written.size ≤ limit →
    x (m.limited limit) = onMachine (Machine.limited limit) (x m)
  stops : m.output.written.size ≤ limit → limit < (x.after m).output.written.size →
    ∃ m', x (m.limited limit) = .error .channelFull m' ∧
      m'.StoppedAt s μ limit (x.after m).output.written

/-! ## Single lines -/

/-- The front of some bytes that goes beyond the first part. -/
theorem extract_append_of_size_le {a b : ByteArray} {n : Nat} (h : a.size ≤ n) :
    (a ++ b).extract 0 n = a ++ b.extract 0 (n - a.size) := by
  have hall : a.extract 0 n = a :=
    ByteArray.ext (ByteArray.data_extract.trans (Array.extract_eq_self_of_le h))
  rw [ByteArray.extract_append, Nat.zero_sub, hall]

namespace Channel

theorem writeLine_of_unlimited {c : Channel} (h : c.room = none) (v : Value) :
    c.writeLine v.text = (true, ⟨c.written ++ v.line, none⟩) := by
  obtain ⟨written, room⟩ := c
  cases h
  rfl

theorem writeLine_of_le {written : ByteArray} {room : Nat} {v : Value} (h : v.line.size ≤ room) :
    (⟨written, some room⟩ : Channel).writeLine v.text =
      (true, ⟨written ++ v.line, some (room - v.line.size)⟩) :=
  if_pos h

theorem writeLine_of_lt {written : ByteArray} {room : Nat} {v : Value} (h : room < v.line.size) :
    (⟨written, some room⟩ : Channel).writeLine v.text =
      (false, ⟨written ++ v.line.extract 0 room, some 0⟩) :=
  if_neg (Nat.not_le.mpr h)

end Channel

theorem Exec.print_of_accepted {v : Value} {m : Machine} {output : Channel}
    (h : m.output.writeLine v.text = (true, output)) :
    Exec.print v m = .ok () { m with output := output } := by
  rw [Exec.print, h]

theorem Exec.print_of_refused {v : Value} {m : Machine} {output : Channel}
    (h : m.output.writeLine v.text = (false, output)) :
    Exec.print v m = .error .channelFull { m with output := output } := by
  rw [Exec.print, h]

/-! ## Parts -/

variable {s : Setting} {μ : Moment} {limit : Nat}

theorem Machine.StoppedAt.append {written : ByteArray} {m : Machine}
    (h : m.StoppedAt s μ limit written) (hlt : limit < written.size) (w : ByteArray) :
    m.StoppedAt s μ limit (written ++ w) := by
  obtain ⟨houtput, v, m₀, ⟨hprints, hbefore, hbehind, rest, hrest⟩, hstore⟩ := h
  refine ⟨?_, v, m₀, ⟨hprints, hbefore, hbehind, rest ++ w, ?_⟩, hstore⟩
  · have hnone : w.extract (0 - written.size) (limit - written.size) = .empty := by
      rw [Nat.sub_eq_zero_of_le (Nat.le_of_lt hlt), Nat.zero_sub]
      exact ByteArray.extract_same
    rw [houtput, ByteArray.extract_append, hnone, ByteArray.append_empty]
  · rw [hrest, ByteArray.append_assoc]

namespace Exec.Limited

variable {α β : Type} {m : Machine}

theorem of_onStore {x : Exec α} (hx : x.OnStore) (hm : m.output.room = none) :
    Limited s μ limit x m := by
  obtain ⟨f, rfl⟩ := hx
  have hafter : ((onStore f).after m).output = m.output := by
    unfold after onStore
    cases f m.store m.scope <;> rfl
  refine ⟨⟨.empty, ?_⟩, fun _ => ?_, fun hle hlt => ?_⟩
  · rw [hafter, ByteArray.append_empty, ← hm]
  · unfold onStore Machine.limited
    cases f m.store m.scope <;> rfl
  · rw [hafter] at hlt
    omega

theorem size_le {x : Exec α} (h : Limited s μ limit x m) :
    m.output.written.size ≤ (x.after m).output.written.size := by
  obtain ⟨w, hw⟩ := h.writes
  rw [hw, ByteArray.size_append]
  omega

theorem room {x : Exec α} (h : Limited s μ limit x m) : (x.after m).output.room = none := by
  obtain ⟨w, hw⟩ := h.writes
  rw [hw]

/-- A line that fits is written, and of a line that does not fit as much as fits. -/
theorem print {v : Value} (hm : m.output.room = none) (hprints : μ.Prints s v m) :
    Limited s μ limit (Exec.print v) m := by
  have hfree := print_of_accepted (Channel.writeLine_of_unlimited hm v)
  have hafter := after_of_ok hfree
  have hsize : (m.output.written ++ v.line).size = m.output.written.size + v.line.size :=
    ByteArray.size_append
  refine ⟨⟨v.line, by rw [hafter]⟩, fun hle => ?_, fun hle hlt => ?_⟩
  · rw [hafter] at hle
    have hle : (m.output.written ++ v.line).size ≤ limit := hle
    have hfits : v.line.size ≤ limit - m.output.written.size := by omega
    have hleft : limit - m.output.written.size - v.line.size =
        limit - (m.output.written ++ v.line).size := by omega
    rw [print_of_accepted (m := m.limited limit) (Channel.writeLine_of_le hfits), hfree, hleft]
    rfl
  · rw [hafter] at hlt ⊢
    have hlt : limit < (m.output.written ++ v.line).size := hlt
    have hover : limit - m.output.written.size < v.line.size := by omega
    have hcut := extract_append_of_size_le (b := v.line) hle
    refine ⟨_, print_of_refused (m := m.limited limit) (Channel.writeLine_of_lt hover), ?_⟩
    refine ⟨congrArg (Channel.mk · (some 0)) hcut.symm, v, m, ⟨hprints, hle, hlt, .empty, ?_⟩, rfl⟩
    rw [ByteArray.append_empty]

/-- Two parts: a limit that is exceeded in the first one is not noticed in the second one. -/
theorem bind {x : Exec α} {f : α → Exec β} (hx : Limited s μ limit x m)
    (hf : ∀ a m₁, x m = .ok a m₁ → Limited s μ limit (f a) m₁) : Limited s μ limit (x >>= f) m := by
  cases hr : x m with
  | error i m₁ =>
    -- nothing comes after the first part, so all is as it is there
    have hafter : (x >>= f).after m = x.after m := after_bind_of_error hr
    refine ⟨hafter ▸ hx.writes, fun hle => ?_, fun hle hlt => ?_⟩
    · rw [hafter] at hle
      have hsame := hx.same hle
      rw [hr] at hsame
      rw [bind_of_error hr, bind_of_error hsame]
      rfl
    · rw [hafter] at hlt ⊢
      obtain ⟨m', hm', hstopped⟩ := hx.stops hle hlt
      exact ⟨m', bind_of_error hm', hstopped⟩
  | ok a m₁ =>
    have hfa := hf a m₁ hr
    have hfirst : x.after m = m₁ := after_of_ok hr
    have hafter : (x >>= f).after m = (f a).after m₁ := after_bind_of_ok hr
    have hsize := hfa.size_le
    obtain ⟨w₁, hw₁⟩ := hx.writes
    obtain ⟨w₂, hw₂⟩ := hfa.writes
    rw [hfirst] at hw₁
    have hwritten : ((f a).after m₁).output.written = m₁.output.written ++ w₂ := by rw [hw₂]
    refine ⟨⟨w₁ ++ w₂, ?_⟩, fun hle => ?_, fun hle hlt => ?_⟩
    · rw [hafter, hw₂, hw₁, ByteArray.append_assoc]
    · rw [hafter] at hle
      have hsame := hx.same (by rw [hfirst]; omega)
      rw [hr] at hsame
      rw [bind_of_ok hr, bind_of_ok hsame, hfa.same hle]
    · rw [hafter] at hlt ⊢
      by_cases hle₁ : m₁.output.written.size ≤ limit
      · -- the first part fits, so the second one starts alike on both machines
        have hsame := hx.same (by rw [hfirst]; exact hle₁)
        rw [hr] at hsame
        rw [bind_of_ok hsame]
        exact hfa.stops hle₁ hlt
      · -- with the limit the second part is not carried out, without it only more is written
        have hlt₁ : limit < m₁.output.written.size := Nat.lt_of_not_le hle₁
        obtain ⟨m', hm', hstopped⟩ := hx.stops hle (by rw [hfirst]; exact hlt₁)
        rw [hfirst] at hstopped
        exact ⟨m', bind_of_error hm', hwritten ▸ hstopped.append hlt₁ w₂⟩

/-! ### Parts of the program that run inside -/

theorem inScope {x : Exec α} {scope : Scope} (hx : Limited s μ limit x { m with scope := scope }) :
    Limited s μ limit (Exec.inScope scope x) m := by
  have hafter := after_inScope x scope m
  refine ⟨hafter ▸ hx.writes, fun hle => ?_, fun hle hlt => ?_⟩
  · rw [hafter] at hle
    have hsame : x { m.limited limit with scope := scope } = _ := hx.same hle
    rw [inScope_eq, inScope_eq, hsame]
    cases x { m with scope := scope } <;> rfl
  · rw [hafter] at hlt ⊢
    obtain ⟨m', hm', hstopped⟩ := hx.stops hle hlt
    exact ⟨_, (inScope_eq scope x _).trans (congrArg (onMachine _) hm'), hstopped⟩

theorem asCall {x : Exec α} (hx : Limited s μ limit x m.called) :
    Limited s μ limit (Exec.asCall x) m := by
  have hafter := after_asCall x m
  refine ⟨hafter ▸ hx.writes, fun hle => ?_, fun hle hlt => ?_⟩
  · rw [hafter] at hle
    have hsame : x (m.limited limit).called = _ := hx.same hle
    rw [asCall_eq, asCall_eq, hsame]
    cases x m.called <;> rfl
  · rw [hafter] at hlt ⊢
    obtain ⟨m', hm', hstopped⟩ := hx.stops hle hlt
    exact ⟨_, (asCall_eq x _).trans (congrArg (onMachine _) hm'), hstopped⟩

/-- A full channel is no `return`, and passes. -/
theorem catchReturn {x : Exec Unit} (hx : Limited s μ limit x m) :
    Limited s μ limit (Exec.catchReturn x) m := by
  have hafter := after_catchReturn x m
  refine ⟨hafter ▸ hx.writes, fun hle => ?_, fun hle hlt => ?_⟩
  · rw [hafter] at hle
    have hsame := hx.same hle
    unfold Exec.catchReturn
    rw [hsame]
    cases x m with
    | ok a n => rfl
    | error i n => cases i <;> rfl
  · rw [hafter] at hlt ⊢
    obtain ⟨m', hm', hstopped⟩ := hx.stops hle hlt
    refine ⟨m', ?_, hstopped⟩
    unfold Exec.catchReturn
    rw [hm']

/-- What a limit makes of an execution is decided by its parts. -/
theorem inherits (s : Setting) (μ : Moment) (limit : Nat) :
    Inherits s (During s μ) fun x m => m.output.room = none → Limited s μ limit x m where
  step hx _ hm := of_onStore hx hm
  print hμ hv hm := print hm ⟨_, _, _, hμ, hv⟩
  bind hx hf hm := bind (hx hm) fun a m₁ hr => hf a m₁ hr (after_of_ok hr ▸ (hx hm).room)
  depth _ _ hf hm := ⟨(hf hm).writes, (hf hm).same, (hf hm).stops⟩
  inScope hx hm := inScope (hx hm)
  asCall hx hm := asCall (hx hm)
  catchReturn hx hm := catchReturn (hx hm)

/-- A limit makes nothing of an execution that does not exceed it, and stops every other one. -/
theorem carried (s : Setting) (μ : Moment) (limit : Nat) :
    μ.Carried s fun x m => m.output.room = none → Limited s μ limit x m :=
  (inherits s μ limit).carried (fun _ _ hν hnext => hν.tail hnext) .refl

end Exec.Limited

end LoxWalk
