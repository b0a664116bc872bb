import ArgFill.Proofs.Search

/-!
# An argument list replaced

The offsets of a located call stay good for measuring it again when its arguments are replaced. What
stands before them is as it was, and the bracket that closed the call stands behind the new text.

* `replace?_eq_some` : the text with another part in the place of one;
* `closing?_cases` : where a list ends that begins with a text and goes on with a closing bracket. A
  text whose brackets pair up is passed over, and the bracket behind it closes the list. A text that
  closes more lists than it opens ends the list itself, and one that leaves lists open uses up
  brackets behind it;
* `remeasure_replaced` : so measuring gives the new text as the arguments exactly if its brackets
  pair up, and otherwise another end, or none.
-/

namespace ArgFill

namespace Text

def replace? (t : Text) (first last : Nat) (new : Text) : Option Text := do
  let bare ← t.erase? first last
  bare.insert? first new

theorem replace?_eq_some (front inner back new : Text) :
    (front ++ inner ++ back).replace? front.size (front ++ inner).size new =
      some (front ++ new ++ back) := by
  have herase : (front ++ inner ++ back).erase? front.size (front ++ inner).size =
      some (front ++ back) := erase?_eq_some_iff.2 ⟨front, inner, back, rfl, rfl, rfl, rfl⟩
  rw [replace?, herase]
  exact insert?_eq_some_iff.2 ⟨front, back, rfl, rfl, rfl⟩

end Text

namespace Brackets

variable {b : Brackets} {new inner back : Text}

theorem IsMatch.append (h : b.IsMatch new inner) (more : Text) : b.IsMatch (new ++ more) inner := by
  obtain ⟨back, rfl⟩ := h.closes
  exact ⟨⟨back ++ more, by simp⟩, h.exceeds, h.first⟩

theorem IsMatch.size_lt (h : b.IsMatch new inner) : inner.size < new.size := by
  obtain ⟨back, rfl⟩ := h.closes
  have := b.closing.utf8Size_pos
  rw [Text.size_append, Text.size_cons]
  omega

/-- Where a list ends that begins with `new`: behind it, in it, beyond it, or nowhere. -/
theorem closing?_cases (hne : b.opening ≠ b.closing) (o : Nat) (new back : Text) :
    b.Paired new ∧ b.closing? o (new ++ b.closing :: back) = some (o + new.size) ∨
      (∃ inner, b.IsMatch new inner ∧
        b.closing? o (new ++ b.closing :: back) = some (o + inner.size)) ∨
      (∃ inner, b.IsMatch (new ++ b.closing :: back) inner ∧ new.size < inner.size ∧
        b.closing? o (new ++ b.closing :: back) = some (o + inner.size)) ∨
      (∀ inner, ¬ b.IsMatch (new ++ b.closing :: back) inner) ∧
        b.closing? o (new ++ b.closing :: back) = none := by
  cases hdepth : b.depth? 0 new with
  | none =>
    obtain ⟨inner, more, hnew, hinner⟩ := exists_of_depth?_eq_none hdepth
    have hmatch : b.IsMatch new inner := (isMatch_iff hne).2 ⟨⟨more, hnew⟩, hinner⟩
    have hend := (closing?_eq_some_iff hne (o := o)).2 ⟨inner, hmatch.append (b.closing :: back), rfl⟩
    exact Or.inr (Or.inl ⟨inner, hmatch, hend⟩)
  | some depth =>
    have hgoes : b.closing? o (new ++ b.closing :: back) =
        b.closingFrom? depth (o + new.size) (b.closing :: back) := closingFrom?_append hdepth o _
    cases hend : b.closing? o (new ++ b.closing :: back) with
    | none =>
      refine Or.inr (Or.inr (Or.inr ⟨fun inner hmatch => ?_, rfl⟩))
      rw [(closing?_eq_some_iff hne).2 ⟨inner, hmatch, rfl⟩] at hend
      cases hend
    | some e =>
      cases depth with
      | zero =>
        rw [hgoes, closingFrom?_closing_zero hne] at hend
        exact Or.inl ⟨(paired_iff hne).2 hdepth, hend.symm⟩
      | succ depth =>
        obtain ⟨inner, hmatch, rfl⟩ := (closing?_eq_some_iff hne).1 hend
        rw [hgoes, closingFrom?_closing_succ hne] at hend
        -- the bracket behind `new` closes a list that `new` opens
        obtain ⟨late, -, -, -, hsize⟩ := (closingFrom?_eq_some_iff hne).1 hend
        have := b.closing.utf8Size_pos
        exact Or.inr (Or.inr (Or.inl ⟨inner, hmatch, by omega, rfl⟩))

/-- The bracket behind a text closes the list exactly if the brackets of the text pair up. -/
theorem closing?_eq_size_iff (hne : b.opening ≠ b.closing) (o : Nat) (new back : Text) :
    b.closing? o (new ++ b.closing :: back) = some (o + new.size) ↔ b.Paired new := by
  constructor
  · intro h
    rcases closing?_cases hne o new back with
      ⟨hpaired, -⟩ | ⟨inner, hmatch, hend⟩ | ⟨inner, -, hlt, hend⟩ | ⟨-, hend⟩
    · exact hpaired
    · have hlt := hmatch.size_lt
      have hsame := Option.some.inj (h.symm.trans hend)
      omega
    · have hsame := Option.some.inj (h.symm.trans hend)
      omega
    · rw [h] at hend
      cases hend
  · intro h
    exact (closingFrom?_eq_some_iff hne).2 ⟨new, back, rfl, (paired_iff hne).1 h, rfl⟩

end Brackets

namespace Target

variable {target : Target} {t front rest : Text} {call : Call}

theorem remeasure_eq_ok_argsEnd_iff (hone : target.brackets.opening.utf8Size = 1)
    (hstart : call.argsStart = front.size + target.brackets.opening.utf8Size) {e : Nat} :
    target.remeasure (front ++ target.brackets.opening :: rest) call =
      .ok { call with argsEnd := e } ↔ target.brackets.closing? call.argsStart rest = some e := by
  rw [remeasure_eq hone hstart]
  cases target.brackets.closing? call.argsStart rest with
  | none => exact ⟨nofun, nofun⟩
  | some e' =>
    refine ⟨fun h => ?_, fun h => by rw [Option.some.inj h]⟩
    have hsame : e' = e := congrArg Call.argsEnd (Except.ok.inj h)
    rw [hsame]

/-- **Measuring a call whose arguments were replaced.** The text with `new` in the place of the
arguments exists. Measuring the call in it gives `new` as the arguments exactly if the brackets of
`new` pair up. Otherwise the end is in `new`, at the first closing bracket with which it closes more
lists than it opens; or it is beyond `new`, at the first such bracket of `new` and what is behind it;
or, where there is none, the list is told to be unclosed, by the place of its opening bracket. -/
theorem remeasure_replaced (hone : target.brackets.opening.utf8Size = 1)
    (hcall : .ok call ∈ target.calls t) (new : Text) :
    ∃ front args rest u, t = front ++ args ++ rest ∧ front.size = call.argsStart ∧
      (front ++ args).size = call.argsEnd ∧ u = front ++ new ++ rest ∧
      t.replace? call.argsStart call.argsEnd new = some u ∧
      (target.remeasure u call = .ok { call with argsEnd := call.argsStart + new.size } ↔
        target.brackets.Paired new) ∧
      (¬ target.brackets.Paired new →
        (∃ inner, target.brackets.IsMatch new inner ∧ inner.size < new.size ∧
          target.remeasure u call = .ok { call with argsEnd := call.argsStart + inner.size }) ∨
        (∃ inner, target.brackets.IsMatch (new ++ rest) inner ∧ new.size < inner.size ∧
          target.remeasure u call = .ok { call with argsEnd := call.argsStart + inner.size }) ∨
        (∀ inner, ¬ target.brackets.IsMatch (new ++ rest) inner) ∧
          target.remeasure u call = .error (.unclosed target.construct call.openOffset)) := by
  have hfound := mem_found_of_mem_calls hcall
  have hne := differ_of_mem_found hfound
  obtain ⟨args, before, back, rfl, hstart, hend, -⟩ := exists_hasArgs_of_mem_found hfound
  have hopened : Text.size (before ++ [target.brackets.opening]) = call.argsStart := by
    rw [hstart, Text.size_append, Text.size_cons, Text.size_nil, Nat.add_zero]
  have hargs : Text.size (before ++ [target.brackets.opening] ++ args) = call.argsEnd := by
    rw [Text.size_append, hopened, hend]
  have hsplit : ∀ x : Text,
      before ++ target.brackets.opening :: (x ++ target.brackets.closing :: back) =
        before ++ [target.brackets.opening] ++ x ++ target.brackets.closing :: back :=
    fun x => by simp
  have hreplace := Text.replace?_eq_some (before ++ [target.brackets.opening]) args
    (target.brackets.closing :: back) new
  rw [hopened, hargs, ← hsplit args] at hreplace
  refine ⟨_, args, target.brackets.closing :: back, _, hsplit args, hopened, hargs, rfl, hreplace, ?_⟩
  rw [← hsplit new, remeasure_eq_ok_argsEnd_iff hone hstart,
    Brackets.closing?_eq_size_iff hne call.argsStart]
  refine ⟨Iff.rfl, fun hnot => ?_⟩
  rcases Brackets.closing?_cases hne call.argsStart new back with
    ⟨hpaired, -⟩ | ⟨inner, hmatch, hclose⟩ | ⟨inner, hmatch, hlt, hclose⟩ | ⟨hnone, hclose⟩
  · exact absurd hpaired hnot
  · exact Or.inl ⟨inner, hmatch, hmatch.size_lt, (remeasure_eq_ok_argsEnd_iff hone hstart).2 hclose⟩
  · exact Or.inr (Or.inl
      ⟨inner, hmatch, hlt, (remeasure_eq_ok_argsEnd_iff hone hstart).2 hclose⟩)
  · refine Or.inr (Or.inr ⟨hnone, ?_⟩)
    rw [remeasure_eq hone hstart, hclose]

/-- The arguments of a nested call replaced by a text that leaves a list open. The bracket of the
nested call closes that list, and the bracket of the outer call ends the nested one. -/
theorem remeasure_replaced_sample :
    let target : Target := ⟨['P'], .round⟩
    let t : Text := "P(é, P(ß), 1)".toList
    let call : Call := ⟨6, 8, 10⟩
    let new : Text := "½(".toList
    target.brackets.opening.utf8Size = 1 ∧ target.calls t = [.ok ⟨0, 2, 14⟩, .ok call] ∧
    ¬ target.brackets.Paired new ∧
    target.remeasure "P(é, P(½(), 1)".toList call = .ok { call with argsEnd := 15 } ∧
    ∃ front args rest u, t = front ++ args ++ rest ∧ Text.size front = call.argsStart ∧
      Text.size (front ++ args) = call.argsEnd ∧ u = front ++ new ++ rest ∧
      t.replace? call.argsStart call.argsEnd new = some u ∧
      (target.remeasure u call = .ok { call with argsEnd := call.argsStart + new.size } ↔
        target.brackets.Paired new) ∧
      (¬ target.brackets.Paired new →
        (∃ inner, target.brackets.IsMatch new inner ∧ inner.size < new.size ∧
          target.remeasure u call = .ok { call with argsEnd := call.argsStart + inner.size }) ∨
        (∃ inner, target.brackets.IsMatch (new ++ rest) inner ∧ new.size < inner.size ∧
          target.remeasure u call = .ok { call with argsEnd := call.argsStart + inner.size }) ∨
        (∀ inner, ¬ target.brackets.IsMatch (new ++ rest) inner) ∧
          target.remeasure u call = .error (.unclosed target.construct call.openOffset)) := by
  intro target t call new
  have hcalls : target.calls t = [.ok ⟨0, 2, 14⟩, .ok call] := by rfl
  have hnot : ¬ target.brackets.Paired new := fun h => nomatch h.same
  exact ⟨rfl, hcalls, hnot, rfl, remeasure_replaced rfl (by simp [hcalls]) new⟩

end Target

end ArgFill
