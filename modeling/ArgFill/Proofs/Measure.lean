import ArgFill.Proofs.Locate

/-!
# Measuring a call again

A located call is written as `Target.Written` says: behind its name and white space stand the opening
bracket, the arguments and the closing bracket. Its offsets are those of a search that goes on behind
each bracket by the bytes of that bracket. What is derived from them goes by one byte instead, so it
hangs on how many bytes a bracket has:

* `Call.openOffset` is the place of the opening bracket where that bracket is one byte;
* `Call.stop` is behind the closing bracket where that bracket is one byte;
* `Target.remeasure` begins one byte short of the opening bracket's bytes behind that bracket, so in
  the arguments if the bracket has more than one. It gives the call back if the arguments begin with
  as many bytes of whole characters.

`measure_located` states the three together, for every located call.
-/

namespace ArgFill

theorem Text.utf8Size_le_of_mem {c : Char} {t : Text} (h : c ∈ t) : c.utf8Size ≤ t.size := by
  obtain ⟨front, back, rfl⟩ := List.append_of_mem h
  rw [Text.size_append, Text.size_cons]
  omega

namespace Target

/-- A call as it is written: its name behind `front`, white space, and its arguments between the
brackets. -/
structure Written (target : Target) (t : Text) (call : Call) (front blanks args back : Text) :
    Prop where
  text : t = front ++ target.construct ++ blanks ++ target.brackets.opening ::
    (args ++ target.brackets.closing :: back)
  start : call.start = front.size
  argsStart : call.argsStart =
    (front ++ target.construct ++ blanks).size + target.brackets.opening.utf8Size
  argsEnd : call.argsEnd = call.argsStart + args.size
  blank : ∀ c ∈ blanks, isBlankChar c = true
  balanced : target.brackets.depth? 0 args = some 0

variable {target : Target} {t front blanks args back : Text} {call : Call}

theorem exists_written_of_mem_locate {calls : List Call} (h : target.locate t = .ok calls)
    (hc : call ∈ calls) :
    ∃ front blanks args back, target.Written t call front blanks args back := by
  obtain ⟨o, ho, hcall⟩ := exists_occurrence_of_mem_locate h hc
  obtain ⟨front, ht, hoffset, -⟩ := Text.mem_occurrencesFrom ho
  obtain ⟨blanks, args, back, hafter, hblanks, -, hdepth, hstart, hargs, hend⟩ :=
    exists_of_callAt?_eq_ok hcall
  refine ⟨front, blanks, args, back, ?_, by omega, ?_, hend, hblanks, hdepth⟩
  · rw [ht, hafter]
    simp
  · rw [hargs, Text.size_append, Text.size_append]
    omega

namespace Written

variable (h : target.Written t call front blanks args back)

include h

theorem openOffset_eq_iff : call.openOffset = (front ++ target.construct ++ blanks).size ↔
    target.brackets.opening.utf8Size = 1 := by
  have hstart := h.argsStart
  have hpos := target.brackets.opening.utf8Size_pos
  unfold Call.openOffset
  omega

theorem stop_eq_iff : call.stop = (front ++ target.construct ++ blanks ++
      target.brackets.opening :: (args ++ [target.brackets.closing])).size ↔
    target.brackets.closing.utf8Size = 1 := by
  have hstart := h.argsStart
  have hend := h.argsEnd
  unfold Call.stop
  simp only [Text.size_append, Text.size_cons, Text.size_nil] at hstart ⊢
  omega

theorem body_eq : call.openOffset + target.brackets.opening.utf8Size + 1 =
    call.argsStart + target.brackets.opening.utf8Size := by
  have hstart := h.argsStart
  have hpos := target.brackets.opening.utf8Size_pos
  unfold Call.openOffset
  omega

theorem text_eq : t = (front ++ target.construct ++ blanks ++ [target.brackets.opening]) ++
    (args ++ target.brackets.closing :: back) := by
  rw [h.text]
  simp

theorem size_eq : Text.size (front ++ target.construct ++ blanks ++ [target.brackets.opening]) =
    call.argsStart := by
  rw [h.argsStart, Text.size_append (front ++ target.construct ++ blanks)]
  simp

/-- What the measure leaves out at the beginning of the arguments holds no bracket that counts. -/
theorem depth?_of_append (hne : target.brackets.opening ≠ target.brackets.closing) {x y : Text}
    (hargs : args = x ++ y) (hsize : x.size + 1 = target.brackets.opening.utf8Size) :
    target.brackets.depth? 0 y = some 0 := by
  have hnot : target.brackets.opening ∉ x := by
    intro hmem
    have := Text.utf8Size_le_of_mem hmem
    omega
  have hdepth := h.balanced
  rw [hargs, Brackets.depth?_append] at hdepth
  obtain ⟨e, hx, hy⟩ := Option.bind_eq_some_iff.1 hdepth
  have hcount := Brackets.count_of_depth? hne hx
  rw [List.count_eq_zero_of_not_mem hnot] at hcount
  obtain rfl : e = 0 := by omega
  exact hy

theorem remeasure_eq_iff (hne : target.brackets.opening ≠ target.brackets.closing) :
    target.remeasure t call = .ok call ↔
      ∃ x y, args = x ++ y ∧ Text.size x + 1 = target.brackets.opening.utf8Size := by
  have hbody := h.body_eq
  have hend := h.argsEnd
  have hopened := h.size_eq
  constructor
  · intro hsame
    cases hcut : t.cut? (call.openOffset + target.brackets.opening.utf8Size) with
    | none =>
      rw [remeasure, hcut] at hsame
      cases hsame
    | some parts =>
      obtain ⟨pre, rest⟩ := parts
      obtain ⟨hsplit, hpre⟩ := Text.cut?_eq_some_iff.1 hcut
      simp only [remeasure, hcut, Fault.ofPlace, bind, Except.bind] at hsame
      cases hclose : target.brackets.closing?
          (call.openOffset + target.brackets.opening.utf8Size) rest with
      | none =>
        rw [hclose] at hsame
        cases hsame
      | some e =>
        rw [hclose] at hsame
        have hmeasured : e = call.argsEnd := congrArg Call.argsEnd (Except.ok.inj hsame)
        obtain ⟨inner, behind, rfl, -, hinner⟩ := (Brackets.closingFrom?_eq_some_iff hne).1 hclose
        have hpos := target.brackets.opening.utf8Size_pos
        -- the measure begins in the text behind the opening bracket
        obtain ⟨x, rfl, hrest⟩ :=
          Text.exists_append_of_size_le (h.text_eq.symm.trans hsplit) (by omega)
        rw [Text.size_append] at hpre
        rw [← List.append_assoc] at hrest
        refine ⟨x, inner, (Text.append_inj_of_size_eq hrest ?_).1, by omega⟩
        rw [Text.size_append]
        omega
  · rintro ⟨x, y, hargs, hsize⟩
    have hy := h.depth?_of_append hne hargs hsize
    have hsizes := congrArg Text.size hargs
    rw [Text.size_append] at hsizes
    have hcut : t.cut? (call.openOffset + target.brackets.opening.utf8Size) =
        some (front ++ target.construct ++ blanks ++ [target.brackets.opening] ++ x,
          y ++ target.brackets.closing :: back) := by
      refine Text.cut?_eq_some_iff.2 ⟨?_, ?_⟩
      · rw [h.text_eq, hargs]
        simp
      · rw [Text.size_append, hopened]
        omega
    have hclose : target.brackets.closing? (call.openOffset + target.brackets.opening.utf8Size)
        (y ++ target.brackets.closing :: back) = some call.argsEnd :=
      (Brackets.closingFrom?_eq_some_iff hne).2 ⟨y, back, rfl, hy, by omega⟩
    simp only [remeasure, hcut, hclose, Fault.ofPlace, bind, Except.bind]
    rfl

end Written

/-- **What the offsets of a located call say.** Its name begins where the call begins, and its
arguments lie between the brackets. The place before the arguments is that of the opening bracket,
and the place behind the arguments is behind the closing bracket, exactly if that bracket is one
byte. Measuring the call again in the same text gives the same call exactly if the arguments begin
with as many bytes of whole characters as the opening bracket has beyond its first; so it does if
the bracket is one byte. -/
theorem measure_located (hne : target.brackets.opening ≠ target.brackets.closing) {calls : List Call}
    (h : target.locate t = .ok calls) (hc : call ∈ calls) :
    ∃ front blanks args back, target.Written t call front blanks args back ∧
      (call.openOffset = (front ++ target.construct ++ blanks).size ↔
        target.brackets.opening.utf8Size = 1) ∧
      (call.stop = (front ++ target.construct ++ blanks ++
          target.brackets.opening :: (args ++ [target.brackets.closing])).size ↔
        target.brackets.closing.utf8Size = 1) ∧
      (target.remeasure t call = .ok call ↔
        ∃ x y, args = x ++ y ∧ x.size + 1 = target.brackets.opening.utf8Size) ∧
      (target.brackets.opening.utf8Size = 1 → target.remeasure t call = .ok call) := by
  obtain ⟨front, blanks, args, back, hwritten⟩ := exists_written_of_mem_locate h hc
  have hmeasure := hwritten.remeasure_eq_iff hne
  refine ⟨front, blanks, args, back, hwritten, hwritten.openOffset_eq_iff, hwritten.stop_eq_iff,
    hmeasure, fun hone => hmeasure.2 ⟨[], args, rfl, ?_⟩⟩
  rw [hone]
  rfl

theorem measure_located_sample :
    let target : Target := ⟨['P'], ⟨'(', '»'⟩⟩
    let t : Text := "P (é»".toList
    let call : Call := ⟨0, 3, 5⟩
    target.brackets.opening ≠ target.brackets.closing ∧ target.locate t = .ok [call] ∧
    ∃ front blanks args back, target.Written t call front blanks args back ∧
      (call.openOffset = (front ++ target.construct ++ blanks).size ↔
        target.brackets.opening.utf8Size = 1) ∧
      (call.stop = (front ++ target.construct ++ blanks ++
          target.brackets.opening :: (args ++ [target.brackets.closing])).size ↔
        target.brackets.closing.utf8Size = 1) ∧
      (target.remeasure t call = .ok call ↔
        ∃ x y, args = x ++ y ∧ x.size + 1 = target.brackets.opening.utf8Size) ∧
      (target.brackets.opening.utf8Size = 1 → target.remeasure t call = .ok call) := by
  intro target t call
  have hne : target.brackets.opening ≠ target.brackets.closing := by decide
  have h : target.locate t = .ok [call] := by rfl
  exact ⟨hne, h, measure_located hne h List.mem_cons_self⟩

/-- With brackets of two bytes the three fail. The opening bracket stands at byte 1 and the
closing one ends at byte 7, and measuring the call again begins inside the `é`. -/
theorem measure_located_fails :
    let target : Target := ⟨['P'], ⟨'«', '»'⟩⟩
    let t : Text := "P«é»".toList
    let call : Call := ⟨0, 3, 5⟩
    constructRefusal? target.construct = none ∧
    target.brackets.opening ≠ target.brackets.closing ∧ target.locate t = .ok [call] ∧
    Text.size ['P'] = 1 ∧ call.openOffset = 2 ∧ t.size = 7 ∧ call.stop = 6 ∧
    target.remeasure t call = .error .badOffset := by
  intro target t call
  have hname : constructRefusal? target.construct = none := by decide +kernel
  exact ⟨hname, by decide, rfl, rfl, rfl, rfl, rfl, rfl⟩

end Target

end ArgFill
