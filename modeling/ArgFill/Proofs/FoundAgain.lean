import ArgFill.Proofs.Boundary

/-!
# What is put in is found

After an argument is put in the call is measured anew, and filling gives up with `Refusal.keyLost` if
the key is not found in the new list. That never happens, whatever the literal does to the brackets.
Up to its colon the key holds no bracket, so the list that was open before the argument is still open
behind the colon: it ends further on, with the key in it, or it does not end any more.

* `Places.found_again` : so it is for every argument that a run puts in;
* `apply_finds_keys` : and filling never refuses what it put in.
-/

namespace ArgFill

/-- The characters of a line up to the value of an argument: those of its indentation and of its key,
the line feed and the colon. -/
def isLead (c : Char) : Bool := isNameChar c || isGap c || c == '\n' || c == ':'

/-- Brackets, the first of one byte, that do not stand before the value of an argument. -/
structure Brackets.OffLead (b : Brackets) : Prop where
  oneByte : b.opening.utf8Size = 1
  opening : isLead b.opening = false
  closing : isLead b.closing = false

theorem isLead_of_mem {key gaps : Text} (hkey : key.isName = true)
    (hgaps : ∀ c ∈ gaps, isGap c = true) : ∀ c ∈ '\n' :: (gaps ++ (key ++ [':'])), isLead c = true := by
  intro c hc
  simp only [List.mem_cons, List.mem_append, List.not_mem_nil, or_false] at hc
  rcases hc with rfl | hc | hc | rfl
  · simp [isLead]
  · simp [isLead, hgaps c hc]
  · simp [isLead, Text.isNameChar_of_mem hkey hc]
  · simp [isLead]

/-- A list that is open up to a place is open behind a key that is put in there. -/
theorem Brackets.OffLead.depth?_lead {b : Brackets} (hb : b.OffLead) {key gaps : Text}
    (hkey : key.isName = true) (hgaps : ∀ c ∈ gaps, isGap c = true) {x y : Text} {d e : Nat}
    (h : b.depth? d (x ++ y) = some e) :
    ∃ f, b.depth? d (x ++ '\n' :: (gaps ++ (key ++ [':']))) = some f := by
  have hother : ∀ c ∈ '\n' :: (gaps ++ (key ++ [':'])), c ≠ b.opening ∧ c ≠ b.closing := by
    intro c hc
    have hlead := isLead_of_mem hkey hgaps c hc
    constructor <;> rintro rfl
    · rw [hb.opening] at hlead
      cases hlead
    · rw [hb.closing] at hlead
      cases hlead
  rw [depth?_append] at h ⊢
  obtain ⟨f, hx, -⟩ := Option.bind_eq_some_iff.1 h
  exact ⟨f, by rw [hx, Option.bind_some, depth?_of_forall_ne hother]⟩

theorem Brackets.exists_append_of_depth? {b : Brackets} (hne : b.opening ≠ b.closing)
    {args back lead rest : Text} (hargs : b.depth? 0 args = some 0) {d : Nat}
    (hlead : b.depth? 0 lead = some d) (h : args ++ b.closing :: back = lead ++ rest) :
    ∃ more, args = lead ++ more := by
  rcases List.append_eq_append_iff.1 h with ⟨mid, rfl, hmid⟩ | ⟨mid, rfl, -⟩
  · cases mid with
    | nil => exact ⟨[], by simp⟩
    | cons c mid =>
      obtain rfl : b.closing = c := (List.cons.inj hmid).1
      rw [depth?_append, hargs, Option.bind_some, depth?_closing_zero hne] at hlead
      cases hlead
  · exact ⟨mid, rfl⟩

namespace Filler

variable {filler : Filler} {call : Call} {t : Text} {rule : Rule} {offset budget : Nat}

section

variable (haccepted : filler.refusal? = none) (hb : filler.target.brackets.OffLead)
  (hstands : call.Stands filler.target.brackets t)

include haccepted hb hstands

/-- A key that is put in is found, or the list does not end any more. -/
theorem Places.found_again (h : filler.Places call t rule offset) :
    ∃ indent u, filler.indentation t offset = .ok indent ∧
      t.insert? offset (rule.insertion indent) = some u ∧
      (filler.target.remeasure u call =
          .error (.unclosed filler.target.construct call.openOffset) ∨
        ∃ grown, filler.target.remeasure u call = .ok grown ∧
          isPresent u grown rule.key = .ok true) := by
  obtain ⟨now, hrule, hnow, hslot⟩ := h
  obtain ⟨hkey, hanchor⟩ := isName_of_refusal? haccepted hrule
  have hne := differ_of_remeasure hb.oneByte hstands hnow
  have hsame := Target.argsStart_of_remeasure hnow
  obtain ⟨args, hargs⟩ := exists_hasArgs_of_remeasure hb.oneByte hstands hnow
  obtain ⟨args', place, hargs', hplace, rfl⟩ := exists_place_of_slot hslot
  obtain rfl := Option.some.inj (hargs.args?.symm.trans hargs')
  have hopens := hargs.opens hsame.symm
  have hdepth := hopens.depth?_eq
  obtain ⟨front, x, y, back, rfl, rfl, rfl, hstart, hoffset, -⟩ := hopens.exists_slot hanchor hplace
  obtain ⟨indent, hindent, hgaps⟩ := exists_indentation filler
    (front ++ filler.target.brackets.opening :: x) (y ++ filler.target.brackets.closing :: back)
  rw [hsame, hoffset]
  refine ⟨indent, _, hindent, insert?_behind_comma rule indent _ _, ?_⟩
  -- the list from its beginning to the colon of the new key
  have hold : x ++ ',' :: y = (x ++ [',']) ++ y := by simp
  rw [hold] at hdepth
  obtain ⟨d, hlead⟩ := hb.depth?_lead hkey hgaps hdepth
  have hlist : (front ++ filler.target.brackets.opening :: x) ++ ',' ::
      (rule.argument indent ++ ',' :: (y ++ filler.target.brackets.closing :: back)) =
      front ++ filler.target.brackets.opening :: ((x ++ [',']) ++
        '\n' :: (indent ++ (rule.key ++ [':'])) ++
          ' ' :: (rule.literal ++ ',' :: (y ++ filler.target.brackets.closing :: back))) := by
    simp [Rule.argument]
  rw [hlist]
  rcases opens_or_unclosed hb.oneByte hne hstart _ with ⟨grown, hgrown⟩ | hunclosed
  · right
    refine ⟨_, remeasure_of_opens hb.oneByte hne hgrown, ?_⟩
    rw [isPresent_of_hasArgs hgrown.hasArgs]
    obtain ⟨front', back', heq, hstart', hdepth'⟩ := hgrown
    obtain ⟨-, hrest⟩ := Text.append_inj_of_size_eq heq (by omega)
    obtain ⟨more, rfl⟩ :=
      Brackets.exists_append_of_depth? hne hdepth' hlead (List.cons.inj hrest).2.symm
    exact congrArg Except.ok (Text.hasKey_append (Text.hasKey_line hkey hgaps (x ++ [',']) []) more)
  · exact Or.inl hunclosed

theorem add_ne_refused {p : Progress} (htext : p.text = t)
    (h : filler.Places call t rule offset) (why : Refusal) :
    filler.add call rule offset p ≠ .error (.refused why) := by
  obtain ⟨indent, u, hindent, hinsert, hfound⟩ := h.found_again haccepted hb hstands
  intro hrefused
  simp only [add, htext, hindent, hinsert, Fault.ofPlace, bind, Except.bind] at hrefused
  rcases hfound with hunclosed | ⟨grown, hgrown, hpresent⟩
  · rw [hunclosed] at hrefused
    cases hrefused
  · simp only [hgrown, hpresent] at hrefused
    cases hrefused

end

theorem remeasure_ne_refused {target : Target} {why : Refusal} :
    target.remeasure t call ≠ .error (.refused why) := by
  intro hrefused
  rw [Target.remeasure] at hrefused
  cases hcut : t.cut? (call.openOffset + target.brackets.opening.utf8Size) with
  | none =>
    rw [hcut] at hrefused
    cases hrefused
  | some parts =>
    simp only [hcut, Fault.ofPlace, bind, Except.bind] at hrefused
    split at hrefused <;> cases hrefused

theorem turn_ne_refused (haccepted : filler.refusal? = none) (hb : filler.target.brackets.OffLead)
    {out : List Rule} {p : Progress} (hstands : call.Stands filler.target.brackets p.text)
    (why : Refusal) : filler.turn call out p ≠ .error (.refused why) := by
  intro hrefused
  cases hnow : filler.target.remeasure p.text call with
  | error fault =>
    rw [turn, hnow] at hrefused
    obtain rfl := Except.error.inj hrefused
    exact remeasure_ne_refused hnow
  | ok now =>
    have hne := differ_of_remeasure hb.oneByte hstands hnow
    have hsame := Target.argsStart_of_remeasure hnow
    obtain ⟨args, hargs⟩ := exists_hasArgs_of_remeasure hb.oneByte hstands hnow
    rw [turn_eq hb.oneByte hne (hargs.opens hsame.symm)] at hrefused
    split at hrefused
    · cases hrefused
    · next rule hnext =>
      split at hrefused
      · cases hrefused
      · next place hplace =>
        have hslot : slot p.text now rule = .ok (call.argsStart + place) := by
          rw [slot_of_hasArgs hargs, hplace, hsame]
        have hplaces : filler.Places call p.text rule (call.argsStart + place) :=
          ⟨now, (of_next?_eq_some hnext).1, hnow, hslot⟩
        cases hadd : filler.add call rule (call.argsStart + place) p with
        | ok next =>
          rw [hadd] at hrefused
          cases hrefused
        | error fault =>
          rw [hadd] at hrefused
          obtain rfl := Except.error.inj hrefused
          exact add_ne_refused haccepted hb hstands rfl hplaces why hadd

/-- **Filling finds every key it puts in.** At every moment of a run, an argument that has its slot can
be put in there, and then the list has its key or does not end any more. So nothing is ever refused
in filling, whatever the text and the literals. -/
theorem apply_finds_keys (haccepted : filler.refusal? = none) (hb : filler.target.brackets.OffLead)
    (budget : Nat) (t : Text) :
    (∀ why, filler.apply budget t ≠ .error (.refused why)) ∧
    ∀ calls call rest out left p rule offset, filler.target.locate t = .ok calls →
      filler.Run budget ⟨calls.reverse, [], budget, ⟨t, [], []⟩⟩ ⟨call :: rest, out, left, p⟩ →
      filler.Places call p.text rule offset →
      ∃ indent u, filler.indentation p.text offset = .ok indent ∧
        p.text.insert? offset (rule.insertion indent) = some u ∧
        (filler.target.remeasure u call =
            .error (.unclosed filler.target.construct call.openOffset) ∨
          ∃ grown, filler.target.remeasure u call = .ok grown ∧
            isPresent u grown rule.key = .ok true) := by
  refine ⟨fun why hrefused => ?_, ?_⟩
  · rcases apply_stops hrefused with hlocate | ⟨calls, s, hlocate, hrun, hstops⟩
    · obtain ⟨offset, hunclosed⟩ := Target.eq_unclosed_of_locate hlocate
      cases hunclosed
    · cases hstops with
      | failed hturn =>
        have hstands := ((Run.waiting haccepted hlocate hrun).kept _ List.mem_cons_self).stands
        exact turn_ne_refused haccepted hb hstands why hturn
  · intro calls call rest out left p rule offset hlocate hrun hplaces
    have hstands := ((Run.waiting haccepted hlocate hrun).kept call List.mem_cons_self).stands
    exact hplaces.found_again haccepted hb hstands

/-- In the text the key overlaps itself and is missed. The literal opens two lists, and then the one
at hand does not end. -/
theorem apply_finds_keys_sample :
    let filler : Filler := ⟨⟨['P'], ⟨'<', '»'⟩⟩, [⟨"éké".toList, ['a'], "<<".toList⟩], .matchAnchor⟩
    let t : Text := "P<a: <0», ékéké: 1»".toList
    filler.refusal? = none ∧ filler.target.brackets.OffLead ∧
    filler.apply 3 t = .error (.unclosed ['P'] 1) ∧
    (∀ why, filler.apply 3 t ≠ .error (.refused why)) ∧
    ∀ calls call rest out left p rule offset, filler.target.locate t = .ok calls →
      filler.Run 3 ⟨calls.reverse, [], 3, ⟨t, [], []⟩⟩ ⟨call :: rest, out, left, p⟩ →
      filler.Places call p.text rule offset →
      ∃ indent u, filler.indentation p.text offset = .ok indent ∧
        p.text.insert? offset (rule.insertion indent) = some u ∧
        (filler.target.remeasure u call =
            .error (.unclosed filler.target.construct call.openOffset) ∨
          ∃ grown, filler.target.remeasure u call = .ok grown ∧
            isPresent u grown rule.key = .ok true) := by
  intro filler t
  have haccepted : filler.refusal? = none := by decide +kernel
  have hb : filler.target.brackets.OffLead := ⟨rfl, by decide +kernel, by decide +kernel⟩
  exact ⟨haccepted, hb, by decide +kernel, apply_finds_keys haccepted hb 3 t⟩

end Filler

end ArgFill
