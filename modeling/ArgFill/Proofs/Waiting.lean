import ArgFill.Proofs.Boundary
import ArgFill.Proofs.Measure

/-!
# Calls that wait to be filled

The calls of a text are located once, and their offsets are used long after the text has changed.
They hold for a call until it is settled: calls are filled from the last to the first, and what is
put in for one goes in behind the beginning of its list, so behind that of every list still waiting.

A run is looked at not only between two turns. In a turn there is the moment when an argument is put
in and the list is not measured again yet (`Filler.Moment`).

* `Filler.Behind` : every argument was put in behind the beginnings of some lists. Of the lists still
  waiting this holds at every moment of a run (`Moment.behind`, `Run.behind`);
* `Target.StandsAlike` : the text before a list is as it was, and so is the name of its call;
* `calls_stand_until_filled` : both together, for a whole run.
-/

namespace ArgFill

/-! ## What stays of a call -/

/-- A call stands in the text `u` as it stands in `t`. Up to its arguments both are one text, and its
name and its bracket are where the call has them. -/
structure Target.StandsAlike (target : Target) (t u : Text) (call : Call) : Prop where
  same : ∃ front rest now, t.cut? call.argsStart = some (front, rest) ∧
    u.cut? call.argsStart = some (front, now)
  name : u.between? call.start (call.start + target.construct.size) = some target.construct
  opening : u.between? call.openOffset call.argsStart = some [target.brackets.opening]

theorem Target.Written.standsAlike {target : Target} (hone : target.brackets.opening.utf8Size = 1)
    {t u front blanks args back : Text} {call : Call}
    (h : target.Written t call front blanks args back) (hkept : call.Kept target.brackets t u) :
    target.StandsAlike t u call := by
  have hopen := h.openOffset_eq_iff.2 hone
  have hstart := h.argsStart
  obtain ⟨before, rest, now, ht, rfl, hbefore⟩ := hkept
  obtain ⟨rfl, -⟩ := Text.append_inj_of_size_eq (ht.symm.trans h.text) (by omega)
  have hsize := h.size_eq
  refine ⟨⟨front ++ target.construct ++ blanks ++ [target.brackets.opening], rest, now, ?_, ?_⟩,
    ?_, ?_⟩
  · exact Text.cut?_eq_some_iff.2 ⟨by rw [ht]; simp, hsize⟩
  · exact Text.cut?_eq_some_iff.2 ⟨by simp, hsize⟩
  · refine Text.between?_eq_some_iff.2
      ⟨front, blanks ++ target.brackets.opening :: now, by simp, h.start.symm, ?_⟩
    rw [Text.size_append, h.start]
  · exact Text.between?_eq_some_iff.2
      ⟨front ++ target.construct ++ blanks, now, by simp, hopen.symm, hsize⟩

namespace Filler

/-! ## Moments -/

/-- The moments of a run from a state up to the next one, each with its text and with the insertions
made by then. Within a turn the list has `grown` by the argument of a rule that has its slot there.
-/
inductive Moment (filler : Filler) (s : State) : Text → List Insertion → Prop
  | between : Moment filler s s.progress.text s.progress.insertions
  | grown {call : Call} {rest : List Call} {rule : Rule} {offset : Nat} {indent u : Text}
      (hcalls : s.calls = call :: rest) (hplaces : filler.Places call s.progress.text rule offset)
      (hindent : filler.indentation s.progress.text offset = .ok indent)
      (hinsert : s.progress.text.insert? offset (rule.insertion indent) = some u) :
      Moment filler s u (s.progress.insertions ++ [⟨call.start, offset, rule.key⟩])

/-- All insertions were made behind the beginnings of the lists of these calls. -/
def Behind (calls : List Call) (made : List Insertion) : Prop :=
  ∀ call ∈ calls, ∀ i ∈ made, call.argsStart < i.offset

variable {filler : Filler} {budget : Nat} {t u : Text} {s s' : State} {made : List Insertion}

theorem Behind.snoc {calls : List Call} (h : Behind calls made) {i : Insertion}
    (hi : ∀ call ∈ calls, call.argsStart < i.offset) : Behind calls (made ++ [i]) := by
  intro call hcall j hj
  rcases List.mem_append.1 hj with hj | hj
  · exact h call hcall j hj
  · rw [List.mem_singleton.1 hj]
    exact hi call hcall

theorem Step.moment (hstep : filler.Step budget s s') :
    filler.Moment s s'.progress.text s'.progress.insertions := by
  cases hstep with
  | settled => exact .between
  | leftOut hturn =>
    obtain rfl := eq_leave_of_turn hturn
    exact .between
  | added hturn =>
    cases adds_of_turn hturn with
    | put hrule _ hnow _ hslot hindent hinsert =>
      exact .grown rfl ⟨_, hrule, hnow, hslot⟩ hindent hinsert

section

variable (haccepted : filler.refusal? = none)

include haccepted

theorem Moment.kept (hwaiting : filler.Waiting t s) (h : filler.Moment s u made) :
    ∀ call ∈ s.calls, call.Kept filler.target.brackets t u := by
  cases h with
  | between => exact hwaiting.kept
  | grown hcalls hplaces _ hinsert =>
    intro call hcall
    have hlt := hwaiting.argsStart_lt haccepted hcalls hplaces call hcall
    exact (hwaiting.kept call hcall).insert (Nat.le_of_lt hlt) hinsert

theorem Moment.behind (hwaiting : filler.Waiting t s) (h : filler.Moment s u made)
    (hbehind : Behind s.calls s.progress.insertions) : Behind s.calls made := by
  cases h with
  | between => exact hbehind
  | grown hcalls hplaces => exact hbehind.snoc (hwaiting.argsStart_lt haccepted hcalls hplaces)

theorem Moment.replays (h : filler.Moment s u made)
    (hreplays : filler.Replays t s.progress.insertions s.progress.text) :
    filler.Replays t made u := by
  cases h with
  | between => exact hreplays
  | grown _ hplaces hindent hinsert =>
    obtain ⟨now, hrule, -, hslot⟩ := hplaces
    exact hreplays.snoc (puts_of_slot haccepted hrule hslot hindent hinsert _)

/-! ## Runs -/

theorem Behind.step (hwaiting : filler.Waiting t s) (hstep : filler.Step budget s s')
    (h : Behind s.calls s.progress.insertions) : Behind s'.calls s'.progress.insertions :=
  fun call hcall => hstep.moment.behind haccepted hwaiting h call
    ((Run.calls_suffix (.single hstep)).subset hcall)

theorem Run.behind {calls : List Call} (hlocate : filler.target.locate t = .ok calls)
    (hrun : filler.Run budget ⟨calls.reverse, [], budget, ⟨t, [], []⟩⟩ s) :
    Behind s.calls s.progress.insertions := by
  induction hrun with
  | refl => exact fun _ _ _ hi => nomatch hi
  | tail hbefore hstep ih =>
    exact ih.step haccepted (Run.waiting haccepted hlocate hbefore) hstep

end

/-- **A call stands where it was located until it is settled.** At every moment of a run, the text is
that of the beginning with the insertions made so far, and the calls still to be filled are the first
ones of those located. For each of them, the one that is being filled included, all insertions were
made behind the beginning of its list. So the text before the list is as it was, and the name and the
opening bracket stand where they stood. -/
theorem calls_stand_until_filled (haccepted : filler.refusal? = none)
    (hone : filler.target.brackets.opening.utf8Size = 1) {calls : List Call}
    (hlocate : filler.target.locate t = .ok calls)
    (hrun : filler.Run budget ⟨calls.reverse, [], budget, ⟨t, [], []⟩⟩ s)
    (hmoment : filler.Moment s u made) :
    filler.Replays t made u ∧ s.calls.reverse <+: calls ∧
      ∀ call ∈ s.calls, filler.target.StandsAlike t u call ∧
        ∀ i ∈ made, call.argsStart < i.offset := by
  have hwaiting := Run.waiting haccepted hlocate hrun
  have hsuffix := hrun.calls_suffix
  refine ⟨hmoment.replays haccepted (hrun.replays haccepted rfl), ?_, fun call hcall => ?_⟩
  · rw [← List.reverse_suffix, List.reverse_reverse]
    exact hsuffix
  · have hmem := List.mem_reverse.1 (hsuffix.subset hcall)
    obtain ⟨front, blanks, args, back, hwritten⟩ := Target.exists_written_of_mem_locate hlocate hmem
    have hkept := hmoment.kept haccepted hwaiting call hcall
    have hbehind := hmoment.behind haccepted hwaiting (hrun.behind haccepted hlocate)
    exact ⟨hwritten.standsAlike hone hkept, hbehind call hcall⟩

/-- Two calls, of which the inner one is filled first. Its list has ended early, at the bracket of the
literal put in before, and the next argument is just put in. -/
theorem calls_stand_until_filled_sample :
    let filler : Filler :=
      ⟨⟨['P'], .round⟩, [⟨['b'], ['a'], "1)".toList⟩, ⟨['d'], ['a'], "é".toList⟩], .matchAnchor⟩
    let t : Text := "P (a: 0,\n\tc: P(a: 0,),)".toList
    let calls : List Call := [⟨0, 3, 22⟩, ⟨13, 15, 20⟩]
    let s : State := ⟨calls.reverse, [], 4,
      ⟨"P (a: 0,\n\tc: P(a: 0,\n\tb: 1),),)".toList, [⟨13, 20, ['b']⟩], []⟩⟩
    let u : Text := "P (a: 0,\n\tc: P(a: 0,\n\td: é,\n\tb: 1),),)".toList
    let made : List Insertion := [⟨13, 20, ['b']⟩, ⟨13, 20, ['d']⟩]
    filler.refusal? = none ∧ filler.target.brackets.opening.utf8Size = 1 ∧
    filler.target.locate t = .ok calls ∧
    filler.Run 5 ⟨calls.reverse, [], 5, ⟨t, [], []⟩⟩ s ∧ filler.Moment s u made ∧
    filler.Replays t made u ∧ s.calls.reverse <+: calls ∧
    ∀ call ∈ s.calls, filler.target.StandsAlike t u call ∧
      ∀ i ∈ made, call.argsStart < i.offset := by
  intro filler t calls s u made
  have haccepted : filler.refusal? = none := by decide +kernel
  have hlocate : filler.target.locate t = .ok calls := by rfl
  have hturn : filler.turn ⟨13, 15, 20⟩ [] ⟨t, [], []⟩ = .ok (.added s.progress) := by
    decide +kernel
  have hrun : filler.Run 5 ⟨calls.reverse, [], 5, ⟨t, [], []⟩⟩ s := .single (.added hturn)
  have hplaces : filler.Places ⟨13, 15, 20⟩ s.progress.text ⟨['d'], ['a'], "é".toList⟩ 20 :=
    ⟨⟨13, 15, 26⟩, List.mem_cons_of_mem _ List.mem_cons_self, rfl, rfl⟩
  have hindent : filler.indentation s.progress.text 20 = .ok ['\t'] := by rfl
  have hinsert : s.progress.text.insert? 20 (Rule.insertion ⟨['d'], ['a'], "é".toList⟩ ['\t']) =
      some u := by decide +kernel
  have hmoment : filler.Moment s u made := .grown rfl hplaces hindent hinsert
  exact ⟨haccepted, rfl, hlocate, hrun, hmoment,
    calls_stand_until_filled haccepted rfl hlocate hrun hmoment⟩

end Filler

end ArgFill
