import ArgFill.Proofs.Settling

/-!
# Filling fails only where locating fails

Let the brackets of every literal pair up. What a turn puts in then leaves the end of no list open
and closes none too early, so each call that is still to be filled opens its list at its old place
(`Balanced.opens_of_run`). Measuring it anew succeeds, the key that was put in is found in the list,
and no turn fails (`Balanced.exists_turn`). Together with enough turns, `apply_fails_iff_locate`
follows: the only fault of a run is the list without an end that locating came upon before it began.
-/

namespace ArgFill

theorem Call.Opens.insert {b : Brackets} (hb : b.StandOut) {added front back args : Text}
    (hadded : b.depth? 0 added = some 0) {call : Call}
    (h : call.Opens b (front ++ ',' :: back) args) (hle : call.argsStart ≤ front.size) :
    ∃ grown, call.Opens b (front ++ ',' :: (added ++ ',' :: back)) grown := by
  obtain ⟨grown, hgrown, -⟩ :=
    h.hasArgs.insert hb.comma_ne.1 hb.comma_ne.2 (hb.depth?_append_comma hadded)
  rw [List.append_assoc, List.cons_append, List.nil_append] at hgrown
  exact ⟨grown, hgrown.opens (movedBy_of_lt (show call.argsStart < _ by omega)).symm⟩

namespace Filler

/-- The brackets of each literal pair up, and filling can tell them from what it adds itself. -/
structure Balanced (filler : Filler) : Prop where
  accepted : filler.refusal? = none
  brackets : filler.target.brackets.StandOut
  literals : ∀ rule ∈ filler.rules, filler.target.brackets.depth? 0 rule.literal = some 0

variable {filler : Filler} {budget : Nat}

theorem Balanced.open (h : filler.Balanced) : filler.Open :=
  ⟨h.accepted, h.brackets, fun rule hrule => by rw [h.literals rule hrule]; rfl⟩

theorem Balanced.depth?_argument (h : filler.Balanced) {rule : Rule} (hrule : rule ∈ filler.rules)
    {indent : Text} (hindent : ∀ c ∈ indent, isGap c = true) :
    filler.target.brackets.depth? 0 (rule.argument indent) = some 0 :=
  (ArgFill.depth?_argument h.brackets (isName_of_refusal? h.accepted hrule).1 hindent).trans
    (h.literals rule hrule)

/-- No turn fails at a list that ends. -/
theorem Balanced.exists_turn (h : filler.Balanced) {call : Call} {out : List Rule} {p : Progress}
    {args : Text} (hopens : call.Opens filler.target.brackets p.text args) :
    ∃ turn, filler.turn call out p = .ok turn := by
  have hone := h.brackets.oneByte
  have hne := h.brackets.differ
  cases hnext : filler.next? args out with
  | none => exact ⟨_, turn_of_settled hone hne hopens hnext⟩
  | some rule =>
    have hrule := (of_next?_eq_some hnext).1
    obtain ⟨hkey, hanchor⟩ := isName_of_refusal? h.accepted hrule
    cases hslot : args.slot? rule.anchor with
    | none => exact ⟨_, turn_of_leftOut hone hne hopens hnext hslot⟩
    | some place =>
      rw [turn_of_slot hone hne hopens hnext hslot]
      obtain ⟨front, x, y, back, rfl, rfl, hsplit, hstart, hoffset, -⟩ :=
        hopens.exists_slot hanchor hslot
      obtain ⟨indent, hindent, hgaps⟩ := exists_indentation filler
        (front ++ filler.target.brackets.opening :: x) (y ++ filler.target.brackets.closing :: back)
      rw [← hsplit] at hindent
      -- the list closes where it did, and holds the argument
      have hgrown : call.Opens filler.target.brackets
          ((front ++ filler.target.brackets.opening :: x) ++ ',' ::
            (rule.argument indent ++ ',' :: (y ++ filler.target.brackets.closing :: back)))
          (x ++ ',' :: (rule.argument indent ++ ',' :: y)) := by
        refine ⟨front, back, by simp, hstart, ?_⟩
        rw [h.brackets.depth?_insert_comma (h.depth?_argument hrule hgaps)]
        exact hopens.depth?_eq
      rw [hoffset, add_of_opens hone hne hsplit hindent hgrown, hasKey_argument hkey hgaps]
      exact ⟨_, rfl⟩

/-! ## Runs -/

/-- The calls still to be filled, each with a list that ends, the last of them first. -/
structure Pending (filler : Filler) (s : State) : Prop where
  order : s.calls.Pairwise fun call before => before.argsStart < call.argsStart
  opens : ∀ call ∈ s.calls, ∃ args, call.Opens filler.target.brackets s.progress.text args

/-- No step takes the end of its list from a call. -/
theorem Balanced.pending_step (h : filler.Balanced) {s s' : State} (hs : filler.Pending s)
    (hstep : filler.Step budget s s') : filler.Pending s' := by
  cases hstep with
  | @settled call calls out left p hturn =>
    exact ⟨(List.pairwise_cons.1 hs.order).2, fun c hc => hs.opens c (List.mem_cons_of_mem call hc)⟩
  | @leftOut call calls out left p next rule hturn =>
    obtain ⟨args, hopens⟩ := hs.opens call List.mem_cons_self
    cases Outcome.of_turn h.accepted h.brackets hopens hturn with
    | leftOut => exact ⟨hs.order, hs.opens⟩
  | @added call calls out left p next hturn =>
    obtain ⟨args, hopens⟩ := hs.opens call List.mem_cons_self
    cases Outcome.of_turn h.accepted h.brackets hopens hturn with
    | @added rule front x y back indent grown hnext hargs hslot htop htext hstart hindent hgrown hkey =>
      refine ⟨hs.order, fun c hc => ?_⟩
      obtain ⟨args', hopens'⟩ := hs.opens c hc
      have hle : c.argsStart ≤ call.argsStart := by
        rcases List.mem_cons.1 hc with rfl | hc
        · exact Nat.le_refl _
        · exact Nat.le_of_lt ((List.pairwise_cons.1 hs.order).1 c hc)
      have hsize : c.argsStart ≤ Text.size (front ++ filler.target.brackets.opening :: x) := by
        rw [Text.size_append, Text.size_cons]
        omega
      simp only at hopens'
      rw [htext] at hopens'
      exact hopens'.insert h.brackets (h.depth?_argument (of_next?_eq_some hnext).1 hindent) hsize

theorem Balanced.pending_first (h : filler.Balanced) {t : Text} {calls : List Call}
    (hlocate : filler.target.locate t = .ok calls) :
    filler.Pending ⟨calls.reverse, [], budget, ⟨t, [], []⟩⟩ := by
  have hname := isQualifiedName_of_refusal? h.accepted
  refine ⟨Target.pairwise_reverse_locate hname hlocate, fun call hcall => ?_⟩
  obtain ⟨args, hargs⟩ := Target.exists_hasArgs_of_mem_locate hlocate (List.mem_reverse.1 hcall)
  exact ⟨args, hargs.opens rfl⟩

theorem Balanced.pending_of_run (h : filler.Balanced) {t : Text} {calls : List Call}
    (hlocate : filler.target.locate t = .ok calls) {s : State}
    (hrun : filler.Run budget ⟨calls.reverse, [], budget, ⟨t, [], []⟩⟩ s) : filler.Pending s := by
  induction hrun with
  | refl => exact h.pending_first hlocate
  | tail _ hstep ih => exact h.pending_step ih hstep

/-- **Filling fails exactly where locating fails, and with the same fault.** There is no other one:
in the middle of a run every call still to be filled can be measured, and no turn fails. -/
theorem apply_fails_iff_locate (h : filler.Balanced) (hbudget : filler.rules.length < budget)
    (t : Text) :
    ((∃ result, filler.apply budget t = .ok result) ↔ ∃ calls, filler.target.locate t = .ok calls) ∧
    (∀ fault, filler.apply budget t = .error fault ↔ filler.target.locate t = .error fault) ∧
    (∀ fault, filler.target.locate t = .error fault →
      ∃ offset, fault = .unclosed filler.target.construct offset) ∧
    ∀ calls s, filler.target.locate t = .ok calls →
      filler.Run budget ⟨calls.reverse, [], budget, ⟨t, [], []⟩⟩ s →
      (∀ call ∈ s.calls, ∃ now, filler.target.remeasure s.progress.text call = .ok now) ∧
        ∀ call ∈ s.calls.head?, ∃ turn, filler.turn call s.out s.progress = .ok turn := by
  have hrun : ∀ calls s, filler.target.locate t = .ok calls →
      filler.Run budget ⟨calls.reverse, [], budget, ⟨t, [], []⟩⟩ s →
      (∀ call ∈ s.calls, ∃ now, filler.target.remeasure s.progress.text call = .ok now) ∧
        ∀ call ∈ s.calls.head?, ∃ turn, filler.turn call s.out s.progress = .ok turn := by
    intro calls s hlocate hrun
    have hpending := h.pending_of_run hlocate hrun
    refine ⟨fun call hcall => ?_, fun call hcall => ?_⟩
    · obtain ⟨args, hopens⟩ := hpending.opens call hcall
      exact ⟨_, remeasure_of_opens h.brackets.oneByte h.brackets.differ hopens⟩
    · obtain ⟨args, hopens⟩ := hpending.opens call (List.mem_of_mem_head? hcall)
      exact h.exists_turn hopens
  have hfault : ∀ fault, filler.apply budget t = .error fault →
      filler.target.locate t = .error fault := by
    intro fault hfault
    rcases apply_stops hfault with hlocate | ⟨calls, s, hlocate, hreach, hstops⟩
    · exact hlocate
    · cases hstops with
      | spent => exact absurd rfl (h.open.isOwn_of_apply hbudget hfault).1
      | failed hturn =>
        obtain ⟨turn, hok⟩ := (hrun _ _ hlocate hreach).2 _ rfl
        simp only at hok
        rw [hturn] at hok
        cases hok
  refine ⟨⟨?_, ?_⟩, fun fault => ⟨hfault fault, apply_of_locate_error⟩,
    fun fault => Target.eq_unclosed_of_locate, hrun⟩
  · rintro ⟨⟨u, report⟩, happly⟩
    exact exists_locate_of_apply happly
  · rintro ⟨calls, hlocate⟩
    cases happly : filler.apply budget t with
    | ok result => exact ⟨result, rfl⟩
    | error fault =>
      have hlost := hfault fault happly
      rw [hlocate] at hlost
      cases hlost

theorem apply_fails_iff_locate_sample :
    let filler : Filler :=
      ⟨⟨['P'], .round⟩, [⟨['b'], ['a'], "P(a: 1,)".toList⟩, ⟨['c'], ['b'], "P('[')".toList⟩], .none⟩
    let t := "P(a: P(a: 0,),)".toList
    filler.Balanced ∧ filler.rules.length < 3 ∧
    ((∃ result, filler.apply 3 t = .ok result) ↔ ∃ calls, filler.target.locate t = .ok calls) ∧
    (∀ fault, filler.apply 3 t = .error fault ↔ filler.target.locate t = .error fault) ∧
    (∀ fault, filler.target.locate t = .error fault →
      ∃ offset, fault = .unclosed filler.target.construct offset) ∧
    ∀ calls s, filler.target.locate t = .ok calls →
      filler.Run 3 ⟨calls.reverse, [], 3, ⟨t, [], []⟩⟩ s →
      (∀ call ∈ s.calls, ∃ now, filler.target.remeasure s.progress.text call = .ok now) ∧
        ∀ call ∈ s.calls.head?, ∃ turn, filler.turn call s.out s.progress = .ok turn := by
  intro filler t
  have hbalanced : filler.Balanced := by
    refine ⟨by decide +kernel, Brackets.standOut_round, fun rule hrule => ?_⟩
    simp only [filler, List.mem_cons, List.not_mem_nil, or_false] at hrule
    rcases hrule with rfl | rfl <;> rfl
  have hbudget : filler.rules.length < 3 := by decide
  exact ⟨hbalanced, hbudget, apply_fails_iff_locate hbalanced hbudget t⟩

end Filler

end ArgFill
